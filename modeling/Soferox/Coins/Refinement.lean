import Soferox.Coins.Coherent

/-!
# A stack of caches is a stack of plain maps

The abstract model has one plain map per view of the stack. `AddCoin` and `SpendCoin` on a cache change its map and
the maps of the caches above it, `Flush` copies a map to the one below, reading and `Uncache` do nothing.

* `CoinsOp`, `StackOp` — the operations of a cache, and of a stack of caches over a database;
* `CoinsOp.Allowed` — what the callers keep to;
* `specAt`, `specStep` — the operations on plain maps;
* `applyAt_refines`, `step_refines` — one operation does to the coins shown what the abstract one does;
* `coins_refinement` — **so does every sequence of operations, and it never throws `FRESH flag misapplied`**;
* `runs_spendsTruly_iff` — **after any sequence of operations `SpendCoin` is true to its documentation where the cache has
  no spent entry**.
-/

namespace Soferox

open CCoinsView Function CCoinsViewCache

/-- An ordinary map from outpoints to unspent coins. -/
abbrev UtxoMap := COutPoint → Option Coin

/-! ## Operations -/

inductive CoinsOp where
  | addCoin (outpoint : COutPoint) (coin : Coin) (possible_overwrite : Bool)
  | spendCoin (outpoint : COutPoint)
  | getCoin (outpoint : COutPoint)
  | haveCoin (outpoint : COutPoint)
  | accessCoin (outpoint : COutPoint)
  | uncache (outpoint : COutPoint)
  | flush
  | setBestBlock (hashBlock : Uint256)
  deriving DecidableEq, Repr

namespace CoinsOp

/-- The state after an operation on a cache. -/
def apply (v : CCoinsViewCache) : CoinsOp → Except CoinsError CCoinsViewCache
  | .addCoin outpoint coin possible_overwrite => v.addCoin outpoint coin possible_overwrite
  | .spendCoin outpoint => .ok (v.spendCoin outpoint).2
  | .getCoin outpoint => .ok (v.fetchCoin outpoint).2
  | .haveCoin outpoint => .ok (v.haveCoin outpoint).2
  | .accessCoin outpoint => .ok (v.accessCoin outpoint).2
  | .uncache outpoint => .ok (v.uncache outpoint)
  | .flush => v.flush
  | .setBestBlock hashBlock => .ok (v.setBestBlock hashBlock)

/-- The outpoint whose coin an operation changes. -/
def writes : CoinsOp → Option COutPoint
  | .addCoin outpoint _ _ => some outpoint
  | .spendCoin outpoint => some outpoint
  | _ => none

/-- What the callers keep to: the assertions of the source, and that no coin is added over one that is unspent in the
view below. -/
def Allowed (v : CCoinsViewCache) : CoinsOp → Prop
  | .addCoin outpoint coin possible_overwrite =>
    coin.isSpent = false ∧ v.AddAllowed outpoint possible_overwrite
  | .flush => ∀ d, v.base = .db d → d.writable v.layer.hashBlock
  | _ => True

/-- The effect of an operation on the map of its cache. -/
def onMap (m : UtxoMap) : CoinsOp → UtxoMap
  | .addCoin outpoint coin _ =>
    if coin.out.scriptPubKey.isUnspendable then m else Function.update m outpoint (some coin)
  | .spendCoin outpoint => Function.update m outpoint none
  | _ => m

/-- Adding a coin where there is one, when the caller ruled that out. -/
def overwrites (m : UtxoMap) : CoinsOp → Bool
  | .addCoin outpoint coin possible_overwrite =>
    !possible_overwrite && !coin.out.scriptPubKey.isUnspendable && (m outpoint).isSome
  | _ => false

end CoinsOp

open CoinsOp

/-- An operation on the cache `k` steps below the top. -/
def applyAt : ℕ → CoinsOp → CCoinsView → Except CoinsError CCoinsView
  | _, _, .db d => .ok (.db d)
  | 0, op, .cache c base => (op.apply ⟨c, base⟩).map CCoinsViewCache.view
  | k + 1, op, .cache c base => (applyAt k op base).map (CCoinsView.cache c)

/-- An operation `k` steps below the top is allowed by the cache there, and no cache above holds an entry for the
outpoint it writes. -/
def AllowedAt : ℕ → CoinsOp → CCoinsView → Prop
  | _, _, .db _ => False
  | 0, op, .cache c base => op.Allowed ⟨c, base⟩
  | k + 1, op, .cache c base => AllowedAt k op base ∧ ∀ o, op.writes = some o → c.cacheCoins.lookup o = none

/-- The operation on plain maps, top first. -/
def specAt : ℕ → CoinsOp → List UtxoMap → Except CoinsError (List UtxoMap)
  | _, _, [] => .ok []
  | 0, op, m :: ms =>
    if op.overwrites m then .error .addOverwrite
    else if op = .flush then .ok (m :: m :: ms.tail)
    else .ok (op.onMap m :: ms)
  | k + 1, op, m :: ms => (specAt k op ms).map (op.onMap m :: ·)

/-! ## One operation -/

lemma CCoinsView.layers_eq (v : CCoinsView) : v.layers = v.unspent :: v.layers.tail := by
  cases v <;> rfl

variable (v : CCoinsViewCache)

lemma CCoinsViewCache.layers_eq : v.view.layers = v.unspent :: v.base.layers := rfl

lemma getCoin_layers (v : CCoinsView) (o : COutPoint) : (v.getCoin o).2.layers = v.layers := by
  induction v with
  | db d => rfl
  | cache c base ih =>
    have hun := (getCoin_spec (.cache c base) o).2
    unfold CCoinsView.getCoin at hun ⊢
    cases hl : c.cacheCoins.lookup o with
    | some e => rfl
    | none =>
      rw [hl] at hun
      rcases hg : base.getCoin o with ⟨_ | tmp, base'⟩
      · rw [hg] at hun ih
        exact congrArg₂ List.cons hun ih
      · rw [hg] at hun ih
        exact congrArg₂ List.cons hun ih

lemma fetchCoin_base_layers (o : COutPoint) : (v.fetchCoin o).2.base.layers = v.base.layers := by
  have h := getCoin_layers v.view o
  rw [getCoin_cache] at h
  exact (List.cons.inj h).2

section

variable {v v' : CCoinsViewCache} {o : COutPoint} {possible_overwrite : Bool} {coin : Coin}

/-- What has to be shown of an operation that succeeds. -/
def Refines (v v' : CCoinsViewCache) (m : UtxoMap) : Prop :=
  v'.unspent = m ∧ v'.base.layers = v.base.layers ∧ v'.Coherent

section

variable (hv : v.Coherent)
include hv

lemma fetchCoin_refines (h : v' = (v.fetchCoin o).2) : Refines v v' v.unspent := by
  subst h
  exact ⟨(v.fetchCoin_unspent o).1, fetchCoin_base_layers v o, v.fetchCoin_coherent hv o⟩

lemma spendCoin_refines (o : COutPoint) : Refines v (v.spendCoin o).2 (update v.unspent o none) := by
  refine ⟨v.spendCoin_unspent hv o, ?_, v.spendCoin_coherent hv o⟩
  rw [v.spendCoin_base_eq, fetchCoin_base_layers]

lemma addCoin_refines (ha : v.AddAllowed o possible_overwrite) (h : v.addCoin o coin possible_overwrite = .ok v') :
    Refines v v' ((addCoin o coin possible_overwrite).onMap v.unspent) := by
  refine ⟨v.addCoin_unspent h, ?_, v.addCoin_coherent h hv ha⟩
  rw [v.addCoin_base h]

lemma uncache_refines (o : COutPoint) : Refines v (v.uncache o) v.unspent := by
  obtain ⟨hun, hc⟩ := v.uncache_spec hv o
  refine ⟨hun, ?_, hc⟩
  unfold CCoinsViewCache.uncache
  cases v.layer.cacheCoins.lookup o with
  | none => rfl
  | some e =>
    dsimp only
    split <;> rfl

end

lemma addCoin_overwrites (h : (addCoin o coin possible_overwrite).Allowed v) :
    match v.addCoin o coin possible_overwrite with
    | .ok _ => (addCoin o coin possible_overwrite).overwrites v.unspent = false
    | .error err => err = .addOverwrite ∧ (addCoin o coin possible_overwrite).overwrites v.unspent = true := by
  obtain ⟨hs, ha⟩ := h
  cases hadd : v.addCoin o coin possible_overwrite with
  | error err =>
    obtain ⟨herr, hp, hu, hsome⟩ := v.addCoin_error hs hadd
    exact ⟨herr, by simp only [overwrites, hp, hu, hsome]; rfl⟩
  | ok v' =>
    show (!possible_overwrite && !coin.out.scriptPubKey.isUnspendable && (v.unspent o).isSome) = false
    cases possible_overwrite with
    | true => rfl
    | false =>
      cases hu : coin.out.scriptPubKey.isUnspendable with
      | true => rfl
      | false =>
        rw [v.addCoin_isSome ha hu hadd]
        rfl

end

variable {op : CoinsOp}

lemma apply_refines {v : CCoinsViewCache} (hv : v.Coherent) (ha : op.Allowed v) :
    ((op.apply v).map fun v' => v'.view.layers) = specAt 0 op v.view.layers ∧
      ∀ v', op.apply v = .ok v' → v'.Coherent := by
  -- every operation but `flush` that succeeds acts on the top map only
  have key : ∀ v', op ≠ .flush → op.overwrites v.unspent = false → op.apply v = .ok v' →
      Refines v v' (op.onMap v.unspent) →
      ((op.apply v).map fun v' => v'.view.layers) = specAt 0 op v.view.layers ∧
        ∀ v', op.apply v = .ok v' → v'.Coherent := by
    intro v' hop hover happ ⟨hun, hb, hc⟩
    rw [happ, CCoinsViewCache.layers_eq, specAt, hover, if_neg (by decide), if_neg hop]
    refine ⟨?_, fun v'' h => by cases h; exact hc⟩
    rw [← hun, ← hb]
    rfl
  cases op with
  | addCoin o coin possible_overwrite =>
    have hover := addCoin_overwrites ha
    cases hadd : v.addCoin o coin possible_overwrite with
    | error err =>
      rw [hadd] at hover
      rw [CCoinsViewCache.layers_eq, specAt, hover.2, if_pos rfl, apply, hadd, hover.1]
      exact ⟨rfl, fun v' h => by cases h⟩
    | ok v' =>
      rw [hadd] at hover
      exact key v' (by simp) hover hadd (addCoin_refines hv ha.2 hadd)
  | spendCoin o => exact key _ (by simp) rfl rfl (spendCoin_refines hv o)
  | getCoin o => exact key _ (by simp) rfl rfl (fetchCoin_refines hv rfl)
  | haveCoin o => exact key _ (by simp) rfl rfl (fetchCoin_refines hv (v.haveCoin_spec o).2)
  | accessCoin o => exact key _ (by simp) rfl rfl (fetchCoin_refines hv (v.accessCoin_spec o).2)
  | uncache o => exact key _ (by simp) rfl rfl (uncache_refines hv o)
  | setBestBlock h => exact key _ (by simp) rfl rfl ⟨rfl, rfl, hv⟩
  | flush =>
    obtain ⟨v', hf, hun, hb, hc⟩ := flush_spec hv ha
    refine ⟨?_, fun v'' h => ?_⟩
    · simp only [apply, hf, Except.map, CCoinsViewCache.layers_eq, hun, hb]
      rfl
    · simp only [apply, hf] at h
      cases h
      exact hc

variable {base base' : CCoinsView} {c : CacheLayer} {ms : List UtxoMap} {k : ℕ} {err : CoinsError} {x : Option Coin}
  {v : CCoinsView} {o : COutPoint}

section

variable (hl : c.cacheCoins.lookup o = none) (hb : base'.unspent = update base.unspent o x)
include hl hb

lemma unspent_update_base : (CCoinsView.cache c base').unspent = update (CCoinsView.cache c base).unspent o x := by
  funext o'
  by_cases ho : o' = o
  · subst ho
    rw [update_self, unspent_of_lookup_none hl, hb, update_self]
  · rw [update_of_ne ho]
    exact unspent_congr rfl (by rw [hb, update_of_ne ho])

lemma CacheLayer.Coherent.update_base (hc : c.Coherent base) : c.Coherent base' := by
  intro o' e he
  have ho : o' ≠ o := fun ho => by rw [ho, hl] at he; cases he
  rw [hb, update_of_ne ho]
  exact hc o' e he

end

/-- The map of a cache changes as the map it sits on, when the operation writes no outpoint it holds. -/
theorem onMap_through (hc : c.Coherent base)
    (hw : ∀ o, op.writes = some o → c.cacheCoins.lookup o = none) (hb : base'.unspent = op.onMap base.unspent) :
    (CCoinsView.cache c base').unspent = op.onMap (CCoinsView.cache c base).unspent ∧ c.Coherent base' := by
  have hsame : base'.unspent = base.unspent →
      (CCoinsView.cache c base').unspent = (CCoinsView.cache c base).unspent ∧ c.Coherent base' := fun h =>
    ⟨funext fun o => unspent_congr rfl (congrFun h o), hc.congr h⟩
  cases op with
  | addCoin o coin possible_overwrite =>
    simp only [onMap] at hb ⊢
    split_ifs with hu
    · rw [if_pos hu] at hb
      exact hsame hb
    · rw [if_neg hu] at hb
      exact ⟨unspent_update_base (hw o rfl) hb, hc.update_base (hw o rfl) hb⟩
  | spendCoin o => exact ⟨unspent_update_base (hw o rfl) hb, hc.update_base (hw o rfl) hb⟩
  | getCoin | haveCoin | accessCoin | uncache | flush | setBestBlock => exact hsame hb

lemma specAt_head {m : UtxoMap} {ms' : List UtxoMap} (h : specAt k op (m :: ms) = .ok ms') :
    ms'.head? = some (op.onMap m) := by
  cases k with
  | zero =>
    rw [specAt] at h
    split at h
    · cases h
    · split at h
      · rename_i hop
        cases h
        rw [hop]
        rfl
      · cases h
        rfl
  | succ k =>
    rw [specAt] at h
    cases hs : specAt k op ms with
    | error err => rw [hs] at h; cases h
    | ok ms'' => rw [hs] at h; cases h; rfl

/-- **An allowed operation at any depth does to the maps what it says, and keeps the flags' promises.** -/
theorem applyAt_refines (hv : v.Coherent) (ha : AllowedAt k op v) :
    (applyAt k op v).map layers = specAt k op v.layers ∧ ∀ v', applyAt k op v = .ok v' → v'.Coherent := by
  induction k generalizing v with
  | zero =>
    cases v with
    | db d => exact ha.elim
    | cache c base =>
      obtain ⟨hmap, hc⟩ := apply_refines (v := ⟨c, base⟩) hv ha
      refine ⟨?_, fun v' h => ?_⟩
      · refine Eq.trans ?_ hmap
        rw [applyAt]
        cases op.apply ⟨c, base⟩ <;> rfl
      · rw [applyAt] at h
        cases happ : op.apply ⟨c, base⟩ with
        | error err => rw [happ] at h; cases h
        | ok v₁ =>
          rw [happ] at h
          cases h
          exact hc v₁ happ
  | succ k ih =>
    cases v with
    | db d => exact ha.elim
    | cache c base =>
      obtain ⟨ha, hw⟩ := ha
      obtain ⟨hmap, hc⟩ := ih hv.2 ha
      rw [applyAt]
      cases happ : applyAt k op base with
      | error err =>
        rw [happ] at hmap
        refine ⟨?_, fun v' h => by cases h⟩
        rw [layers, specAt, ← hmap]
        rfl
      | ok base' =>
        rw [happ] at hmap
        have hhead : base'.unspent = op.onMap base.unspent := by
          rw [CCoinsView.layers_eq base] at hmap
          have hhead := specAt_head hmap.symm
          rw [CCoinsView.layers_eq base'] at hhead
          exact Option.some.inj hhead
        obtain ⟨hun, hcoh⟩ := onMap_through hv.1 hw hhead
        refine ⟨?_, fun v' h => by cases h; exact ⟨hcoh, hc base' happ⟩⟩
        rw [layers, specAt, ← hmap, ← hun]
        rfl

/-! ## Sequences of operations -/

/-- An operation on a stack: one of a cache, a new cache on top, or the top cache thrown away. -/
inductive StackOp where
  | onCache (k : ℕ) (op : CoinsOp)
  | push
  | pop
  deriving DecidableEq, Repr

def StackOp.step (v : CCoinsView) : StackOp → Except CoinsError CCoinsView
  | .onCache k op => applyAt k op v
  | .push => .ok (.cache ⟨0, ∅, 0⟩ v)
  | .pop =>
    match v with
    | .db d => .ok (.db d)
    | .cache _ base => .ok base

def StackOp.Allowed (v : CCoinsView) : StackOp → Prop
  | .onCache k op => AllowedAt k op v
  | .push => True
  | .pop => ∃ c base, v = .cache c base

/-- The operation on plain maps. -/
def StackOp.spec (ms : List UtxoMap) : StackOp → Except CoinsError (List UtxoMap)
  | .onCache k op => specAt k op ms
  | .push => .ok (ms.head?.toList ++ ms)
  | .pop => .ok ms.tail

/-- A sequence of operations; an exception ends it. -/
def runOps (v : CCoinsView) (ops : List StackOp) : Except CoinsError CCoinsView := ops.foldlM StackOp.step v

/-- A sequence of operations on plain maps. -/
def runSpec (ms : List UtxoMap) (ops : List StackOp) : Except CoinsError (List UtxoMap) := ops.foldlM StackOp.spec ms

/-- Every operation of a sequence is allowed in the stack it finds. -/
def AllowedRun : CCoinsView → List StackOp → Prop
  | _, [] => True
  | v, op :: ops => op.Allowed v ∧ ∀ v', op.step v = .ok v' → AllowedRun v' ops

lemma step_refines (hv : v.Coherent) {op : StackOp} (ha : op.Allowed v) :
    (op.step v).map layers = op.spec v.layers ∧ ∀ v', op.step v = .ok v' → v'.Coherent := by
  cases op with
  | onCache k op => exact applyAt_refines hv ha
  | push =>
    refine ⟨?_, fun v' h => ?_⟩
    · rw [CCoinsView.layers_eq v]
      exact congrArg (fun l => Except.ok (v.unspent :: l)) (CCoinsView.layers_eq v)
    · cases h
      exact ⟨fun o e he => (by cases he), hv⟩
  | pop =>
    obtain ⟨c, base, rfl⟩ := ha
    refine ⟨rfl, fun v' h => ?_⟩
    cases h
    exact hv.2

lemma specAt_error (h : specAt k op ms = .error err) : err = .addOverwrite := by
  induction k generalizing ms with
  | zero =>
    cases ms with
    | nil => cases h
    | cons m ms =>
      rw [specAt] at h
      split at h
      · exact (Except.error.inj h).symm
      · split at h <;> cases h
  | succ k ih =>
    cases ms with
    | nil => cases h
    | cons m ms =>
      rw [specAt] at h
      cases hs : specAt k op ms with
      | error err' =>
        rw [hs] at h
        cases h
        exact ih hs
      | ok ms' => rw [hs] at h; cases h

lemma runSpec_error {ops : List StackOp} (h : runSpec ms ops = .error err) : err = .addOverwrite := by
  induction ops generalizing ms with
  | nil => cases h
  | cons op ops ih =>
    rw [runSpec, List.foldlM_cons] at h
    cases hs : op.spec ms with
    | ok ms' =>
      rw [hs] at h
      exact ih h
    | error err' =>
      rw [hs] at h
      cases h
      cases op with
      | onCache k op => exact specAt_error hs
      | push => cases hs
      | pop => cases hs

/-- **A stack of caches refines a stack of plain maps**: from a coherent stack an allowed sequence of operations fails
exactly when it does on the maps, with the same exception, or ends in a coherent stack that shows them. -/
theorem coins_refinement (v : CCoinsView) (hv : v.Coherent) (ops : List StackOp) (ha : AllowedRun v ops) :
    (runOps v ops).map CCoinsView.layers = runSpec v.layers ops ∧ runOps v ops ≠ .error .freshMisapplied ∧
      ∀ v', runOps v ops = .ok v' → v'.Coherent := by
  have hmap : (runOps v ops).map layers = runSpec v.layers ops ∧
      ∀ v', runOps v ops = .ok v' → v'.Coherent := by
    induction ops generalizing v with
    | nil => exact ⟨rfl, fun v' h => by cases h; exact hv⟩
    | cons op ops ih =>
      obtain ⟨hop, ha⟩ := ha
      obtain ⟨hstep, hc⟩ := step_refines hv hop
      rw [runOps, runSpec, List.foldlM_cons, List.foldlM_cons, ← hstep]
      cases hs : op.step v with
      | error err => exact ⟨rfl, fun v' h => by cases h⟩
      | ok v' => exact ih v' (hc v' hs) (ha v' hs)
  refine ⟨hmap.1, fun herr => ?_, hmap.2⟩
  rw [herr] at hmap
  have := runSpec_error hmap.1.symm
  cases this

/-- A coin added in one cache, spent in a second one above it and flushed down. -/
theorem coins_refinement_add_spend_flush :
    let o : COutPoint := ⟨7, 0⟩
    let ops : List StackOp := [.push, .onCache 0 (.addCoin o ⟨⟨5, []⟩, false, 1⟩ false), .push,
      .onCache 0 (.spendCoin o), .onCache 0 .flush]
    let v : CCoinsView := .db ⟨∅, 1, []⟩
    (runOps v ops).map CCoinsView.layers = runSpec v.layers ops ∧ runOps v ops ≠ .error .freshMisapplied ∧
      ∀ v', runOps v ops = .ok v' → v'.Coherent := by
  refine coins_refinement (.db ⟨∅, 1, []⟩) trivial _ ⟨trivial, ?_⟩
  rintro _ ⟨⟩
  refine ⟨⟨rfl, fun _ => .inr rfl⟩, ?_⟩
  rintro _ ⟨⟩
  refine ⟨trivial, ?_⟩
  rintro _ ⟨⟩
  refine ⟨trivial, ?_⟩
  rintro _ ⟨⟩
  exact ⟨fun d h => (by cases h), fun _ _ => trivial⟩

/-- A coin that two caches above each other both add: neither is shown below its cache, and the flush throws. -/
theorem runOps_freshMisapplied :
    let o : COutPoint := ⟨7, 0⟩
    let add : CoinsOp := .addCoin o ⟨⟨5, []⟩, false, 1⟩ false
    ∃ v v', runOps (.db ⟨∅, 1, []⟩) [.push, .push] = .ok v ∧ (∀ m ∈ v.layers.drop 1, m o = none) ∧
      runOps v [.onCache 0 add] = .ok v' ∧ (∀ m ∈ v'.layers.drop 2, m o = none) ∧
      runOps v' [.onCache 1 add, .onCache 0 .flush] = .error .freshMisapplied := by
  refine ⟨_, _, rfl, ?_, rfl, ?_, rfl⟩
  · intro m hm
    simp only [layers, List.drop_succ_cons, List.drop_zero, List.mem_cons, List.not_mem_nil, or_false] at hm
    rcases hm with rfl | rfl <;> rfl
  · intro m hm
    simp only [CCoinsViewCache.view, layers, List.drop_succ_cons, List.drop_zero, List.mem_singleton] at hm
    rw [hm]
    rfl

/-! ## What `SpendCoin` reports -/

/-- The database at the bottom keeps to the contract of `GetCoin`: its coins are unspent. -/
def CCoinsView.HoldsUnspent : CCoinsView → Prop
  | .db d => ∀ o coin, d.coins.lookup o = some coin → coin.isSpent = false
  | .cache _ base => base.HoldsUnspent

namespace CCoinsView.HoldsUnspent

lemma getCoin (h : v.HoldsUnspent) (o : COutPoint) : (v.getCoin o).2.HoldsUnspent := by
  induction v with
  | db d => exact h
  | cache c base ih =>
    unfold CCoinsView.getCoin
    cases c.cacheCoins.lookup o with
    | some e => exact h
    | none =>
      have hb := ih h
      rcases hg : base.getCoin o with ⟨_ | tmp, base'⟩
      · rw [hg] at hb
        exact hb
      · rw [hg] at hb
        exact hb

lemma fetchCoin {v : CCoinsViewCache} (h : v.base.HoldsUnspent) (o : COutPoint) :
    (v.fetchCoin o).2.base.HoldsUnspent := by
  have hv := getCoin (v := v.view) h o
  rw [getCoin_cache] at hv
  exact hv

lemma writeEntry {d : CCoinsViewDB} (h : (CCoinsView.db d).HoldsUnspent)
    (it : Sigma fun _ : COutPoint => CCoinsCacheEntry) : (CCoinsView.db (d.writeEntry it)).HoldsUnspent := by
  intro o coin hcoin
  obtain ⟨hat, hne⟩ := db_writeEntry_cells d it
  by_cases ho : o = it.1
  · subst ho
    rw [hat] at hcoin
    split at hcoin
    · exact (Coin.unlessSpent_eq_some.1 hcoin).1 ▸ (Coin.unlessSpent_eq_some.1 hcoin).2
    · exact h _ coin hcoin
  · rw [hne o ho] at hcoin
    exact h o coin hcoin

lemma batchWrite {mapCoins : CCoinsMap} {hashBlock : Uint256} (h : v.HoldsUnspent) {v' : CCoinsView}
    (hw : v.batchWrite mapCoins hashBlock = .ok v') : v'.HoldsUnspent := by
  cases v with
  | db d =>
    rw [CCoinsView.batchWrite] at hw
    split at hw
    · cases hw
      have hfold : ∀ (l : List (Sigma fun _ : COutPoint => CCoinsCacheEntry)) (d : CCoinsViewDB),
          (CCoinsView.db d).HoldsUnspent → (CCoinsView.db (l.foldl CCoinsViewDB.writeEntry d)).HoldsUnspent := by
        intro l
        induction l with
        | nil => exact fun _ hd => hd
        | cons it l ih => exact fun d hd => ih _ (hd.writeEntry it)
      exact hfold _ (d.beginBatch hashBlock) h
    · cases hw
  | cache c base =>
    rw [CCoinsView.batchWrite] at hw
    obtain ⟨c', -, hw⟩ := Lib.bind_eq_ok.1 hw
    cases hw
    exact h

lemma apply {v v' : CCoinsViewCache} (h : v.base.HoldsUnspent) (ha : op.apply v = .ok v') : v'.base.HoldsUnspent := by
  cases op with
  | addCoin o coin possible_overwrite =>
    rw [addCoin_base ha]
    exact h
  | spendCoin o =>
    cases ha
    rw [spendCoin_base_eq]
    exact h.fetchCoin o
  | getCoin o =>
    cases ha
    exact h.fetchCoin o
  | haveCoin o =>
    cases ha
    rw [(v.haveCoin_spec o).2]
    exact h.fetchCoin o
  | accessCoin o =>
    cases ha
    rw [(v.accessCoin_spec o).2]
    exact h.fetchCoin o
  | uncache o =>
    cases ha
    rw [CCoinsViewCache.uncache]
    split
    · exact h
    · split <;> exact h
  | setBestBlock hashBlock =>
    cases ha
    exact h
  | flush =>
    obtain ⟨base, hw, hv⟩ := Lib.bind_eq_ok.1 ha
    cases hv
    exact h.batchWrite hw

lemma applyAt {v' : CCoinsView} (h : v.HoldsUnspent) (ha : applyAt k op v = .ok v') : v'.HoldsUnspent := by
  induction k generalizing v v' with
  | zero =>
    cases v with
    | db d => cases ha; exact h
    | cache c base =>
      rw [Soferox.applyAt] at ha
      cases hv₁ : op.apply ⟨c, base⟩ with
      | error err => rw [hv₁] at ha; cases ha
      | ok v₁ =>
        rw [hv₁] at ha
        cases ha
        exact apply (v := ⟨c, base⟩) h hv₁
  | succ k ih =>
    cases v with
    | db d => cases ha; exact h
    | cache c base =>
      rw [Soferox.applyAt] at ha
      cases hb : Soferox.applyAt k op base with
      | error err => rw [hb] at ha; cases ha
      | ok base' =>
        rw [hb] at ha
        cases ha
        have hbase : base.HoldsUnspent := h
        have hbase' : base'.HoldsUnspent := ih hbase hb
        exact hbase'

lemma runOps {v' : CCoinsView} {ops : List StackOp} (h : v.HoldsUnspent) (hrun : runOps v ops = .ok v') :
    v'.HoldsUnspent := by
  induction ops generalizing v with
  | nil => cases hrun; exact h
  | cons op ops ih =>
    obtain ⟨v₁, hstep, hrun⟩ := Lib.bind_eq_ok.1 hrun
    refine ih ?_ hrun
    cases op with
    | onCache k op => exact h.applyAt hstep
    | push => cases hstep; exact h
    | pop => cases v <;> cases hstep <;> exact h

end CCoinsView.HoldsUnspent

/-- What `FetchCoin` gets from the view below is unspent. -/
lemma fetchCoin_isSpent {v : CCoinsViewCache} (hb : v.base.HoldsUnspent) (hl : v.layer.cacheCoins.lookup o = none)
    {e : CCoinsCacheEntry} (he : (v.fetchCoin o).1 = some e) : e.coin.isSpent = false := by
  obtain ⟨c, base⟩ := v
  rw [fetchCoin, hl] at he
  rcases hg : base.getCoin o with ⟨_ | tmp, base'⟩
  · rw [hg] at he
    cases he
  · rw [hg] at he
    cases he
    cases base with
    | db d => exact hb o tmp (congrArg Prod.fst hg)
    | cache p grand =>
      -- a cache hands out unspent coins only
      have hfst := congrArg Prod.fst hg
      rw [CCoinsView.getCoin] at hfst
      split at hfst
      · exact (Coin.unlessSpent_eq_some.1 hfst).1 ▸ (Coin.unlessSpent_eq_some.1 hfst).2
      · split at hfst
        · cases hfst
        · exact (Coin.unlessSpent_eq_some.1 hfst).1 ▸ (Coin.unlessSpent_eq_some.1 hfst).2

/-- **After any sequence of operations `SpendCoin` is true to its documentation exactly where its cache has no spent
entry**: one that is spent makes it return true again. -/
theorem runs_spendsTruly_iff (v : CCoinsView) (hv : v.HoldsUnspent) (ops : List StackOp) (c : CacheLayer)
    (base : CCoinsView) (hrun : runOps v ops = .ok (.cache c base)) (o : COutPoint) :
    SpendsTruly ⟨c, base⟩ o ↔ ∀ e, c.cacheCoins.lookup o = some e → e.coin.isSpent = false := by
  have hb : (CCoinsView.cache c base).HoldsUnspent := hv.runOps hrun
  rw [spendsTruly_iff]
  cases hl : c.cacheCoins.lookup o with
  | none =>
    refine ⟨fun _ e he => (by cases he), fun _ e he => ?_⟩
    exact fetchCoin_isSpent (v := ⟨c, base⟩) hb hl he
  | some e =>
    have he : (CCoinsViewCache.fetchCoin ⟨c, base⟩ o).1 = some e := by
      rw [fetchCoin, hl]
    rw [he]

/-- A child spends a coin of the database and adds one; after its flush the parent spends the new one truly, and the
old one again. -/
theorem runs_spendsTruly_flush :
    let coin : Coin := ⟨⟨5, []⟩, false, 1⟩
    let v : CCoinsView := .db ⟨AList.insert ⟨7, 0⟩ coin ∅, 1, []⟩
    let ops : List StackOp := [.push, .push, .onCache 0 (.spendCoin ⟨7, 0⟩), .onCache 0 (.addCoin ⟨8, 0⟩ coin false),
      .onCache 0 .flush, .pop]
    ∃ c, runOps v ops = .ok (.cache c v) ∧ SpendsTruly ⟨c, v⟩ ⟨8, 0⟩ ∧ ¬ SpendsTruly ⟨c, v⟩ ⟨7, 0⟩ := by
  intro coin v ops
  let c : CacheLayer := ⟨0, AList.insert ⟨7, 0⟩ ⟨Coin.empty, true, false⟩ (AList.insert ⟨8, 0⟩ ⟨coin, true, true⟩ ∅), 0⟩
  have hv : v.HoldsUnspent := by
    intro o coin' h
    obtain ⟨-, rfl⟩ | ⟨-, ⟨⟩⟩ := Lib.lookup_insert_eq_some.1 h
    rfl
  have hrun : runOps v ops = .ok (.cache c v) := rfl
  have hiff := runs_spendsTruly_iff v hv ops c v hrun
  refine ⟨c, hrun, (hiff ⟨8, 0⟩).2 fun e he => ?_, fun h => ?_⟩
  · cases he
    rfl
  · cases (hiff ⟨7, 0⟩).1 h _ rfl

end Soferox
