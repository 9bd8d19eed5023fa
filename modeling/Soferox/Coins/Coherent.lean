import Soferox.Coins.View
import Soferox.Lib.Keyed
import Soferox.Lib.Restrict

/-!
# The flags of cache entries

What `DIRTY` and `FRESH` promise about the view below, and what each operation does to the coins a view shows.

* `EntryCoherent` — a fresh entry has no coin below it, an entry that is not dirty shows the coin below it;
* `CCoinsView.Coherent` — every entry of every cache of the stack is coherent;
* `getCoin_spec`, `fetchCoin_spec` — reading shows the right coin, changes no coin and keeps the promise;
* `addCoin_spec`, `spendCoin_spec`, `uncache_spec`, `flush_spec` — the same for writing.
-/

namespace Soferox

open Lib Function CCoinsView CacheLayer AList Option Coin Bool CCoinsViewDB

/-! ## Coins shown by a view -/

variable {coin : Coin}

namespace Coin

@[simp] lemma empty_isSpent : empty.isSpent = true := rfl

lemma unlessSpent_of_isSpent (h : coin.isSpent = true) : coin.unlessSpent = none := by
  rw [unlessSpent, if_pos h]

lemma unlessSpent_of_not_isSpent (h : coin.isSpent = false) : coin.unlessSpent = some coin := by
  rw [unlessSpent, if_neg (by rw [h]; decide)]

lemma unlessSpent_eq_none : coin.unlessSpent = none ↔ coin.isSpent = true := by
  unfold unlessSpent
  split <;> simp_all

lemma unlessSpent_eq_some {coin coin' : Coin} : coin.unlessSpent = some coin' ↔ coin = coin' ∧ coin.isSpent = false := by
  unfold unlessSpent
  split <;> simp_all

@[simp] lemma unlessSpent_bind (coin : Coin) : coin.unlessSpent.bind unlessSpent = coin.unlessSpent := by
  cases h : coin.isSpent with
  | true => rw [unlessSpent_of_isSpent h]; rfl
  | false => rw [unlessSpent_of_not_isSpent h, bind_some, unlessSpent_of_not_isSpent h]

end Coin

section

variable {c : CacheLayer} {base : CCoinsView} {o : COutPoint} {e : CCoinsCacheEntry}

lemma unspent_of_lookup_some (h : c.cacheCoins.lookup o = some e) :
    (CCoinsView.cache c base).unspent o = e.coin.unlessSpent := by
  simp [CCoinsView.unspent, h]

lemma unspent_of_lookup_none (h : c.cacheCoins.lookup o = none) :
    (CCoinsView.cache c base).unspent o = base.unspent o := by
  simp [CCoinsView.unspent, h]

/-- Two caches with the same entry at an outpoint show the same there, if what is below them does. -/
theorem unspent_congr {c' : CacheLayer} {base' : CCoinsView} (h : c'.cacheCoins.lookup o = c.cacheCoins.lookup o)
    (hb : base'.unspent o = base.unspent o) :
    (CCoinsView.cache c' base').unspent o = (CCoinsView.cache c base).unspent o := by
  simp [CCoinsView.unspent, h, hb]

end

/-! ## Coherence -/

/-- What the flags of an entry promise, `below` being the coin the view below shows. -/
structure EntryCoherent (below : Option Coin) (e : CCoinsCacheEntry) : Prop where
  fresh : e.fresh = true → below = none
  clean : e.dirty = false → e.coin.unlessSpent = below

/-- Every entry of a cache keeps its promise about `base`. -/
def CacheLayer.Coherent (c : CacheLayer) (base : CCoinsView) : Prop :=
  ∀ o e, c.cacheCoins.lookup o = some e → EntryCoherent (base.unspent o) e

/-- Every entry of every cache keeps its promise. -/
def CCoinsView.Coherent : CCoinsView → Prop
  | .db _ => True
  | .cache c base => c.Coherent base ∧ base.Coherent

/-- Every entry of every cache keeps its promise. -/
def CCoinsViewCache.Coherent (v : CCoinsViewCache) : Prop := v.view.Coherent

lemma CCoinsViewCache.coherent_empty (hashBlock : Uint256) (d : CCoinsViewDB) :
    CCoinsViewCache.Coherent ⟨⟨hashBlock, ∅, 0⟩, .db d⟩ := ⟨nofun, trivial⟩

variable {c : CacheLayer}

lemma CacheLayer.Coherent.congr {base base' : CCoinsView} (h : c.Coherent base)
    (hb : base'.unspent = base.unspent) : c.Coherent base' := by
  intro o e he
  rw [hb]
  exact h o e he

variable {o : COutPoint} {base : CCoinsView} {e : CCoinsCacheEntry} {child : CCoinsCacheEntry} {m : CCoinsMap}
  {tmp : Coin}

lemma CacheLayer.Coherent.insert {c c' : CacheLayer} (h : c.Coherent base)
    (hc' : c'.cacheCoins = c.cacheCoins.insert o e) (he : EntryCoherent (base.unspent o) e) : c'.Coherent base := by
  intro o' e' he'
  rcases lookup_insert_eq_some.1 (hc' ▸ he') with ⟨rfl, rfl⟩ | ⟨-, he'⟩
  · exact he
  · exact h o' e' he'

lemma CacheLayer.Coherent.erase {c c' : CacheLayer} (h : c.Coherent base)
    (hc' : c'.cacheCoins = c.cacheCoins.erase o) : c'.Coherent base := by
  intro o' e' he'
  exact h o' e' (lookup_erase_eq_some.1 (hc' ▸ he')).2

/-! ## Reading -/

lemma unspent_emplaceFetched {base base' : CCoinsView}
    (hl : c.cacheCoins.lookup o = none) (htmp : tmp.unlessSpent = base.unspent o) (hb : base'.unspent = base.unspent) :
    (CCoinsView.cache (c.emplaceFetched o tmp) base').unspent = (CCoinsView.cache c base).unspent := by
  funext o'
  by_cases ho : o' = o
  · subst ho
    have hin : (c.emplaceFetched o' tmp).cacheCoins.lookup o' = some ⟨tmp, false, tmp.isSpent⟩ := lookup_insert _
    rw [unspent_of_lookup_none hl, ← htmp, unspent_of_lookup_some hin]
  · exact unspent_congr (lookup_insert_ne ho) (congrFun hb o')

lemma coherent_emplaceFetched
    (h : c.Coherent base) (htmp : tmp.unlessSpent = base.unspent o) : (c.emplaceFetched o tmp).Coherent base := by
  refine h.insert rfl ⟨fun hf => ?_, fun _ => htmp⟩
  rw [← htmp]
  exact unlessSpent_of_isSpent hf

lemma getCoin_spec (v : CCoinsView) (o : COutPoint) :
    (v.getCoin o).1.bind Coin.unlessSpent = v.unspent o ∧ (v.getCoin o).2.unspent = v.unspent := by
  induction v with
  | db d => exact ⟨rfl, rfl⟩
  | cache c base ih =>
    obtain ⟨ih₁, ih₂⟩ := ih
    unfold getCoin
    cases hl : c.cacheCoins.lookup o with
    | some e => exact ⟨by rw [unspent_of_lookup_some hl]; exact unlessSpent_bind _, rfl⟩
    | none =>
      rcases hg : base.getCoin o with ⟨_ | tmp, base'⟩
      · rw [hg] at ih₁ ih₂
        refine ⟨by rw [unspent_of_lookup_none hl, ← ih₁], ?_⟩
        funext o'
        exact unspent_congr rfl (congrFun ih₂ o')
      · rw [hg] at ih₁ ih₂
        refine ⟨?_, unspent_emplaceFetched hl ih₁ ih₂⟩
        rw [unspent_of_lookup_none hl, ← ih₁]
        exact unlessSpent_bind _

lemma getCoin_coherent {v : CCoinsView} (h : v.Coherent) (o : COutPoint) : (v.getCoin o).2.Coherent := by
  induction v with
  | db d => trivial
  | cache c base ih =>
    obtain ⟨hc, hb⟩ := h
    unfold getCoin
    cases hl : c.cacheCoins.lookup o with
    | some e => exact ⟨hc, hb⟩
    | none =>
      obtain ⟨hg₁, hg₂⟩ := getCoin_spec base o
      have ih := ih hb
      rcases hg : base.getCoin o with ⟨_ | tmp, base'⟩
      · rw [hg] at hg₂ ih
        exact ⟨hc.congr hg₂, ih⟩
      · rw [hg] at hg₁ hg₂ ih
        exact ⟨coherent_emplaceFetched (hc.congr hg₂) (by rw [hg₂]; exact hg₁), ih⟩

namespace CCoinsViewCache

variable {v : CCoinsViewCache} {o : COutPoint} {o' : COutPoint}

variable (v o) in
lemma getCoin_cache : v.view.getCoin o =
    ((v.fetchCoin o).1.bind fun e => e.coin.unlessSpent, (v.fetchCoin o).2.view) := by
  unfold view fetchCoin
  rw [getCoin]
  cases hl : v.layer.cacheCoins.lookup o with
  | some e => rfl
  | none => rcases v.base.getCoin o with ⟨_ | tmp, base'⟩ <;> rfl

lemma fetchCoin_base {P : CCoinsView → Prop} (h : P v.base) (hget : P (v.base.getCoin o).2) : P (v.fetchCoin o).2.base := by
  unfold fetchCoin
  cases v.layer.cacheCoins.lookup o with
  | some e => exact h
  | none => rcases hg : v.base.getCoin o with ⟨_ | tmp, base'⟩ <;> (rw [hg] at hget; exact hget)

variable (v o) in
lemma fetchCoin_lookup : (v.fetchCoin o).2.layer.cacheCoins.lookup o = (v.fetchCoin o).1 := by
  unfold fetchCoin
  cases hl : v.layer.cacheCoins.lookup o with
  | some e => exact hl
  | none =>
    rcases hg : v.base.getCoin o with ⟨_ | tmp, base'⟩
    · exact hl
    · exact lookup_insert _

lemma fetchCoin_lookup_ne (v : CCoinsViewCache) {o : COutPoint} (h : o' ≠ o) :
    (v.fetchCoin o).2.layer.cacheCoins.lookup o' = v.layer.cacheCoins.lookup o' := by
  unfold fetchCoin
  cases hl : v.layer.cacheCoins.lookup o with
  | some e => rfl
  | none =>
    rcases hg : v.base.getCoin o with ⟨_ | tmp, base'⟩
    · rfl
    · exact lookup_insert_ne h

variable (v o) in
lemma fetchCoin_unspent : (v.fetchCoin o).2.unspent = v.unspent ∧ (v.fetchCoin o).2.base.unspent = v.base.unspent := by
  constructor
  · have h := (getCoin_spec v.view o).2
    rw [getCoin_cache] at h
    exact h
  · exact fetchCoin_base (P := fun base => base.unspent = v.base.unspent) rfl (getCoin_spec v.base o).2

variable (v o) in
lemma fetchCoin_coin : ((v.fetchCoin o).1.bind fun e => e.coin.unlessSpent) = v.unspent o := by
  have h := (getCoin_spec v.view o).1
  rw [getCoin_cache] at h
  rw [unspent, ← h, bind_assoc]
  simp

lemma fetchCoin_coherent (h : v.Coherent) (o : COutPoint) : (v.fetchCoin o).2.Coherent := by
  have h := getCoin_coherent h o
  rw [getCoin_cache] at h
  exact h

lemma unspent_of_fetchCoin_none (h : (v.fetchCoin o).1 = none) : v.unspent o = none := by
  rw [← fetchCoin_coin, h]
  rfl

variable (v o) in
lemma accessCoin_spec : (v.accessCoin o).1.unlessSpent = v.unspent o ∧ (v.accessCoin o).2 = (v.fetchCoin o).2 := by
  have h := fetchCoin_coin v o
  unfold accessCoin
  rcases hf : v.fetchCoin o with ⟨_ | e, v'⟩
  · rw [hf] at h
    exact ⟨h, rfl⟩
  · rw [hf] at h
    exact ⟨h, rfl⟩

variable (v o) in
lemma haveCoin_spec : (v.haveCoin o).1 = (v.unspent o).isSome ∧ (v.haveCoin o).2 = (v.fetchCoin o).2 := by
  have h := fetchCoin_coin v o
  unfold haveCoin
  rcases hf : v.fetchCoin o with ⟨_ | e, v'⟩
  · rw [hf] at h
    exact ⟨by rw [← h]; rfl, rfl⟩
  · rw [hf] at h
    refine ⟨?_, rfl⟩
    rw [← h]
    cases hs : e.coin.isSpent with
    | true => simp [hs, unlessSpent_of_isSpent hs]
    | false => simp [hs, unlessSpent_of_not_isSpent hs]

/-! ## Writing -/

/-- What the flags must not hide when `AddCoin` is called without `possible_overwrite`: a coin that is shown has
nothing below it. -/
def AddAllowed (v : CCoinsViewCache) (o : COutPoint) (possible_overwrite : Bool) : Prop :=
  possible_overwrite = false → v.unspent o = none ∨ v.base.unspent o = none

/-- The entry that `AddCoin` finds or makes. -/
def addEntry (v : CCoinsViewCache) (o : COutPoint) : CCoinsCacheEntry :=
  (v.layer.cacheCoins.lookup o).getD ⟨Coin.empty, false, false⟩

variable {possible_overwrite : Bool} {v' : CCoinsViewCache}

section

variable (h : v.addCoin o coin possible_overwrite = .ok v')
include h

lemma addCoin_ok (hu : coin.out.scriptPubKey.isUnspendable = false) :
    coin.isSpent = false ∧ (possible_overwrite = false → (v.addEntry o).coin.isSpent = true) ∧ v'.base = v.base ∧
      v'.layer.cacheCoins = v.layer.cacheCoins.insert o
        ⟨coin, true, (v.addEntry o).fresh || (!possible_overwrite && !(v.addEntry o).dirty)⟩ := by
  unfold addCoin at h
  split at h
  · cases h
  · rename_i hs
    rw [hu] at h
    simp only [false_eq_true, if_false] at h
    split at h
    · cases h
    · rename_i hover
      cases h
      refine ⟨by simpa using hs, fun hp => ?_, rfl, rfl⟩
      simpa [hp, addEntry] using hover

lemma addCoin_unspendable (hu : coin.out.scriptPubKey.isUnspendable = true) : v' = v := by
  unfold addCoin at h
  split at h
  · cases h
  · exact (Except.ok.inj h).symm

lemma addCoin_base : v'.base = v.base := by
  cases hu : coin.out.scriptPubKey.isUnspendable with
  | true => rw [addCoin_unspendable h hu]
  | false => exact (addCoin_ok h hu).2.2.1

lemma addCoin_unspent :
    v'.unspent = if coin.out.scriptPubKey.isUnspendable then v.unspent else update v.unspent o (some coin) := by
  cases hu : coin.out.scriptPubKey.isUnspendable with
  | true =>
    rw [addCoin_unspendable h hu]
    rfl
  | false =>
    obtain ⟨hs, -, hb, hm⟩ := addCoin_ok h hu
    funext o'
    simp only [false_eq_true, if_false]
    by_cases ho : o' = o
    · subst ho
      rw [update_self]
      exact (unspent_of_lookup_some (by rw [hm]; exact lookup_insert _)).trans (unlessSpent_of_not_isSpent hs)
    · rw [update_of_ne ho]
      exact unspent_congr (by rw [hm]; exact lookup_insert_ne ho) (by rw [hb])

lemma addCoin_coherent (hv : v.Coherent) (ha : v.AddAllowed o possible_overwrite) : v'.Coherent := by
  cases hu : coin.out.scriptPubKey.isUnspendable with
  | true => rwa [addCoin_unspendable h hu]
  | false =>
    obtain ⟨-, hspent, hb, hm⟩ := addCoin_ok h hu
    refine ⟨?_, by rw [hb]; exact hv.2⟩
    rw [hb]
    refine hv.1.insert hm ⟨fun hf => ?_, fun hd => by cases hd⟩
    -- fresh: it was before, or the outpoint had no dirty entry and is not overwritten
    rcases hl : v.layer.cacheCoins.lookup o with _ | e
    · have hp : possible_overwrite = false := by simpa [addEntry, hl] using hf
      rcases ha hp with h' | h'
      · rwa [unspent, view, unspent_of_lookup_none hl] at h'
      · exact h'
    · have he := hv.1 o e hl
      simp only [addEntry, hl, or_eq_true, and_eq_true, not_eq_true'] at hf hspent
      rcases hf with hf | ⟨hp, hd⟩
      · exact he.fresh hf
      · rw [← he.clean hd]
        exact unlessSpent_of_isSpent (hspent hp)

end

/-- `AddCoin` without `possible_overwrite` fails on an unspent entry of the cache, and then on a coin that is shown. -/
theorem addCoin_error {err : CoinsError} (hs : coin.isSpent = false)
    (h : v.addCoin o coin possible_overwrite = .error err) :
    err = .addOverwrite ∧ possible_overwrite = false ∧ coin.out.scriptPubKey.isUnspendable = false ∧
      (v.unspent o).isSome := by
  unfold addCoin at h
  rw [hs] at h
  simp only [false_eq_true, if_false] at h
  split at h
  · cases h
  · rename_i hu
    split at h
    · rename_i hover
      obtain ⟨hp, he⟩ := hover
      refine ⟨(Except.error.inj h).symm, by simpa using hp, by simpa using hu, ?_⟩
      rcases hl : v.layer.cacheCoins.lookup o with _ | e
      · simp [hl] at he
      · rw [hl] at he
        rw [unspent, view, unspent_of_lookup_some hl, unlessSpent_of_not_isSpent (by simpa using he)]
        rfl
    · cases h

/-- Conversely a coin that is shown, with nothing below it, makes `AddCoin` without `possible_overwrite` fail. -/
theorem addCoin_isSome (ha : v.AddAllowed o false)
    (hu : coin.out.scriptPubKey.isUnspendable = false) (h : v.addCoin o coin false = .ok v') : v.unspent o = none := by
  obtain ⟨-, hspent, -, -⟩ := addCoin_ok h hu
  rcases ha rfl with h' | h'
  · exact h'
  · rcases hl : v.layer.cacheCoins.lookup o with _ | e
    · rw [unspent, view, unspent_of_lookup_none hl, h']
    · rw [unspent, view, unspent_of_lookup_some hl]
      exact unlessSpent_of_isSpent (by simpa [addEntry, hl] using hspent rfl)

section

variable (v o)

lemma spendCoin_eq : v.spendCoin o = ((v.fetchCoin o).1.map CCoinsCacheEntry.coin,
    (v.fetchCoin o).1.elim (v.fetchCoin o).2 ((v.fetchCoin o).2.spendEntry o)) := by
  unfold spendCoin
  rcases v.fetchCoin o with ⟨_ | e, v₁⟩ <;> rfl

lemma spendCoin_base_eq : (v.spendCoin o).2.base = (v.fetchCoin o).2.base := by
  rw [spendCoin_eq]
  cases (v.fetchCoin o).1 <;> rfl

lemma spendCoin_base : (v.spendCoin o).2.base.unspent = v.base.unspent := by
  rw [spendCoin_base_eq, (fetchCoin_unspent v o).2]

end

lemma spendCoin_lookup_self (h : (v.fetchCoin o).1 = some e) : (v.spendCoin o).2.layer.cacheCoins.lookup o =
    if e.fresh then none else some { e with coin := empty, dirty := true } := by
  rw [spendCoin_eq, h]
  simp only [elim_some, spendEntry]
  split
  · exact lookup_erase _ _
  · exact lookup_insert _

variable (v o) in
/-- `SpendCoin` removes the coin shown; a fresh entry uncovers what is below it. -/
theorem spendCoin_unspent_self : (v.spendCoin o).2.unspent o =
    if (v.fetchCoin o).1.any CCoinsCacheEntry.fresh then v.base.unspent o else none := by
  cases hf : (v.fetchCoin o).1 with
  | none =>
    rw [spendCoin_eq, hf]
    exact (congrFun (fetchCoin_unspent v o).1 o).trans (unspent_of_fetchCoin_none hf)
  | some e =>
    have hlook := spendCoin_lookup_self hf
    rw [any_some, ← spendCoin_base v o]
    cases hfr : e.fresh with
    | true =>
      rw [hfr, if_pos rfl] at hlook
      exact unspent_of_lookup_none hlook
    | false =>
      rw [hfr, if_neg Bool.false_ne_true] at hlook
      exact unspent_of_lookup_some hlook

lemma spendCoin_lookup_ne (v : CCoinsViewCache) {o : COutPoint} (h : o' ≠ o) :
    (v.spendCoin o).2.layer.cacheCoins.lookup o' = v.layer.cacheCoins.lookup o' := by
  rw [spendCoin_eq, ← fetchCoin_lookup_ne v h]
  cases (v.fetchCoin o).1 with
  | none => rfl
  | some e =>
    simp only [elim_some, spendEntry]
    split
    · exact lookup_erase_ne h
    · exact lookup_insert_ne h

lemma spendCoin_unspent_ne (v : CCoinsViewCache) {o : COutPoint} (h : o' ≠ o) :
    (v.spendCoin o).2.unspent o' = v.unspent o' :=
  unspent_congr (spendCoin_lookup_ne v h) (congrFun (spendCoin_base v o) o')

lemma fetchCoin_entry (hv : v.Coherent) (h : (v.fetchCoin o).1 = some e) : EntryCoherent (v.base.unspent o) e := by
  have hc := (fetchCoin_coherent hv o).1 o e (by rw [fetchCoin_lookup, h])
  rwa [(fetchCoin_unspent v o).2] at hc

lemma spendCoin_unspent (hv : v.Coherent) (o : COutPoint) : (v.spendCoin o).2.unspent = update v.unspent o none := by
  funext o'
  by_cases ho : o' = o
  · subst ho
    rw [update_self, spendCoin_unspent_self]
    rcases hf : (v.fetchCoin o').1 with _ | e
    · rfl
    · split
      · exact (fetchCoin_entry hv hf).fresh ‹_›
      · rfl
  · rw [update_of_ne ho, spendCoin_unspent_ne v ho]

lemma spendCoin_coherent (hv : v.Coherent) (o : COutPoint) : (v.spendCoin o).2.Coherent := by
  obtain ⟨hc, hbase⟩ := fetchCoin_coherent hv o
  rw [spendCoin_eq]
  cases (v.fetchCoin o).1 with
  | none => exact ⟨hc, hbase⟩
  | some e =>
    refine ⟨?_, hbase⟩
    cases hfr : e.fresh with
    | true =>
      refine CacheLayer.Coherent.erase hc (o := o) ?_
      simp [spendEntry, hfr]
    | false =>
      refine CacheLayer.Coherent.insert hc (o := o) (e := { e with coin := empty, dirty := true }) ?_ ⟨?_, ?_⟩
      · simp [spendEntry, hfr]
      · intro hfr'
        rw [hfr] at hfr'
        cases hfr'
      · intro hd
        cases hd

variable (v o) in
lemma spendCoin_fst : (v.spendCoin o).1.bind unlessSpent = v.unspent o := by
  rw [spendCoin_eq, ← fetchCoin_coin]
  cases (v.fetchCoin o).1 <;> rfl

/-- `SpendCoin` is true to its documentation at an outpoint. -/
structure SpendsTruly (v : CCoinsViewCache) (o : COutPoint) : Prop where
  returns : (v.spendCoin o).1.isSome = (v.haveCoin o).1
  moveout : (v.haveCoin o).1 = true → (v.spendCoin o).1 = v.unspent o
  unchanged : (v.haveCoin o).1 = false →
    (v.spendCoin o).2.unspent = v.unspent ∧ (v.spendCoin o).2.layer.cacheCoins = v.layer.cacheCoins

lemma fetchCoin_layer_of_none (h : (v.fetchCoin o).1 = none) : (v.fetchCoin o).2.layer = v.layer := by
  unfold fetchCoin at h ⊢
  cases hl : v.layer.cacheCoins.lookup o with
  | some e => rfl
  | none =>
    rcases hg : v.base.getCoin o with ⟨_ | tmp, base'⟩
    · rfl
    · rw [hl, hg] at h
      cases h

/-- **`SpendCoin` returns true for a spent entry too**, so it keeps its promise where it finds none. -/
theorem spendsTruly_iff (v : CCoinsViewCache) (o : COutPoint) :
    v.SpendsTruly o ↔ ∀ e, (v.fetchCoin o).1 = some e → e.coin.isSpent = false := by
  have hcoin := fetchCoin_coin v o
  constructor
  · intro h e he
    have hret := h.returns
    rw [(haveCoin_spec v o).1, spendCoin_eq, ← hcoin, he] at hret
    by_contra hs
    simp [Coin.unlessSpent_of_isSpent (eq_true_of_ne_false hs)] at hret
  · intro h
    cases hf : (v.fetchCoin o).1 with
    | none =>
      have hnone := unspent_of_fetchCoin_none hf
      refine ⟨?_, fun _ => ?_, fun _ => ?_⟩
      · rw [(haveCoin_spec v o).1, spendCoin_eq, hf, hnone]
        rfl
      · rw [spendCoin_eq, hf, hnone]
        rfl
      · rw [spendCoin_eq, hf]
        exact ⟨(fetchCoin_unspent v o).1, congrArg cacheCoins (fetchCoin_layer_of_none hf)⟩
    | some e =>
      rw [hf, bind_some, Coin.unlessSpent_of_not_isSpent (h e hf)] at hcoin
      refine ⟨?_, fun _ => ?_, fun hno => ?_⟩
      · rw [(haveCoin_spec v o).1, spendCoin_eq, hf, ← hcoin]
        rfl
      · rw [spendCoin_eq, hf, ← hcoin]
        rfl
      · rw [(haveCoin_spec v o).1, ← hcoin] at hno
        cases hno

/-- A coin of the database spent twice through one cache. -/
theorem spendCoin_twice : ∃ v : CCoinsViewCache, v.layer.cacheCoins = ∅ ∧ ∃ o,
    (v.spendCoin o).1.isSome ∧ ((v.spendCoin o).2.haveCoin o).1 = false ∧ (v.spendCoin o).2.unspent o = none ∧
      ((v.spendCoin o).2.spendCoin o).1 = some Coin.empty :=
  ⟨⟨⟨0, ∅, 0⟩, .db ⟨AList.insert ⟨7, 0⟩ ⟨⟨5, []⟩, false, 1⟩ ∅, 1, []⟩⟩, rfl, ⟨7, 0⟩, by decide⟩

lemma uncache_spec (hv : v.Coherent) (o : COutPoint) : (v.uncache o).unspent = v.unspent ∧ (v.uncache o).Coherent := by
  unfold uncache
  cases hl : v.layer.cacheCoins.lookup o with
  | none => exact ⟨rfl, hv⟩
  | some e =>
    dsimp only
    split_ifs with hflags
    · have hd : e.dirty = false := by simpa using hflags.1
      refine ⟨?_, hv.1.erase rfl, hv.2⟩
      funext o'
      by_cases ho : o' = o
      · subst ho
        refine (unspent_of_lookup_none (lookup_erase _ _)).trans ?_
        rw [unspent, view, unspent_of_lookup_some hl, (hv.1 o' e hl).clean hd]
      · exact unspent_congr (lookup_erase_ne ho) rfl
    · exact ⟨rfl, hv⟩

end CCoinsViewCache

/-! ## Flushing -/

/-- The coins shown by a view and by each view below it, top first. -/
def CCoinsView.layers : CCoinsView → List (COutPoint → Option Coin)
  | .db d => [(CCoinsView.db d).unspent]
  | .cache c base => (CCoinsView.cache c base).unspent :: base.layers

/-- What one round of `CCoinsViewCache::BatchWrite` does to the entry of its outpoint; nothing if it fails. -/
def writtenEntry (child : CCoinsCacheEntry) (ours : Option CCoinsCacheEntry) : Option CCoinsCacheEntry :=
  if !child.dirty then ours
  else
    match ours with
    | none => if child.fresh ∧ child.coin.isSpent then none else some ⟨child.coin, true, child.fresh⟩
    | some itUs =>
      if child.fresh ∧ !itUs.coin.isSpent then some itUs
      else if itUs.fresh ∧ child.coin.isSpent then none
      else some { itUs with coin := child.coin, dirty := true }

/-- The case that `BatchWrite` reports as `FRESH flag misapplied`. -/
def Misapplied (child : CCoinsCacheEntry) (ours : Option CCoinsCacheEntry) : Prop :=
  child.fresh = true ∧ ∃ itUs, ours = some itUs ∧ itUs.coin.isSpent = false

/-- The cache after one round of `BatchWrite`. -/
def CacheLayer.written (c : CacheLayer) (it : Sigma fun _ : COutPoint => CCoinsCacheEntry) : CacheLayer :=
  match c.writeEntry it with
  | .ok c' => c'
  | .error _ => c

section

variable (c : CacheLayer) (it : Sigma fun _ : COutPoint => CCoinsCacheEntry)

lemma writeEntry_cells : (c.written it).cacheCoins.lookup it.1 = writtenEntry it.2 (c.cacheCoins.lookup it.1) ∧
    ∀ o, o ≠ it.1 → (c.written it).cacheCoins.lookup o = c.cacheCoins.lookup o := by
  unfold written CacheLayer.writeEntry writtenEntry
  cases hd : it.2.dirty with
  | false => exact ⟨rfl, fun _ _ => rfl⟩
  | true =>
    simp only [Bool.not_true, false_eq_true, if_false]
    cases hl : c.cacheCoins.lookup it.1 with
    | none =>
      by_cases hfs : it.2.fresh ∧ it.2.coin.isSpent
      · simp only [if_pos hfs]
        exact ⟨hl, fun _ _ => trivial⟩
      · simp only [if_neg hfs]
        exact ⟨lookup_insert _, fun o ho => lookup_insert_ne ho⟩
    | some itUs =>
      by_cases hmis : it.2.fresh ∧ !itUs.coin.isSpent
      · simp only [if_pos hmis]
        exact ⟨hl, fun _ _ => trivial⟩
      · by_cases hfs : itUs.fresh ∧ it.2.coin.isSpent
        · simp only [if_neg hmis, if_pos hfs]
          exact ⟨lookup_erase _ _, fun o ho => lookup_erase_ne ho⟩
        · simp only [if_neg hmis, if_neg hfs]
          exact ⟨lookup_insert _, fun o ho => lookup_insert_ne ho⟩

lemma writeEntry_ok (h : ¬ Misapplied it.2 (c.cacheCoins.lookup it.1)) : c.writeEntry it = .ok (c.written it) := by
  unfold written
  cases hw : c.writeEntry it with
  | ok c' => rfl
  | error err =>
    exfalso
    unfold CacheLayer.writeEntry at hw
    split at hw
    · cases hw
    · cases hl : c.cacheCoins.lookup it.1 with
      | none =>
        rw [hl] at hw
        dsimp only at hw
        split at hw <;> cases hw
      | some itUs =>
        rw [hl] at hw
        dsimp only at hw
        split at hw
        · rename_i hmis
          exact h ⟨hmis.1, itUs, hl, by simpa using hmis.2⟩
        · split at hw <;> cases hw

end

/-- A fresh entry never finds an unspent entry in the parent. -/
theorem EntryCoherent.not_misapplied
    (h : EntryCoherent ((CCoinsView.cache c base).unspent o) child) : ¬ Misapplied child (c.cacheCoins.lookup o) := by
  rintro ⟨hf, itUs, hl, hs⟩
  have hnone := h.fresh hf
  rw [unspent_of_lookup_some hl, unlessSpent_of_not_isSpent hs] at hnone
  cases hnone

/-- The parent shows what the child showed, and its entry keeps its promise about the grandparent. -/
theorem writtenEntry_spec (hc : c.Coherent base) (h : EntryCoherent ((CCoinsView.cache c base).unspent o) child) :
    (match writtenEntry child (c.cacheCoins.lookup o) with
      | none => base.unspent o
      | some e => e.coin.unlessSpent) = child.coin.unlessSpent ∧
    ∀ e, writtenEntry child (c.cacheCoins.lookup o) = some e → EntryCoherent (base.unspent o) e := by
  have hmis := h.not_misapplied
  unfold writtenEntry
  cases hl : c.cacheCoins.lookup o with
  | none =>
    have hview := @unspent_of_lookup_none c base o hl
    cases hd : child.dirty with
    | false =>
      refine ⟨?_, fun e he => by cases he⟩
      rw [h.clean hd, hview]
      rfl
    | true =>
      simp only [Bool.not_true, false_eq_true, if_false]
      by_cases hfs : child.fresh ∧ child.coin.isSpent
      · simp only [if_pos hfs]
        refine ⟨?_, fun e he => by cases he⟩
        rw [unlessSpent_of_isSpent hfs.2, ← hview, h.fresh hfs.1]
      · simp only [if_neg hfs]
        refine ⟨trivial, fun e he => ?_⟩
        cases he
        exact ⟨fun hf => by rw [← hview, h.fresh hf], fun hd' => by cases hd'⟩
  | some itUs =>
    have hview := @unspent_of_lookup_some c base o itUs hl
    have hours := hc o itUs hl
    cases hd : child.dirty with
    | false =>
      refine ⟨?_, fun e he => by cases he; exact hours⟩
      rw [h.clean hd, hview]
      rfl
    | true =>
      have hmis : ¬ (child.fresh = true ∧ (!itUs.coin.isSpent) = true) := fun hm =>
        hmis ⟨hm.1, itUs, hl, by simpa using hm.2⟩
      simp only [Bool.not_true, false_eq_true, if_false, if_neg hmis]
      by_cases hfs : itUs.fresh ∧ child.coin.isSpent
      · simp only [if_pos hfs]
        refine ⟨?_, fun e he => by cases he⟩
        rw [unlessSpent_of_isSpent hfs.2, hours.fresh hfs.1]
      · simp only [if_neg hfs]
        refine ⟨trivial, fun e he => ?_⟩
        cases he
        exact ⟨hours.fresh, fun hd' => by cases hd'⟩

lemma batchWrite_cache {child c : CacheLayer} (h : child.Coherent (.cache c base))
    (hc : c.Coherent base) (hashBlock : Uint256) :
    ∃ c', batchWrite child.cacheCoins hashBlock (.cache c base) = .ok (.cache c' base) ∧
      (CCoinsView.cache c' base).unspent = (CCoinsView.cache child (.cache c base)).unspent ∧ c'.Coherent base := by
  let look : CacheLayer → COutPoint → Option CCoinsCacheEntry := fun c o => c.cacheCoins.lookup o
  have hother : ∀ c it o, o ≠ it.1 → look (c.written it) o = look c o := fun c it => (writeEntry_cells c it).2
  have hself : ∀ c it, look (c.written it) it.1 = writtenEntry it.2 (look c it.1) := fun c it =>
    (writeEntry_cells c it).1
  have hfold : child.cacheCoins.entries.foldlM CacheLayer.writeEntry c =
      .ok (child.cacheCoins.entries.foldl written c) := by
    refine foldlM_eq_ok_foldl (p := fun it cell => ¬ Misapplied it.2 cell) hother
      (writeEntry_ok) child.cacheCoins.nodupKeys c fun it hit => ?_
    exact (h it.1 it.2 (mem_lookup_iff.2 hit)).not_misapplied
  let c' := child.cacheCoins.entries.foldl written c
  have hnone : ∀ o, child.cacheCoins.lookup o = none → c'.cacheCoins.lookup o = c.cacheCoins.lookup o := fun o hl =>
    foldl_entries_look_none look hother c hl
  have hsome : ∀ o e, child.cacheCoins.lookup o = some e →
      c'.cacheCoins.lookup o = writtenEntry e (c.cacheCoins.lookup o) := fun o e hl =>
    foldl_entries_look_some look (g := fun it cell => writtenEntry it.2 cell) hother c hself hl
  refine ⟨{ c' with hashBlock := hashBlock }, ?_, ?_, ?_⟩
  · simp only [batchWrite, hfold]
    rfl
  · funext o
    cases hl : child.cacheCoins.lookup o with
    | none =>
      rw [unspent_of_lookup_none hl]
      exact unspent_congr (hnone o hl) rfl
    | some e =>
      rw [unspent_of_lookup_some hl, ← (writtenEntry_spec hc (h o e hl)).1, ← hsome o e hl]
      simp only [CCoinsView.unspent]
      cases c'.cacheCoins.lookup o <;> rfl
  · intro o e he
    cases hl : child.cacheCoins.lookup o with
    | none => exact hc o e ((hnone o hl).symm.trans he)
    | some e' => exact (writtenEntry_spec hc (h o e' hl)).2 e ((hsome o e' hl).symm.trans he)

lemma db_writeEntry_cells (d : CCoinsViewDB) (it : Sigma fun _ : COutPoint => CCoinsCacheEntry) :
    (d.writeEntry it).coins.lookup it.1 = (if it.2.dirty then it.2.coin.unlessSpent else d.coins.lookup it.1) ∧
      ∀ o, o ≠ it.1 → (d.writeEntry it).coins.lookup o = d.coins.lookup o := by
  unfold CCoinsViewDB.writeEntry
  cases hd : it.2.dirty with
  | false => exact ⟨rfl, fun _ _ => rfl⟩
  | true =>
    simp only [Bool.not_true, false_eq_true, if_false, if_true]
    split_ifs with hs
    · exact ⟨(lookup_erase _ _).trans (unlessSpent_of_isSpent hs).symm, fun o ho => lookup_erase_ne ho⟩
    · exact ⟨(lookup_insert _).trans (unlessSpent_of_not_isSpent (by simpa using hs)).symm,
        fun o ho => lookup_insert_ne ho⟩

lemma db_foldl_writeEntry_none (h : m.lookup o = none) (d : CCoinsViewDB) :
    (m.entries.foldl writeEntry d).coins.lookup o = d.coins.lookup o :=
  foldl_entries_look_none (fun (d : CCoinsViewDB) o => d.coins.lookup o) (fun d it => (db_writeEntry_cells d it).2) d h

lemma db_foldl_writeEntry_some (h : m.lookup o = some e) (d : CCoinsViewDB) :
    (m.entries.foldl writeEntry d).coins.lookup o =
      if e.dirty then e.coin.unlessSpent else d.coins.lookup o :=
  foldl_entries_look_some (fun (d : CCoinsViewDB) o => d.coins.lookup o)
    (g := fun it cell => if it.2.dirty then it.2.coin.unlessSpent else cell)
    (fun d it => (db_writeEntry_cells d it).2) d (fun d it => (db_writeEntry_cells d it).1) h

lemma batchWrite_db {child : CacheLayer} {d : CCoinsViewDB} (h : child.Coherent (.db d)) {hashBlock : Uint256}
    (hw : d.writable hashBlock) :
    ∃ d', batchWrite child.cacheCoins hashBlock (.db d) = .ok (.db d') ∧
      (CCoinsView.db d').unspent = (CCoinsView.cache child (.db d)).unspent ∧
      d'.bestBlock = hashBlock ∧ d'.headBlocks = [] := by
  let d' := child.cacheCoins.entries.foldl writeEntry (d.beginBatch hashBlock)
  refine ⟨d'.endBatch hashBlock, if_pos hw, ?_, rfl, rfl⟩
  funext o
  have hdb : (CCoinsView.db (d'.endBatch hashBlock)).unspent o = (d'.coins.lookup o).bind unlessSpent := rfl
  rw [hdb]
  cases hl : child.cacheCoins.lookup o with
  | none =>
    rw [unspent_of_lookup_none hl, db_foldl_writeEntry_none hl]
    rfl
  | some e =>
    rw [unspent_of_lookup_some hl, db_foldl_writeEntry_some hl]
    cases hd : e.dirty with
    | true => exact unlessSpent_bind _
    | false => exact ((h o e hl).clean hd).symm

lemma flush_spec {v : CCoinsViewCache} (hv : v.Coherent)
    (hw : ∀ d, v.base = .db d → d.writable v.layer.hashBlock) :
    ∃ v', v.flush = .ok v' ∧ v'.unspent = v.unspent ∧ v'.base.layers = v.unspent :: v.base.layers.tail ∧
      v'.Coherent := by
  obtain ⟨c, base⟩ := v
  obtain ⟨hc, hbase⟩ := hv
  have hempty : ∀ (base' : CCoinsView), CacheLayer.Coherent ⟨c.hashBlock, ∅, 0⟩ base' := by
    intro base' o e he
    cases he
  cases base with
  | db d =>
    obtain ⟨d', hd', hun, -⟩ := batchWrite_db hc (hw d rfl)
    refine ⟨⟨⟨c.hashBlock, ∅, 0⟩, .db d'⟩, ?_, hun, ?_, hempty _, trivial⟩
    · simp only [CCoinsViewCache.flush, hd']
      rfl
    · exact congrArg (· :: []) hun
  | cache p grand =>
    obtain ⟨p', hp', hun, hpc⟩ := batchWrite_cache hc hbase.1 c.hashBlock
    refine ⟨⟨⟨c.hashBlock, ∅, 0⟩, .cache p' grand⟩, ?_, hun, ?_, hempty _, hpc, hbase.2⟩
    · simp only [CCoinsViewCache.flush, hp']
      rfl
    · exact congrArg (· :: grand.layers) hun

end Soferox
