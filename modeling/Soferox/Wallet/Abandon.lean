import Soferox.Lib.OrdSet
import Soferox.Primitives.Serialize

/-!
# Abandoning transactions of the wallet

`CWallet::AbandonTransaction` (`wallet.cpp`). It looks for the spends of every transaction that it abandons from
`COutPoint(hashTx, 0)` on, where only those of the first one are found. `todo` is in the order of the numbers here, in
the code in that of the bytes, on which the result does not depend.
-/

namespace Soferox

open Lib Function List Relation OrdSet

structure CWalletTx where
  hashBlock : Uint256
  nIndex : ℤ
  fInMempool : Bool

def ABANDON_HASH : Uint256 := 1

namespace CWalletTx

def isAbandoned (wtx : CWalletTx) : Bool := wtx.hashBlock == ABANDON_HASH
def hashUnset (wtx : CWalletTx) : Bool := wtx.hashBlock == 0 || wtx.isAbandoned

/-- `blockDepth` counts the blocks of the active chain from a block on. -/
def getDepthInMainChain (blockDepth : Uint256 → ℕ) (wtx : CWalletTx) : ℤ :=
  if wtx.hashUnset then 0 else (if wtx.nIndex = -1 then -1 else 1) * blockDepth wtx.hashBlock

def abandoned (wtx : CWalletTx) : CWalletTx := { wtx with nIndex := -1, hashBlock := ABANDON_HASH }
def live (blockDepth : Uint256 → ℕ) (wtx : CWalletTx) : Bool := wtx.getDepthInMainChain blockDepth == 0 && !wtx.isAbandoned

/-- What a round of the loop makes of a transaction. -/
def mark (blockDepth : Uint256 → ℕ) (wtx : CWalletTx) : CWalletTx := if wtx.live blockDepth then wtx.abandoned else wtx

variable {wtx : CWalletTx}

lemma isAbandoned_mark {blockDepth : Uint256 → ℕ} :
    (wtx.mark blockDepth).isAbandoned ↔ wtx.getDepthInMainChain blockDepth = 0 := by
  have habandoned : wtx.abandoned.isAbandoned = true := rfl
  cases h : wtx.isAbandoned with
  | true => simp [mark, live, h, getDepthInMainChain, hashUnset]
  | false => by_cases h0 : wtx.getDepthInMainChain blockDepth = 0 <;> simp [mark, live, h, h0, habandoned]

end CWalletTx

open CWalletTx

/-- The bytes that `base_blob::Compare` compares. -/
def hashKey (hash : Uint256) : List ℕ := (writeUint256 hash).map UInt8.toNat

/-- `operator<`. -/
def COutPoint.before (a b : COutPoint) : Bool :=
  hashKey a.hash < hashKey b.hash || a.hash == b.hash && a.n < b.n

structure CWallet where
  mapWallet : Uint256 → Option CWalletTx
  mapTxSpends : List (COutPoint × Uint256)
  /-- a `multimap` -/
  sorted : mapTxSpends.Pairwise fun a b => b.1.before a.1 = false

namespace CWallet

variable (blockDepth : Uint256 → ℕ) (w : CWallet) (hashTx : Uint256)

/-- The entries from `lower_bound(COutPoint(hashTx, 0))` on. -/
def lowerBound : List (COutPoint × Uint256) := w.mapTxSpends.filter fun e => !e.1.before ⟨hashTx, 0⟩

/-- The loop over `mapTxSpends`. -/
def spentBy (now : Uint256) : List Uint256 := ((w.lowerBound hashTx).takeWhile fun e => e.1.hash == now).map Prod.snd

/-- The loop over `todo`; `none` for a failed assertion, or when there are too few rounds. -/
def abandonLoop : ℕ → OrdSet Uint256 → OrdSet Uint256 → (Uint256 → Option CWalletTx) → Option (Uint256 → Option CWalletTx)
  | 0, _, _, _ => none
  | rounds + 1, todo, done, m =>
    match todo.toList with
    | [] => some m
    | now :: _ =>
      match m now with
      | none => none
      | some wtx =>
        if wtx.getDepthInMainChain blockDepth > 0 then none
        else if wtx.live blockDepth then
          if wtx.fInMempool then none
          else abandonLoop rounds
            ((todo.erase now).insertAll ((w.spentBy hashTx now).filter (· ∉ done.insert now)))
            (done.insert now) (update m now (some wtx.abandoned))
        else abandonLoop rounds (todo.erase now) (done.insert now) m

def abandonTransaction : Option (Bool × (Uint256 → Option CWalletTx)) := do
  let origtx ← w.mapWallet hashTx
  if origtx.getDepthInMainChain blockDepth > 0 ∨ origtx.fInMempool then return (false, w.mapWallet)
  let m ← w.abandonLoop blockDepth hashTx (w.mapTxSpends.length + 2) (OrdSet.insert ∅ hashTx) ∅ w.mapWallet
  return (true, m)

/-- A transaction of the wallet spends an output of another one. -/
def Spends (a b : Uint256) : Prop := ∃ e ∈ w.mapTxSpends, e.1.hash = a ∧ e.2 = b

/-! ## What the loop finds -/

lemma hashKey_injective : Injective hashKey := by
  intro a b h
  have hbytes : writeUint256 a = writeUint256 b := map_injective_iff.2 (fun _ _ => UInt8.toNat_inj.1) h
  have ha := codes_uint256.get_put (a := a) trivial []
  rw [hbytes, codes_uint256.get_put trivial []] at ha
  cases ha
  rfl

variable {w hashTx}

lemma pairwise_lowerBound : (w.lowerBound hashTx).Pairwise fun a b => b.1.hash == hashTx → a.1.hash == hashTx := by
  refine (w.sorted.filter _).imp_of_mem fun {a b} ha _ hab hb => ?_
  have hfrom := (mem_filter.1 ha).2
  simp only [COutPoint.before, Bool.not_eq_true', Bool.or_eq_false_iff, decide_eq_false_iff_not, not_lt] at hab hfrom
  rw [beq_iff_eq] at hb ⊢
  rw [hb] at hab
  exact hashKey_injective (le_antisymm hab.1 hfrom.1)

lemma mem_lowerBound {e : COutPoint × Uint256} (h : e.1.hash = hashTx) :
    e ∈ w.lowerBound hashTx ↔ e ∈ w.mapTxSpends := by
  simp [lowerBound, COutPoint.before, h]

lemma mem_spentBy {d : Uint256} : d ∈ w.spentBy hashTx hashTx ↔ w.Spends hashTx d := by
  rw [spentBy, takeWhile_eq_filter pairwise_lowerBound]
  simp only [List.mem_map, mem_filter, beq_iff_eq]
  exact exists_congr fun e => ⟨fun h => ⟨(mem_lowerBound h.1.2).1 h.1.1, h.1.2, h.2⟩,
    fun h => ⟨⟨(mem_lowerBound h.2.1).2 h.1, h.2.1⟩, h.2.2⟩⟩

lemma spentBy_of_ne {now d : Uint256} (h : w.Spends hashTx d) (hne : now ≠ hashTx) : w.spentBy hashTx now = [] := by
  obtain ⟨e, he, hhash, -⟩ := h
  have hmem := (mem_lowerBound hhash).2 he
  have hpair : (w.lowerBound hashTx).Pairwise _ := pairwise_lowerBound
  rw [spentBy]
  cases hl : w.lowerBound hashTx with
  | nil => rfl
  | cons a l =>
    rw [hl] at hmem hpair
    have ha : a.1.hash = hashTx := by
      rcases mem_cons.1 hmem with rfl | hmem
      · exact hhash
      · simpa [hhash] using (pairwise_cons.1 hpair).1 e hmem
    rw [takeWhile_cons_of_neg (by simpa [ha] using hne.symm), map_nil]

variable {blockDepth}

/-- A transaction of the wallet that is neither confirmed nor in the memory pool. -/
def Waiting (blockDepth : Uint256 → ℕ) (m : Uint256 → Option CWalletTx) (h : Uint256) : Prop :=
  ∃ wtx, m h = some wtx ∧ wtx.getDepthInMainChain blockDepth ≤ 0 ∧ wtx.fInMempool = false

lemma abandonLoop_eq {rounds : ℕ} {todo done : OrdSet Uint256} {m : Uint256 → Option CWalletTx}
    (hsize : todo.size < rounds) (hspent : ∀ c ∈ todo, w.spentBy hashTx c = []) (hm : ∀ c ∈ todo, Waiting blockDepth m c) :
    w.abandonLoop blockDepth hashTx rounds todo done m =
      some fun x => if x ∈ todo then (m x).map (·.mark blockDepth) else m x := by
  induction rounds generalizing todo done m with
  | zero => omega
  | succ rounds ih =>
    cases htodo : todo.toList with
    | nil =>
      have hno := toList_eq_nil_iff.1 htodo
      simp [abandonLoop, htodo, hno]
    | cons now rest =>
      have hnow : now ∈ todo := mem_toList.1 (htodo ▸ mem_cons_self)
      obtain ⟨wtx, hget, hdepth, hpool⟩ := hm now hnow
      have hsize' : (todo.erase now).size < rounds := by
        simp only [size, erase, htodo, erase_cons_head, length_cons] at hsize ⊢
        omega
      -- the map after the round, and the rounds that are left
      have hnext {m' : Uint256 → Option CWalletTx} (hself : m' now = some (wtx.mark blockDepth))
          (hother : ∀ c, c ≠ now → m' c = m c) : w.abandonLoop blockDepth hashTx rounds (todo.erase now) (done.insert now) m' =
            some fun x => if x ∈ todo then (m x).map (·.mark blockDepth) else m x := by
        rw [ih hsize' (fun c hc => hspent c (mem_erase.1 hc).2)]
        · refine congrArg some (funext fun x => ?_)
          by_cases hx : x = now
          · simp [hx, hnow, hget, hself]
          · simp [hx, hother x hx]
        · intro c hc
          obtain ⟨hne, hc⟩ := mem_erase.1 hc
          rw [Waiting, hother c hne]
          exact hm c hc
      rw [abandonLoop]
      simp only [htodo, hget, if_neg (not_lt.2 hdepth), hpool, hspent now hnow, filter_nil, insertAll, foldl_nil,
        Bool.false_eq_true, if_false]
      split_ifs with hlive
      · exact hnext (by simp [mark, hlive]) fun c hc => update_of_ne hc ..
      · exact hnext (by simp [mark, hlive, hget]) fun _ _ => rfl

lemma abandonTransaction_eq (hget : w.mapWallet hashTx = some wtx)
    (hdepth : wtx.getDepthInMainChain blockDepth ≤ 0) (hpool : wtx.fInMempool = false)
    (hspends : ∀ c, w.Spends hashTx c → Waiting blockDepth w.mapWallet c) :
    ∃ m, w.abandonTransaction blockDepth hashTx = some (true, m) ∧ ∀ x, m x =
      if x = hashTx ∨ wtx.live blockDepth ∧ x ∈ w.spentBy hashTx hashTx then (w.mapWallet x).map (·.mark blockDepth)
      else w.mapWallet x := by
  have hstart : w.abandonTransaction blockDepth hashTx =
      (w.abandonLoop blockDepth hashTx (w.mapTxSpends.length + 2) (insert ∅ hashTx) ∅ w.mapWallet).map (true, ·) := by
    simp [abandonTransaction, hget, hdepth, hpool, Option.map_eq_bind]
  have htodo : (insert ∅ hashTx).toList = [hashTx] := rfl
  rw [hstart, abandonLoop]
  simp only [hget, hpool, htodo, if_neg (not_lt.2 hdepth)]
  by_cases hlive : wtx.live blockDepth
  · rw [if_pos hlive, if_neg Bool.false_ne_true]
    -- the direct spends wait now, and each of them finds no spend of its own
    set todo := ((insert ∅ hashTx).erase hashTx).insertAll _ with htodo'
    have hmem (c) : c ∈ todo ↔ c ∈ w.spentBy hashTx hashTx ∧ c ≠ hashTx := by simp [htodo']
    rw [abandonLoop_eq]
    · refine ⟨_, rfl, fun x => ?_⟩
      by_cases hx : x = hashTx <;> simp [hx, hmem, hget, mark, hlive]
    · have hsub : todo.toFinset ⊆ (w.spentBy hashTx hashTx).toFinset := fun c hc => mem_toFinset.2 ((hmem c).1 hc).1
      refine Nat.lt_succ_of_le ((Finset.card_le_card hsub).trans ((toFinset_card_le _).trans ?_))
      rw [spentBy, length_map]
      exact ((takeWhile_sublist _).trans filter_sublist).length_le
    · intro c hc
      obtain ⟨hspent, hne⟩ := (hmem c).1 hc
      exact spentBy_of_ne (mem_spentBy.1 hspent) hne
    · intro c hc
      obtain ⟨hspent, hne⟩ := (hmem c).1 hc
      rw [Waiting, update_of_ne hne]
      exact hspends c (mem_spentBy.1 hspent)
  · rw [if_neg hlive, abandonLoop, erase]
    simp only [htodo, erase_cons_head]
    refine ⟨w.mapWallet, rfl, fun x => ?_⟩
    by_cases hx : x = hashTx <;> simp [hx, hget, mark, hlive]

open Classical in
/-- Abandoning `hashTx` is transitive, and leaves the other transactions as they are. -/
def Abandons (blockDepth : Uint256 → ℕ) (w : CWallet) (hashTx : Uint256) : Prop :=
  ∃ m, w.abandonTransaction blockDepth hashTx = some (true, m) ∧ ∀ d wtx, w.mapWallet d = some wtx →
    if d = hashTx ∨ TransGen w.Spends hashTx d ∧ wtx.getDepthInMainChain blockDepth = 0
    then ∃ x, m d = some x ∧ x.isAbandoned else m d = some wtx

/-- **Only `hashTx` and the transactions that spend it directly are abandoned.** -/
theorem abandons_iff (blockDepth : Uint256 → ℕ) (w : CWallet) (hashTx : Uint256)
    (hacyclic : ∀ h, ¬ TransGen w.Spends h h)
    (hwait : ∀ d, ReflTransGen w.Spends hashTx d → Waiting blockDepth w.mapWallet d) :
    w.Abandons blockDepth hashTx ↔ ∃ wtx, w.mapWallet hashTx = some wtx ∧ wtx.getDepthInMainChain blockDepth = 0 ∧
      ∀ d y, w.mapWallet d = some y → TransGen w.Spends hashTx d → y.getDepthInMainChain blockDepth = 0 →
        y.isAbandoned ∨ wtx.isAbandoned = false ∧ w.Spends hashTx d := by
  obtain ⟨wtx, hget, hdepth, hpool⟩ := hwait hashTx .refl
  obtain ⟨m, hm, hval⟩ := abandonTransaction_eq hget hdepth hpool fun c hc => hwait c (.single hc)
  have hself : m hashTx = some (wtx.mark blockDepth) := by simp [hval, hget]
  simp only [Abandons, hm, hget, Option.some.injEq, Prod.mk.injEq, true_and, exists_eq_left']
  refine ⟨fun h => ?_, fun h d y hd => ?_⟩
  · obtain ⟨x, hx, habandoned⟩ := (if_pos (.inl rfl)).mp (h hashTx wtx hget)
    cases hself.symm.trans hx
    have h0 := CWalletTx.isAbandoned_mark.1 habandoned
    refine ⟨h0, fun d y hd hgen hy => or_iff_not_imp_right.2 fun hdirect => ?_⟩
    obtain ⟨x, hx, habandoned⟩ := (if_pos (.inr ⟨hgen, hy⟩)).mp (h d y hd)
    have hne : d ≠ hashTx := fun heq => hacyclic d (heq ▸ hgen)
    rw [hval, if_neg (by simpa [hne, CWalletTx.live, h0, mem_spentBy] using hdirect), hd] at hx
    cases hx
    exact habandoned
  · rw [hval, hd]
    split_ifs with hgone hmark hmark
    · refine ⟨_, rfl, CWalletTx.isAbandoned_mark.2 ?_⟩
      rcases hgone with rfl | ⟨-, hy⟩
      · cases hget.symm.trans hd
        exact h.1
      · exact hy
    · obtain ⟨hne, hdirect⟩ := not_or.1 hmark
      obtain ⟨hgen, hy⟩ := hgone.resolve_left hne
      refine ⟨y, rfl, (h.2 d y hd hgen hy).resolve_right ?_⟩
      simpa [CWalletTx.live, h.1, mem_spentBy] using hdirect
    · obtain ⟨hne, hdepth⟩ := not_or.1 hgone
      have hgen := TransGen.single (mem_spentBy.1 (hmark.resolve_left hne).2)
      simp [CWalletTx.mark, CWalletTx.live, not_and.1 hdepth hgen]
    · rfl

/-- A chain of three transactions of which the last spends the second one. -/
def chain : CWallet where
  mapWallet h := if h = 2 ∨ h = 3 ∨ h = 4 then some ⟨0, 0, false⟩ else none
  mapTxSpends := [(⟨2, 0⟩, 3), (⟨3, 0⟩, 4)]
  sorted := by decide

lemma chain_spends {a b : Uint256} (h : chain.Spends a b) : a = 2 ∧ b = 3 ∨ a = 3 ∧ b = 4 := by
  simpa [Spends, chain, eq_comm] using h

lemma chain_acyclic (h : Uint256) : ¬ TransGen chain.Spends h h := by
  have hlt : ∀ a b, TransGen chain.Spends a b → a < b := fun a b hab =>
    TransGen.trans_induction_on hab (fun hab => by rcases chain_spends hab with ⟨rfl, rfl⟩ | ⟨rfl, rfl⟩ <;> decide)
      fun _ _ => BitVec.lt_trans
  exact fun hh => BitVec.lt_irrefl h (hlt h h hh)

lemma chain_waiting {h d : Uint256} (hh : h = 2 ∨ h = 3) (hd : ReflTransGen chain.Spends h d) :
    Waiting (fun _ => 0) chain.mapWallet d := by
  refine ⟨⟨0, 0, false⟩, if_pos ?_, le_rfl, rfl⟩
  rcases hd.cases_tail with rfl | ⟨c, -, hcd⟩
  · tauto
  · have := chain_spends hcd
    tauto

theorem abandons_chain : chain.Abandons (fun _ => 0) 3 := by
  refine (abandons_iff _ _ _ chain_acyclic fun _ => chain_waiting (.inr rfl)).2 ⟨⟨0, 0, false⟩, rfl, rfl, fun d y _ hd _ => ?_⟩
  refine .inr ⟨rfl, ?_⟩
  obtain ⟨b, -, hbd⟩ := TransGen.tail'_iff.1 hd
  rcases chain_spends hbd with ⟨-, rfl⟩ | ⟨rfl, rfl⟩
  · exact absurd hd (chain_acyclic 3)
  · exact hbd

theorem not_abandons_chain : (∀ h, ¬ TransGen chain.Spends h h) ∧
    (∀ d, ReflTransGen chain.Spends 2 d → Waiting (fun _ => 0) chain.mapWallet d) ∧ TransGen chain.Spends 2 4 ∧
    ((chain.abandonTransaction (fun _ => 0) 2).map fun r => [2, 3, 4].map fun h => (r.2 h).map (·.isAbandoned)) =
      some [some true, some true, some false] :=
  ⟨chain_acyclic, fun _ => chain_waiting (.inl rfl),
    .tail (.single ⟨(⟨2, 0⟩, 3), by decide, rfl, rfl⟩) ⟨(⟨3, 0⟩, 4), by decide, rfl, rfl⟩, by decide⟩

end CWallet

end Soferox
