import Mathlib.Algebra.Order.Field.Rat
import Mathlib.Data.Prod.Lex
import Soferox.Mempool.Pool
import Soferox.Primitives.Serialize

/-!
# The orders of the memory pool

The comparison functions of `txmempool.h` that sort `mapTx`, with the products of fees and sizes as exact integers:
two of them are strict weak orders, by descendant score an entry comes before itself (`compare_strictWeakOrderOn`).
-/

namespace Soferox

/-- What `boost::multi_index` and `std::sort` ask of a comparison. -/
def StrictWeakOrderOn {α : Type*} (r : α → α → Bool) (s : Set α) : Prop := IsStrictWeakOrder s fun a b => r a b

lemma StrictWeakOrderOn.of_lt {α β : Type*} [LinearOrder β] {r : α → α → Bool} {s : Set α} (key : α → β)
    (h : ∀ a ∈ s, ∀ b ∈ s, r a b ↔ key a < key b) : StrictWeakOrderOn r s := by
  have hr : (fun a b : s => (r a b : Prop)) = Function.onFun (· < ·) fun a : s => key a := by
    ext a b
    exact h a a.2 b b.2
  have : IsStrictWeakOrder β (· < ·) := isStrictWeakOrder_of_isOrderConnected
  rw [StrictWeakOrderOn, hr]
  infer_instance

namespace CTxMemPoolEntry

/-- `base_blob::Compare` is `memcmp` on the bytes as they are stored. -/
def hashBytes (e : CTxMemPoolEntry) : List ℕ := (writeUint256 e.tx.hash).map UInt8.toNat

/-- `CompareTxMemPoolEntryByDescendantScore::GetModFeeAndSize`: the larger of two fee rates. -/
def descendantModFeeAndSize (a : CTxMemPoolEntry) : CAmount × ℤ :=
  if a.nModFeesWithDescendants * a.getTxSize > a.getModifiedFee * a.nSizeWithDescendants then
    (a.nModFeesWithDescendants, a.nSizeWithDescendants)
  else (a.getModifiedFee, a.getTxSize)

def compareByDescendantScore (a b : CTxMemPoolEntry) : Bool :=
  let f1 := a.descendantModFeeAndSize.1 * b.descendantModFeeAndSize.2
  let f2 := a.descendantModFeeAndSize.2 * b.descendantModFeeAndSize.1
  if f1 = f2 then a.nTime ≥ b.nTime else f1 < f2

def compareByScore (a b : CTxMemPoolEntry) : Bool :=
  let f1 := a.getModifiedFee * b.getTxSize
  let f2 := b.getModifiedFee * a.getTxSize
  if f1 = f2 then b.hashBytes < a.hashBytes else f1 > f2

/-- `CompareTxMemPoolEntryByAncestorFee::GetModFeeAndSize`: the smaller of two fee rates. -/
def ancestorModFeeAndSize (a : CTxMemPoolEntry) : CAmount × ℤ :=
  if a.getModifiedFee * a.nSizeWithAncestors > a.nModFeesWithAncestors * a.getTxSize then
    (a.nModFeesWithAncestors, a.nSizeWithAncestors)
  else (a.getModifiedFee, a.getTxSize)

def compareByAncestorFee (a b : CTxMemPoolEntry) : Bool :=
  let f1 := a.ancestorModFeeAndSize.1 * b.ancestorModFeeAndSize.2
  let f2 := a.ancestorModFeeAndSize.2 * b.ancestorModFeeAndSize.1
  if f1 = f2 then a.hashBytes < b.hashBytes else f1 > f2

/-- Sizes that are positive, as those of transactions are. -/
structure PositiveSizes (e : CTxMemPoolEntry) : Prop where
  tx : 0 < e.getTxSize
  withDescendants : 0 < e.nSizeWithDescendants
  withAncestors : 0 < e.nSizeWithAncestors

lemma crossMul_iff {γ : Type*} [LinearOrder γ] {fee fee' size size' : ℤ} (hs : 0 < size) (hs' : 0 < size') {k k' : γ} :
    (if fee * size' = size * fee' then k < k' else fee * size' > size * fee') ↔
      toLex (-(fee / size : ℚ), k) < toLex (-(fee' / size' : ℚ), k') := by
  have hq : (0 : ℚ) < size := by exact_mod_cast hs
  have hq' : (0 : ℚ) < size' := by exact_mod_cast hs'
  rw [Prod.Lex.toLex_lt_toLex, neg_lt_neg_iff, neg_inj, div_lt_div_iff₀ hq' hq, div_eq_div_iff hq.ne' hq'.ne',
    mul_comm (fee' : ℚ)]
  norm_cast
  split_ifs with h <;> simp [h]

lemma ancestorModFeeAndSize_pos {a : CTxMemPoolEntry} (h : a.PositiveSizes) : 0 < a.ancestorModFeeAndSize.2 := by
  unfold ancestorModFeeAndSize
  split_ifs
  · exact h.withAncestors
  · exact h.tx

/-- **The orders of the pool**: by score and by ancestor fee they are strict weak orders, by descendant score never. -/
theorem compare_strictWeakOrderOn (s : Set CTxMemPoolEntry) (h : ∀ e ∈ s, e.PositiveSizes) :
    StrictWeakOrderOn compareByScore s ∧ StrictWeakOrderOn compareByAncestorFee s ∧
      (StrictWeakOrderOn compareByDescendantScore s ↔ s = ∅) := by
  refine ⟨?_, ?_, ?_⟩
  · refine .of_lt (fun e => toLex (-(e.getModifiedFee / e.getTxSize : ℚ), OrderDual.toDual e.hashBytes)) fun a ha b hb => ?_
    rw [← crossMul_iff (h a ha).tx (h b hb).tx, compareByScore]
    simp only [mul_comm b.getModifiedFee, OrderDual.toDual_lt_toDual]
    split_ifs <;> simp
  · refine .of_lt (fun e => toLex (-(e.ancestorModFeeAndSize.1 / e.ancestorModFeeAndSize.2 : ℚ), e.hashBytes))
      fun a ha b hb => ?_
    rw [← crossMul_iff (ancestorModFeeAndSize_pos (h a ha)) (ancestorModFeeAndSize_pos (h b hb)), compareByAncestorFee]
    split_ifs <;> simp
  · constructor
    · intro hr
      refine Set.eq_empty_of_forall_notMem fun a ha => hr.irrefl ⟨a, ha⟩ ?_
      simp [compareByDescendantScore, mul_comm]
    · rintro rfl
      exact .of_lt (fun _ => 0) (by simp)

/-- An empty transaction. -/
def bare : CTxMemPoolEntry := .new ⟨1, 1, [], [], 0⟩ 0 0 0 0

lemma bare_positiveSizes : bare.PositiveSizes := ⟨by decide, by decide, by decide⟩

/-- Two entries of the same negative fee rate, and a child of the first one. -/
theorem compare_strictWeakOrderOn_three :
    let a := CTxMemPoolEntry.new ⟨1, 1, [], [], 0⟩ (-10) 0 0 0
    let b := CTxMemPoolEntry.new ⟨2, 1, [], [], 0⟩ (-10) 0 0 0
    let c := { CTxMemPoolEntry.new ⟨3, 1, [], [], 0⟩ 5 0 0 0 with
      nCountWithAncestors := 2, nSizeWithAncestors := 20, nModFeesWithAncestors := -5 }
    let s : Set CTxMemPoolEntry := {a, b, c}
    (∀ e ∈ s, e.PositiveSizes) ∧ a.getModifiedFee * b.getTxSize = b.getModifiedFee * a.getTxSize ∧
      StrictWeakOrderOn compareByScore s ∧ StrictWeakOrderOn compareByAncestorFee s ∧
      ¬ StrictWeakOrderOn compareByDescendantScore s := by
  intro a b c s
  have h : ∀ e ∈ s, e.PositiveSizes := by
    rintro e (rfl | rfl | rfl) <;> exact ⟨by decide, by decide, by decide⟩
  obtain ⟨hscore, hancestor, hdescendant⟩ := compare_strictWeakOrderOn s h
  exact ⟨h, by decide, hscore, hancestor, fun hr => (Set.insert_nonempty a _).ne_empty (hdescendant.1 hr)⟩

theorem compareByDescendantScore_self : bare.PositiveSizes ∧ compareByDescendantScore bare bare = true :=
  ⟨bare_positiveSizes, by decide⟩

end CTxMemPoolEntry

end Soferox
