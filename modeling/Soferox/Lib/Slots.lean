import Mathlib.Data.Finset.Card
import Mathlib.Data.Fintype.Basic
import Mathlib.Data.Multiset.AddSub
import Mathlib.Logic.Function.Basic
import Mathlib.Tactic

/-!
# Tables of slots

A table has a slot for each index, which is empty or holds a name. A name can stand in several slots.

* `occ`, `filled` — the number of slots that hold a name, and that are not empty;
* `occ_put`, `occ_clear`, `filled_put`, `filled_clear` — what changes when one slot does.
-/

namespace Lib

open Function Finset List

variable {ι α : Type*} [Fintype ι]

/-- The number of slots that hold `a`. -/
def occ [DecidableEq α] (t : ι → Option α) (a : α) : ℕ := (Finset.univ.filter fun x => t x = some a).card

/-- The number of slots that are not empty. -/
def filled (t : ι → Option α) : ℕ := (Finset.univ.filter fun x => (t x).isSome).card

variable {t : ι → Option α} {x : ι} {a b : α} {xs : List ι}

lemma filled_le (t : ι → Option α) : filled t ≤ Fintype.card ι := card_le_univ _

section Names

variable [DecidableEq α]

lemma occ_eq_zero_iff : occ t a = 0 ↔ ∀ x, t x ≠ some a := by
  simp [occ]

lemma occ_pos_iff : 0 < occ t a ↔ ∃ x, t x = some a := by
  rw [Nat.pos_iff_ne_zero, ne_eq, occ_eq_zero_iff]
  simp

lemma occ_mono {t' : ι → Option α} (h : ∀ x, t x = some a → t' x = some a) : occ t a ≤ occ t' a :=
  card_le_card (Finset.monotone_filter_right _ fun x _ => h x)

lemma count_filterMap (hxs : xs.Nodup) (hall : ∀ x, x ∈ xs) : (xs.filterMap t).count a = occ t a := by
  classical
  have hlen : (xs.filterMap t).count a = (xs.filter fun x => t x = some a).length := by
    rw [count, countP_filterMap, countP_eq_length_filter]
    congr 1
    apply List.filter_congr
    intro x _
    cases t x <;> simp [Bool.beq_eq_decide_eq]
  have hset : (univ.filter fun x => t x = some a) = (xs.filter fun x => t x = some a).toFinset := by
    ext x
    simp [hall x]
  rw [hlen, occ, hset, toFinset_card_of_nodup (hxs.filter _)]

end Names

lemma length_filterMap (hxs : xs.Nodup) (hall : ∀ x, x ∈ xs) : (xs.filterMap t).length = filled t := by
  classical
  have hset : (univ.filter fun x => (t x).isSome) = (xs.filter fun x => (t x).isSome).toFinset := by
    ext x
    simp [hall x]
  rw [length_filterMap_eq_countP, countP_eq_length_filter, filled, hset, toFinset_card_of_nodup (hxs.filter _)]

variable [DecidableEq ι] {y : ι}

section

omit [Fintype ι]

lemma put_eq_some_iff (h : t x = none) : update t x (some a) y = some b ↔ (b = a ∧ y = x) ∨ t y = some b := by
  by_cases hy : y = x
  · subst hy
    simp [h, eq_comm]
  · simp [hy]

lemma clear_eq_some_iff : update t x none y = some b ↔ y ≠ x ∧ t y = some b := by
  by_cases hy : y = x
  · subst hy
    simp
  · simp [hy]

lemma clear_eq_some_iff_of_ne (h : t x = some a) (hb : b ≠ a) : update t x none y = some b ↔ t y = some b := by
  refine clear_eq_some_iff.trans (and_iff_right_of_imp ?_)
  rintro hy rfl
  exact hb (Option.some.inj (hy.symm.trans h))

end

lemma occ_put [DecidableEq α] (h : t x = none) : occ (update t x (some a)) b = occ t b + if b = a then 1 else 0 := by
  have hset : (univ.filter fun y => update t x (some a) y = some b) =
      if b = a then insert x (univ.filter fun y => t y = some b) else univ.filter fun y => t y = some b := by
    ext y
    by_cases hy : y = x
    · subst hy
      split_ifs with hba
      · simp [hba]
      · simp [h, Ne.symm hba]
    · split_ifs <;> simp [hy]
  rw [occ, hset]
  split_ifs
  · rw [card_insert_of_notMem (by simp [h]), occ]
  · rfl

lemma occ_clear [DecidableEq α] (h : t x = some a) : occ (update t x none) b + (if b = a then 1 else 0) = occ t b := by
  have hback : update (update t x none) x (some a) = t := by
    rw [update_idem, ← h, update_eq_self]
  conv_rhs => rw [← hback]
  exact (occ_put (update_self x none t)).symm

lemma filled_put (h : t x = none) : filled (update t x (some a)) = filled t + 1 := by
  have hset : (univ.filter fun y => (update t x (some a) y).isSome) = insert x (univ.filter fun y => (t y).isSome) := by
    ext y
    by_cases hy : y = x
    · subst hy
      simp
    · simp [hy]
  rw [filled, hset, card_insert_of_notMem (by simp [h]), filled]

lemma filled_clear (h : t x = some a) : filled (update t x none) + 1 = filled t := by
  have hback : update (update t x none) x (some a) = t := by
    rw [update_idem, ← h, update_eq_self]
  conv_rhs => rw [← hback]
  exact (filled_put (update_self x none t)).symm

end Lib
