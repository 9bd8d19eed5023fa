import Mathlib.Data.List.Sort
import Mathlib.Tactic

/-!
# Elements of a list by rank

The element of rank `i` of a list is the one at place `i` once the list is sorted.

* `le_ranked_iff` — an element of rank `i` is at least `m` iff no more than `i` elements are below `m`;
* `ranked_le_slide` — the upper median of a window does not fall when the window takes in a larger element.
-/

namespace Lib

open List

variable {α : Type*} [LinearOrder α] {l : List α} {m x : α} {i : ℕ}

/-- The element at place `i` of the sorted list. -/
def ranked (l : List α) (i : ℕ) : Option α := (l.insertionSort (· ≤ ·))[i]?

lemma countP_lt_eq_zero {a : α} (h : (a :: l).Pairwise (· ≤ ·)) (ha : m ≤ a) : l.countP (· < m) = 0 := by
  rw [countP_eq_zero]
  intro b hb
  have hab := rel_of_pairwise_cons h hb
  simpa using ha.trans hab

lemma le_getElem_iff_of_sorted (h : l.Pairwise (· ≤ ·)) (hx : l[i]? = some x) : m ≤ x ↔ l.countP (· < m) ≤ i := by
  induction l generalizing i with
  | nil => cases hx
  | cons a l ih =>
    rcases le_or_gt m a with ha | ha
    · -- nothing in the list is below `m`
      have hcount : (a :: l).countP (· < m) = 0 := by
        rw [countP_cons, countP_lt_eq_zero h ha]
        simpa using ha
      have hax : a ≤ x := by
        rcases mem_cons.1 (mem_of_getElem? hx) with rfl | hmem
        · exact le_rfl
        · exact rel_of_pairwise_cons h hmem
      exact iff_of_true (ha.trans hax) (hcount ▸ Nat.zero_le i)
    · have hcount : (a :: l).countP (· < m) = l.countP (· < m) + 1 := by
        rw [countP_cons, if_pos (by simpa using ha)]
      cases i with
      | zero =>
        obtain rfl : a = x := by simpa using hx
        exact iff_of_false (not_le.2 ha) (by omega)
      | succ i =>
        rw [ih h.of_cons (by simpa using hx)]
        omega

/-- **Rank and count**: an element of rank `i` is at least `m` iff no more than `i` elements are below `m`. -/
theorem le_ranked_iff (hx : ranked l i = some x) : m ≤ x ↔ l.countP (· < m) ≤ i := by
  rw [le_getElem_iff_of_sorted (pairwise_insertionSort _ l) hx, (perm_insertionSort _ l).countP_eq]

lemma exists_ranked (h : i < l.length) : ∃ x, ranked l i = some x :=
  ⟨_, getElem?_eq_getElem (by rwa [length_insertionSort])⟩

/-- A window of at most `n + 1` elements that takes in a larger element than its upper median, and gives up what is too
much, has no smaller an upper median. -/
theorem ranked_le_slide {n : ℕ} {a y : α} (hl : l.length ≤ n + 1) (hx : ranked l (l.length / 2) = some x)
    (hy : ranked (a :: l.take n) ((a :: l.take n).length / 2) = some y) (ha : x < a) : x ≤ y := by
  rw [le_ranked_iff hy]
  have hlen : l.length ≤ (a :: l.take n).length := by
    rw [length_cons, length_take]
    omega
  calc (a :: l.take n).countP (· < x) = (l.take n).countP (· < x) := countP_cons_of_neg (by simpa using ha.le)
    _ ≤ l.countP (· < x) := (take_sublist n l).countP_le
    _ ≤ l.length / 2 := (le_ranked_iff hx).1 le_rfl
    _ ≤ (a :: l.take n).length / 2 := Nat.div_le_div_right hlen

end Lib
