import Soferox.Chain.BlockTree
import Soferox.Lib.Rank

/-!
# Median time past

`chain.h`: `CBlockIndex::GetMedianTimePast`, and the rule of `ContextualCheckBlockHeader` (`validation.cpp`) that a block
is later than the median time past of its parent.

* `TimedTree` — a block tree in which every block obeys the rule;
* `TimedTree.getMedianTimePast_mono` — the median time past does not fall along a chain.
-/

namespace Soferox

open Lib List

namespace BlockTree

variable {ι : Type} (T : BlockTree ι) (nTime : ι → ℕ) {pindex : ι} {height : ℕ}

def nMedianTimeSpan : ℕ := 11

/-- The times that `GetMedianTimePast` collects: those of the block and of up to ten before it. -/
def medianWindow (pindex : ι) : List ℕ := ((T.path pindex).take nMedianTimeSpan).map nTime

def getMedianTimePast (pindex : ι) : ℕ :=
  let window := T.medianWindow nTime pindex
  (ranked window (window.length / 2)).getD 0

/-- `CBlockIndex::GetAncestor` at a height that may be negative. -/
def getAncestorInt (pindex : ι) (height : ℤ) : Option ι :=
  if height < 0 then none else T.getAncestor pindex height.toNat

/-- What is built on the second is built on the first or on a descendant of it. -/
def Precedes (p q : Option ι) : Prop := ∀ a, p = some a → ∃ b, q = some b ∧ a ∈ T.path b

lemma getAncestor_eq_some {a : ι} : T.getAncestor pindex height = some a ↔ a ∈ T.path pindex ∧ T.nHeight a = height :=
  T.forest.ancestorAt_eq_some

lemma getAncestor_of_mem_path {a b c : ι} (hab : a ∈ T.path b) (h : T.getAncestor a height = some c) :
    T.getAncestor b height = some c := by
  obtain ⟨hmem, hheight⟩ := T.getAncestor_eq_some.1 h
  exact T.getAncestor_eq_some.2 ⟨T.forest.path_trans hab hmem, hheight⟩

lemma exists_getAncestor (h : height ≤ T.nHeight pindex) : ∃ a, T.getAncestor pindex height = some a :=
  T.forest.exists_ancestorAt h

lemma length_path (pindex : ι) : (T.path pindex).length = T.nHeight pindex + 1 := T.forest.length_path pindex

lemma medianWindow_pos (pindex : ι) : 0 < (T.medianWindow nTime pindex).length := by
  rw [medianWindow, length_map, length_take, T.length_path, nMedianTimeSpan]
  omega

lemma medianWindow_le (pindex : ι) : (T.medianWindow nTime pindex).length ≤ nMedianTimeSpan := by
  rw [medianWindow, length_map, length_take]
  exact min_le_left _ _

lemma ranked_medianWindow (pindex : ι) :
    ranked (T.medianWindow nTime pindex) ((T.medianWindow nTime pindex).length / 2) =
      some (T.getMedianTimePast nTime pindex) := by
  obtain ⟨x, hx⟩ := exists_ranked (Nat.div_lt_self (T.medianWindow_pos nTime pindex) one_lt_two)
  rw [getMedianTimePast, hx]
  rfl

lemma medianWindow_of_pprev {p : ι} (h : T.pprev pindex = some p) :
    T.medianWindow nTime pindex = nTime pindex :: (T.medianWindow nTime p).take 10 := by
  have hpath : T.path pindex = pindex :: T.path p := T.forest.path_of_parent h
  rw [medianWindow, medianWindow, hpath, ← map_take, take_take]
  rfl

end BlockTree

/-- A block tree, with the times of the headers, that `ContextualCheckBlockHeader` has let pass (`time-too-old`). -/
structure TimedTree (ι : Type) extends BlockTree ι where
  nTime : ι → ℕ
  not_too_old : ∀ pindex pindexPrev, toBlockTree.pprev pindex = some pindexPrev →
    toBlockTree.getMedianTimePast nTime pindexPrev < nTime pindex

namespace TimedTree

variable {ι : Type} (T : TimedTree ι)

def getMedianTimePast (pindex : ι) : ℕ := T.toBlockTree.getMedianTimePast T.nTime pindex

lemma getMedianTimePast_of_pprev {pindex p : ι} (h : T.pprev pindex = some p) :
    T.getMedianTimePast p ≤ T.getMedianTimePast pindex := by
  have hx := T.ranked_medianWindow T.nTime p
  have hy := T.ranked_medianWindow T.nTime pindex
  rw [T.medianWindow_of_pprev T.nTime h] at hy
  exact ranked_le_slide (T.medianWindow_le T.nTime p) hx hy (T.not_too_old pindex p h)

lemma getMedianTimePast_mono {a b : ι} (h : a ∈ T.path b) : T.getMedianTimePast a ≤ T.getMedianTimePast b := by
  induction b using T.forest.induction with
  | step b ih =>
    rcases T.forest.mem_path_iff.1 h with rfl | ⟨p, hp, ha⟩
    · exact le_rfl
    · exact (ih p hp ha).trans (T.getMedianTimePast_of_pprev hp)

end TimedTree

end Soferox
