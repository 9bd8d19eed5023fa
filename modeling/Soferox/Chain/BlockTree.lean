import Soferox.Lib.Forest

/-!
# The block tree

`chain.h`, `chain.cpp`: the part of the block index that a header fixes once and for all, for block indexes of any type
`ι` (a `CBlockIndex*` is a value of `ι`). `CBlockIndex::pskip` only shortens the walk of `GetAncestor`: see `SkipList`.

* `BlockTree.getAncestor`, `BlockTree.lastCommonAncestor`;
* `BlockTree.lastCommonAncestor_spec` — the highest common ancestor, if there is one.
-/

namespace Soferox

open Lib

/-- The links and heights of `CBlockIndex`. -/
structure BlockTree (ι : Type) where
  pprev : ι → Option ι
  nHeight : ι → ℕ
  nHeight_eq : ∀ pindex, nHeight pindex = (pprev pindex).elim 0 (nHeight · + 1)

namespace BlockTree

variable {ι : Type} (T : BlockTree ι)

/-- The block tree as a forest. -/
def forest : Forest ι := ⟨T.pprev, T.nHeight, T.nHeight_eq⟩

/-- The block, its `pprev`, and so on. -/
def path (pindex : ι) : List ι := T.forest.path pindex
def getAncestor (pindex : ι) (height : ℕ) : Option ι := T.forest.ancestorAt pindex height

/-- `LastCommonAncestor`: the two walks, from the same height on. -/
def lastCommonAncestor [DecidableEq ι] (pa pb : ι) : Option ι :=
  let pa' := if T.nHeight pa > T.nHeight pb then T.getAncestor pa (T.nHeight pb) else some pa
  let pb' := if T.nHeight pb > T.nHeight pa then T.getAncestor pb (T.nHeight pa) else some pb
  Forest.firstCommon (pa'.elim [] T.path) (pb'.elim [] T.path)

lemma exists_lowered (pa pb : ι) :
    ∃ a, (if T.nHeight pa > T.nHeight pb then T.getAncestor pa (T.nHeight pb) else some pa) = some a ∧
      a ∈ T.path pa ∧ T.nHeight a = min (T.nHeight pa) (T.nHeight pb) := by
  split_ifs with hgt
  · obtain ⟨a, ha⟩ := T.forest.exists_ancestorAt (le_of_lt hgt : T.forest.depth pb ≤ T.forest.depth pa)
    obtain ⟨hmem, hdepth⟩ := T.forest.ancestorAt_eq_some.1 ha
    exact ⟨a, ha, hmem, hdepth.trans (min_eq_right hgt.le).symm⟩
  · exact ⟨pa, rfl, T.forest.self_mem_path pa, (min_eq_left (not_lt.1 hgt)).symm⟩

lemma lastCommonAncestor_spec [DecidableEq ι] {pa pb r : ι} (ha : r ∈ T.path pa) (hb : r ∈ T.path pb) :
    ∃ c, T.lastCommonAncestor pa pb = some c ∧ c ∈ T.path pa ∧ c ∈ T.path pb ∧
      ∀ d, d ∈ T.path pa → d ∈ T.path pb → d ∈ T.path c := by
  obtain ⟨a, hla, hapa, hda⟩ := T.exists_lowered pa pb
  obtain ⟨b, hlb, hbpb, hdb⟩ := T.exists_lowered pb pa
  have hsame : T.nHeight a = T.nHeight b := by rw [hda, hdb, min_comm]
  -- a common ancestor is not above the lower of the two blocks
  have hlower : ∀ d, d ∈ T.path pa → d ∈ T.path pb → d ∈ T.path a ∧ d ∈ T.path b := by
    intro d hdpa hdpb
    have hle : T.nHeight d ≤ T.nHeight a := by
      rw [hda]
      exact le_min (T.forest.depth_le_of_mem_path hdpa) (T.forest.depth_le_of_mem_path hdpb)
    exact ⟨T.forest.mem_path_of_depth_le hapa hdpa hle, T.forest.mem_path_of_depth_le hbpb hdpb (hle.trans hsame.le)⟩
  obtain ⟨hra, hrb⟩ := hlower r ha hb
  obtain ⟨c, hc, hca, hcb, hmax⟩ := T.forest.firstCommon_path hsame hra hrb
  refine ⟨c, ?_, T.forest.path_trans hapa hca, T.forest.path_trans hbpb hcb, fun d hd₁ hd₂ => ?_⟩
  · rw [lastCommonAncestor]
    simp only [hla, hlb]
    exact hc
  · obtain ⟨h₁, h₂⟩ := hlower d hd₁ hd₂
    exact hmax d h₁ h₂

end BlockTree

def twoBlocks : BlockTree Bool where
  pprev pindex := if pindex then some false else none
  nHeight pindex := if pindex then 1 else 0
  nHeight_eq := by decide

end Soferox
