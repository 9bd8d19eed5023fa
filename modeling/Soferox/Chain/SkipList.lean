import Soferox.Chain.MedianTime

/-!
# Skip pointers

`CBlockIndex::pskip` of `chain.cpp`: `GetAncestor` goes back by `pskip` or by `pprev`, and `BuildSkip` finds `pskip` with
`GetAncestor`. A failed assertion is `none`.

* `Skips` — a skip pointer is null or leads to the ancestor at the skip height; every `BuildSkip` keeps that;
* `skipList_correct` — `GetAncestor` and `LastCommonAncestor` find the right blocks.
-/

namespace Soferox

open Lib

def invertLowestOne (n : ℕ) : ℕ := n &&& (n - 1)

def getSkipHeight (height : ℕ) : ℕ :=
  if height < 2 then 0
  else if height &&& 1 ≠ 0 then invertLowestOne (invertLowestOne (height - 1)) + 1
  else invertLowestOne height

lemma invertLowestOne_le (n : ℕ) : invertLowestOne n ≤ n - 1 := Nat.and_le_right

variable {height : ℕ}

lemma getSkipHeight_lt (h : 0 < height) : getSkipHeight height < height := by
  have h₁ := invertLowestOne_le (invertLowestOne (height - 1))
  have h₂ := invertLowestOne_le (height - 1)
  have h₃ := invertLowestOne_le height
  rw [getSkipHeight]
  split_ifs <;> omega

/-- The condition of `GetAncestor` under which a skip pointer is followed. -/
abbrev FollowsSkip (height heightWalk : ℕ) : Prop :=
  getSkipHeight heightWalk = height ∨ getSkipHeight heightWalk > height ∧
    ¬ ((getSkipHeight (heightWalk - 1) : ℤ) < getSkipHeight heightWalk - 2 ∧ getSkipHeight (heightWalk - 1) ≥ height)

namespace BlockTree

variable {ι : Type} (T : BlockTree ι) (pskip : ι → Option ι)

/-- The loop of `GetAncestor`. -/
def ancestorWalk (height heightWalk : ℕ) (pindexWalk : ι) : Option ι :=
  if heightWalk > height then
    match (if FollowsSkip height heightWalk then pskip pindexWalk else none) with
    | some pindex => ancestorWalk height (getSkipHeight heightWalk) pindex
    | none => (T.pprev pindexWalk).bind (ancestorWalk height (heightWalk - 1))
  else some pindexWalk
termination_by heightWalk
decreasing_by
  · exact getSkipHeight_lt (by omega)
  · omega

/-- `GetAncestor`, which may return null. -/
def skipAncestor (pindex : ι) (height : ℤ) : Option (Option ι) :=
  if height > T.nHeight pindex ∨ height < 0 then some none
  else (T.ancestorWalk pskip height.toNat (T.nHeight pindex) pindex).map some

def buildSkip [DecidableEq ι] (pskip : ι → Option ι) (pindex : ι) : Option (ι → Option ι) :=
  match T.pprev pindex with
  | none => some pskip
  | some pprev => (T.skipAncestor pskip pprev (getSkipHeight (T.nHeight pindex))).map (Function.update pskip pindex)

/-- `LastCommonAncestor`, with the walks of `GetAncestor`. -/
def skipCommonAncestor [DecidableEq ι] (pa pb : ι) : Option ι := do
  let pa' ← if T.nHeight pa > T.nHeight pb then T.skipAncestor pskip pa (T.nHeight pb) else some (some pa)
  let pb' ← if T.nHeight pb > T.nHeight pa then T.skipAncestor pskip pb (T.nHeight pa) else some (some pb)
  Forest.firstCommon (pa'.elim [] T.path) (pb'.elim [] T.path)

/-- A skip pointer is null, or leads to the ancestor at the skip height. -/
def Skips : Prop :=
  ∀ pindex a, pskip pindex = some a → a ∈ T.path pindex ∧ T.nHeight a = getSkipHeight (T.nHeight pindex)

variable {T pskip}

section

variable (h : T.Skips pskip)
include h

lemma Skips.ancestorWalk_eq {pindex a : ι} (ha : a ∈ T.path pindex)
    (hheight : T.nHeight a = height) : T.ancestorWalk pskip height (T.nHeight pindex) pindex = some a := by
  have hle := T.forest.depth_le_of_mem_path ha
  induction hn : T.nHeight pindex using Nat.strong_induction_on generalizing pindex with
  | _ n ih =>
    subst hn
    rw [ancestorWalk]
    split
    · split
      · -- the skip pointer does not lead below the height that is looked for
        rename_i pindex' hskip
        split_ifs at hskip with hfollow
        obtain ⟨hmem, hheight'⟩ := h _ _ hskip
        have hle' : T.nHeight a ≤ T.nHeight pindex' := by
          rw [hheight, hheight']
          rcases hfollow with heq | hlt
          · exact heq.ge
          · exact hlt.1.le
        rw [← hheight']
        exact ih _ (hheight' ▸ getSkipHeight_lt (by omega)) (T.forest.mem_path_of_depth_le hmem ha hle') hle' rfl
      · rcases T.forest.mem_path_iff.1 ha with rfl | ⟨p, hp, hap⟩
        · omega
        have hprev : T.nHeight pindex = T.nHeight p + 1 := T.forest.depth_of_parent hp
        rw [show T.pprev pindex = some p from hp, hprev]
        exact ih _ (by omega) hap (T.forest.depth_le_of_mem_path hap) rfl
    · rw [T.forest.eq_of_mem_path ha (show T.nHeight pindex ≤ T.nHeight a by omega)]

lemma Skips.skipAncestor_eq (pindex : ι) (height : ℤ) :
    T.skipAncestor pskip pindex height = some (T.getAncestorInt pindex height) := by
  rw [skipAncestor, getAncestorInt]
  by_cases hneg : height < 0
  · rw [if_pos (.inr hneg), if_pos hneg]
  rw [if_neg hneg]
  by_cases hle : height.toNat ≤ T.nHeight pindex
  · obtain ⟨a, ha⟩ := T.exists_getAncestor hle
    obtain ⟨hmem, hheight⟩ := T.getAncestor_eq_some.1 ha
    rw [if_neg (by omega), h.ancestorWalk_eq hmem hheight, ha, Option.map_some]
  · rw [if_pos (by omega)]
    exact congrArg some (if_neg hle).symm

variable [DecidableEq ι]

lemma Skips.buildSkip (pindex : ι) : ∃ pskip', T.buildSkip pskip pindex = some pskip' ∧ T.Skips pskip' := by
  rw [BlockTree.buildSkip]
  split
  · exact ⟨pskip, rfl, h⟩
  · rename_i p hp
    rw [h.skipAncestor_eq]
    refine ⟨_, rfl, fun b a hskip => ?_⟩
    by_cases hb : b = pindex
    · rw [hb, Function.update_self] at hskip
      obtain ⟨hmem, hheight⟩ := T.getAncestor_eq_some.1 hskip
      exact ⟨hb ▸ T.forest.mem_path_of_parent hp hmem, hb ▸ hheight⟩
    · rw [Function.update_of_ne hb] at hskip
      exact h b a hskip

lemma Skips.link (blocks : List ι) : ∃ pskip', blocks.foldlM T.buildSkip pskip = some pskip' ∧ T.Skips pskip' := by
  induction blocks generalizing pskip with
  | nil => exact ⟨pskip, rfl, h⟩
  | cons pindex blocks ih =>
    obtain ⟨pskip', hbuild, h'⟩ := h.buildSkip pindex
    rw [List.foldlM_cons, hbuild]
    exact ih h'

end

/-- **Skip pointers lead to the right blocks**, however the blocks were linked: `GetAncestor` is the ancestor at a height,
and `LastCommonAncestor` the highest common ancestor. -/
theorem skipList_correct [DecidableEq ι] (T : BlockTree ι) (blocks : List ι) :
    ∃ pskip, blocks.foldlM T.buildSkip (fun _ => none) = some pskip ∧
    (∀ pindex height, T.skipAncestor pskip pindex height = some (T.getAncestorInt pindex height)) ∧
    ∀ pa pb r, r ∈ T.path pa → r ∈ T.path pb → ∃ c, T.skipCommonAncestor pskip pa pb = some c ∧ c ∈ T.path pa ∧
      c ∈ T.path pb ∧ ∀ d, d ∈ T.path pa → d ∈ T.path pb → d ∈ T.path c := by
  have hnone : T.Skips fun _ => none := fun _ _ hskip => by cases hskip
  obtain ⟨pskip, hlink, h⟩ := hnone.link blocks
  refine ⟨pskip, hlink, h.skipAncestor_eq, fun pa pb r ha hb => ?_⟩
  have hsame : T.skipCommonAncestor pskip pa pb = T.lastCommonAncestor pa pb := by
    simp only [skipCommonAncestor, lastCommonAncestor, h.skipAncestor_eq]
    split_ifs <;> rfl
  rw [hsame]
  exact T.lastCommonAncestor_spec ha hb

end BlockTree

end Soferox
