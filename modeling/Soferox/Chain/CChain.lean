import Soferox.Chain.BlockTree

/-!
# The active chain

`CChain` of `chain.h` and `chain.cpp`: a vector of block indexes, one for each height. `FollowsTip` says that the vector
is the path of its last block.

* `CChain.followsTip_setTip` — `SetTip` keeps that, though it stops at the first block it finds in place;
* `CChain.IsPathOf.contains_iff`, `CChain.IsPathOf.findFork_spec` — what `Contains` and `FindFork` mean for such a chain.
-/

namespace Soferox

open Lib List

/-- `CChain`; a slot that `resize` made and nothing has filled is a null pointer. -/
structure CChain (ι : Type) where
  vChain : List (Option ι)

namespace CChain

variable {ι : Type} (T : BlockTree ι)

def tip (c : CChain ι) : Option ι := c.vChain.getLast?.join

/-- `operator[]`. -/
def blockAt (c : CChain ι) (nHeight : ℕ) : Option ι := c.vChain[nHeight]?.join

/-- `vChain.resize(n)`. -/
def resize (v : List (Option ι)) (n : ℕ) : List (Option ι) := (v ++ List.replicate (n - v.length) none).take n

variable [DecidableEq ι]

def contains (c : CChain ι) (pindex : ι) : Bool := c.blockAt (T.nHeight pindex) = some pindex

/-- The loop of `SetTip` over a block and its ancestors. -/
def fill : List ι → List (Option ι) → List (Option ι)
  | [], v => v
  | pindex :: rest, v =>
    if v[T.nHeight pindex]? = some (some pindex) then v else fill rest (v.set (T.nHeight pindex) (some pindex))

def setTip (c : CChain ι) : Option ι → CChain ι
  | none => ⟨[]⟩
  | some pindex => ⟨fill T (T.path pindex) (resize c.vChain (T.nHeight pindex + 1))⟩

/-- `FindFork`; below the genesis block there is no ancestor. -/
def findFork (c : CChain ι) (pindex : ι) : Option ι :=
  let start := if T.nHeight pindex ≥ c.vChain.length then
    (if c.vChain.length = 0 then none else T.getAncestor pindex (c.vChain.length - 1)) else some pindex
  start.bind fun p => (T.path p).find? (c.contains T)

/-! ## Chains that are the path of their tip -/

/-- The chain is the path of `t`, from the genesis block on. -/
def IsPathOf (c : CChain ι) (t : ι) : Prop := c.vChain = (T.path t).reverse.map some

/-- The chain is empty, or the path of its tip. -/
def FollowsTip (c : CChain ι) : Prop := c.vChain = [] ∨ ∃ t, c.IsPathOf T t

variable {T} {c : CChain ι} {t : ι}

section

omit [DecidableEq ι]

lemma IsPathOf.length (h : c.IsPathOf T t) : c.vChain.length = T.nHeight t + 1 := by
  rw [h, length_map, length_reverse]
  exact T.forest.length_path t

lemma IsPathOf.getElem? (h : c.IsPathOf T t) {i : ℕ} (hi : i ≤ T.nHeight t) :
    c.vChain[i]? = (T.getAncestor t i).map some := by
  have hlen : (T.path t).length = T.nHeight t + 1 := T.forest.length_path t
  rw [h, getElem?_map, getElem?_reverse (by omega), hlen, BlockTree.getAncestor, Forest.ancestorAt]
  rw [if_pos (show i ≤ T.forest.depth t from hi)]
  rfl

lemma IsPathOf.tip (h : c.IsPathOf T t) : c.tip = some t := by
  have hlen := h.length
  rw [CChain.tip, getLast?_eq_getElem?, hlen, Nat.add_sub_cancel, h.getElem? le_rfl]
  rw [show T.getAncestor t (T.nHeight t) = some t from T.forest.ancestorAt_self t]
  rfl

lemma FollowsTip.cases (h : c.FollowsTip T) : (c.vChain = [] ∧ c.tip = none) ∨ ∃ t, c.IsPathOf T t ∧ c.tip = some t := by
  rcases h with h | ⟨t, h⟩
  · exact .inl ⟨h, by rw [CChain.tip, h]; rfl⟩
  · exact .inr ⟨t, h, h.tip⟩

lemma FollowsTip.isPathOf (h : c.FollowsTip T) (ht : c.tip = some t) : c.IsPathOf T t := by
  rcases h.cases with ⟨-, h⟩ | ⟨t', h, htip⟩
  · rw [h] at ht
    cases ht
  · rw [htip] at ht
    cases ht
    exact h

end

lemma IsPathOf.contains_iff (h : c.IsPathOf T t) {b : ι} : c.contains T b = true ↔ b ∈ T.path t := by
  rw [contains, decide_eq_true_iff, blockAt]
  by_cases hb : T.nHeight b ≤ T.nHeight t
  · have hjoin : ∀ o : Option ι, (o.map some).join = o := fun o => by cases o <;> rfl
    rw [h.getElem? hb, hjoin, BlockTree.getAncestor, Forest.ancestorAt_eq_some]
    exact ⟨And.left, fun hmem => ⟨hmem, rfl⟩⟩
  · rw [getElem?_eq_none (by rw [h.length]; omega)]
    exact ⟨nofun, fun hmem => absurd (T.forest.depth_le_of_mem_path hmem) hb⟩

/-! ## `SetTip` -/

/-- A block that stands at its height has its ancestors below it. -/
def Rooted (T : BlockTree ι) (v : List (Option ι)) (n : ℕ) : Prop :=
  ∀ b, T.nHeight b ≤ n → v[T.nHeight b]? = some (some b) → ∀ a ∈ T.path b, v[T.nHeight a]? = some (some a)

omit [DecidableEq ι] in
lemma FollowsTip.rooted (h : c.FollowsTip T) (n : ℕ) : Rooted T (resize c.vChain n) n := by
  intro b _ hb a ha
  rcases h with h | ⟨t, h⟩
  · rw [resize, h, nil_append, getElem?_take] at hb
    split at hb
    · rw [getElem?_replicate] at hb
      split at hb
      · cases hb
      · cases hb
    · cases hb
  · have hle := T.forest.depth_le_of_mem_path ha
    change T.nHeight a ≤ T.nHeight b at hle
    rw [resize, getElem?_take] at hb ⊢
    split at hb
    · rw [if_pos (by omega)]
      by_cases hin : T.nHeight b < c.vChain.length
      · have hbt : T.nHeight b ≤ T.nHeight t := by
          rw [h.length] at hin
          omega
        rw [getElem?_append_left hin, h.getElem? hbt, Option.map_eq_some_iff] at hb
        obtain ⟨b', hb', heq⟩ := hb
        cases heq
        obtain ⟨hmem, -⟩ := T.forest.ancestorAt_eq_some.1 hb'
        rw [getElem?_append_left (by omega), h.getElem? (by omega), Option.map_eq_some_iff]
        exact ⟨a, T.forest.ancestorAt_eq_some.2 ⟨T.forest.path_trans hmem ha, rfl⟩, rfl⟩
      · rw [getElem?_append_right (by omega), getElem?_replicate] at hb
        split at hb <;> cases hb
    · cases hb

lemma fill_spec {v : List (Option ι)} {p : ι} (hv : Rooted T v (T.nHeight p)) (hlen : T.nHeight p < v.length) :
    (fill T (T.path p) v).length = v.length ∧
      (∀ i, T.nHeight p < i → (fill T (T.path p) v)[i]? = v[i]?) ∧
      ∀ a ∈ T.path p, (fill T (T.path p) v)[T.nHeight a]? = some (some a) := by
  induction p using T.forest.induction generalizing v with
  | step p ih =>
    have hset : (v.set (T.nHeight p) (some p))[T.nHeight p]? = some (some p) := getElem?_set_self hlen
    cases hp : T.pprev p with
    | none =>
      have hpath : T.path p = [p] := T.forest.path_of_root hp
      rw [hpath, fill]
      split_ifs with hin
      · exact ⟨rfl, fun _ _ => rfl, by simpa using hin⟩
      · refine ⟨by rw [fill, length_set], fun i hi => ?_, ?_⟩
        · rw [fill, getElem?_set_ne (by omega)]
        · simpa [fill] using hset
    | some q =>
      have hpath : T.path p = p :: T.path q := T.forest.path_of_parent hp
      have hheight : T.nHeight p = T.nHeight q + 1 := T.forest.depth_of_parent hp
      rw [hpath, fill]
      split_ifs with hin
      · exact ⟨rfl, fun _ _ => rfl, hpath ▸ hv p le_rfl hin⟩
      · -- the slot of `p` is above everything that the rest of the loop reads
        have hrooted : Rooted T (v.set (T.nHeight p) (some p)) (T.nHeight q) := by
          intro b hb hbv a ha
          have hab : T.nHeight a ≤ T.nHeight b := T.forest.depth_le_of_mem_path ha
          rw [getElem?_set_ne (by omega)] at hbv ⊢
          exact hv b (by omega) hbv a ha
        obtain ⟨hl, habove, hbelow⟩ := ih q hp hrooted (by rw [length_set]; omega)
        refine ⟨by rw [hl, length_set], fun i hi => ?_, fun a ha => ?_⟩
        · rw [habove i (by omega), getElem?_set_ne (by omega)]
        · rcases mem_cons.1 ha with rfl | ha
          · rw [habove _ (by omega), hset]
          · exact hbelow a ha

lemma FollowsTip.setTip_isPathOf (h : c.FollowsTip T) (p : ι) : (c.setTip T (some p)).IsPathOf T p := by
  have hlen : (resize c.vChain (T.nHeight p + 1)).length = T.nHeight p + 1 := by
    rw [resize, length_take, length_append, length_replicate]
    omega
  have hrooted : Rooted T (resize c.vChain (T.nHeight p + 1)) (T.nHeight p) := fun b hb =>
    h.rooted (T.nHeight p + 1) b (by omega)
  obtain ⟨hl, -, hbelow⟩ := fill_spec hrooted (by omega)
  have hpathlen : ((T.path p).reverse.map some).length = T.nHeight p + 1 := by
    rw [length_map, length_reverse]
    exact T.forest.length_path p
  refine ext_getElem? fun i => ?_
  by_cases hi : i ≤ T.nHeight p
  · obtain ⟨a, ha⟩ := T.forest.exists_ancestorAt (show i ≤ T.forest.depth p from hi)
    obtain ⟨hmem, hdepth⟩ := T.forest.ancestorAt_eq_some.1 ha
    have hpath : IsPathOf T ⟨(T.path p).reverse.map some⟩ p := rfl
    have hright := hpath.getElem? hi
    rw [show T.getAncestor p i = some a from ha] at hright
    refine Eq.trans ?_ hright.symm
    rw [← show T.nHeight a = i from hdepth]
    exact hbelow a hmem
  · have hsize : (c.setTip T (some p)).vChain.length = T.nHeight p + 1 := hl.trans hlen
    rw [getElem?_eq_none (by omega), getElem?_eq_none (by omega)]

/-! ## `FindFork` -/

lemma IsPathOf.findFork_spec (h : c.IsPathOf T t) {p r : ι} (hrt : r ∈ T.path t) (hrp : r ∈ T.path p) :
    ∃ f, c.findFork T p = some f ∧ f ∈ T.path t ∧ f ∈ T.path p ∧ ∀ d, d ∈ T.path t → d ∈ T.path p → d ∈ T.path f := by
  obtain ⟨a, ha, hap, hheight⟩ := T.exists_lowered p t
  have hstart : (if T.nHeight p ≥ c.vChain.length then
      (if c.vChain.length = 0 then none else T.getAncestor p (c.vChain.length - 1)) else some p) = some a := by
    rw [h.length, if_neg (Nat.succ_ne_zero _), Nat.add_sub_cancel, ← ha]
    exact if_congr (by omega) rfl rfl
  -- an ancestor of both is an ancestor of the lowered block
  have hlower : ∀ d, d ∈ T.path t → d ∈ T.path p → d ∈ T.path a := fun d hdt hdp => by
    refine T.forest.mem_path_of_depth_le hap hdp ?_
    show T.nHeight d ≤ T.nHeight a
    rw [hheight]
    exact le_min (T.forest.depth_le_of_mem_path hdp) (T.forest.depth_le_of_mem_path hdt)
  have hfind : ∃ f, (T.path a).find? (c.contains T) = some f := by
    refine Option.isSome_iff_exists.1 (find?_isSome.2 ⟨r, hlower r hrt hrp, h.contains_iff.2 hrt⟩)
  obtain ⟨f, hf⟩ := hfind
  have hft : f ∈ T.path t := h.contains_iff.1 (find?_some hf)
  have hfa : f ∈ T.path a := mem_of_find?_eq_some hf
  refine ⟨f, ?_, hft, T.forest.path_trans hap hfa, fun d hdt hdp => ?_⟩
  · simp only [findFork, hstart]
    exact hf
  · obtain ⟨-, l₁, l₂, hsplit, hnot⟩ := find?_eq_some_iff_append.1 hf
    have hd := hlower d hdt hdp
    rw [hsplit, mem_append] at hd
    rcases hd with hd | hd
    · exact absurd (h.contains_iff.2 hdt) (by simpa using hnot d hd)
    · rwa [show T.path f = f :: l₂ from T.forest.path_eq_of_suffix (hsplit ▸ suffix_append ..)]

end CChain

end Soferox
