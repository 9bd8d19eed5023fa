import Mathlib.Data.List.TakeWhile
import Mathlib.Tactic

/-!
# Forests given by parent pointers

A forest is a parent function with a depth that counts the steps to the root. The path of a node is the list of the
node, its parent, and so on to the root; a node is an ancestor of another (or that node) when it is on its path.

* `Forest.path_eq` — the path, by its first step;
* `Forest.induction` — induction from the roots;
* `Forest.path_suffix`, `Forest.path_trans`, `Forest.mem_path_or_mem_path` — ancestors of ancestors, and of one node;
* `Forest.takeWhile_append_path`, `Forest.mem_takeWhile_path` — a path cut at an ancestor;
* `Forest.ancestorAt`, `Forest.map_ancestorAt` — the ancestor at a given depth, and all of them between two nodes;
* `Forest.firstCommon_path` — the highest common ancestor.
-/

namespace Lib

open List

/-- Parent pointers, with the number of steps to the root. -/
structure Forest (ι : Type*) where
  parent : ι → Option ι
  depth : ι → ℕ
  depth_eq : ∀ i, depth i = (parent i).elim 0 (depth · + 1)

namespace Forest

variable {ι : Type*} (F : Forest ι) {i j k : ι} {d : ℕ} {l : List ι}

lemma depth_of_parent (h : F.parent i = some j) : F.depth i = F.depth j + 1 := by
  rw [F.depth_eq, h]
  rfl

lemma depth_of_root (h : F.parent i = none) : F.depth i = 0 := by
  rw [F.depth_eq, h]
  rfl

lemma exists_parent (h : F.depth i ≠ 0) : ∃ j, F.parent i = some j := by
  cases hp : F.parent i with
  | none => exact absurd (F.depth_of_root hp) h
  | some j => exact ⟨j, rfl⟩

lemma parent_of_depth_zero (h : F.depth i = 0) : F.parent i = none := by
  cases hp : F.parent i with
  | none => rfl
  | some j =>
    rw [F.depth_of_parent hp] at h
    cases h

lemma induction {P : ι → Prop} (step : ∀ i, (∀ j, F.parent i = some j → P j) → P i) (i : ι) : P i := by
  induction h : F.depth i using Nat.strong_induction_on generalizing i with
  | _ n ih =>
    refine step i fun j hj => ih (F.depth j) ?_ j rfl
    rw [← h, F.depth_of_parent hj]
    omega

/-- The first `n` steps of the path. -/
def pathFrom : ℕ → ι → List ι
  | 0, i => [i]
  | n + 1, i => i :: (F.parent i).elim [] (pathFrom n)

/-- The node, its parent, and so on to the root. -/
def path (i : ι) : List ι := F.pathFrom (F.depth i) i

lemma path_of_root (h : F.parent i = none) : F.path i = [i] := by
  rw [path, F.depth_of_root h, pathFrom]

lemma path_of_parent (h : F.parent i = some j) : F.path i = i :: F.path j := by
  rw [path, F.depth_of_parent h, pathFrom, h]
  rfl

lemma length_path (i : ι) : (F.path i).length = F.depth i + 1 := by
  induction i using F.induction with
  | step i ih =>
    cases hp : F.parent i with
    | none => simp [F.path_of_root hp, F.depth_of_root hp]
    | some j => simp [F.path_of_parent hp, F.depth_of_parent hp, ih j hp]

lemma self_mem_path (i : ι) : i ∈ F.path i := by
  cases hp : F.parent i with
  | none => simp [F.path_of_root hp]
  | some j => simp [F.path_of_parent hp]

lemma mem_path_iff : j ∈ F.path i ↔ j = i ∨ ∃ p, F.parent i = some p ∧ j ∈ F.path p := by
  cases hp : F.parent i with
  | none => simp [F.path_of_root hp]
  | some p => simp [F.path_of_parent hp]

lemma mem_path_of_parent (hp : F.parent i = some k) (h : j ∈ F.path k) : j ∈ F.path i :=
  F.mem_path_iff.2 (.inr ⟨k, hp, h⟩)

lemma parent_mem_path (hp : F.parent i = some j) : j ∈ F.path i := F.mem_path_of_parent hp (F.self_mem_path j)

lemma path_suffix (h : j ∈ F.path i) : F.path j <:+ F.path i := by
  induction i using F.induction with
  | step i ih =>
    rcases F.mem_path_iff.1 h with rfl | ⟨p, hp, hj⟩
    · exact suffix_rfl
    · rw [F.path_of_parent hp]
      exact (ih p hp hj).trans (suffix_cons _ _)

lemma path_trans (hij : j ∈ F.path i) (hjk : k ∈ F.path j) : k ∈ F.path i := (F.path_suffix hij).subset hjk

section

variable (h : j ∈ F.path i)
include h

lemma depth_le_of_mem_path : F.depth j ≤ F.depth i := by
  have := (F.path_suffix h).length_le
  rw [F.length_path, F.length_path] at this
  omega

lemma eq_of_mem_path (hd : F.depth i ≤ F.depth j) : j = i := by
  rcases F.mem_path_iff.1 h with rfl | ⟨p, hp, hj⟩
  · rfl
  · have hle := F.depth_le_of_mem_path hj
    rw [F.depth_of_parent hp] at hd
    omega

lemma depth_lt_of_mem_path (hne : j ≠ i) : F.depth j < F.depth i := by
  by_contra hge
  exact hne (F.eq_of_mem_path h (by omega))

lemma exists_child_of_mem_path (hne : j ≠ i) : ∃ k ∈ F.path i, F.parent k = some j := by
  induction i using F.induction with
  | step i ih =>
    rcases F.mem_path_iff.1 h with rfl | ⟨p, hp, hj⟩
    · exact absurd rfl hne
    · by_cases hjp : j = p
      · exact ⟨i, F.self_mem_path i, hjp ▸ hp⟩
      · obtain ⟨k, hk, hkj⟩ := ih p hp hj hjp
        exact ⟨k, F.mem_path_of_parent hp hk, hkj⟩

end

lemma mem_path_or_mem_path (hj : j ∈ F.path i) (hk : k ∈ F.path i) : j ∈ F.path k ∨ k ∈ F.path j := by
  induction i using F.induction with
  | step i ih =>
    rcases F.mem_path_iff.1 hj with rfl | ⟨p, hp, hj'⟩
    · exact .inr hk
    · rcases F.mem_path_iff.1 hk with rfl | ⟨q, hq, hk'⟩
      · exact .inl hj
      · rw [hp] at hq
        cases hq
        exact ih p hp hj' hk'

lemma mem_path_of_depth_le (hj : j ∈ F.path i) (hk : k ∈ F.path i) (hd : F.depth k ≤ F.depth j) : k ∈ F.path j := by
  rcases F.mem_path_or_mem_path hj hk with h | h
  · rw [F.eq_of_mem_path h hd]
    exact F.self_mem_path k
  · exact h

lemma path_eq_of_suffix (h : j :: l <:+ F.path i) : F.path j = j :: l := by
  induction i using F.induction with
  | step i ih =>
    cases hp : F.parent i with
    | none =>
      rw [F.path_of_root hp] at h
      rcases suffix_cons_iff.1 h with heq | hnil
      · cases heq
        exact F.path_of_root hp
      · cases suffix_nil.1 hnil
    | some p =>
      have hpath := F.path_of_parent hp
      rw [hpath] at h
      rcases suffix_cons_iff.1 h with heq | hrest
      · cases heq
        exact hpath
      · exact ih p hp hrest

lemma path_nodup (i : ι) : (F.path i).Nodup := by
  induction i using F.induction with
  | step i ih =>
    cases hp : F.parent i with
    | none =>
      rw [F.path_of_root hp]
      exact nodup_singleton i
    | some j =>
      rw [F.path_of_parent hp, nodup_cons]
      refine ⟨fun hi => ?_, ih j hp⟩
      have := F.depth_le_of_mem_path hi
      rw [F.depth_of_parent hp] at this
      omega

lemma takeWhile_append_path_of {P : ι → Bool} (h : j ∈ F.path i) (hj : P j = false)
    (hP : ∀ k ∈ F.path i, j ∈ F.path k → j ≠ k → P k = true) : (F.path i).takeWhile P ++ F.path j = F.path i := by
  induction i using F.induction with
  | step i ih =>
    rcases F.mem_path_iff.1 h with rfl | ⟨p, hp, hjp⟩
    · cases hp : F.parent j with
      | none => simp [F.path_of_root hp, hj]
      | some p => simp [F.path_of_parent hp, hj]
    · have hne : j ≠ i := by
        rintro rfl
        have := F.depth_le_of_mem_path hjp
        rw [F.depth_of_parent hp] at this
        omega
      have hrest := ih p hp hjp fun k hk => hP k (F.mem_path_of_parent hp hk)
      rw [F.path_of_parent hp, takeWhile_cons_of_pos (hP i (F.self_mem_path i) h hne), cons_append, hrest]

lemma takeWhile_append_path [DecidableEq ι] (h : j ∈ F.path i) : (F.path i).takeWhile (· ≠ j) ++ F.path j = F.path i :=
  F.takeWhile_append_path_of h (by simp) fun k _ _ hne => by simpa using hne.symm

lemma parent_of_path_eq (h : F.path i = i :: F.path j) : F.parent i = some j := by
  cases hp : F.parent i with
  | none =>
    rw [F.path_of_root hp, List.cons.injEq] at h
    have := F.self_mem_path j
    rw [← h.2] at this
    cases this
  | some k =>
    rw [F.path_of_parent hp, List.cons.injEq] at h
    have hkj : k ∈ F.path j := h.2 ▸ F.self_mem_path k
    have hjk : j ∈ F.path k := h.2 ▸ F.self_mem_path j
    rw [F.eq_of_mem_path hkj (F.depth_le_of_mem_path hjk)]

lemma mem_takeWhile_path [DecidableEq ι] (h : j ∈ F.path i) :
    k ∈ (F.path i).takeWhile (· ≠ j) ↔ k ∈ F.path i ∧ j ∈ F.path k ∧ j ≠ k := by
  constructor
  · intro hk
    have hki : k ∈ F.path i := (takeWhile_sublist _).subset hk
    have hne : j ≠ k := fun hjk => by
      have := mem_takeWhile_imp hk
      simp [hjk] at this
    refine ⟨hki, (F.mem_path_or_mem_path h hki).resolve_right fun hkj => ?_, hne⟩
    have hnodup := F.path_nodup i
    rw [← F.takeWhile_append_path h] at hnodup
    exact (nodup_append.1 hnodup).2.2 k hk k hkj rfl
  · rintro ⟨hki, hjk, hne⟩
    rw [← F.takeWhile_append_path h, mem_append] at hki
    refine hki.resolve_right fun hkj => hne ?_
    exact F.eq_of_mem_path hjk (F.depth_le_of_mem_path hkj)

/-! ## The ancestor at a depth -/

/-- The ancestor at depth `d`. -/
def ancestorAt (i : ι) (d : ℕ) : Option ι := if d ≤ F.depth i then (F.path i)[F.depth i - d]? else none

lemma ancestorAt_self (i : ι) : F.ancestorAt i (F.depth i) = some i := by
  rw [ancestorAt]
  cases hp : F.parent i with
  | none => simp [F.path_of_root hp]
  | some j => simp [F.path_of_parent hp]

lemma ancestorAt_of_parent (hp : F.parent i = some j) (hd : d ≤ F.depth j) : F.ancestorAt i d = F.ancestorAt j d := by
  have hdi := F.depth_of_parent hp
  rw [ancestorAt, ancestorAt, if_pos (by omega), if_pos hd, F.path_of_parent hp,
    show F.depth i - d = F.depth j - d + 1 by omega, getElem?_cons_succ]

lemma ancestorAt_eq_some : F.ancestorAt i d = some j ↔ j ∈ F.path i ∧ F.depth j = d := by
  induction i using F.induction with
  | step i ih =>
    cases hp : F.parent i with
    | none =>
      have hdepth := F.depth_of_root hp
      rw [F.path_of_root hp, mem_singleton, ancestorAt, F.path_of_root hp, hdepth]
      constructor
      · intro h
        split at h
        · obtain rfl : d = 0 := by omega
          simp only [Nat.sub_self, getElem?_cons_zero, Option.some.injEq] at h
          exact ⟨h.symm, h ▸ hdepth⟩
        · cases h
      · rintro ⟨rfl, hd⟩
        simp [← hd, hdepth]
    | some p =>
      have hdepth := F.depth_of_parent hp
      by_cases hd : d ≤ F.depth p
      · rw [F.ancestorAt_of_parent hp hd, ih p hp, F.path_of_parent hp, mem_cons]
        constructor
        · rintro ⟨hj, rfl⟩
          exact ⟨.inr hj, rfl⟩
        · rintro ⟨rfl | hj, rfl⟩
          · omega
          · exact ⟨hj, rfl⟩
      · by_cases hdi : d = F.depth i
        · rw [hdi, F.ancestorAt_self]
          constructor
          · rintro ⟨⟩
            exact ⟨F.self_mem_path j, rfl⟩
          · rintro ⟨hj, hdj⟩
            rw [F.eq_of_mem_path hj hdj.ge]
        · rw [ancestorAt, if_neg (by omega)]
          constructor
          · rintro ⟨⟩
          · rintro ⟨hj, rfl⟩
            have := F.depth_le_of_mem_path hj
            omega

lemma exists_ancestorAt (h : d ≤ F.depth i) : ∃ j, F.ancestorAt i d = some j := by
  rw [ancestorAt, if_pos h]
  exact ⟨_, getElem?_eq_getElem (by rw [F.length_path]; omega)⟩

lemma map_ancestorAt (h : F.path i = l ++ F.path j) :
    (range' (F.depth j + 1) (F.depth i - F.depth j)).map (F.ancestorAt i) = l.reverse.map some := by
  induction l generalizing i with
  | nil =>
    have hlen := congrArg List.length h
    rw [nil_append, F.length_path, F.length_path] at hlen
    rw [show F.depth i - F.depth j = 0 by omega]
    rfl
  | cons k l ih =>
    have hlen := congrArg List.length h
    rw [F.length_path, length_append, F.length_path, length_cons] at hlen
    obtain ⟨p, hp⟩ : ∃ p, F.parent i = some p := F.exists_parent (by omega)
    have hdepth := F.depth_of_parent hp
    rw [F.path_of_parent hp, cons_append, List.cons.injEq] at h
    obtain ⟨rfl, htail⟩ := h
    have hrange : range' (F.depth j + 1) (F.depth i - F.depth j) =
        range' (F.depth j + 1) (F.depth p - F.depth j) ++ [F.depth i] := by
      rw [show F.depth i - F.depth j = F.depth p - F.depth j + 1 by omega, range'_concat]
      congr 2
      omega
    have hlow : (range' (F.depth j + 1) (F.depth p - F.depth j)).map (F.ancestorAt i) =
        (range' (F.depth j + 1) (F.depth p - F.depth j)).map (F.ancestorAt p) := by
      refine map_congr_left fun d hd => F.ancestorAt_of_parent hp ?_
      rw [mem_range'_1] at hd
      omega
    rw [hrange, map_append, hlow, ih htail, map_singleton, F.ancestorAt_self, reverse_cons, map_append, map_singleton]

/-! ## Common ancestors -/

variable [DecidableEq ι]

/-- The first place where two lists agree. -/
def firstCommon : List ι → List ι → Option ι
  | a :: as, b :: bs => if a = b then some a else firstCommon as bs
  | _, _ => none

lemma firstCommon_path {a b r : ι} (hd : F.depth a = F.depth b) (ha : r ∈ F.path a) (hb : r ∈ F.path b) :
    ∃ c, firstCommon (F.path a) (F.path b) = some c ∧ c ∈ F.path a ∧ c ∈ F.path b ∧
      ∀ d, d ∈ F.path a → d ∈ F.path b → d ∈ F.path c := by
  induction a using F.induction generalizing b with
  | step a ih =>
    by_cases hab : a = b
    · subst hab
      refine ⟨a, ?_, F.self_mem_path a, F.self_mem_path a, fun d hda _ => hda⟩
      cases hp : F.parent a with
      | none => simp [F.path_of_root hp, firstCommon]
      | some p => simp [F.path_of_parent hp, firstCommon]
    · -- a common ancestor is not one of the two nodes, which have the same depth
      have hproper : ∀ d, d ∈ F.path a → d ∈ F.path b → d ≠ a ∧ d ≠ b := by
        intro d hda hdb
        constructor
        · rintro rfl
          exact hab (F.eq_of_mem_path hdb hd.ge)
        · rintro rfl
          exact hab (F.eq_of_mem_path hda hd.le).symm
      have hparent : ∀ {x d : ι}, d ∈ F.path x → d ≠ x → ∃ p, F.parent x = some p ∧ d ∈ F.path p := fun hdx hne =>
        (F.mem_path_iff.1 hdx).resolve_left hne
      obtain ⟨pa, hpa, hra⟩ := hparent ha (hproper r ha hb).1
      obtain ⟨pb, hpb, hrb⟩ := hparent hb (hproper r ha hb).2
      have hda := F.depth_of_parent hpa
      have hdb := F.depth_of_parent hpb
      obtain ⟨c, hc, hca, hcb, hmax⟩ := ih pa hpa (by omega) hra hrb
      refine ⟨c, ?_, F.mem_path_of_parent hpa hca, F.mem_path_of_parent hpb hcb, fun d hd₁ hd₂ => ?_⟩
      · rw [F.path_of_parent hpa, F.path_of_parent hpb, firstCommon, if_neg hab, hc]
      · obtain ⟨hne₁, hne₂⟩ := hproper d hd₁ hd₂
        obtain ⟨p, hp, hdp⟩ := hparent hd₁ hne₁
        obtain ⟨q, hq, hdq⟩ := hparent hd₂ hne₂
        rw [hpa] at hp
        rw [hpb] at hq
        cases hp
        cases hq
        exact hmax d hdp hdq

end Forest

end Lib
