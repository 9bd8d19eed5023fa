import Mathlib.Logic.Relation
import Mathlib.Data.Finset.Card
import Mathlib.Algebra.BigOperators.Group.Finset.Basic
import Mathlib.Tactic

/-!
# Reachability inside a finite set

`reach R s a` is the set of the elements of `s` that can be reached from `a` along `R` without leaving `s`. The module
says how it changes when `s` loses a set that every path can go around (`reach_sdiff`; a set that is closed under `R` or
under its converse is one), and when `s` gains an element without successors (`reach_insert_erase`, `reach_swap_insert`).

`CachedFrontier` is the invariant of a worklist that is after some of the elements reachable from its roots, and may take
those beyond an element from a cache. `Frontier` is the worklist that collects everything reachable: each round takes one
element off the worklist and puts its unseen successors on it (`Frontier.visit`); when the worklist is empty the
elements seen are the reachable ones (`Frontier.mem_iff`).
-/

namespace Lib

open Relation Function Finset

variable {α : Type*} {R Q : α → α → Prop} {s S : Finset α} {a b c t : α}

/-- `R` between elements of `s`. -/
def Within (R : α → α → Prop) (s : Finset α) (a b : α) : Prop := a ∈ s ∧ b ∈ s ∧ R a b

lemma Within.mono {s' : Finset α} (hs : s ⊆ s') (h : Within R s a b) : Within R s' a b := ⟨hs h.1, hs h.2.1, h.2.2⟩
lemma Within.swap (h : Within R s a b) : Within (swap R) s b a := ⟨h.2.1, h.1, h.2.2⟩

lemma mem_of_reflTransGen_within (h : ReflTransGen (Within R s) a b) (ha : a ∈ s) : b ∈ s := by
  induction h with
  | refl => exact ha
  | tail _ hstep _ => exact hstep.2.1

lemma reflTransGen_within_swap (h : ReflTransGen (Within R s) a b) : ReflTransGen (Within (swap R) s) b a := by
  induction h with
  | refl => exact .refl
  | tail _ hstep ih => exact .head hstep.swap ih

open Classical in
/-- What can be reached from `a` along `R` inside `s`, `a` itself included. -/
noncomputable def reach (R : α → α → Prop) (s : Finset α) (a : α) : Finset α :=
  s.filter fun b => ReflTransGen (Within R s) a b

lemma mem_reach : b ∈ reach R s a ↔ b ∈ s ∧ ReflTransGen (Within R s) a b := by
  classical exact mem_filter

lemma reach_subset : reach R s a ⊆ s := fun _ h => (mem_reach.1 h).1
lemma self_mem_reach (h : a ∈ s) : a ∈ reach R s a := mem_reach.2 ⟨h, .refl⟩

lemma mem_reach_swap (ha : a ∈ s) (h : b ∈ reach R s a) : a ∈ reach (swap R) s b :=
  mem_reach.2 ⟨ha, reflTransGen_within_swap (mem_reach.1 h).2⟩

lemma mem_reach_swap_iff (ha : a ∈ s) (hb : b ∈ s) : a ∈ reach (swap R) s b ↔ b ∈ reach R s a :=
  ⟨mem_reach_swap hb, mem_reach_swap ha⟩

lemma mem_reach_of_mem (hb : b ∈ reach R s a) (hc : c ∈ reach R s b) : c ∈ reach R s a :=
  mem_reach.2 ⟨reach_subset hc, (mem_reach.1 hb).2.trans (mem_reach.1 hc).2⟩

lemma mem_reach_of_rel (ha : a ∈ s) (hb : b ∈ s) (h : R a b) : b ∈ reach R s a :=
  mem_reach.2 ⟨hb, .single ⟨ha, hb, h⟩⟩

lemma reach_eq_singleton (ha : a ∈ s) (h : ∀ b ∈ s, ¬ R a b) : reach R s a = {a} := by
  ext b
  rw [mem_reach, mem_singleton]
  constructor
  · rintro ⟨-, hb⟩
    rcases hb.cases_head with rfl | ⟨c, hstep, -⟩
    · rfl
    · exact absurd hstep.2.2 (h c hstep.2.1)
  · rintro rfl
    exact ⟨ha, .refl⟩

lemma within_congr (h : ∀ a ∈ s, ∀ b ∈ s, R a b ↔ Q a b) : Within R s = Within Q s := by
  funext a b
  refine propext ⟨fun hab => ⟨hab.1, hab.2.1, (h a hab.1 b hab.2.1).1 hab.2.2⟩, fun hab => ?_⟩
  exact ⟨hab.1, hab.2.1, (h a hab.1 b hab.2.1).2 hab.2.2⟩

lemma reach_congr (h : ∀ a ∈ s, ∀ b ∈ s, R a b ↔ Q a b) (a : α) : reach R s a = reach Q s a := by
  ext b
  rw [mem_reach, mem_reach, within_congr h]

/-! ## Taking a closed set away -/

/-- `S` is left by no `R`-step inside `s`. -/
def ClosedIn (R : α → α → Prop) (s S : Finset α) : Prop := ∀ a ∈ S, ∀ b ∈ s, R a b → b ∈ S

lemma ClosedIn.reach_subset (h : ClosedIn R s S) (ha : a ∈ S) (hb : b ∈ reach R s a) : b ∈ S := by
  induction (mem_reach.1 hb).2 with
  | refl => exact ha
  | tail hab hstep ih => exact h _ (ih (mem_reach.2 ⟨hstep.1, hab⟩)) _ hstep.2.1 hstep.2.2

/-- What is closed in the other direction was not reachable in the first place. -/
theorem disjoint_reach_of_closed_swap (hS : ClosedIn (swap R) s S) (ha : a ∉ S) (hs : a ∈ s) :
    Disjoint (reach R s a) S :=
  disjoint_left.2 fun _ hb hbS => ha (hS.reach_subset hbS (mem_reach_swap hs hb))

lemma closedIn_singleton_of_no_successor (ht : ∀ b ∈ s, ¬ R t b) : ClosedIn R s {t} := by
  intro a ha b hb hab
  rw [mem_singleton] at ha
  exact absurd (ha ▸ hab) (ht b hb)

section removal

variable [DecidableEq α] {done : List α}

/-- A path to a place outside `S` does not touch a closed `S`. -/
theorem reflTransGen_sdiff_of_closed (hS : ClosedIn R s S) (hb : b ∉ S) (h : ReflTransGen (Within R s) a b) :
    ReflTransGen (Within R (s \ S)) a b := by
  induction h using ReflTransGen.head_induction_on with
  | refl => exact .refl
  | head hstep hrest ih =>
    have hout : ∀ x ∈ s, ReflTransGen (Within R s) x b → x ∉ S := fun x hx hxb hxS =>
      hb (hS.reach_subset hxS (mem_reach.2 ⟨mem_of_reflTransGen_within hxb hx, hxb⟩))
    refine .head ⟨mem_sdiff.2 ⟨hstep.1, ?_⟩, mem_sdiff.2 ⟨hstep.2.1, ?_⟩, hstep.2.2⟩ ih
    · exact hout _ hstep.1 (.head hstep hrest)
    · exact hout _ hstep.2.1 hrest

/-- What is connected through `S` is connected around it as well. -/
def Bypassed (R : α → α → Prop) (s S : Finset α) : Prop :=
  ∀ a ∈ s \ S, ∀ b ∈ s \ S, b ∈ reach R s a → b ∈ reach R (s \ S) a

lemma Bypassed.swap (h : Bypassed R s S) : Bypassed (swap R) s S := by
  intro a ha b hb hab
  have hba : a ∈ reach R s b := (mem_reach_swap_iff (mem_sdiff.1 hb).1 (mem_sdiff.1 ha).1).1 hab
  exact mem_reach_swap hb (h b hb a ha hba)

/-- A set that is closed in one direction is passed through by no path that starts and ends outside. -/
theorem bypassed_of_closed (hS : ClosedIn R s S ∨ ClosedIn (Function.swap R) s S) : Bypassed R s S := by
  intro a ha b hb hab
  have hpath := (mem_reach.1 hab).2
  refine mem_reach.2 ⟨hb, ?_⟩
  rcases hS with hS | hS
  · exact reflTransGen_sdiff_of_closed hS (mem_sdiff.1 hb).2 hpath
  · exact reflTransGen_within_swap (reflTransGen_sdiff_of_closed hS (mem_sdiff.1 ha).2 (reflTransGen_within_swap hpath))

/-- **Removal.** Taking away a set that is bypassed takes its elements out of what is reachable, and nothing else. -/
theorem reach_sdiff (hS : Bypassed R s S) (hs : a ∈ s) (ha : a ∉ S) : reach R (s \ S) a = reach R s a \ S := by
  ext b
  rw [mem_sdiff]
  constructor
  · intro hb
    obtain ⟨hmem, hpath⟩ := mem_reach.1 hb
    have hpath' := ReflTransGen.mono (fun _ _ hstep => Within.mono sdiff_subset hstep) _ _ hpath
    exact ⟨mem_reach.2 ⟨(mem_sdiff.1 hmem).1, hpath'⟩, (mem_sdiff.1 hmem).2⟩
  · rintro ⟨hb, hbS⟩
    exact hS a (mem_sdiff.2 ⟨hs, ha⟩) b (mem_sdiff.2 ⟨reach_subset hb, hbS⟩) hb

/-! ## Adding an element without successors -/

section insert

variable (hs : t ∉ s) (ht : ∀ b ∈ insert t s, ¬ R t b)

include hs ht

lemma reach_insert_erase (ha : a ∈ s) : reach R s a = (reach R (insert t s) a).erase t := by
  have hat : a ∉ ({t} : Finset α) := fun h => hs (mem_singleton.1 h ▸ ha)
  have hcl : ClosedIn R (insert t s) {t} := closedIn_singleton_of_no_successor ht
  have h := reach_sdiff (bypassed_of_closed (.inl hcl)) (mem_insert_of_mem ha) hat
  rwa [sdiff_singleton_eq_erase, erase_insert hs, sdiff_singleton_eq_erase] at h

lemma reach_swap_insert (ha : a ∈ s) : reach (swap R) (insert t s) a = reach (swap R) s a := by
  have hat : a ∉ ({t} : Finset α) := fun h => hs (mem_singleton.1 h ▸ ha)
  have hcl : ClosedIn R (insert t s) {t} := closedIn_singleton_of_no_successor ht
  have h := reach_sdiff (bypassed_of_closed (.inr hcl)) (mem_insert_of_mem ha) hat
  have hdisj := disjoint_reach_of_closed_swap hcl hat (mem_insert_of_mem ha)
  rw [sdiff_singleton_eq_erase, erase_insert hs, sdiff_eq_self_of_disjoint hdisj] at h
  exact h.symm

/-- The new element is reached from what its predecessors are reached from. -/
theorem mem_reach_swap_insert_self :
    b ∈ reach (swap R) (insert t s) t ↔ b = t ∨ ∃ p ∈ s, R p t ∧ b ∈ reach (swap R) s p := by
  constructor
  · intro hb
    rcases (mem_reach.1 hb).2.cases_head with rfl | ⟨p, hstep, hrest⟩
    · exact .inl rfl
    · have hp : p ∈ s := by
        refine (Finset.mem_insert.1 hstep.2.1).resolve_left ?_
        rintro rfl
        exact ht p hstep.1 hstep.2.2
      refine .inr ⟨p, hp, hstep.2.2, ?_⟩
      rw [← reach_swap_insert hs ht hp]
      exact mem_reach.2 ⟨reach_subset hb, hrest⟩
  · rintro (rfl | ⟨p, hp, hpt, hb⟩)
    · exact self_mem_reach (mem_insert_self ..)
    · rw [← reach_swap_insert hs ht hp] at hb
      refine mem_reach_of_mem ?_ hb
      exact mem_reach_of_rel (mem_insert_self ..) (mem_insert_of_mem hp) hpt

open Classical in
/-- The old elements reach what they reached, and the new element if it is reached from it. -/
theorem reach_insert (ha : a ∈ s) : reach R (insert t s) a =
    if a ∈ reach (swap R) (insert t s) t then insert t (reach R s a) else reach R s a := by
  rw [reach_insert_erase hs ht ha]
  split_ifs with hmem <;> rw [mem_reach_swap_iff (mem_insert_of_mem ha) (mem_insert_self ..)] at hmem
  · exact (insert_erase hmem).symm
  · exact (erase_eq_of_notMem hmem).symm

end insert

/-! ## Sums over what is reachable -/

section sums

variable {M : Type*} [AddCommGroup M] (f : α → M)

/-- What is left of `s` for `a` once the elements of `done` are taken away, `a` itself excepted. -/
def left (s : Finset α) (a : α) (done : List α) : Finset α := s.filter fun b => b = a ∨ b ∉ done

lemma left_nil (s : Finset α) (a : α) : left s a [] = s := by simp [left]
lemma self_mem_left (h : a ∈ s) : a ∈ left s a done := mem_filter.2 ⟨h, .inl rfl⟩

lemma left_eq_sdiff (h : a ∉ done) : left s a done = s \ done.toFinset := by
  ext b
  rw [left, mem_filter, mem_sdiff, List.mem_toFinset]
  refine and_congr_right fun _ => ⟨?_, .inr⟩
  rintro (rfl | hb)
  · exact h
  · exact hb

lemma sum_left_cons (hb : b ∉ done) :
    ∑ c ∈ left s a (b :: done), f c = ∑ c ∈ left s a done, f c + if b ∈ s ∧ b ≠ a then -f b else 0 := by
  by_cases h : b ∈ s ∧ b ≠ a
  · have heq : left s a (b :: done) = (left s a done).erase b := by
      ext c
      simp only [left, Finset.mem_erase, mem_filter, List.mem_cons, not_or]
      constructor
      · rintro ⟨hc, rfl | hcb⟩
        · exact ⟨fun hcb => h.2 hcb.symm, hc, .inl rfl⟩
        · exact ⟨hcb.1, hc, .inr hcb.2⟩
      · rintro ⟨hcb, hc, hca | hcd⟩
        · exact ⟨hc, .inl hca⟩
        · exact ⟨hc, .inr ⟨hcb, hcd⟩⟩
    have hmem : b ∈ left s a done := mem_filter.2 ⟨h.1, .inr hb⟩
    rw [if_pos h, heq, sum_erase_eq_sub hmem, sub_eq_add_neg]
  · rw [if_neg h, add_zero]
    refine sum_congr (filter_congr fun c hc => ?_) fun _ _ => rfl
    rw [List.mem_cons, not_or]
    constructor
    · exact Or.imp_right And.right
    · rintro (hca | hcd)
      · exact .inl hca
      · by_cases hcb : c = b
        · -- `b` is in `s`, so it can only be kept because it is `a` itself
          refine .inl (by_contra fun hca => h ⟨hcb ▸ hc, hcb ▸ hca⟩)
        · exact .inr ⟨hcb, hcd⟩

end sums

end removal

/-! ## Worklists -/

section frontier

variable {roots seen stage seen' stage' : Set α}

/-- Everything of `goal` that can be reached from `x` has been found. -/
def Covered (R : α → α → Prop) (goal found : Set α) (x : α) : Prop := ∀ z ∈ goal, ReflTransGen R x z → z ∈ found

lemma Covered.mono {goal found found' : Set α} (hsub : found ⊆ found') (h : Covered R goal found a) :
    Covered R goal found' a := fun z hz haz => hsub (h z hz haz)

lemma Covered.step {goal found : Set α} (h : Covered R goal found a) (hab : R a b) : Covered R goal found b :=
  fun z hz hbz => h z hz (.head hab hbz)

/-- A traversal along `R` from `roots` in search of `goal`: what was visited, what was found, there or in a cache, and
what waits. -/
structure CachedFrontier (R : α → α → Prop) (goal roots visited found stage : Set α) : Prop where
  sound : ∀ x, x ∈ found ∨ x ∈ stage → ∃ r ∈ roots, ReflTransGen R r x
  roots_mem : ∀ r ∈ roots, r ∈ visited ∨ r ∈ stage
  visited_found : visited ⊆ found
  cached : ∀ x ∈ found, x ∉ visited → Covered R goal found x
  closed : ∀ x ∈ visited, ∀ y, R x y → y ∈ visited ∨ y ∈ stage ∨ Covered R goal found y
  fresh : ∀ x ∈ stage, x ∉ visited

section cached

variable {goal visited found found' : Set α}

lemma CachedFrontier.start (roots goal : Set α) : CachedFrontier R goal roots ∅ ∅ roots where
  sound := fun x hx => ⟨x, hx.resolve_left (Set.notMem_empty x), .refl⟩
  roots_mem := fun _ hr => .inr hr
  visited_found := Set.empty_subset _
  cached := fun x hx => absurd hx (Set.notMem_empty x)
  closed := fun x hx => absurd hx (Set.notMem_empty x)
  fresh := fun x _ => Set.notMem_empty x

variable (h : CachedFrontier R goal roots visited found stage)
include h

/-- One round: `a` is visited; each successor was found before, joins the worklist, or has the `goal` beyond it in the
cache. -/
theorem CachedFrontier.visit (ha : a ∈ stage)
    (hmono : found ⊆ found') (hself : a ∈ found')
    (hfound : ∀ x ∈ found', x = a ∨ x ∈ found ∨ ∃ y, R a y ∧ ReflTransGen R y x ∧ Covered R goal found' x)
    (hkeep : ∀ x ∈ stage, x ≠ a → x ∈ stage')
    (hstage : ∀ x ∈ stage', (x ∈ stage ∧ x ≠ a) ∨ (R a x ∧ x ≠ a ∧ x ∉ found))
    (hnext : ∀ y, R a y → y ∈ found' ∨ y ∈ stage' ∨ Covered R goal found' y) :
    CachedFrontier R goal roots (insert a visited) found' stage' := by
  have hcached : ∀ x ∈ found', x ∉ insert a visited → Covered R goal found' x := by
    intro x hx hxv
    rw [Set.mem_insert_iff, not_or] at hxv
    rcases hfound x hx with rfl | hx | ⟨y, -, -, hcov⟩
    · exact absurd rfl hxv.1
    · exact (h.cached x hx hxv.2).mono hmono
    · exact hcov
  have hreach : ∀ x, ReflTransGen R a x → ∃ r ∈ roots, ReflTransGen R r x := by
    intro x hax
    obtain ⟨r, hr, hra⟩ := h.sound a (.inr ha)
    exact ⟨r, hr, hra.trans hax⟩
  constructor
  case sound =>
    rintro x (hx | hx)
    · rcases hfound x hx with rfl | hx | ⟨y, hay, hyx, -⟩
      · exact h.sound x (.inr ha)
      · exact h.sound x (.inl hx)
      · exact hreach x (.head hay hyx)
    · rcases hstage x hx with ⟨hx, -⟩ | ⟨hax, -⟩
      · exact h.sound x (.inr hx)
      · exact hreach x (.single hax)
  case roots_mem =>
    intro r hr
    by_cases hra : r = a
    · exact .inl (.inl hra)
    · exact (h.roots_mem r hr).imp .inr fun hr => hkeep r hr hra
  case visited_found =>
    rintro x (rfl | hx)
    · exact hself
    · exact hmono (h.visited_found hx)
  case cached => exact hcached
  case closed =>
    have hsplit : ∀ y, y ∈ found' ∨ y ∈ stage' ∨ Covered R goal found' y →
        y ∈ insert a visited ∨ y ∈ stage' ∨ Covered R goal found' y := by
      rintro y (hy | hy)
      · by_cases hyv : y ∈ insert a visited
        · exact .inl hyv
        · exact .inr (.inr (hcached y hy hyv))
      · exact .inr hy
    rintro x (rfl | hx) y hxy
    · exact hsplit y (hnext y hxy)
    · rcases h.closed x hx y hxy with hy | hy | hy
      · exact .inl (.inr hy)
      · by_cases hya : y = a
        · exact .inl (.inl hya)
        · exact .inr (.inl (hkeep y hy hya))
      · exact .inr (.inr (hy.mono hmono))
  case fresh =>
    intro x hx
    rw [Set.mem_insert_iff, not_or]
    rcases hstage x hx with ⟨hx, hxa⟩ | ⟨-, hxa, hxf⟩
    · exact ⟨hxa, h.fresh x hx⟩
    · exact ⟨hxa, fun hxv => hxf (h.visited_found hxv)⟩

/-- When nothing waits, the elements of `goal` that can be reached have been found. -/
theorem CachedFrontier.mem_iff (hstage : ∀ x, x ∉ stage)
    (hb : b ∈ goal) : b ∈ found ↔ ∃ r ∈ roots, ReflTransGen R r b := by
  refine ⟨fun hbf => h.sound b (.inl hbf), ?_⟩
  rintro ⟨r, hr, hrb⟩
  -- along the way, an element has been visited or has all of `goal` beyond it found
  have hall : ∀ x, ReflTransGen R r x → x ∈ visited ∨ Covered R goal found x := by
    intro x hrx
    induction hrx with
    | refl => exact .inl ((h.roots_mem r hr).resolve_right (hstage r))
    | tail _ hstep ih =>
      rcases ih with hx | hx
      · exact (h.closed _ hx _ hstep).imp_right fun hy => hy.resolve_left (hstage _)
      · exact .inr (hx.step hstep)
  rcases hall b hrb with hbv | hbc
  · exact h.visited_found hbv
  · exact hbc b hb .refl

end cached

/-- A worklist without a cache: what was visited is what was found. -/
def Frontier (R : α → α → Prop) (roots seen stage : Set α) : Prop := CachedFrontier R Set.univ roots seen seen stage

/-- One round: `a` moves from the worklist to the elements seen, its unseen successors join the worklist. -/
theorem Frontier.visit (h : Frontier R roots seen stage) (ha : a ∈ stage) (hseen : ∀ x, x ∈ seen' ↔ x = a ∨ x ∈ seen)
    (hstage : ∀ x, x ∈ stage' ↔ (x ≠ a ∧ x ∈ stage) ∨ (R a x ∧ x ∉ seen')) : Frontier R roots seen' stage' := by
  obtain rfl : seen' = insert a seen := Set.ext hseen
  refine CachedFrontier.visit h ha (Set.subset_insert ..) (Set.mem_insert ..) (fun x hx => hx.imp_right .inl)
    (fun x hx hxa => (hstage x).2 (.inl ⟨hxa, hx⟩)) (fun x hx => ?_) (fun y hay => ?_)
  · rcases (hstage x).1 hx with ⟨hxa, hx⟩ | ⟨hax, hx⟩
    · exact .inl ⟨hx, hxa⟩
    · exact .inr ⟨hax, fun hxa => hx (.inl hxa), fun hxs => hx (.inr hxs)⟩
  · by_cases hy : y ∈ insert a seen
    · exact .inl hy
    · exact .inr (.inl ((hstage y).2 (.inr ⟨hay, hy⟩)))

lemma Frontier.mem_iff (h : Frontier R roots seen stage) (hstage : ∀ x, x ∉ stage) :
    b ∈ seen ↔ ∃ r ∈ roots, ReflTransGen R r b := CachedFrontier.mem_iff h hstage (Set.mem_univ b)

/-! ## Rounds to come -/

open Classical in
/-- The number of elements of `s` not seen yet, which bounds the number of rounds to come. -/
noncomputable def unseen (s : Finset α) (seen : Set α) : ℕ := (s.filter (· ∉ seen)).card

lemma unseen_le_card : unseen s seen ≤ s.card := by
  classical exact card_filter_le ..

lemma unseen_pos (ha : a ∈ s) (h : a ∉ seen) : 0 < unseen s seen := by
  classical exact card_pos.2 ⟨a, mem_filter.2 ⟨ha, h⟩⟩

lemma unseen_lt (ha : a ∈ s) (h : a ∉ seen) (hseen : ∀ x, x ∈ seen' ↔ x = a ∨ x ∈ seen) :
    unseen s seen' < unseen s seen := by
  classical
  refine card_lt_card ⟨fun x hx => ?_, fun hsub => ?_⟩
  · rw [mem_filter, hseen, not_or] at hx
    exact mem_filter.2 ⟨hx.1, hx.2.2⟩
  · have hmem := hsub (mem_filter.2 ⟨ha, h⟩)
    exact (mem_filter.1 hmem).2 ((hseen a).2 (.inl rfl))

end frontier

end Lib
