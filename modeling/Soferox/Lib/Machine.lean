import Mathlib.Tactic

/-!
# Machines whose parts take turns

A machine is a function that says what an action does to a state, if the action is possible there.

* `Reachable` — the states of its finite runs, with the rule for invariants;
* `Run` — an endless run, which may pause;
* `Run.Fair` — weak fairness: actions that stay possible are taken at some time;
* `Run.Fair.exists_takes` — what is kept until such an action is taken still holds when it is taken.
-/

namespace Lib

open Finset Function

variable {σ α : Type*} {step : σ → α → Option σ} {init s s' : σ} {l : List α}

/-- The states that the machine can get into. -/
inductive Reachable (step : σ → α → Option σ) (init : σ) : σ → Prop
  | start : Reachable step init init
  | next {s s' : σ} (a : α) : Reachable step init s → step s a = some s' → Reachable step init s'

lemma Reachable.invariant {I : σ → Prop} (hinit : I init) (hstep : ∀ s a s', I s → step s a = some s' → I s')
    (h : Reachable step init s) : I s := by
  induction h with
  | start => exact hinit
  | next a _ hs ih => exact hstep _ a _ ih hs

lemma Reachable.foldlM (h : Reachable step init s) (hl : l.foldlM step s = some s') : Reachable step init s' := by
  induction l generalizing s with
  | nil =>
    cases hl
    exact h
  | cons a l ih =>
    rw [List.foldlM_cons] at hl
    cases hs : step s a with
    | none =>
      rw [hs] at hl
      cases hl
    | some s₁ =>
      rw [hs] at hl
      exact ih (.next a h hs) hl

/-! ## Endless runs -/

/-- An endless run; in a pause the state stays as it is. -/
structure Run (step : σ → α → Option σ) (init : σ) where
  state : ℕ → σ
  action : ℕ → Option α
  start : state 0 = init
  next : ∀ i, (action i).elim (some (state i)) (step (state i)) = some (state (i + 1))

namespace Run

variable (r : Run step init) {i j : ℕ} {a : α} {P : σ → Prop} {f : ℕ → ℕ}

lemma state_succ_of_pause (h : r.action i = none) : r.state (i + 1) = r.state i := by
  have hi := r.next i
  rw [h] at hi
  exact (Option.some.inj hi).symm

lemma step_of_action (h : r.action i = some a) : step (r.state i) a = some (r.state (i + 1)) := by
  have hi := r.next i
  rwa [h] at hi

lemma reachable (i : ℕ) : Reachable step init (r.state i) := by
  induction i with
  | zero => rw [r.start]; exact .start
  | succ i ih =>
    cases ha : r.action i with
    | none => rwa [r.state_succ_of_pause ha]
    | some a => exact .next a ih (r.step_of_action ha)

lemma kept_from (hstep : ∀ j, i ≤ j → ∀ a, r.action j = some a → P (r.state j) → P (r.state (j + 1)))
    (hi : P (r.state i)) (hij : i ≤ j) : P (r.state j) := by
  induction j, hij using Nat.le_induction with
  | base => exact hi
  | succ j hij ih =>
    cases ha : r.action j with
    | none => rwa [r.state_succ_of_pause ha]
    | some a => exact hstep j hij a ha ih

lemma monotone_of_step {f : σ → ℕ} (hf : ∀ s a s', step s a = some s' → f s ≤ f s') (hij : i ≤ j) :
    f (r.state i) ≤ f (r.state j) := by
  refine r.kept_from (P := fun s => f (r.state i) ≤ f s) (fun j _ a ha hle => ?_) le_rfl hij
  exact hle.trans (hf _ _ _ (r.step_of_action ha))

lemma eventually_const_of_antitone {i : ℕ} (hf : ∀ k j, i ≤ k → k ≤ j → f j ≤ f k) :
    ∃ k, i ≤ k ∧ ∀ j, k ≤ j → f j = f k := by
  induction h : f i using Nat.strong_induction_on generalizing i with
  | _ m ih =>
    by_cases hconst : ∀ j, i ≤ j → f j = f i
    · exact ⟨i, le_rfl, hconst⟩
    · push Not at hconst
      obtain ⟨j, hij, hne⟩ := hconst
      have hle := hf i j le_rfl hij
      obtain ⟨k, hjk, hk⟩ := ih (f j) (by omega) (fun k l hk => hf k l (hij.trans hk)) rfl
      exact ⟨k, hij.trans hjk, hk⟩

lemma eventually_const (hf : ∀ i j, i ≤ j → f i ≤ f j) {b : ℕ} (hb : ∀ i, f i ≤ b) (i : ℕ) :
    ∃ k, i ≤ k ∧ ∀ j, k ≤ j → f j = f k := by
  obtain ⟨k, hik, hk⟩ := eventually_const_of_antitone (f := fun j => b - f j) fun k j _ hkj => by
    have hle := hf k j hkj
    omega
  refine ⟨k, hik, fun j hkj => ?_⟩
  have hsub := hk j hkj
  have hj := hb j
  have hk := hb k
  omega

/-- The action at time `i` is one of `A`. -/
def Takes (A : α → Prop) (i : ℕ) : Prop := ∃ a, r.action i = some a ∧ A a

/-- **Weak fairness.** If from some time on one of the actions `A` is always possible, then one is taken. -/
def Fair (A : α → Prop) : Prop :=
  ∀ i, (∀ j, i ≤ j → ∃ a, A a ∧ (step (r.state j) a).isSome) → ∃ j, i ≤ j ∧ r.Takes A j

variable {r} {A : α → Prop} {h : (l.foldlM step init).isSome}

lemma Fair.exists_takes (h : r.Fair A) (hi : P (r.state i))
    (hkeep : ∀ j, i ≤ j → ∀ a, r.action j = some a → ¬ A a → P (r.state j) → P (r.state (j + 1)))
    (hen : ∀ s, P s → ∃ a, A a ∧ (step s a).isSome) :
    ∃ j, i ≤ j ∧ P (r.state j) ∧ ∃ a, A a ∧ step (r.state j) a = some (r.state (j + 1)) ∧ r.action j = some a := by
  by_contra hno
  have hall : ∀ j, i ≤ j → P (r.state j) := fun j hij => by
    refine r.kept_from (fun j hij a ha hj => hkeep j hij a ha (fun hA => hno ?_) hj) hi hij
    exact ⟨j, hij, hj, a, hA, r.step_of_action ha, ha⟩
  obtain ⟨j, hij, a, ha, hA⟩ := h i fun j hij => hen _ (hall j hij)
  exact hno ⟨j, hij, hall j hij, a, hA, r.step_of_action ha, ha⟩

/-! ## Runs that stop -/

/-- The run that takes the actions of a list and then pauses for ever. -/
def ofList (step : σ → α → Option σ) (init : σ) (l : List α) (h : (l.foldlM step init).isSome) : Run step init where
  state i := ((l.take i).foldlM step init).getD init
  action i := l[i]?
  start := rfl
  next i := by
    obtain ⟨s, hs⟩ := Option.isSome_iff_exists.1 h
    have hsplit := hs
    rw [← List.take_append_drop i l, List.foldlM_append] at hsplit
    cases hi : (l.take i).foldlM step init with
    | none =>
      rw [hi] at hsplit
      cases hsplit
    | some s₁ =>
      rw [hi] at hsplit
      cases ha : l[i]? with
      | none =>
        rw [List.getElem?_eq_none_iff] at ha
        rw [List.take_of_length_le ha] at hi
        rw [List.take_of_length_le (by omega), hi]
        rfl
      | some a =>
        obtain ⟨hlt, rfl⟩ := List.getElem?_eq_some_iff.1 ha
        rw [List.drop_eq_getElem_cons hlt] at hsplit
        change (l[i] :: l.drop (i + 1)).foldlM step s₁ = some s at hsplit
        rw [List.foldlM_cons] at hsplit
        have htake : (l.take (i + 1)).foldlM step init = step s₁ l[i] := by
          rw [List.take_succ_eq_append_getElem hlt, List.foldlM_append, hi]
          simp
        rw [htake]
        cases hstep : step s₁ l[i] with
        | none =>
          simp [hstep] at hsplit
        | some s₂ => simp [hstep]

lemma ofList_state_of_le (hi : l.length ≤ i) : (ofList step init l h).state i = (l.foldlM step init).get h := by
  simp only [ofList, List.take_of_length_le hi]
  exact (Option.get_eq_getD ..).symm

lemma fair_ofList (hA : ∀ a, A a → step ((l.foldlM step init).get h) a = none) : (ofList step init l h).Fair A := by
  intro i hen
  obtain ⟨a, ha, hsome⟩ := hen (max i l.length) (le_max_left ..)
  rw [ofList_state_of_le (le_max_right ..), hA a ha] at hsome
  cases hsome

end Run

/-! ## One thread of many moves -/

lemma sum_update {ι β M : Type*} [Fintype ι] [DecidableEq ι] [AddCommMonoid M] (g : β → M) (f : ι → β) (i : ι) (b : β) :
    ∑ t, g (update f i b t) + g (f i) = ∑ t, g (f t) + g b := by
  rw [← add_sum_erase _ _ (mem_univ i), ← add_sum_erase _ (fun t => g (f t)) (mem_univ i), update_self]
  have hrest : ∑ t ∈ univ.erase i, g (update f i b t) = ∑ t ∈ univ.erase i, g (f t) :=
    sum_congr rfl fun t ht => by rw [update_of_ne (ne_of_mem_erase ht)]
  rw [hrest]
  abel

end Lib
