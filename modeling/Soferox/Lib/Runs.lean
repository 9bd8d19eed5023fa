import Mathlib.Tactic

/-!
# Runs of a machine that can fail

A machine takes one action after another and stops at the first one that fails. `Throughout P s l` says that `P` holds
in every state that the actions `l` reach from `s`, `Meets allowed s l` that each action meets its condition in the state
in which it is taken.

* `Meets.exists_foldlM` — a run of allowed actions ends, and keeps an invariant;
* `throughout_of_meets` — an invariant that allowed actions keep holds throughout;
* `throughout_iff_meets` — when a condition is exactly what keeps `P`, a run keeps `P` if and only if it meets it.
-/

namespace Lib

variable {σ α ε : Type*} (step : σ → α → Except ε σ)

instance decidableExistsOk {P : σ → Prop} [DecidablePred P] : (x : Except ε σ) → Decidable (∃ s, x = .ok s ∧ P s)
  | .ok s => decidable_of_iff (P s) ⟨fun h => ⟨s, rfl, h⟩, fun ⟨_, h, hP⟩ => Except.ok.inj h ▸ hP⟩
  | .error _ => isFalse nofun

instance decidableForallOk {P : σ → Prop} [DecidablePred P] : (x : Except ε σ) → Decidable (∀ s, x = .ok s → P s)
  | .ok s => decidable_of_iff (P s) ⟨fun h _ hs => Except.ok.inj hs ▸ h, fun h => h s rfl⟩
  | .error _ => isTrue nofun

instance decidableEqError [DecidableEq ε] (e : ε) : (x : Except ε σ) → Decidable (x = .error e)
  | .ok _ => isFalse nofun
  | .error e' => decidable_of_iff (e' = e) ⟨congrArg _, fun h => Except.error.inj h⟩

/-- `P` holds in every state that the run reaches. -/
def Throughout (P : σ → Prop) : σ → List α → Prop
  | s, [] => P s
  | s, a :: l => P s ∧ match step s a with
    | .ok s' => Throughout P s' l
    | .error _ => True

/-- Every action that the run takes is allowed in its turn. -/
def Meets (allowed : σ → α → Prop) : σ → List α → Prop
  | _, [] => True
  | s, a :: l => allowed s a ∧ match step s a with
    | .ok s' => Meets allowed s' l
    | .error _ => True

instance decidableMeets {allowed : σ → α → Prop} [∀ s a, Decidable (allowed s a)] :
    (s : σ) → (l : List α) → Decidable (Meets step allowed s l)
  | _, [] => instDecidableTrue
  | s, a :: l =>
    have : Decidable (match step s a with | .ok s' => Meets step allowed s' l | .error _ => True) :=
      match step s a with
      | .ok s' => decidableMeets s' l
      | .error _ => instDecidableTrue
    inferInstanceAs (Decidable (_ ∧ _))

variable {step} {I P : σ → Prop} {allowed : σ → α → Prop} {l : List α} {s : σ}

lemma Throughout.head (h : Throughout step P s l) : P s := by
  cases l with
  | nil => exact h
  | cons a l => exact h.1

lemma Meets.imp {allowed' : σ → α → Prop} (h : Meets step allowed s l) (himp : ∀ s a, allowed s a → allowed' s a) :
    Meets step allowed' s l := by
  induction l generalizing s with
  | nil => trivial
  | cons a l ih =>
    refine ⟨himp s a h.1, ?_⟩
    have hrest := h.2
    cases hs : step s a with
    | error e => trivial
    | ok s' =>
      rw [hs] at hrest
      exact ih hrest

lemma Meets.append {s' : σ} {l' : List α} (h : Meets step allowed s (l ++ l')) (hrun : l.foldlM step s = .ok s') :
    Meets step allowed s l ∧ Meets step allowed s' l' := by
  induction l generalizing s with
  | nil =>
    cases hrun
    exact ⟨trivial, h⟩
  | cons a l ih =>
    rw [List.foldlM_cons] at hrun
    simp only [List.cons_append, Meets] at h ⊢
    cases hs : step s a with
    | error e =>
      rw [hs] at hrun
      cases hrun
    | ok s₁ =>
      rw [hs] at hrun h
      obtain ⟨hrest, h'⟩ := ih h.2 hrun
      exact ⟨⟨h.1, hrest⟩, h'⟩

lemma Meets.foldlM {s' : σ} (h : Meets step allowed s l)
    (hstep : ∀ s a s', I s → allowed s a → step s a = .ok s' → I s') (hI : I s) (hrun : l.foldlM step s = .ok s') : I s' := by
  induction l generalizing s with
  | nil =>
    cases hrun
    exact hI
  | cons a l ih =>
    rw [List.foldlM_cons] at hrun
    have hrest := h.2
    cases hs : step s a with
    | error e =>
      rw [hs] at hrun
      cases hrun
    | ok s₁ =>
      rw [hs] at hrun hrest
      exact ih hrest (hstep s a s₁ hI h.1 hs) hrun

lemma Meets.exists_foldlM (h : Meets step allowed s l)
    (hok : ∀ s, ∀ a ∈ l, I s → allowed s a → ∃ s', step s a = .ok s' ∧ I s') (hI : I s) :
    ∃ s', l.foldlM step s = .ok s' ∧ I s' := by
  induction l generalizing s with
  | nil => exact ⟨s, rfl, hI⟩
  | cons a l ih =>
    obtain ⟨s₁, hs, hI₁⟩ := hok s a List.mem_cons_self hI h.1
    have hrest := h.2
    rw [hs] at hrest
    rw [List.foldlM_cons, hs]
    exact ih hrest (fun s a ha => hok s a (List.mem_cons_of_mem _ ha)) hI₁

lemma meets_of_foldlM {s' : σ} (hallowed : ∀ s a s', step s a = .ok s' → allowed s a)
    (hrun : l.foldlM step s = .ok s') : Meets step allowed s l := by
  induction l generalizing s with
  | nil => trivial
  | cons a l ih =>
    rw [List.foldlM_cons] at hrun
    cases hs : step s a with
    | error e =>
      rw [hs] at hrun
      cases hrun
    | ok s₁ =>
      rw [hs] at hrun
      rw [Meets, hs]
      exact ⟨hallowed s a s₁ hs, ih hrun⟩

lemma throughout_congr {Q : σ → Prop} (hI : ∀ s a s', I s → step s a = .ok s' → I s') (hiff : ∀ s, I s → (P s ↔ Q s))
    (hs : I s) : Throughout step P s l ↔ Throughout step Q s l := by
  induction l generalizing s with
  | nil => exact hiff s hs
  | cons a l ih =>
    simp only [Throughout]
    cases hstep : step s a with
    | error e => exact and_congr_left' (hiff s hs)
    | ok s' => exact and_congr (hiff s hs) (ih (hI s a s' hs hstep))

lemma throughout_of_meets (hP : ∀ s, I s → P s) (hstep : ∀ s a s', I s → allowed s a → step s a = .ok s' → I s')
    (hI : I s) (h : Meets step allowed s l) : Throughout step P s l := by
  induction l generalizing s with
  | nil => exact hP s hI
  | cons a l ih =>
    refine ⟨hP s hI, ?_⟩
    have hrest := h.2
    cases hs : step s a with
    | error e => trivial
    | ok s' =>
      rw [hs] at hrest
      exact ih (hstep s a s' hI h.1 hs) hrest

lemma throughout_iff_meets (hI : ∀ s a s', I s → step s a = .ok s' → I s')
    (hiff : ∀ s a, I s → P s → ((∀ s', step s a = .ok s' → P s') ↔ allowed s a)) (hs : I s) (hP : P s) :
    Throughout step P s l ↔ Meets step allowed s l := by
  induction l generalizing s with
  | nil => exact ⟨fun _ => trivial, fun _ => hP⟩
  | cons a l ih =>
    have hiff := hiff s a hs hP
    simp only [Throughout, Meets]
    cases hstep : step s a with
    | error e =>
      refine ⟨fun _ => ⟨hiff.1 fun s' h => ?_, trivial⟩, fun _ => ⟨hP, trivial⟩⟩
      rw [hstep] at h
      cases h
    | ok s' =>
      have hs' := hI s a s' hs hstep
      have hiff : P s' ↔ allowed s a := by
        rw [← hiff, hstep]
        exact ⟨fun h s'' heq => Except.ok.inj heq ▸ h, fun h => h s' rfl⟩
      constructor
      · rintro ⟨-, h⟩
        exact ⟨hiff.1 h.head, (ih hs' h.head).1 h⟩
      · rintro ⟨ha, h⟩
        exact ⟨hP, (ih hs' (hiff.2 ha)).2 h⟩

end Lib
