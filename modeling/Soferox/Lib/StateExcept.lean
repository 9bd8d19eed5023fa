import Mathlib.Tactic

/-!
# Programs that change a state and can fail

Inversion rules for `StateT σ (Except ε)`: what a successful run of a sequence, of a test and of a loop says about its
parts. `Preserves R m` says that every successful run of `m` relates the state before to the state after.
-/

namespace Lib

variable {σ ε α β : Type} {a : α} {s s' : σ} {k : α → StateT σ (Except ε) β} {m : StateT σ (Except ε) α} {b : Bool}
  {e : ε}

/-- Succeed when `b` holds, fail with `e` otherwise. -/
def ensure (b : Bool) (e : ε) : StateT σ (Except ε) Unit := if b then pure () else throw e

lemma run_bind_eq_ok {s'' : σ} {b : β} :
    (m >>= k) s = .ok (b, s'') ↔ ∃ a s', m s = .ok (a, s') ∧ k a s' = .ok (b, s'') := by
  show (m s >>= fun p => k p.1 p.2) = .ok (b, s'') ↔ _
  cases h : m s with
  | error e => simp [bind, Except.bind]
  | ok p =>
    obtain ⟨a, s'⟩ := p
    simp [bind, Except.bind]

lemma run_pure_eq_ok {b : α} : (pure a : StateT σ (Except ε) α) s = .ok (b, s') ↔ a = b ∧ s = s' := by
  show (Except.ok (a, s) : Except ε (α × σ)) = .ok (b, s') ↔ _
  simp

lemma run_ensure_eq_ok {u : Unit} : (ensure b e : StateT σ (Except ε) Unit) s = .ok (u, s') ↔ b = true ∧ s = s' := by
  cases b with
  | true => simp [ensure, run_pure_eq_ok]
  | false => simp [ensure, throw, throwThe, MonadExceptOf.throw, StateT.lift]

lemma run_ensure_bind_eq_ok {k : Unit → StateT σ (Except ε) α} :
    (ensure b e >>= k) s = .ok (a, s') ↔ b = true ∧ k () s = .ok (a, s') := by
  rw [run_bind_eq_ok]
  constructor
  · rintro ⟨_, _, h, hk⟩
    obtain ⟨hb, rfl⟩ := run_ensure_eq_ok.1 h
    exact ⟨hb, hk⟩
  · rintro ⟨hb, hk⟩
    exact ⟨(), s, run_ensure_eq_ok.2 ⟨hb, rfl⟩, hk⟩

lemma run_liftM_eq_ok {x : Except ε α} : (liftM x : StateT σ (Except ε) α) s = .ok (a, s') ↔ x = .ok a ∧ s = s' := by
  cases x with
  | error e => simp [liftM, monadLift, MonadLift.monadLift, StateT.lift, bind, Except.bind]
  | ok b => simp [liftM, monadLift, MonadLift.monadLift, StateT.lift, bind, Except.bind, pure, Except.pure]

/-- Every successful run of `m` relates the state before to the state after. -/
def Preserves (R : σ → σ → Prop) (m : StateT σ (Except ε) α) : Prop := ∀ s a s', m s = .ok (a, s') → R s s'

namespace Preserves

variable {R : σ → σ → Prop}

lemma pure (hrefl : ∀ s, R s s) (a : α) : Preserves R (Pure.pure a : StateT σ (Except ε) α) := by
  intro s b s' h
  obtain ⟨-, rfl⟩ := run_pure_eq_ok.1 h
  exact hrefl s

lemma bind (htrans : ∀ s s' s'', R s s' → R s' s'' → R s s'')
    (hm : Preserves R m) (hk : ∀ a, Preserves R (k a)) : Preserves R (m >>= k) := by
  intro s b s'' h
  obtain ⟨a, s', h₁, h₂⟩ := run_bind_eq_ok.1 h
  exact htrans s s' s'' (hm s a s' h₁) (hk a s' b s'' h₂)

lemma ensure (hrefl : ∀ s, R s s) (b : Bool) (e : ε) : Preserves R (Lib.ensure b e : StateT σ (Except ε) Unit) := by
  intro s u s' h
  obtain ⟨-, rfl⟩ := run_ensure_eq_ok.1 h
  exact hrefl s

lemma liftM (hrefl : ∀ s, R s s) (x : Except ε α) : Preserves R (liftM x : StateT σ (Except ε) α) := by
  intro s a s' h
  obtain ⟨-, rfl⟩ := run_liftM_eq_ok.1 h
  exact hrefl s

lemma ite {p : Prop} [Decidable p] {m n : StateT σ (Except ε) α} (hm : Preserves R m) (hn : Preserves R n) :
    Preserves R (if p then m else n) := by
  split
  · exact hm
  · exact hn

end Preserves

end Lib
