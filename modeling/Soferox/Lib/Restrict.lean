import Mathlib.Tactic

/-!
# Computations that a configuration only restricts

A fallible computation `m : C → Except ε α` reads a configuration. `Restricts r m` says that going up along `r` can
only make `m` fail: whenever `m` succeeds under the larger configuration it succeeds under the smaller one, with the
same result. The lemmas close the notion under the ways such computations are put together: a constant, a sequence,
a test that does not read the configuration, a test that only gets stricter, a step that is switched on by the
configuration and returns what would have been returned without it, and a loop over a list.
-/

namespace Lib

universe u

variable {C ε : Type*} {α β : Type u} {r : C → C → Prop} {b : C → Bool} {m : C → Except ε α} {c : C → Bool} (e : ε)

/-- Along `r`, from the smaller to the larger configuration, `m` fails more often and never changes its result. -/
def Restricts (r : C → C → Prop) (m : C → Except ε α) : Prop :=
  ∀ ⦃F G : C⦄, r F G → ∀ ⦃a : α⦄, m G = .ok a → m F = .ok a

/-- A Boolean of the configuration that can only turn from `true` to `false` along `r`. -/
def Stricter (r : C → C → Prop) (b : C → Bool) : Prop := ∀ ⦃F G : C⦄, r F G → b G = true → b F = true

lemma Stricter.const (b : Bool) : Stricter r fun _ => b := fun _ _ _ h => h

lemma Stricter.or (hb : Stricter r b) (hc : Stricter r c) : Stricter r fun x => b x || c x := by
  intro F G h hG
  rw [Bool.or_eq_true] at hG ⊢
  exact hG.imp (hb h) (hc h)

/-- A Boolean of the configuration that can only turn from `false` to `true` along `r`. -/
def Laxer (r : C → C → Prop) (b : C → Bool) : Prop := ∀ ⦃F G : C⦄, r F G → b F = true → b G = true

lemma Laxer.const (b : Bool) : Laxer r fun _ => b := fun _ _ _ h => h

lemma Laxer.and (hb : Laxer r b) (hc : Laxer r c) : Laxer r fun x => b x && c x := by
  intro F G h hF
  rw [Bool.and_eq_true] at hF ⊢
  exact ⟨hb h hF.1, hc h hF.2⟩

lemma Laxer.not (hb : Laxer r b) : Stricter r fun x => !b x := by
  intro F G h hG
  rw [Bool.not_eq_true', ← Bool.not_eq_true] at hG ⊢
  exact fun hF => hG (hb h hF)

/-- Succeed when `b` holds, fail with `e` otherwise. -/
def require (b : Bool) (e : ε) : Except ε Unit := if b then .ok () else .error e

@[simp] lemma require_true : require true e = .ok () := rfl
@[simp] lemma require_false : require false e = .error e := rfl

lemma require_eq_ok {b : Bool} {e : ε} {u : Unit} : require b e = .ok u ↔ b = true := by
  cases b <;> simp

lemma ok_bind (a : α) (k : α → Except ε β) : (Except.ok a >>= k) = k a := rfl

lemma bind_eq_ok {m : Except ε α} {k : α → Except ε β} {b : β} : (m >>= k) = .ok b ↔ ∃ a, m = .ok a ∧ k a = .ok b := by
  cases m with
  | error e => constructor <;> intro h <;> simp [bind, Except.bind] at h ⊢
  | ok a => simp [bind, Except.bind]

lemma bind_congr_ok {m : Except ε α} {k k' : α → Except ε β} (h : ∀ a, m = .ok a → k a = k' a) :
    m >>= k = m >>= k' := by
  cases m with
  | error e => rfl
  | ok a => exact h a rfl

namespace Restricts

lemma const (x : Except ε α) : Restricts r fun _ => x := fun _ _ _ _ h => h

lemma bind {k : C → α → Except ε β} (hm : Restricts r m)
    (hk : ∀ a, Restricts r fun c => k c a) : Restricts r fun c => m c >>= k c := by
  intro F G h b hG
  obtain ⟨a, ha, hb⟩ := bind_eq_ok.1 hG
  exact bind_eq_ok.2 ⟨a, hm h ha, hk a h hb⟩

lemma require {b : C → Bool} (hb : Stricter r b) (e : ε) : Restricts r fun c => Lib.require (b c) e := by
  intro F G h a hG
  exact require_eq_ok.2 (hb h (require_eq_ok.1 hG))

lemma ite {p : Prop} [Decidable p] {m n : C → Except ε α} (hm : Restricts r m) (hn : Restricts r n) :
    Restricts r fun c => if p then m c else n c := by
  by_cases h : p
  · simpa [if_pos h] using hm
  · simpa [if_neg h] using hn

/-- A step that the configuration switches on and that returns what is returned without it. -/
theorem switch {p : C → Bool} (hp : Laxer r p) {a₀ : α}
    (hm : Restricts r m) (hret : ∀ (c : C) (a : α), m c = .ok a → a = a₀) :
    Restricts r fun c => if p c then m c else .ok a₀ := by
  intro F G h a hG
  dsimp only at hG ⊢
  cases hF : p F with
  | true =>
    rw [hp h hF] at hG
    exact hm h hG
  | false =>
    cases hpG : p G with
    | false => rw [hpG] at hG; exact hG
    | true =>
      rw [hpG] at hG
      rw [hret G a hG]
      rfl

lemma foldlM {f : C → β → α → Except ε β} (hf : ∀ b a, Restricts r fun c => f c b a) :
    ∀ (l : List α) (b : β), Restricts r fun c => l.foldlM (f c) b := by
  intro l
  induction l with
  | nil => intro b; exact const _
  | cons a l ih =>
    intro b
    exact Restricts.bind (hf b a) ih

end Restricts

end Lib
