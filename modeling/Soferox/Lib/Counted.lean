import Soferox.Lib.Restrict

/-!
# Computations that fail and count

A computation that can fail, with the number of times it has called something; the calls made before a failure count.
`Counted.result` forgets the number.

* `Counted.result_bind`, `Counted.result_foldlM` — forgetting the number is compatible with sequences and loops;
* `Counted.count_bind_le` — the calls of a sequence, where the second part may use what the first has returned.
-/

namespace Lib

/-- A computation that can fail, with a number of calls. -/
structure Counted (ε α : Type) where
  result : Except ε α
  count : ℕ

namespace Counted

variable {ε α β σ : Type} {m : Counted ε α} {k : α → Counted ε β} {a : ℕ} {b : ℕ} (x : Except ε α)

/-- No call. -/
def lift (x : Except ε α) : Counted ε α := ⟨x, 0⟩

/-- One call, which returns `a`. -/
def call (a : α) : Counted ε α := ⟨.ok a, 1⟩

/-- First `m`, then, if it has not failed, `k`. -/
def andThen (m : Counted ε α) (k : α → Counted ε β) : Counted ε β :=
  match m.result with
  | .error e => ⟨.error e, m.count⟩
  | .ok a => ⟨(k a).result, m.count + (k a).count⟩

instance : Monad (Counted ε) where
  pure a := lift (.ok a)
  bind := andThen

@[simp] lemma result_lift : (lift x).result = x := rfl
@[simp] lemma result_call (a : α) : (call a : Counted ε α).result = .ok a := rfl
@[simp] lemma result_pure (a : α) : (pure a : Counted ε α).result = pure a := rfl
@[simp] lemma count_lift : (lift x).count = 0 := rfl
@[simp] lemma count_call (a : α) : (call a : Counted ε α).count = 1 := rfl
@[simp] lemma count_pure (a : α) : (pure a : Counted ε α).count = 0 := rfl

variable (m k) in
@[simp] lemma result_bind : (m >>= k).result = m.result >>= fun a => (k a).result := by
  show (andThen m k).result = _
  rw [andThen]
  cases m.result with
  | error e => rfl
  | ok a => rfl

@[simp] lemma result_ite (p : Prop) [Decidable p] (m n : Counted ε α) :
    (if p then m else n).result = if p then m.result else n.result := apply_ite result p m n

lemma count_bind_le (hm : m.count ≤ a) (hk : ∀ x, m.result = .ok x → (k x).count ≤ b) : (m >>= k).count ≤ a + b := by
  show (andThen m k).count ≤ a + b
  rw [andThen]
  cases h : m.result with
  | error e => exact hm.trans (Nat.le_add_right a b)
  | ok x => exact Nat.add_le_add hm (hk x h)

lemma count_lift_bind_le {x : Except ε α} (hk : ∀ a, x = .ok a → (k a).count ≤ b) : (lift x >>= k).count ≤ b :=
  (count_bind_le (le_refl (lift x).count) hk).trans (Nat.zero_add b).le

lemma count_bind_le_left (hm : m.count ≤ a) (hk : ∀ x, m.result = .ok x → (k x).count ≤ 0) : (m >>= k).count ≤ a :=
  (count_bind_le hm hk).trans (Nat.add_zero a).le

lemma count_bind_lift_le {f : α → Except ε β} (hm : m.count ≤ a) : (m >>= fun x => lift (f x)).count ≤ a :=
  count_bind_le_left hm fun x _ => (count_lift (f x)).le

lemma result_foldlM {f : σ → α → Counted ε σ} {g : σ → α → Except ε σ} (h : ∀ s a, (f s a).result = g s a)
    (l : List α) (s : σ) : (l.foldlM f s).result = l.foldlM g s := by
  induction l generalizing s with
  | nil => rfl
  | cons a l ih =>
    rw [List.foldlM_cons, result_bind, h]
    exact bind_congr_ok fun s' _ => ih s'

end Counted

end Lib
