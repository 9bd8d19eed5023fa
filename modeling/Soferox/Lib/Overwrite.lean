import Mathlib.Tactic

/-!
# Overwrites of a map

An overwrite writes some places of a map, with content that does not depend on the map, and leaves the others alone.
Repeating one does nothing new. So a store that was caught between two states can be taken to the second one: go back
to a state before both and forward again, with overwrites.

* `IsOverwrite.comp`, `IsOverwrite.foldl` — overwrites compose;
* `IsOverwrite.recover` — back and forward from any mixture of the two states.
-/

namespace Lib

variable {κ α β : Type*}

/-- At every place, the function writes a fixed content or does nothing. -/
def IsOverwrite (f : (κ → α) → κ → α) : Prop := ∀ k, (∃ a, ∀ m, f m k = a) ∨ ∀ m, f m k = m k

namespace IsOverwrite



lemma comp {f g : (κ → α) → κ → α} (hf : IsOverwrite f) (hg : IsOverwrite g) : IsOverwrite fun m => f (g m) := by
  intro k
  rcases hf k with ⟨a, ha⟩ | hid
  · exact .inl ⟨a, fun m => ha (g m)⟩
  · rcases hg k with ⟨a, ha⟩ | hid'
    · exact .inl ⟨a, fun m => (hid (g m)).trans (ha m)⟩
    · exact .inr fun m => (hid (g m)).trans (hid' m)

lemma foldl {f : (κ → α) → β → κ → α} (hf : ∀ b, IsOverwrite fun m => f m b) (l : List β) :
    IsOverwrite fun m => l.foldl f m := by
  induction l with
  | nil => exact fun _ => .inr fun _ => rfl
  | cons b l ih => exact ih.comp (hf b)

/-- **Recovery.** `a` and `b` are two states, `back` takes `a` to a state `c` and `forth` takes `c` to `b`. Then they
take every mixture of `a` and `b` to `b`. -/
theorem recover {back forth : (κ → α) → κ → α} (hback : IsOverwrite back) (hforth : IsOverwrite forth) {a b c m : κ → α}
    (hc : back a = c) (hb : forth c = b) (hm : ∀ k, m k = a k ∨ m k = b k) : forth (back m) = b := by
  funext k
  rcases hforth k with ⟨x, hx⟩ | hid
  · rw [hx, ← hb, hx]
  · have hbk : b k = c k := by rw [← hb, hid]
    rw [hid, hbk]
    rcases hback k with ⟨x, hx⟩ | hid'
    · rw [hx, ← hc, hx]
    · have hck : c k = a k := by rw [← hc, hid']
      rw [hid']
      rcases hm k with h | h
      · rw [h, hck]
      · rw [h, hbk]

end IsOverwrite

end Lib
