import Mathlib.Data.List.Nodup
import Mathlib.Logic.Function.Basic

/-!
# Positions in a list

A list whose elements know where they stand, as kept by containers that remove an element by moving the last one into
its place. The first `s` places may hold anything.

* `PositionsFrom.push`, `PositionsFrom.pop` — a new element at the end, and the last one dropped;
* `PositionsFrom.swap` — two elements change places;
* `PositionsFrom.swapRemove` — an element is overwritten with the last one, and the last place is dropped.
-/

namespace Lib

open Function List

variable {α : Type*}

/-- `pos` tells for every element of `l` where it stands, from place `s` on. -/
def PositionsFrom (s : ℕ) (l : List α) (pos : α → Option ℕ) : Prop :=
  ∀ a i, pos a = some i ↔ s ≤ i ∧ l[i]? = some a

lemma positionsFrom_length (l : List α) : PositionsFrom l.length l fun _ => none := by
  intro a i
  grind

variable {s i : ℕ} {l : List α} {pos : α → Option ℕ} {a b : α}

lemma getElem?_concat_eq_some : (l ++ [a])[i]? = some b ↔ l[i]? = some b ∨ i = l.length ∧ b = a := by
  grind

lemma PositionsFrom.congr {pos' : α → Option ℕ} (h : PositionsFrom s l pos) (heq : ∀ a, pos' a = pos a) :
    PositionsFrom s l pos' := by
  intro a i
  rw [heq, h]

lemma PositionsFrom.nodup (h : PositionsFrom 0 l pos) : l.Nodup := by
  rw [nodup_iff_getElem?_ne_getElem?]
  intro i j hij hj heq
  obtain ⟨a, ha⟩ : ∃ a, l[j]? = some a := ⟨_, getElem?_eq_getElem hj⟩
  have hi := (h a i).2 ⟨Nat.zero_le i, heq.trans ha⟩
  rw [(h a j).2 ⟨Nat.zero_le j, ha⟩, Option.some_inj] at hi
  omega

variable [DecidableEq α]

section

variable (h : PositionsFrom s l pos)
include h

lemma PositionsFrom.push (hs : s ≤ l.length) (ha : pos a = none) :
    PositionsFrom s (l ++ [a]) (update pos a (some l.length)) := by
  intro c i
  have hc := h c i
  rw [update_apply]
  split_ifs with hca
  · grind
  · grind

lemma PositionsFrom.swap {j : ℕ} (hi : s ≤ i) (hj : s ≤ j) (hij : i ≠ j) (ha : l[i]? = some a) (hb : l[j]? = some b) :
    PositionsFrom s ((l.set i b).set j a) (update (update pos a (some j)) b (some i)) := by
  have hposa := (h a i).2 ⟨hi, ha⟩
  have hposb := (h b j).2 ⟨hj, hb⟩
  intro c k
  have hc := h c k
  rw [getElem?_set]
  split_ifs <;> grind

lemma PositionsFrom.pop (hs : s < l.length) (ha : l.getLast? = some a) :
    PositionsFrom s l.dropLast (update pos a none) := by
  rw [getLast?_eq_getElem?] at ha
  have hposa := (h a (l.length - 1)).2 ⟨by omega, ha⟩
  intro c k
  have hc := h c k
  rw [getElem?_dropLast]
  split_ifs <;> grind

/-- The last element `b` takes the place of `a`, which may be `b` itself. -/
theorem PositionsFrom.swapRemove (hi : s ≤ i) (ha : l[i]? = some a) (hb : l.getLast? = some b) :
    PositionsFrom s (l.set i b).dropLast (update (update pos b (some i)) a none) := by
  have hlen : i < l.length := (List.getElem?_eq_some_iff.1 ha).1
  rw [getLast?_eq_getElem?] at hb
  have hposa := (h a i).2 ⟨hi, ha⟩
  have hposb := (h b (l.length - 1)).2 ⟨by omega, hb⟩
  intro c k
  have hc := h c k
  rw [update_apply, update_apply, getElem?_dropLast, length_set]
  split_ifs with hca hk hcb hk <;> grind

end

end Lib
