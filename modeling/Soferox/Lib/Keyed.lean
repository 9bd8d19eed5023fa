import Mathlib.Data.List.AList
import Mathlib.Tactic

/-!
# Folds that act key by key

A loop over a list whose rounds each read and write one cell of the state, the cell of that round's key. When no key
occurs twice the loop acts on every cell at most once, so its result can be read off cell by cell.

* `foldl_look_of_mem`, `foldlM_eq_ok_foldl` — such loops;
* `lookup_insert_eq_ite`, `lookup_erase_eq_ite` — an association list as a function that changes at one key;
* `countValues` — the number of entries of an association list whose value has a property, and how it changes.
-/

namespace Lib

open List AList

universe u

variable {σ ι ε : Type u} {κ ω : Type*} {l : List ι}

section

variable {look : σ → κ → ω} {key : ι → κ} {f : σ → ι → σ}

lemma foldl_look_of_not_mem (hother : ∀ s i k, k ≠ key i → look (f s i) k = look s k) {k : κ}
    (h : k ∉ l.map key) (s : σ) : look (l.foldl f s) k = look s k := by
  induction l generalizing s with
  | nil => rfl
  | cons i l ih =>
    rw [map_cons, mem_cons, not_or] at h
    rw [foldl_cons, ih h.2, hother s i k h.1]

lemma foldl_look_of_mem (hother : ∀ s i k, k ≠ key i → look (f s i) k = look s k) {g : ι → ω → ω}
    (hself : ∀ s i, look (f s i) (key i) = g i (look s (key i))) (hl : (l.map key).Nodup) {i : ι}
    (hi : i ∈ l) (s : σ) : look (l.foldl f s) (key i) = g i (look s (key i)) := by
  induction l generalizing s with
  | nil => cases hi
  | cons j l ih =>
    rw [map_cons, nodup_cons] at hl
    rw [foldl_cons]
    rcases mem_cons.1 hi with rfl | hi
    · rw [foldl_look_of_not_mem hother hl.1, hself]
    · have hne : key i ≠ key j := fun h => hl.1 (h ▸ mem_map_of_mem hi)
      rw [ih hl.2 hi, hother _ _ _ hne]

end

lemma foldlM_eq_ok_foldl {look : σ → κ → ω} {key : ι → κ} {f : σ → ι → Except ε σ} {f' : σ → ι → σ}
    (hother : ∀ s i k, k ≠ key i → look (f' s i) k = look s k) {p : ι → ω → Prop}
    (hok : ∀ s i, p i (look s (key i)) → f s i = .ok (f' s i)) (hl : (l.map key).Nodup) (s : σ)
    (h : ∀ i ∈ l, p i (look s (key i))) : l.foldlM f s = .ok (l.foldl f' s) := by
  induction l generalizing s with
  | nil => rfl
  | cons i l ih =>
    rw [map_cons, nodup_cons] at hl
    rw [foldlM_cons, hok s i (h i mem_cons_self)]
    refine ih hl.2 (f' s i) fun j hj => ?_
    have hne : key j ≠ key i := fun he => hl.1 (he ▸ mem_map_of_mem hj)
    rw [hother s i _ hne]
    exact h j (mem_cons_of_mem _ hj)

/-! ## Loops over the entries of an association list -/

section

variable {α : Type u} {β : α → Type u} [DecidableEq α]

variable (look : σ → α → ω) {f : σ → Sigma β → σ} {m : AList β} {k : α}

variable (hother : ∀ s it k, k ≠ it.1 → look (f s it) k = look s k) (s : σ)
include hother s

lemma foldl_entries_look_none (h : m.lookup k = none) : look (m.entries.foldl f s) k = look s k :=
  foldl_look_of_not_mem hother (lookup_eq_none.1 h) s

lemma foldl_entries_look_some {g : Sigma β → ω → ω}
    (hself : ∀ s it, look (f s it) it.1 = g it (look s it.1)) {v : β k} (h : m.lookup k = some v) :
    look (m.entries.foldl f s) k = g ⟨k, v⟩ (look s k) :=
  foldl_look_of_mem hother hself m.nodupKeys (mem_lookup_iff.1 h) s

end

/-! ## Lookups -/

section

variable {α β ι : Type*} [DecidableEq α] {m : AList fun _ : α => β} {a c : α} {b d : β}

variable (m a b c) in
lemma lookup_insert_eq_ite : (m.insert a b).lookup c = if c = a then some b else m.lookup c := by
  split_ifs with h
  · rw [h, lookup_insert]
  · exact lookup_insert_ne h

variable (m a c) in
lemma lookup_erase_eq_ite : (m.erase a).lookup c = if c = a then none else m.lookup c := by
  split_ifs with h
  · rw [h, lookup_erase]
  · exact lookup_erase_ne h

lemma lookup_insert_eq_some : (m.insert a b).lookup c = some d ↔ c = a ∧ d = b ∨ c ≠ a ∧ m.lookup c = some d := by
  rw [lookup_insert_eq_ite]
  split_ifs with h <;> simp [h, eq_comm]

lemma lookup_erase_eq_some : (m.erase a).lookup c = some d ↔ c ≠ a ∧ m.lookup c = some d := by
  rw [lookup_erase_eq_ite]
  split_ifs with h <;> simp [h]

variable (m a c) in
lemma ite_lookup_erase (l : List α) :
    (if c ∈ l then none else (m.erase a).lookup c) = if c ∈ a :: l then none else m.lookup c := by
  rw [lookup_erase_eq_ite]
  by_cases hl : c ∈ l
  · rw [if_pos hl, if_pos (mem_cons_of_mem _ hl)]
  · simp only [mem_cons, hl, or_false, if_false]

variable (m a) in
lemma lookup_foldl_erase (key : ι → α) (l : List ι) :
    (l.foldl (fun m i => m.erase (key i)) m).lookup a = if a ∈ l.map key then none else m.lookup a := by
  induction l generalizing m with
  | nil => rfl
  | cons i l ih => rw [foldl_cons, ih, ite_lookup_erase, map_cons]

end

/-! ## Counting the entries of an association list -/

section

variable {α β : Type*} [DecidableEq α]

/-- The number of entries whose value has the property. -/
def countValues (p : β → Bool) (m : AList fun _ : α => β) : ℕ := m.entries.countP fun it => p it.2

variable {p : β → Bool} {m : AList fun _ : α => β} {a : α} {b d : β}

variable (p m a b) in
lemma countValues_insert : countValues p (m.insert a b) = countValues p (m.erase a) + (p b).toNat := by
  rw [countValues, entries_insert, countP_cons]
  cases p b with
  | true => rfl
  | false => rfl

lemma countValues_erase_of_none (h : m.lookup a = none) : countValues p (m.erase a) = countValues p m := by
  show (m.entries.kerase a).countP _ = _
  rw [kerase_of_notMem_keys (lookup_eq_none.1 h), countValues]

lemma countValues_erase (h : m.lookup a = some b) : countValues p m = countValues p (m.erase a) + (p b).toNat := by
  rw [← countValues_insert p m a b]
  refine List.Perm.countP_eq _ (lookup_ext m.nodupKeys (m.insert a b).nodupKeys fun c d => ?_)
  show m.lookup c = some d ↔ (m.insert a b).lookup c = some d
  rw [lookup_insert_eq_ite]
  split_ifs with hc
  · rw [hc, h]
  · rfl

lemma countValues_replace (h : m.lookup a = some b) :
    countValues p (m.insert a d) + (p b).toNat = countValues p m + (p d).toNat := by
  rw [countValues_insert, countValues_erase h]
  omega

omit [DecidableEq α] in
lemma countValues_eq_zero (h : m.entries = []) : countValues p m = 0 := by
  rw [countValues, h, countP_nil]

end

end Lib
