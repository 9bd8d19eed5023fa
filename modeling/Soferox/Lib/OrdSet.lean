import Mathlib.Data.List.Sort
import Mathlib.Data.Finset.Card
import Mathlib.Tactic

/-!
# Ordered sets

`std::set`: a list without repetitions, kept in the order of its elements, that is taken apart from its first element.
Only membership and the number of elements are visible in results, so the lemmas are about these.
-/

namespace Lib

section

variable {a b c d : Prop}

/-- A loop puts what has `c` into a set: one more element that has it. -/
lemma collect_iff (h : d → c) : (d ∨ a) ∨ b ∧ c ↔ a ∨ (d ∨ b) ∧ c := by
  tauto

/-- One more element that has not. -/
lemma skip_iff (h : d → ¬ c) : a ∨ b ∧ c ↔ a ∨ (d ∨ b) ∧ c := by
  tauto

end

lemma takeWhile_eq_filter {α : Type*} {p : α → Bool} {l : List α} (h : l.Pairwise fun a b => p b → p a) :
    l.takeWhile p = l.filter p := by
  induction l with
  | nil => rfl
  | cons a l ih =>
    obtain ⟨ha, hl⟩ := List.pairwise_cons.1 h
    by_cases hp : p a
    · rw [List.takeWhile_cons_of_pos hp, ih hl, List.filter_cons_of_pos hp]
    · rw [List.takeWhile_cons_of_neg hp, List.filter_cons_of_neg hp, eq_comm, List.filter_eq_nil_iff]
      exact fun b hb hpb => hp (ha b hb hpb)

/-- A finite set, listed in the order in which an iterator visits it. -/
structure OrdSet (α : Type*) where
  toList : List α
  nodup : toList.Nodup

namespace OrdSet

variable {α : Type*}

instance : Membership α (OrdSet α) := ⟨fun s a => a ∈ s.toList⟩

instance [DecidableEq α] : DecidableEq (OrdSet α) := fun s t =>
  decidable_of_iff (s.toList = t.toList) ⟨fun h => by cases s; cases t; cases h; rfl, fun h => h ▸ rfl⟩

instance [DecidableEq α] (a : α) (s : OrdSet α) : Decidable (a ∈ s) := inferInstanceAs (Decidable (a ∈ s.toList))

variable {s : OrdSet α} {a b : α}

lemma mem_toList : a ∈ s.toList ↔ a ∈ s := Iff.rfl

def empty : OrdSet α := ⟨[], List.nodup_nil⟩

instance : EmptyCollection (OrdSet α) := ⟨empty⟩

instance : Inhabited (OrdSet α) := ⟨empty⟩

@[simp] lemma not_mem_empty (a : α) : a ∉ (∅ : OrdSet α) := List.not_mem_nil

def size (s : OrdSet α) : ℕ := s.toList.length
def erase [DecidableEq α] (s : OrdSet α) (a : α) : OrdSet α := ⟨s.toList.erase a, s.nodup.erase a⟩

@[simp] lemma mem_erase [DecidableEq α] : b ∈ s.erase a ↔ b ≠ a ∧ b ∈ s :=
  s.nodup.mem_erase_iff

/-- The elements as a finite set. -/
def toFinset (s : OrdSet α) : Finset α := ⟨s.toList, s.nodup⟩

@[simp] lemma mem_toFinset : a ∈ s.toFinset ↔ a ∈ s := Iff.rfl
lemma toList_eq_nil_iff : s.toList = [] ↔ ∀ a, a ∉ s := List.eq_nil_iff_forall_not_mem

section insert

variable [DecidableEq α] [LE α] [DecidableLE α]

def insert (s : OrdSet α) (a : α) : OrdSet α :=
  if h : a ∈ s.toList then s
  else ⟨s.toList.orderedInsert (· ≤ ·) a, (List.perm_orderedInsert _ a _).nodup_iff.2 (List.nodup_cons.2 ⟨h, s.nodup⟩)⟩

@[simp] lemma mem_insert : b ∈ s.insert a ↔ b = a ∨ b ∈ s := by
  unfold insert
  split
  · next h =>
    refine ⟨Or.inr, ?_⟩
    rintro (rfl | hb)
    · exact h
    · exact hb
  · exact List.mem_orderedInsert ..

/-- The set built by inserting the elements of a list one after another. -/
def insertAll (s : OrdSet α) (l : List α) : OrdSet α := l.foldl insert s

@[simp] lemma mem_insertAll {l : List α} : b ∈ s.insertAll l ↔ b ∈ s ∨ b ∈ l := by
  induction l generalizing s with
  | nil => simp [insertAll]
  | cons a l ih =>
    have h : s.insertAll (a :: l) = (s.insert a).insertAll l := rfl
    rw [h, ih, mem_insert, List.mem_cons]
    tauto

end insert

end OrdSet

end Lib
