import Mathlib.Tactic
import Mathlib.Data.List.Basic
import Mathlib.Data.Set.Function

/-!
# Trees of hashes

A list of leaves is hashed level by level; the last value of an odd level is paired with itself.

* `pairUp`, `merkleRoot` — one level up, and the root;
* `pairComplete` — the values of the next level that cover a full block of leaves;
* `merkleRoot_inj` — lists of the same length with the same root are equal, if the hash has no collision in the two trees.
-/

namespace Lib

open List Option Nat

variable {α : Type} (H : α → α → α)

/-- One level up: the last value of an odd level is paired with itself. -/
def pairUp : List α → List α
  | [] => []
  | [a] => [H a a]
  | a :: b :: l => H a b :: pairUp l

/-- One level up, without the last value of an odd level. -/
def pairComplete : List α → List α
  | [] => []
  | [_] => []
  | a :: b :: l => H a b :: pairComplete l

/-- The pairs that are hashed to go one level up. -/
def pairs : List α → List (α × α)
  | [] => []
  | [a] => [(a, a)]
  | a :: b :: l => (a, b) :: pairs l

lemma pairUp_eq_map (l : List α) : pairUp H l = (pairs l).map fun p => H p.1 p.2 := by
  induction l using pairs.induct with
  | case1 => rfl
  | case2 a => rfl
  | case3 a b l ih => rw [pairUp, pairs, map_cons, ih]

lemma length_pairs (l : List α) : (pairs l).length = (l.length + 1) / 2 := by
  induction l using pairs.induct with
  | case1 => simp [pairs]
  | case2 a => simp [pairs]
  | case3 a b l ih =>
    simp only [pairs, length_cons]
    omega

lemma length_pairUp (l : List α) : (pairUp H l).length = (l.length + 1) / 2 := by
  rw [pairUp_eq_map, length_map, length_pairs]

lemma length_pairComplete (l : List α) : (pairComplete H l).length = l.length / 2 := by
  induction l using pairs.induct with
  | case1 => simp [pairComplete]
  | case2 a => simp [pairComplete]
  | case3 a b l ih =>
    simp only [pairComplete, length_cons]
    omega

/-! ## The pairs of a level -/

variable {l : List α}

lemma getElem?_pairs_of_two {i : ℕ} {a b : α} (ha : l[2 * i]? = some a) (hb : l[2 * i + 1]? = some b) :
    (pairs l)[i]? = some (a, b) := by
  induction l using pairs.induct generalizing i with
  | case1 => simp at ha
  | case2 c => simp at hb
  | case3 c d l ih =>
    cases i with
    | zero =>
      cases ha
      cases hb
      rfl
    | succ i =>
      exact ih ha hb

lemma getElem?_pairs_of_one {i : ℕ} {a : α} (ha : l[2 * i]? = some a) (hlen : l.length = 2 * i + 1) :
    (pairs l)[i]? = some (a, a) := by
  induction l using pairs.induct generalizing i with
  | case1 => simp at ha
  | case2 c =>
    obtain rfl : i = 0 := by simpa using hlen
    cases ha
    rfl
  | case3 c d l ih =>
    cases i with
    | zero => simp at hlen
    | succ i =>
      refine ih ha ?_
      simp only [length_cons] at hlen
      omega

/-- A value of the next level that covers two values of this one. -/
theorem exists_of_mem_pairComplete {c : α} (hc : c ∈ pairComplete H l) :
    ∃ i a b, l[2 * i]? = some a ∧ l[2 * i + 1]? = some b ∧ c = H a b := by
  induction l using pairs.induct with
  | case1 => simp [pairComplete] at hc
  | case2 d => simp [pairComplete] at hc
  | case3 d e l ih =>
    rw [pairComplete, mem_cons] at hc
    rcases hc with rfl | hc
    · exact ⟨0, d, e, rfl, rfl, rfl⟩
    · obtain ⟨i, a, b, ha, hb, rfl⟩ := ih hc
      exact ⟨i + 1, a, b, ha, hb, rfl⟩

variable {H}

/-! ## The end of a level -/

lemma pairComplete_append (h : Even l.length) (l' : List α) :
    pairComplete H (l ++ l') = pairComplete H l ++ pairComplete H l' := by
  induction l using pairs.induct with
  | case1 => rfl
  | case2 a => simp at h
  | case3 a b l ih =>
    have heven : Even l.length := by simpa [even_add_one] using h
    simp [pairComplete, ih heven]

lemma pairUp_append (h : Even l.length) (l' : List α) : pairUp H (l ++ l') = pairComplete H l ++ pairUp H l' := by
  induction l using pairs.induct with
  | case1 => rfl
  | case2 a => simp at h
  | case3 a b l ih =>
    have heven : Even l.length := by simpa [even_add_one] using h
    simp [pairComplete, pairUp, ih heven]

/-! ## The root -/

variable (H)

def merkleRoot : List α → Option α
  | [] => none
  | [a] => some a
  | a :: b :: l => merkleRoot (H a b :: pairUp H l)
termination_by l => l.length
decreasing_by
  simp only [List.length_cons, length_pairUp]
  omega

/-- All pairs that are hashed for the root. -/
def merklePairs : List α → List (α × α)
  | [] => []
  | [_] => []
  | a :: b :: l => pairs (a :: b :: l) ++ merklePairs (H a b :: pairUp H l)
termination_by l => l.length
decreasing_by
  simp only [List.length_cons, length_pairUp]
  omega

variable {H} {l' : List α}

lemma merkleRoot_pairUp (h : 2 ≤ l.length) : merkleRoot H (pairUp H l) = merkleRoot H l := by
  match l, h with
  | a :: b :: l, _ => rw [pairUp, merkleRoot.eq_def H (a :: b :: l)]

lemma merklePairs_eq (h : 2 ≤ l.length) : merklePairs H l = pairs l ++ merklePairs H (pairUp H l) := by
  match l, h with
  | a :: b :: l, _ => rw [merklePairs, pairUp]

lemma pairs_inj {l : List α} (hlen : l.length = l'.length) (h : pairs l = pairs l') : l = l' := by
  induction l using pairs.induct generalizing l' with
  | case1 => exact (length_eq_zero_iff.1 hlen.symm).symm
  | case2 a =>
    obtain ⟨b, rfl⟩ := length_eq_one_iff.1 hlen.symm
    simpa [pairs] using h
  | case3 a b l ih =>
    match l', hlen with
    | c :: d :: l', hlen =>
      simp only [pairs, List.cons.injEq, Prod.mk.injEq] at h
      rw [h.1.1, h.1.2, ih (by simpa using hlen) h.2]

/-- A level whose pairs are those of another is as long, unless it has a pair of equal values. -/
theorem length_le_of_pairs {l : List α} (h : pairs l = pairs l') (hne : ∀ i a, l[2 * i]? = some a → l[2 * i + 1]? ≠ some a) :
    l.length ≤ l'.length := by
  by_contra hlt
  have hlen := congrArg List.length h
  rw [length_pairs, length_pairs] at hlen
  obtain ⟨i, hi⟩ : ∃ i, l'.length = 2 * i + 1 := ⟨l'.length / 2, by omega⟩
  have htwo : 2 * i + 1 < l.length := by omega
  have hone := getElem?_pairs_of_one (getElem?_eq_getElem (show 2 * i < l'.length by omega)) hi
  rw [← h, getElem?_pairs_of_two (getElem?_eq_getElem (lt_of_succ_lt htwo)) (getElem?_eq_getElem htwo)] at hone
  obtain ⟨ha, hb⟩ := Prod.mk.inj (some.inj hone)
  exact hne i _ (getElem?_eq_getElem (lt_of_succ_lt htwo)) (by rw [getElem?_eq_getElem htwo, ha, hb])

/-- Injectivity that can be decided. -/
lemma injOn_of_list {β γ : Type} {f : β → γ} {S : Set β} {l : List β} (hS : ∀ b ∈ S, b ∈ l)
    (h : l.Pairwise fun b c => f b = f c → b = c) : S.InjOn f := by
  have : Std.Symm fun b c => f b = f c → b = c := ⟨fun _ _ h e => (h e.symm).symm⟩
  exact fun b hb c hc => h.forall_of_forall (fun _ _ _ => rfl) (hS b hb) (hS c hc)

lemma map_injOn {β γ : Type} {f : β → γ} {l l' : List β} (hinj : Set.InjOn f {b | b ∈ l ∨ b ∈ l'})
    (h : l.map f = l'.map f) : l = l' := by
  induction l generalizing l' with
  | nil => exact (map_eq_nil_iff.1 h.symm).symm
  | cons b l ih =>
    rcases l' with _ | ⟨b', l'⟩
    · simp at h
    · simp only [map_cons, List.cons.injEq] at h
      rw [hinj (.inl mem_cons_self) (.inr mem_cons_self) h.1, ih (hinj.mono ?_) h.2]
      intro c hc
      exact hc.imp (mem_cons_of_mem _) (mem_cons_of_mem _)

lemma merkleRoot_inj {l : List α} (hlen : l.length = l'.length)
    (hinj : Set.InjOn (fun p : α × α => H p.1 p.2) {p | p ∈ merklePairs H l ∨ p ∈ merklePairs H l'})
    (h : merkleRoot H l = merkleRoot H l') : l = l' := by
  induction hn : l.length using Nat.strong_induction_on generalizing l l' with
  | _ n ih =>
    by_cases htwo : 2 ≤ l.length
    · have htwo' : 2 ≤ l'.length := hlen ▸ htwo
      rw [merklePairs_eq htwo, merklePairs_eq htwo'] at hinj
      rw [← merkleRoot_pairUp htwo, ← merkleRoot_pairUp htwo'] at h
      have hup : pairUp H l = pairUp H l' := by
        refine ih _ ?_ ?_ (hinj.mono ?_) h rfl
        · rw [length_pairUp]
          omega
        · rw [length_pairUp, length_pairUp, hlen]
        · intro p hp
          exact hp.imp (mem_append_right _) (mem_append_right _)
      rw [pairUp_eq_map, pairUp_eq_map] at hup
      refine pairs_inj hlen (map_injOn (hinj.mono ?_) hup)
      intro p hp
      exact hp.imp (mem_append_left _) (mem_append_left _)
    · -- one leaf is its own root
      match l, l', hlen, h with
      | [], [], _, _ => rfl
      | [a], [b], _, h => simpa [merkleRoot] using h
      | _ :: _ :: _, _, _, _ => simp at htwo

end Lib
