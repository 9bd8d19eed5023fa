import Soferox.Lib.Merkle
import Soferox.Primitives.Transaction

/-!
# Merkle trees

`consensus/merkle.cpp`: `MerkleComputation`, which keeps one hash for each level of the tree, and what is computed with
it. The two-to-one hash is a parameter; the counter does not wrap, which is the limit that the source states.

* `MerkleState.Holds` — the hash of each complete block of leaves that has no partner yet;
* `merkleComputation_root` — the root is that of the tree, level by level.
-/

namespace Soferox

open Lib List Function

/-- The variables of `MerkleComputation` that are kept from leaf to leaf. -/
structure MerkleState where
  count : ℕ
  inner : ℕ → Uint256
  /-- `none` for `-1` -/
  matchlevel : Option ℕ
  mutated : Bool
  branch : List Uint256

/-- The variables of `MerkleComputation` while hashes are combined. -/
structure MerkleClimb where
  level : ℕ
  h : Uint256
  matchh : Bool
  mutated : Bool
  branch : List Uint256

section Computation

variable (H : Uint256 → Uint256 → Uint256)

namespace MerkleClimb

/-- Combine the hash with the one that is kept at its level. -/
def combine (s : MerkleState) (c : MerkleClimb) : MerkleClimb where
  level := c.level + 1
  h := H (s.inner c.level) c.h
  matchh := c.matchh || s.matchlevel == some c.level
  mutated := c.mutated
  branch :=
    if c.matchh then c.branch ++ [s.inner c.level]
    else if s.matchlevel == some c.level then c.branch ++ [c.h]
    else c.branch

/-- The same for a new leaf, where equal hashes are noticed. -/
def combineLeaf (s : MerkleState) (c : MerkleClimb) : MerkleClimb :=
  { c.combine H s with mutated := c.mutated || s.inner c.level == c.h }

/-- Combine the hash with itself. -/
def double (c : MerkleClimb) : MerkleClimb where
  level := c.level + 1
  h := H c.h c.h
  matchh := c.matchh
  mutated := c.mutated
  branch := if c.matchh then c.branch ++ [c.h] else c.branch

/-- `while (!(count & (1 << level)))`. -/
def climb (step : MerkleClimb → MerkleClimb) (count : ℕ) : ℕ → MerkleClimb → MerkleClimb
  | 0, c => c
  | fuel + 1, c => if count.testBit c.level then c else climb step count fuel (step c)

/-- The final sweep over the rightmost branch of the tree. -/
def sweep (s : MerkleState) : ℕ → ℕ → MerkleClimb → MerkleClimb
  | 0, _, c => c
  | fuel + 1, count, c =>
    if count = 2 ^ c.level then c
    else sweep s fuel (count + 2 ^ c.level) (climb (combine H s) (count + 2 ^ c.level) (count + 2 ^ c.level) (c.double H))

end MerkleClimb

namespace MerkleState

/-- The loop over the leaves, once. -/
def addLeaf (branchpos : ℕ) (s : MerkleState) (leaf : Uint256) : MerkleState :=
  let count := s.count + 1
  let c := MerkleClimb.climb (.combineLeaf H s) count count ⟨0, leaf, s.count == branchpos, s.mutated, s.branch⟩
  { count := count
    inner := Function.update s.inner c.level c.h
    matchlevel := if c.matchh then some c.level else s.matchlevel
    mutated := c.mutated
    branch := c.branch }

def start : MerkleState := ⟨0, fun _ => 0, none, false, []⟩

/-- The lowest level at which a hash is kept, where the final sweep begins. -/
def lowest (s : MerkleState) : MerkleClimb :=
  let level := (MerkleClimb.climb (fun c => { c with level := c.level + 1 }) s.count s.count ⟨0, 0, false, false, []⟩).level
  ⟨level, s.inner level, s.matchlevel == some level, s.mutated, s.branch⟩

end MerkleState

/-- `MerkleComputation`: the root, whether equal hashes were combined, and the branch of the leaf at `branchpos`. -/
def merkleComputation (leaves : List Uint256) (branchpos : ℕ) : Uint256 × Bool × List Uint256 :=
  if leaves.length = 0 then (0, false, [])
  else
    let s := leaves.foldl (MerkleState.addLeaf H branchpos) .start
    let c := MerkleClimb.sweep H s s.count s.count s.lowest
    (c.h, s.mutated, c.branch)

/-- `ComputeMerkleRoot`, with `mutated`. -/
def computeMerkleRoot (leaves : List Uint256) : Uint256 × Bool :=
  let (hash, mutated, _) := merkleComputation H leaves (2 ^ 32 - 1)
  (hash, mutated)

end Computation

/-! ## Climbing -/

section Root

variable {H : Uint256 → Uint256 → Uint256}

lemma testBit_eq_false_iff {n k : ℕ} : n.testBit k = false ↔ n / 2 ^ k % 2 = 0 := by
  rw [Nat.testBit_eq_decide_div_mod_eq, decide_eq_false_iff_not]
  omega

variable {c : MerkleClimb}

/-- An invariant of the steps holds where the climb ends, which is at a bit of the count. -/
theorem MerkleClimb.climb_spec (Inv : MerkleClimb → Prop) (step : MerkleClimb → MerkleClimb) (count fuel : ℕ)
    (hlevel : ∀ c, (step c).level = c.level + 1)
    (hstep : ∀ c, Inv c → count.testBit c.level = false → Inv (step c)) (hc : Inv c)
    (hlow : 2 ^ c.level ≤ count) (hfuel : count < 2 ^ (c.level + fuel)) :
    Inv (climb step count fuel c) ∧ count.testBit (climb step count fuel c).level = true := by
  induction fuel generalizing c with
  | zero =>
    rw [Nat.add_zero] at hfuel
    omega
  | succ fuel ih =>
    rw [climb]
    by_cases hbit : count.testBit c.level = true
    · rw [if_pos hbit]
      exact ⟨hc, hbit⟩
    · rw [if_neg hbit]
      simp only [Bool.not_eq_true] at hbit
      refine ih (hstep c hc hbit) ?_ ?_
      · -- the bit is clear, so that there is a higher one
        rw [hlevel]
        have hdiv : 1 ≤ count / 2 ^ c.level := (Nat.one_le_div_iff (by positivity)).2 hlow
        have heven := testBit_eq_false_iff.1 hbit
        have htwo : 2 ≤ count / 2 ^ c.level := by omega
        calc 2 ^ c.level * 2 ≤ 2 ^ c.level * (count / 2 ^ c.level) := Nat.mul_le_mul_left _ htwo
          _ ≤ count := Nat.mul_div_le _ _
      · rw [hlevel]
        exact hfuel.trans_eq (by ring_nf)

/-! ## The state after some leaves -/

variable (H)

/-- The hashes of the complete blocks of `2 ^ k` leaves. -/
def blocks (k : ℕ) (leaves : List Uint256) : List Uint256 := (pairComplete H)^[k] leaves

/-- **The kept hashes**: at a level with an odd number of complete blocks, that of the last. -/
structure MerkleState.Holds (s : MerkleState) (leaves : List Uint256) : Prop where
  count : s.count = leaves.length
  inner : ∀ k, leaves.length.testBit k = true → ∃ front, blocks H k leaves = front ++ [s.inner k]

variable {H} {l : List Uint256} (k : ℕ) (leaves : List Uint256)

lemma blocks_succ : blocks H (k + 1) leaves = pairComplete H (blocks H k leaves) :=
  iterate_succ_apply' _ _ _

variable (H) in
lemma length_blocks : (blocks H k leaves).length = leaves.length / 2 ^ k := by
  induction k with
  | zero => simp [blocks]
  | succ k ih => rw [blocks_succ, length_pairComplete, ih, Nat.div_div_eq_div_mul, pow_succ]

lemma pairComplete_concat (h : Even l.length) (x : Uint256) : pairComplete H (l ++ [x]) = pairComplete H l := by
  rw [pairComplete_append h, pairComplete, append_nil]

lemma pairComplete_concat_two (h : Even l.length) (x y : Uint256) :
    pairComplete H (l ++ [x] ++ [y]) = pairComplete H l ++ [H x y] := by
  rw [append_assoc, pairComplete_append h, singleton_append, pairComplete, pairComplete]

variable (H)

/-- Where the climb from a new leaf `x` has come to. -/
structure Climbing (leaves : List Uint256) (x : Uint256) (c : MerkleClimb) : Prop where
  grown : blocks H c.level (leaves ++ [x]) = blocks H c.level leaves ++ [c.h]
  below : ∀ k < c.level, (leaves.length + 1).testBit k = false

variable {H} {s : MerkleState} {leaves : List Uint256} {x : Uint256}

lemma Climbing.length (h : Climbing H leaves x c) :
    (blocks H c.level leaves).length + 1 = (leaves.length + 1) / 2 ^ c.level := by
  have hlen := congrArg List.length h.grown
  rw [length_blocks, length_append, length_append] at hlen
  exact hlen.symm

lemma MerkleState.Holds.exists_front (hs : s.Holds H leaves) {k : ℕ} (hodd : (blocks H k leaves).length % 2 ≠ 0) :
    ∃ front, blocks H k leaves = front ++ [s.inner k] ∧ Even front.length := by
  have hbit : leaves.length.testBit k = true := by
    rwa [← Bool.not_eq_false, testBit_eq_false_iff, ← length_blocks H]
  obtain ⟨front, hfront⟩ := hs.inner k hbit
  rw [hfront, length_append, length_singleton] at hodd
  exact ⟨front, hfront, Nat.even_iff.2 (by omega)⟩

lemma Climbing.combineLeaf (hs : s.Holds H leaves) (h : Climbing H leaves x c)
    (hbit : (leaves.length + 1).testBit c.level = false) : Climbing H leaves x (c.combineLeaf H s) := by
  have hlen := h.length
  rw [testBit_eq_false_iff] at hbit
  obtain ⟨front, hfront, heven⟩ := hs.exists_front (k := c.level) (by omega)
  refine ⟨?_, ?_⟩
  · show blocks H (c.level + 1) (leaves ++ [x]) = blocks H (c.level + 1) leaves ++ [H (s.inner c.level) c.h]
    rw [blocks_succ, blocks_succ, h.grown, hfront, pairComplete_concat_two heven, pairComplete_concat heven]
  · intro k hk
    rcases Nat.lt_succ_iff_lt_or_eq.1 hk with hk | rfl
    · exact h.below k hk
    · exact testBit_eq_false_iff.2 hbit

/-- Where the climb from a new leaf ends, with an invariant of its steps. -/
theorem MerkleState.Holds.exists_climb (hs : s.Holds H leaves) (branchpos : ℕ) {P : MerkleClimb → Prop}
    (hstart : P ⟨0, x, s.count == branchpos, s.mutated, s.branch⟩) (hstep : ∀ c, Climbing H leaves x c → P c →
      (leaves.length + 1).testBit c.level = false → P (c.combineLeaf H s)) :
    ∃ c, Climbing H leaves x c ∧ P c ∧ (leaves.length + 1).testBit c.level = true ∧ s.addLeaf H branchpos x =
      ⟨s.count + 1, update s.inner c.level c.h, if c.matchh then some c.level else s.matchlevel, c.mutated, c.branch⟩ := by
  obtain ⟨⟨hclimb, hinv⟩, hbit⟩ := MerkleClimb.climb_spec (fun c => Climbing H leaves x c ∧ P c) (.combineLeaf H s)
    (s.count + 1) (s.count + 1) (fun c => rfl)
    (fun c hc hbit => ⟨hc.1.combineLeaf hs (hs.count ▸ hbit), hstep c hc.1 hc.2 (hs.count ▸ hbit)⟩)
    ⟨⟨rfl, by simp⟩, hstart⟩ (by simp) (by simpa using Nat.lt_two_pow_self)
  exact ⟨_, hclimb, hinv, hs.count ▸ hbit, rfl⟩

lemma MerkleState.Holds.addLeaf (hs : s.Holds H leaves) (branchpos : ℕ) (x : Uint256) :
    (s.addLeaf H branchpos x).Holds H (leaves ++ [x]) := by
  obtain ⟨c, hclimb, -, hbit, heq⟩ := hs.exists_climb (x := x) branchpos (P := fun _ => True) trivial
    fun _ _ _ _ => trivial
  rw [heq]
  refine ⟨by simp [hs.count], ?_⟩
  intro k hk
  rw [length_append, length_singleton] at hk
  rcases lt_trichotomy k c.level with hlt | rfl | hgt
  · rw [hclimb.below k hlt] at hk
    contradiction
  · exact ⟨_, by simpa using hclimb.grown⟩
  · -- above, the blocks are those from before
    have heven : Even (blocks H c.level leaves).length := by
      have hlen := hclimb.length
      have hodd := Nat.testBit_eq_decide_div_mod_eq ▸ hbit
      rw [Nat.even_iff]
      simp only [decide_eq_true_eq] at hodd
      omega
    have hsame (j : ℕ) : blocks H (c.level + 1 + j) (leaves ++ [x]) = blocks H (c.level + 1 + j) leaves := by
      induction j with
      | zero => rw [blocks_succ, blocks_succ, hclimb.grown, pairComplete_concat heven]
      | succ j ih => rw [← Nat.add_assoc, blocks_succ, blocks_succ, ih]
    obtain ⟨j, rfl⟩ := Nat.exists_eq_add_of_lt hgt
    rw [show c.level + j + 1 = c.level + 1 + j by omega] at hk hgt ⊢
    have hk' : leaves.length.testBit (c.level + 1 + j) = true := by
      rw [Nat.testBit_eq_decide_div_mod_eq, ← length_blocks H, ← hsame j, length_blocks, length_append, ← Nat.testBit_eq_decide_div_mod_eq]
      exact hk
    obtain ⟨front, hfront⟩ := hs.inner _ hk'
    refine ⟨front, ?_⟩
    rw [hsame j, hfront]
    simp [update_of_ne (show c.level + 1 + j ≠ c.level by omega)]

lemma MerkleState.holds_foldl (branchpos : ℕ) (leaves : List Uint256) :
    (leaves.foldl (MerkleState.addLeaf H branchpos) .start).Holds H leaves := by
  induction leaves using reverseRecOn with
  | nil => exact ⟨rfl, by simp⟩
  | append_singleton leaves x ih =>
    rw [foldl_append]
    exact ih.addLeaf branchpos x

/-! ## The final sweep -/

variable (H)

/-- Level `k` of the tree, where the last value of an odd level is paired with itself. -/
def levels (k : ℕ) (leaves : List Uint256) : List Uint256 := (pairUp H)^[k] leaves

variable {H}

lemma levels_succ (leaves : List Uint256) : levels H (k + 1) leaves = pairUp H (levels H k leaves) :=
  iterate_succ_apply' _ _ _

variable (H) in
lemma length_levels_succ_le (leaves : List Uint256) :
    (levels H (k + 1) leaves).length ≤ (levels H k leaves).length := by
  rw [levels_succ, length_pairUp]
  omega

variable (H)

/-- What the counter says at a level. -/
structure AtLevel (leaves : List Uint256) (count k : ℕ) : Prop where
  count : count = (levels H k leaves).length * 2 ^ k
  root : merkleRoot H (levels H k leaves) = merkleRoot H leaves

/-- The hash `c.h` is the last of its level, and those before it are complete blocks. -/
structure Sweeping (leaves : List Uint256) (count : ℕ) (c : MerkleClimb) : Prop extends AtLevel H leaves count c.level where
  level : levels H c.level leaves = blocks H c.level leaves ++ [c.h]

variable {H}

variable {count : ℕ}

/-- At a level with an odd number of values, the counter goes up to the next even one. -/
theorem AtLevel.succ {k : ℕ} (h : AtLevel H leaves count k) (htwo : 2 ≤ (levels H k leaves).length) {count' : ℕ}
    (hcount : count' = count + (levels H k leaves).length % 2 * 2 ^ k) : AtLevel H leaves count' (k + 1) := by
  have hhalf : (levels H k leaves).length + (levels H k leaves).length % 2 = ((levels H k leaves).length + 1) / 2 * 2 := by
    omega
  refine ⟨?_, ?_⟩
  · rw [levels_succ, length_pairUp, hcount, h.count, ← Nat.add_mul, hhalf]
    ring
  · rw [levels_succ, merkleRoot_pairUp htwo, h.root]

section

variable (h : Sweeping H leaves count c)
include h

lemma Sweeping.length : (levels H c.level leaves).length = (blocks H c.level leaves).length + 1 := by
  rw [h.level, length_append, length_singleton]

lemma Sweeping.combine (hs : s.Holds H leaves)
    (hbit : count.testBit c.level = false) : Sweeping H leaves count (c.combine H s) := by
  rw [testBit_eq_false_iff, h.count, Nat.mul_div_cancel _ (by positivity)] at hbit
  have hlen := h.length
  obtain ⟨front, hfront, heven⟩ := hs.exists_front (k := c.level) (by omega)
  have hup : levels H (c.level + 1) leaves = pairComplete H front ++ [H (s.inner c.level) c.h] := by
    rw [levels_succ, h.level, hfront, append_assoc, pairUp_append heven, singleton_append, pairUp, pairUp]
  refine ⟨h.succ (by omega) (by rw [hbit]; omega), ?_⟩
  show levels H (c.level + 1) leaves = blocks H (c.level + 1) leaves ++ [H (s.inner c.level) c.h]
  rw [hup, blocks_succ, hfront, pairComplete_concat heven]

lemma Sweeping.pow_le : 2 ^ c.level ≤ count := by
  have hlen := h.length
  rw [h.count]
  exact Nat.le_mul_of_pos_left _ (by omega)

end

variable (H)

/-- The same at a level with an odd number of values, the last of which has no partner. -/
structure Partnerless (leaves : List Uint256) (count : ℕ) (c : MerkleClimb) (front : List Uint256) : Prop
    extends AtLevel H leaves count c.level where
  level : levels H c.level leaves = front ++ [c.h]
  even : Even front.length
  complete : pairComplete H front = blocks H (c.level + 1) leaves

variable {H}

lemma Sweeping.partnerless (h : Sweeping H leaves count c)
    (hbit : count.testBit c.level = true) : Partnerless H leaves count c (blocks H c.level leaves) := by
  refine ⟨h.toAtLevel, h.level, ?_, (blocks_succ _ _).symm⟩
  have hlen := h.length
  rw [← Bool.not_eq_false, testBit_eq_false_iff, h.count, Nat.mul_div_cancel _ (by positivity)] at hbit
  rw [Nat.even_iff]
  omega

variable {front : List Uint256}

lemma Partnerless.length (h : Partnerless H leaves count c front) :
    (levels H c.level leaves).length = front.length + 1 := by
  rw [h.level, length_append, length_singleton]

lemma Partnerless.double (h : Partnerless H leaves count c front)
    (htwo : 2 ≤ (levels H c.level leaves).length) : Sweeping H leaves (count + 2 ^ c.level) (c.double H) := by
  have hlen := h.length
  have heven := Nat.even_iff.1 h.even
  refine ⟨h.succ htwo (by rw [show (levels H c.level leaves).length % 2 = 1 by omega, one_mul]), ?_⟩
  show levels H (c.level + 1) leaves = blocks H (c.level + 1) leaves ++ [H c.h c.h]
  rw [levels_succ, h.level, pairUp_append h.even, pairUp, h.complete]

/-- **The final sweep** ends at the root. -/
theorem Partnerless.sweep (hs : s.Holds H leaves) {fuel count : ℕ}
    (h : Partnerless H leaves count c front) (hfuel : (levels H c.level leaves).length ≤ fuel) :
    some (MerkleClimb.sweep H s fuel count c).h = merkleRoot H leaves := by
  induction fuel generalizing count c front with
  | zero =>
    rw [h.length] at hfuel
    omega
  | succ fuel ih =>
    have hlen := h.length
    rw [MerkleClimb.sweep]
    by_cases htop : count = 2 ^ c.level
    · -- one value is left
      rw [if_pos htop]
      have hone : (levels H c.level leaves).length = 1 := by
        have hcount := h.count.symm.trans htop
        exact Nat.eq_of_mul_eq_mul_right (by positivity) (hcount.trans (one_mul _).symm)
      have hnil : front = [] := length_eq_zero_iff.1 (by omega)
      rw [← h.root, h.level, hnil, nil_append, merkleRoot]
    · rw [if_neg htop]
      have htwo : 2 ≤ (levels H c.level leaves).length := by
        by_contra hlt
        have hone : (levels H c.level leaves).length = 1 := by omega
        exact htop (by rw [h.count, hone, one_mul])
      have hsweep := h.double htwo
      obtain ⟨⟨hnext, hle⟩, hbit⟩ := MerkleClimb.climb_spec
        (fun c' => Sweeping H leaves (count + 2 ^ c.level) c' ∧
          (levels H c'.level leaves).length ≤ (levels H (c.level + 1) leaves).length)
        (.combine H s) (count + 2 ^ c.level) (count + 2 ^ c.level) (fun c => rfl)
        (fun c hc hbit => ⟨hc.1.combine hs hbit, (length_levels_succ_le H c.level leaves).trans hc.2⟩)
        ⟨hsweep, le_rfl⟩ hsweep.pow_le (Nat.lt_two_pow_self.trans_le (Nat.pow_le_pow_right (by omega) (by omega)))
      refine ih (hnext.partnerless hbit) (hle.trans ?_)
      rw [levels_succ, length_pairUp]
      omega

variable (H)

/-- The levels up to this one have complete blocks only. -/
structure Unpaired (leaves : List Uint256) (c : MerkleClimb) : Prop
    extends AtLevel H leaves leaves.length c.level where
  level : levels H c.level leaves = blocks H c.level leaves

variable {H}

/-- Where the sweep begins: every level below has an even number of values. -/
theorem MerkleState.Holds.partnerless_lowest (hs : s.Holds H leaves) (hne : leaves ≠ []) :
    ∃ front, Partnerless H leaves s.count s.lowest front := by
  have hpos : 1 ≤ s.count := hs.count ▸ length_pos_iff.2 hne
  -- while the bits are clear, all blocks are complete
  have hstep (c : MerkleClimb) (hc : Unpaired H leaves c) (hbit : s.count.testBit c.level = false) :
      Unpaired H leaves { c with level := c.level + 1 } := by
    rw [hs.count, testBit_eq_false_iff, hc.count, Nat.mul_div_cancel _ (by positivity)] at hbit
    have heven : Even (blocks H c.level leaves).length := by rwa [← hc.level, Nat.even_iff]
    have htwo : 2 ≤ (levels H c.level leaves).length := by
      by_contra hlt
      have hnil : (levels H c.level leaves).length = 0 := by omega
      have hzero := hc.count
      rw [hnil, zero_mul] at hzero
      exact hne (length_eq_zero_iff.1 hzero)
    refine ⟨hc.succ htwo (by rw [hbit]; omega), ?_⟩
    rw [levels_succ, blocks_succ, hc.level, ← append_nil (blocks H c.level leaves), pairUp_append heven]
    simp [pairUp]
  have hstart : Unpaired H leaves ⟨0, 0, false, false, []⟩ := ⟨⟨by simp [levels], rfl⟩, rfl⟩
  obtain ⟨hinv, hbit⟩ := MerkleClimb.climb_spec (Unpaired H leaves) (fun c => { c with level := c.level + 1 }) s.count
    s.count (fun c => rfl) hstep hstart (by simpa using hpos) (by simpa using Nat.lt_two_pow_self)
  set c := MerkleClimb.climb (fun c => { c with level := c.level + 1 }) s.count s.count ⟨0, 0, false, false, []⟩ with hc
  rw [hs.count] at hbit
  obtain ⟨front, hfront⟩ := hs.inner c.level hbit
  have heven : Even front.length := by
    have hlen := congrArg List.length hfront
    rw [length_blocks, length_append, length_singleton] at hlen
    rw [← Bool.not_eq_false, testBit_eq_false_iff] at hbit
    rw [Nat.even_iff]
    omega
  refine ⟨front, ⟨hs.count.trans hinv.count, hinv.root⟩, hinv.level.trans hfront, heven, ?_⟩
  show pairComplete H front = blocks H (c.level + 1) leaves
  rw [blocks_succ, hfront, pairComplete_concat heven]

/-- **`MerkleComputation` returns the root of the tree**, level by level. -/
theorem merkleComputation_root {leaves : List Uint256} (hne : leaves ≠ []) (branchpos : ℕ) :
    some (merkleComputation H leaves branchpos).1 = merkleRoot H leaves := by
  have hs := MerkleState.holds_foldl (H := H) branchpos leaves
  obtain ⟨front, hlow⟩ := hs.partnerless_lowest hne
  rw [merkleComputation, if_neg (by simpa using hne)]
  refine hlow.sweep hs ?_
  rw [hlow.count]
  exact Nat.le_mul_of_pos_right _ (by positivity)

lemma computeMerkleRoot_root {leaves : List Uint256} (hne : leaves ≠ []) :
    some (computeMerkleRoot H leaves).1 = merkleRoot H leaves :=
  merkleComputation_root hne _

end Root

end Soferox
