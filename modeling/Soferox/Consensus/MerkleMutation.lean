import Soferox.Consensus.Merkle

/-!
# Equal hashes in merkle trees

`MerkleComputation` notices equal hashes that are combined as two complete blocks of leaves. If the hash has no collision
in the tree, then no other two values that are combined are equal.

* `merkleComputation_mutated` — what `mutated` says;
* `siblings_ne` — without it, two values of a level that are combined are different;
* `computeMerkleRoot_inj` — without it, the root determines the leaves, and their number.
-/

namespace Soferox

open Lib MerkleState List Nat

variable (H : Uint256 → Uint256 → Uint256)

/-- Two complete blocks of leaves that are combined have the same hash. -/
def HasTwins (leaves : List Uint256) : Prop :=
  ∃ k i a, (blocks H k leaves)[2 * i]? = some a ∧ (blocks H k leaves)[2 * i + 1]? = some a

/-- The new leaf `x` completes a block of `2 ^ k` leaves that is combined with one with the same hash. -/
def TwinAtEnd (k : ℕ) (leaves : List Uint256) (x : Uint256) : Prop :=
  ∃ front a, Even front.length ∧ blocks H k leaves = front ++ [a] ∧ blocks H k (leaves ++ [x]) = front ++ [a, a]

variable {H} {s : MerkleState} {leaves : List Uint256} {x : Uint256} {k : ℕ} {a b : Uint256}

lemma exists_front_of_odd {l : List Uint256} (h : Odd l.length) : ∃ front a, l = front ++ [a] ∧ Even front.length := by
  rcases eq_nil_or_concat l with rfl | ⟨front, a, rfl⟩
  · exact absurd h (by decide)
  · rw [concat_eq_append, length_append, length_singleton, odd_iff] at h
    exact ⟨front, a, concat_eq_append, even_iff.2 (by omega)⟩

/-! ## One more leaf -/

variable (H) in
/-- A new leaf completes a block where their number divides the number of leaves. -/
theorem blocks_concat (k : ℕ) (leaves : List Uint256) (x : Uint256) :
    (2 ^ k ∣ leaves.length + 1 → ∃ y, blocks H k (leaves ++ [x]) = blocks H k leaves ++ [y]) ∧
    (¬ 2 ^ k ∣ leaves.length + 1 → blocks H k (leaves ++ [x]) = blocks H k leaves) := by
  induction k with
  | zero => exact ⟨fun _ => ⟨x, rfl⟩, fun hnot => absurd (one_dvd _) hnot⟩
  | succ k ih =>
    rw [blocks_succ, blocks_succ]
    by_cases hk : 2 ^ k ∣ leaves.length + 1
    · obtain ⟨y, hy⟩ := ih.1 hk
      have hlen := congrArg List.length hy
      rw [length_blocks, length_append, length_append, length_singleton, length_singleton] at hlen
      obtain ⟨m, hm⟩ := hk
      rw [hm, Nat.mul_div_cancel_left _ (by positivity)] at hlen
      have hdvd : 2 ^ (k + 1) ∣ leaves.length + 1 ↔ Even m := by
        rw [hm, pow_succ, mul_dvd_mul_iff_left (by positivity), even_iff_two_dvd]
      rw [hdvd, hy]
      constructor
      · intro heven
        -- the block before it has no partner yet
        obtain ⟨front, a, hfront, hfrontEven⟩ := exists_front_of_odd (l := blocks H k leaves) (by
          rw [even_iff] at heven
          rw [odd_iff]
          omega)
        rw [hfront, pairComplete_concat_two hfrontEven, pairComplete_concat hfrontEven]
        exact ⟨_, rfl⟩
      · intro hodd
        refine pairComplete_concat ?_ y
        rw [even_iff] at hodd ⊢
        omega
    · have hnot : ¬ 2 ^ (k + 1) ∣ leaves.length + 1 := fun hdvd => hk ((pow_dvd_pow 2 (le_succ k)).trans hdvd)
      exact ⟨fun hdvd => absurd hdvd hnot, fun _ => by rw [ih.2 hk]⟩

variable (H) in
lemma blocks_prefix (k : ℕ) (leaves : List Uint256) (x : Uint256) :
    blocks H k leaves <+: blocks H k (leaves ++ [x]) := by
  by_cases hk : 2 ^ k ∣ leaves.length + 1
  · obtain ⟨y, hy⟩ := (blocks_concat H k leaves x).1 hk
    exact ⟨[y], hy.symm⟩
  · rw [(blocks_concat H k leaves x).2 hk]

lemma getElem?_append_two {front : List Uint256} {i : ℕ} (hi : front.length = 2 * i) :
    (front ++ [a, b])[2 * i]? = some a ∧ (front ++ [a, b])[2 * i + 1]? = some b := by
  rw [← hi]
  simp

lemma hasTwins_concat : HasTwins H (leaves ++ [x]) ↔ HasTwins H leaves ∨ ∃ k, TwinAtEnd H k leaves x := by
  constructor
  · rintro ⟨k, i, a, ha, hb⟩
    obtain ⟨t, ht⟩ := blocks_prefix H k leaves x
    by_cases hold : 2 * i + 1 < (blocks H k leaves).length
    · -- both blocks were complete before
      rw [← ht, getElem?_append_left (by omega)] at ha
      rw [← ht, getElem?_append_left hold] at hb
      exact .inl ⟨k, i, a, ha, hb⟩
    · have hlt := (List.getElem?_eq_some_iff.1 hb).1
      by_cases hk : 2 ^ k ∣ leaves.length + 1
      · obtain ⟨y, hy⟩ := (blocks_concat H k leaves x).1 hk
        rw [hy, length_append, length_singleton] at hlt
        have hlen : (blocks H k leaves).length = 2 * i + 1 := by omega
        rw [hy, getElem?_append_left (by omega)] at ha
        rw [hy, ← hlen, getElem?_concat_length] at hb
        obtain rfl := Option.some.inj hb
        have htake : blocks H k leaves = (blocks H k leaves).take (2 * i) ++ [y] := by
          conv_lhs => rw [← take_append_drop (2 * i) (blocks H k leaves)]
          rw [drop_eq_getElem_cons (by omega), drop_eq_nil_of_le (by omega)]
          rw [(List.getElem?_eq_some_iff.1 ha).2]
        refine .inr ⟨k, (blocks H k leaves).take (2 * i), y, ?_, htake, ?_⟩
        · rw [length_take, hlen, min_eq_left (by omega)]
          exact even_two_mul i
        · rw [hy]
          conv_lhs => rw [htake]
          rw [append_assoc, singleton_append]
      · rw [(blocks_concat H k leaves x).2 hk] at hlt
        omega
  · rintro (⟨k, i, a, ha, hb⟩ | ⟨k, front, a, heven, -, hnew⟩)
    · obtain ⟨t, ht⟩ := blocks_prefix H k leaves x
      refine ⟨k, i, a, ?_, ?_⟩
      · rw [← ht, getElem?_append_left (List.getElem?_eq_some_iff.1 ha).1, ha]
      · rw [← ht, getElem?_append_left (List.getElem?_eq_some_iff.1 hb).1, hb]
    · obtain ⟨i, hi⟩ := even_iff_exists_two_mul.1 heven
      exact ⟨k, i, a, hnew ▸ getElem?_append_two hi⟩

/-- The new number of leaves has no bits up to the level at which two equal hashes are combined. -/
theorem TwinAtEnd.testBit (h : TwinAtEnd H k leaves x) {j : ℕ} (hj : j ≤ k) :
    (leaves.length + 1).testBit j = false := by
  obtain ⟨front, a, heven, hold, hnew⟩ := h
  have hdvd : 2 ^ k ∣ leaves.length + 1 := by
    by_contra hnot
    rw [(blocks_concat H k leaves x).2 hnot, hold] at hnew
    simpa using congrArg List.length hnew
  have hlen := congrArg List.length hnew
  rw [length_blocks, length_append, length_append, length_singleton] at hlen
  have htwo : 2 ^ (k + 1) ∣ leaves.length + 1 := by
    obtain ⟨m, hm⟩ := hdvd
    rw [hm, Nat.mul_div_cancel_left _ (by positivity)] at hlen
    rw [hm]
    refine mul_dvd_mul_left _ ?_
    rw [hlen]
    exact (even_iff_two_dvd.1 heven).add (dvd_refl 2)
  obtain ⟨m, hm⟩ := (pow_dvd_pow 2 (succ_le_succ hj)).trans htwo
  rw [testBit_eq_false_iff, hm, pow_succ, mul_assoc, Nat.mul_div_cancel_left _ (by positivity), mul_mod_right]

/-! ## What `mutated` says -/

/-- On the way up, `mutated` has the equal hashes from before and those below the current level. -/
theorem mutated_combineLeaf (hs : s.Holds H leaves) {c : MerkleClimb} (h : Climbing H leaves x c)
    (hbit : (leaves.length + 1).testBit c.level = false)
    (hmut : c.mutated = true ↔ s.mutated = true ∨ ∃ k < c.level, TwinAtEnd H k leaves x) :
    (c.combineLeaf H s).mutated = true ↔ s.mutated = true ∨ ∃ k < c.level + 1, TwinAtEnd H k leaves x := by
  have hlen := h.length
  rw [testBit_eq_false_iff] at hbit
  obtain ⟨front, hfront, heven⟩ := hs.exists_front (k := c.level) (by omega)
  have htwin : TwinAtEnd H c.level leaves x ↔ s.inner c.level = c.h := by
    have hgrown := h.grown
    rw [hfront, append_assoc, singleton_append] at hgrown
    constructor
    · rintro ⟨front', a, -, hfront', hgrown'⟩
      rw [hfront] at hfront'
      obtain ⟨rfl, heq⟩ := append_inj' hfront' rfl
      obtain rfl := singleton_inj.1 heq
      rw [hgrown] at hgrown'
      simpa using append_cancel_left hgrown'.symm
    · intro heq
      refine ⟨front, s.inner c.level, heven, hfront, ?_⟩
      rw [hgrown, heq]
  simp only [MerkleClimb.combineLeaf, Bool.or_eq_true, beq_iff_eq, hmut, ← htwin, Nat.lt_succ_iff_lt_or_eq, or_and_right,
    exists_or, exists_eq_left, or_assoc]

lemma mutated_addLeaf (hs : s.Holds H leaves) (branchpos : ℕ) (x : Uint256) :
    (s.addLeaf H branchpos x).mutated = true ↔ s.mutated = true ∨ ∃ k, TwinAtEnd H k leaves x := by
  obtain ⟨c, -, hmut, hbit, heq⟩ := hs.exists_climb (x := x) branchpos
    (P := fun c => c.mutated = true ↔ s.mutated = true ∨ ∃ k < c.level, TwinAtEnd H k leaves x) (by simp)
    fun c hc hinv hbit => mutated_combineLeaf hs hc hbit hinv
  rw [heq, hmut]
  refine or_congr_right ⟨Exists.imp fun _ => And.right, ?_⟩
  rintro ⟨k, hk⟩
  refine ⟨k, ?_, hk⟩
  by_contra hle
  rw [hk.testBit (Nat.le_of_not_lt hle)] at hbit
  cases hbit

/-- **`mutated`**: two complete blocks of leaves that are combined have the same hash. -/
theorem merkleComputation_mutated (leaves : List Uint256) (branchpos : ℕ) :
    (merkleComputation H leaves branchpos).2.1 = true ↔ HasTwins H leaves := by
  have hfold : (leaves.foldl (addLeaf H branchpos) .start).mutated = true ↔ HasTwins H leaves := by
    induction leaves using reverseRecOn with
    | nil =>
      refine iff_of_false (by simp [start]) ?_
      rintro ⟨k, i, a, ha, -⟩
      have hlen := (List.getElem?_eq_some_iff.1 ha).1
      rw [length_blocks, length_nil, Nat.zero_div] at hlen
      omega
    | append_singleton leaves x ih =>
      rw [foldl_append, foldl_cons, foldl_nil, mutated_addLeaf (holds_foldl branchpos leaves), ih, hasTwins_concat]
  rw [merkleComputation, ← hfold]
  split_ifs with hnil
  · rw [length_eq_zero_iff.1 hnil]
    simp [start]
  · rfl

/-! ## Values that are combined -/

lemma pairs_levels_subset (leaves : List Uint256) (h : 2 ≤ (levels H k leaves).length) :
    pairs (levels H k leaves) ⊆ merklePairs H leaves := by
  have hall : ∀ k, 2 ≤ (levels H k leaves).length → merklePairs H (levels H k leaves) ⊆ merklePairs H leaves := by
    intro k
    induction k with
    | zero => exact fun _ => List.Subset.refl _
    | succ k ih =>
      intro htwo
      have hle := length_levels_succ_le H k leaves
      have hprev := ih (by omega)
      rw [merklePairs_eq (by omega), ← levels_succ] at hprev
      exact fun p hp => hprev (mem_append_right _ hp)
  intro p hp
  refine hall k h ?_
  rw [merklePairs_eq h]
  exact mem_append_left _ hp

section Siblings

variable (hno : ¬ HasTwins H leaves)
  (hinj : Set.InjOn (fun p : Uint256 × Uint256 => H p.1 p.2) {p | p ∈ merklePairs H leaves})

include hinj in
/-- A pair with the hash of a complete block is the pair of blocks from which that was made. -/
theorem exists_blocks_of_pair {p : Uint256 × Uint256} (hp : p ∈ pairs (levels H k leaves))
    (hpre : blocks H k leaves <+: levels H k leaves) (hc : H p.1 p.2 ∈ blocks H (k + 1) leaves) :
    ∃ i, (blocks H k leaves)[2 * i]? = some p.1 ∧ (blocks H k leaves)[2 * i + 1]? = some p.2 := by
  rw [blocks_succ] at hc
  obtain ⟨i, a, b, ha, hb, heq⟩ := exists_of_mem_pairComplete H hc
  obtain ⟨t, ht⟩ := hpre
  have ha' : (levels H k leaves)[2 * i]? = some a := by
    rw [← ht, getElem?_append_left (List.getElem?_eq_some_iff.1 ha).1, ha]
  have hb' : (levels H k leaves)[2 * i + 1]? = some b := by
    rw [← ht, getElem?_append_left (List.getElem?_eq_some_iff.1 hb).1, hb]
  have hsub := pairs_levels_subset (H := H) leaves (k := k) (by have := (List.getElem?_eq_some_iff.1 hb').1; omega)
  have hab := mem_of_getElem? (getElem?_pairs_of_two ha' hb')
  obtain rfl : p = (a, b) := hinj (hsub hp) (hsub hab) heq
  exact ⟨i, ha, hb⟩

include hno hinj in
/-- **The values of a level** are those of the complete blocks and at most one more, which is none of them. -/
theorem exists_levels_eq (k : ℕ) :
    ∃ tail, levels H k leaves = blocks H k leaves ++ tail ∧ tail.length ≤ 1 ∧ ∀ y ∈ tail, y ∉ blocks H k leaves := by
  induction k with
  | zero => exact ⟨[], (append_nil _).symm, zero_le 1, by simp⟩
  | succ k ih =>
    obtain ⟨tail, htail, hlen, hnot⟩ := ih
    have hpre : blocks H k leaves <+: levels H k leaves := ⟨tail, htail.symm⟩
    -- a value that is combined with itself is none of the complete blocks
    have hdouble {front : List Uint256} {a : Uint256} (heven : Even front.length) (hlevel : levels H k leaves = front ++ [a]) :
        H a a ∉ blocks H (k + 1) leaves := by
      intro hmem
      obtain ⟨i, hi⟩ := even_iff_exists_two_mul.1 heven
      have hget : (levels H k leaves)[2 * i]? = some a := by rw [hlevel, ← hi, getElem?_concat_length]
      have hpair := mem_of_getElem? (getElem?_pairs_of_one hget (by rw [hlevel, length_append, hi, length_singleton]))
      obtain ⟨j, ha, hb⟩ := exists_blocks_of_pair hinj hpair hpre hmem
      exact hno ⟨k, j, a, ha, hb⟩
    rcases even_or_odd (blocks H k leaves).length with heven | hodd
    · refine ⟨pairUp H tail, ?_, ?_, ?_⟩
      · rw [levels_succ, htail, pairUp_append heven, blocks_succ]
      · rw [length_pairUp]
        omega
      · intro y hy
        rcases tail with _ | ⟨x, _ | _⟩
        · simp [pairUp] at hy
        · obtain rfl := mem_singleton.1 hy
          exact hdouble heven htail
        · simp at hlen
    · -- the last block is combined with what comes after it, or with itself
      obtain ⟨front, a, hfront, heven⟩ := exists_front_of_odd hodd
      have hblocks : blocks H (k + 1) leaves = pairComplete H front := by
        rw [blocks_succ, hfront, pairComplete_concat heven]
      rcases tail with _ | ⟨x, _ | _⟩
      · rw [append_nil, hfront] at htail
        refine ⟨[H a a], ?_, le_rfl, ?_⟩
        · rw [levels_succ, htail, pairUp_append heven, hblocks, pairUp]
        · exact forall_mem_singleton.2 (hdouble heven htail)
      · rw [hfront, append_assoc, singleton_append] at htail
        refine ⟨[H a x], ?_, le_rfl, ?_⟩
        · rw [levels_succ, htail, pairUp_append heven, hblocks, pairUp, pairUp]
        · intro y hy hmem
          obtain rfl := mem_singleton.1 hy
          obtain ⟨i, hi⟩ := even_iff_exists_two_mul.1 heven
          have htwo := getElem?_append_two (a := a) (b := x) hi
          rw [← htail] at htwo
          have hpair : (pairs (levels H k leaves))[i]? = some (a, x) := getElem?_pairs_of_two htwo.1 htwo.2
          obtain ⟨j, -, hx⟩ := exists_blocks_of_pair hinj (mem_of_getElem? hpair) hpre hmem
          exact hnot x (mem_singleton_self x) (mem_of_getElem? hx)
      · simp at hlen

include hno hinj in
lemma siblings_ne {k i : ℕ} (ha : (levels H k leaves)[2 * i]? = some a)
    (hb : (levels H k leaves)[2 * i + 1]? = some b) : a ≠ b := by
  rintro rfl
  obtain ⟨tail, htail, hlen, hnot⟩ := exists_levels_eq hno hinj k
  rw [htail] at ha hb
  have hltb := (List.getElem?_eq_some_iff.1 hb).1
  rw [length_append] at hltb
  rw [getElem?_append_left (by omega)] at ha
  by_cases hlt : 2 * i + 1 < (blocks H k leaves).length
  · rw [getElem?_append_left hlt] at hb
    exact hno ⟨k, i, a, ha, hb⟩
  · rw [getElem?_append_right (by omega)] at hb
    exact hnot a (mem_of_getElem? hb) (mem_of_getElem? ha)

end Siblings

/-! ## Lists of any length with the same root -/

lemma exists_levels_eq_singleton {r : Uint256} (h : merkleRoot H leaves = some r) :
    ∃ n, levels H n leaves = [r] ∧ ∀ k < n, 2 ≤ (levels H k leaves).length := by
  induction hn : leaves.length using Nat.strong_induction_on generalizing leaves with
  | _ n ih =>
    by_cases htwo : 2 ≤ leaves.length
    · rw [← merkleRoot_pairUp htwo] at h
      obtain ⟨m, hm, hlong⟩ := ih _ (by rw [length_pairUp]; omega) h rfl
      refine ⟨m + 1, hm, fun k hk => ?_⟩
      cases k with
      | zero => exact htwo
      | succ k => exact hlong k (by omega)
    · rcases leaves with _ | ⟨a, _ | ⟨b, l⟩⟩
      · simp [merkleRoot] at h
      · obtain rfl : a = r := by simpa [merkleRoot] using h
        exact ⟨0, rfl, by simp⟩
      · simp at htwo

section Roots

variable {leaves' : List Uint256}

section

variable (hno : ¬ HasTwins H leaves) (hno' : ¬ HasTwins H leaves')
  (hinj : Set.InjOn (fun p : Uint256 × Uint256 => H p.1 p.2) {p | p ∈ merklePairs H leaves ∨ p ∈ merklePairs H leaves'})
  {n j : ℕ} (hlong : ∀ k < n, 2 ≤ (levels H k leaves).length) (hlong' : ∀ k < j + n, 2 ≤ (levels H k leaves').length)
  (h : levels H n leaves = levels H (j + n) leaves')
include hno hno' hinj hlong hlong' h

/-- Going down from equal levels of two trees, which were made from equal pairs. -/
theorem eq_levels_of_levels_eq : leaves = levels H j leaves' := by
  induction n with
  | zero => exact h
  | succ n ih =>
    refine ih (fun k hk => hlong k (by omega)) (fun k hk => hlong' k (by omega)) ?_
    have hsub := pairs_levels_subset leaves (hlong n (by omega))
    have hsub' := pairs_levels_subset leaves' (hlong' (j + n) (by omega))
    rw [← add_assoc, levels_succ, levels_succ, pairUp_eq_map, pairUp_eq_map] at h
    have hpairs := map_injOn (hinj.mono fun p hp => hp.imp (@hsub p) (@hsub' p)) h
    have hle := length_le_of_pairs hpairs fun i a ha hb => siblings_ne hno (hinj.mono fun p => .inl) ha hb rfl
    have hge := length_le_of_pairs hpairs.symm fun i a ha hb => siblings_ne hno' (hinj.mono fun p => .inr) ha hb rfl
    exact pairs_inj (hle.antisymm hge) hpairs

/-- A tree is not the upper part of another one, as its leaves are no hashes. -/
theorem eq_of_levels_eq (hne : leaves ≠ []) (hleaf : ∀ x ∈ leaves, ∀ p ∈ merklePairs H leaves', x ≠ H p.1 p.2) :
    leaves = leaves' := by
  have heq := eq_levels_of_levels_eq hno hno' hinj hlong hlong' h
  cases j with
  | zero => exact heq
  | succ j =>
    obtain ⟨x, hx⟩ := exists_mem_of_ne_nil leaves hne
    have hx' := hx
    rw [heq, levels_succ, pairUp_eq_map, mem_map] at hx'
    obtain ⟨p, hp, rfl⟩ := hx'
    exact absurd rfl (hleaf _ hx p (pairs_levels_subset leaves' (hlong' j (by omega)) hp))

end

/-- **Changes of the leaves are noticed**: lists with the same root, and without `mutated`, are equal, if no hash
collides and the leaves are no hashes. -/
theorem computeMerkleRoot_inj (hne : leaves ≠ []) (hne' : leaves' ≠ [])
    (hinj : Set.InjOn (fun p : Uint256 × Uint256 => H p.1 p.2) {p | p ∈ merklePairs H leaves ∨ p ∈ merklePairs H leaves'})
    (hleaf : ∀ x ∈ leaves, ∀ p ∈ merklePairs H leaves', x ≠ H p.1 p.2)
    (hleaf' : ∀ x ∈ leaves', ∀ p ∈ merklePairs H leaves, x ≠ H p.1 p.2)
    (hmut : (computeMerkleRoot H leaves).2 = false) (hmut' : (computeMerkleRoot H leaves').2 = false)
    (hroot : (computeMerkleRoot H leaves).1 = (computeMerkleRoot H leaves').1) : leaves = leaves' := by
  have hno : ¬ HasTwins H leaves := by rwa [← merkleComputation_mutated leaves (2 ^ 32 - 1), Bool.not_eq_true]
  have hno' : ¬ HasTwins H leaves' := by rwa [← merkleComputation_mutated leaves' (2 ^ 32 - 1), Bool.not_eq_true]
  obtain ⟨n, hn, hlong⟩ := exists_levels_eq_singleton (computeMerkleRoot_root hne).symm
  obtain ⟨n', hn', hlong'⟩ := exists_levels_eq_singleton (computeMerkleRoot_root hne').symm
  have h : levels H n leaves = levels H n' leaves' := by rw [hn, hn', hroot]
  rcases le_total n n' with hle | hle
  · obtain ⟨j, rfl⟩ := Nat.exists_eq_add_of_le' hle
    exact eq_of_levels_eq hno hno' hinj hlong hlong' h hne hleaf
  · obtain ⟨j, rfl⟩ := Nat.exists_eq_add_of_le' hle
    exact (eq_of_levels_eq hno' hno (hinj.mono fun p => Or.symm) hlong' hlong h.symm hne' hleaf').symm

end Roots

/-- The leaves 1 and 3, hashed to an even number. -/
theorem computeMerkleRoot_inj_two : (computeMerkleRoot (fun a b => 2 * a + 8 * b) [1, 3]).2 = false ∧ [1, 3] = [(1 : Uint256), 3] := by
  have hpairs : merklePairs (fun a b : Uint256 => 2 * a + 8 * b) [1, 3] = [(1, 3)] := by simp [merklePairs, pairs, pairUp]
  refine ⟨?hmut, computeMerkleRoot_inj (by simp) (by simp) ?_ ?_ ?_ ?hmut ?hmut rfl⟩
  · decide
  · rw [hpairs]
    simp
  · rw [hpairs]
    simp
  · rw [hpairs]
    simp

end Soferox
