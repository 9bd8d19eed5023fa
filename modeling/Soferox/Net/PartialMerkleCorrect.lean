import Mathlib.Data.Nat.Bitwise
import Soferox.Net.PartialMerkleTree

/-!
# Partial merkle trees are complete

What is built for a list of ids can be extracted again, after it was written and read.

* `calcHash_eq` — the nodes of the tree are the levels of the merkle tree;
* `exists_subtree` — what building a subtree appends, and what is extracted from that;
* `unpackBits_packBits` — the flag bits come back, padded to whole bytes;
* `extractMatches_build` — building, writing, reading and extracting.
-/

namespace Soferox

open Lib List Option Nat

namespace CPartialMerkleTree

variable {H : Uint256 → Uint256 → Uint256} {leaves : List Uint256} {i k : ℕ} {α : Type} {n pos : ℕ} {v : List α} {a : α}

/-! ## The shape of the tree -/

lemma calcTreeWidth_zero (n : ℕ) : calcTreeWidth n 0 = n := by simp [calcTreeWidth]

lemma calcTreeWidth_succ (n k : ℕ) : calcTreeWidth n (k + 1) = (calcTreeWidth n k + 1) / 2 := by
  have hpos : 0 < 2 ^ k := by positivity
  rw [calcTreeWidth, calcTreeWidth, ← add_div_right _ hpos, Nat.div_div_eq_div_mul]
  congr 1
  omega

variable (H k leaves) in
lemma length_levels : (levels H k leaves).length = calcTreeWidth leaves.length k := by
  induction k with
  | zero => rw [calcTreeWidth_zero]; rfl
  | succ k ih => rw [levels_succ, length_pairUp, ih, calcTreeWidth_succ]

variable {n : ℕ}

lemma one_lt_calcTreeWidth (h : k < treeHeight n) : 1 < calcTreeWidth n k := by
  have hmin := Nat.find_min (exists_calcTreeWidth_le_one n) h
  exact not_not.1 hmin

lemma calcTreeWidth_treeHeight (h : 0 < n) : calcTreeWidth n (treeHeight n) = 1 := by
  have hle := Nat.find_spec (exists_calcTreeWidth_le_one n)
  have hpos : 0 < calcTreeWidth n (treeHeight n) := by
    rw [calcTreeWidth, Nat.div_pos_iff]
    have : 0 < 2 ^ treeHeight n := by positivity
    omega
  rw [treeHeight] at hpos ⊢
  omega

lemma le_two_pow_treeHeight (n : ℕ) : n ≤ 2 ^ treeHeight n := by
  have hle := Nat.find_spec (exists_calcTreeWidth_le_one n)
  have hpow : 0 < 2 ^ treeHeight n := by positivity
  rw [not_lt, calcTreeWidth, div_le_iff_le_mul_add_pred (by positivity)] at hle
  rw [treeHeight] at hpow ⊢
  omega

lemma getElem?_levels_succ_two {pos : ℕ} {a b : Uint256} (ha : (levels H k leaves)[pos * 2]? = some a)
    (hb : (levels H k leaves)[pos * 2 + 1]? = some b) : (levels H (k + 1) leaves)[pos]? = some (H a b) := by
  rw [mul_comm] at ha hb
  rw [levels_succ, pairUp_eq_map, getElem?_map, getElem?_pairs_of_two ha hb, map_some]

lemma getElem?_levels_succ_one {pos : ℕ} {a : Uint256} (ha : (levels H k leaves)[pos * 2]? = some a)
    (hlen : (levels H k leaves).length = pos * 2 + 1) : (levels H (k + 1) leaves)[pos]? = some (H a a) := by
  rw [mul_comm] at ha hlen
  rw [levels_succ, pairUp_eq_map, getElem?_map, getElem?_pairs_of_one ha hlen, map_some]

lemma left_lt (h : pos < calcTreeWidth n (k + 1)) : pos * 2 < calcTreeWidth n k := by
  rw [calcTreeWidth_succ] at h
  omega

lemma width_of_no_right (h : pos < calcTreeWidth n (k + 1)) (hright : ¬ pos * 2 + 1 < calcTreeWidth n k) :
    calcTreeWidth n k = pos * 2 + 1 := by
  have := left_lt h
  omega

lemma getElem?_levels_treeHeight (hne : leaves ≠ []) :
    (levels H (treeHeight leaves.length) leaves)[0]? = some (computeMerkleRoot H leaves).1 := by
  have hroot : ∀ k ≤ treeHeight leaves.length, merkleRoot H (levels H k leaves) = merkleRoot H leaves := by
    intro k
    induction k with
    | zero => exact fun _ => rfl
    | succ k ih =>
      intro hk
      have hwidth := one_lt_calcTreeWidth hk
      rw [levels_succ, merkleRoot_pairUp (by rw [length_levels]; omega), ih (by omega)]
  have hlen : (levels H (treeHeight leaves.length) leaves).length = 1 := by
    rw [length_levels, calcTreeWidth_treeHeight (length_pos_iff.2 hne)]
  obtain ⟨r, hr⟩ := length_eq_one_iff.1 hlen
  have htop := hroot _ le_rfl
  rw [hr, merkleRoot, ← computeMerkleRoot_root hne] at htop
  rw [hr, getElem?_cons_zero, htop]

/-! ## Building -/

section Build

variable {vMatch : List Bool} {height pos : ℕ}

lemma access_eq_ok : access v i = .ok a ↔ v[i]? = some a := by
  unfold access
  rcases v[i]? with _ | b
  · simp
  · simp

lemma calcHash_eq (hne : leaves ≠ []) (hpos : pos < calcTreeWidth leaves.length height) :
    ∃ a, (levels H height leaves)[pos]? = some a ∧ calcHash H leaves.length leaves height pos = .ok a := by
  have hlen : ¬ leaves.length = 0 := by simpa using hne
  induction height generalizing pos with
  | zero =>
    rw [calcTreeWidth_zero] at hpos
    refine ⟨leaves[pos], getElem?_eq_getElem hpos, ?_⟩
    rw [calcHash, if_neg hlen, access_eq_ok]
    exact getElem?_eq_getElem hpos
  | succ height ih =>
    obtain ⟨a, ha, hcalc⟩ := ih (left_lt hpos)
    rw [calcHash, if_neg hlen, hcalc]
    by_cases hright : pos * 2 + 1 < calcTreeWidth leaves.length height
    · obtain ⟨b, hb, hcalc'⟩ := ih hright
      refine ⟨H a b, getElem?_levels_succ_two ha hb, ?_⟩
      simp only [if_pos hright, hcalc']
      rfl
    · refine ⟨H a a, getElem?_levels_succ_one ha ?_, ?_⟩
      · rw [length_levels, width_of_no_right hpos hright]
      · simp only [if_neg hright]
        rfl

/-- Where the leaves below the children of a node begin and end. -/
lemma ends_children (height pos : ℕ) : pos * 2 ^ (height + 1) = pos * 2 * 2 ^ height ∧
    (pos * 2 + 1) * 2 ^ height = pos * 2 * 2 ^ height + 2 ^ height ∧
    (pos * 2 + 1 + 1) * 2 ^ height = pos * 2 * 2 ^ height + 2 ^ height + 2 ^ height ∧
    (pos + 1) * 2 ^ (height + 1) = pos * 2 * 2 ^ height + 2 ^ height + 2 ^ height := by
  refine ⟨?_, ?_, ?_, ?_⟩ <;> ring

/-- The matched indices below a node. -/
def selected (vMatch : List Bool) (height pos : ℕ) : List ℕ :=
  (List.range' (pos * 2 ^ height) (2 ^ height)).filter fun p => vMatch.getD p false

lemma selected_succ (vMatch : List Bool) (height pos : ℕ) :
    selected vMatch (height + 1) pos = selected vMatch height (pos * 2) ++ selected vMatch height (pos * 2 + 1) := by
  obtain ⟨hstart, hnext, -⟩ := ends_children height pos
  have hsize : 2 ^ (height + 1) = 2 ^ height + 2 ^ height := by ring
  rw [selected, selected, selected, hstart, hnext, hsize, ← filter_append, range'_append_1]

lemma selected_eq_nil (h : calcTreeWidth vMatch.length height ≤ pos) : selected vMatch height pos = [] := by
  rw [selected, filter_eq_nil_iff]
  intro p hp
  rw [mem_range'_1] at hp
  have hlt : vMatch.length ≤ p := by
    rw [calcTreeWidth] at h
    have hmul := mul_le_mul_right (2 ^ height) h
    have hdiv := div_add_mod (vMatch.length + 2 ^ height - 1) (2 ^ height)
    rw [mul_comm] at hdiv
    omega
  rw [getD_eq_default _ _ hlt]
  simp

lemma foldlM_access {l : List ℕ} (hl : ∀ p ∈ l, p < vMatch.length) (b : Bool) :
    l.foldlM (fun f p => (f || ·) <$> access vMatch p) b = .ok (b || l.any fun p => vMatch.getD p false) := by
  induction l generalizing b with
  | nil => simp [pure, Except.pure]
  | cons p l ih =>
    obtain ⟨hp, hl⟩ := forall_mem_cons.1 hl
    have haccess : access vMatch p = .ok (vMatch.getD p false) := by
      rw [access_eq_ok, getD_eq_getElem _ _ hp, getElem?_eq_getElem]
    rw [foldlM_cons, haccess]
    show l.foldlM _ (b || vMatch.getD p false) = _
    rw [ih hl, any_cons, Bool.or_assoc]

lemma parentOfMatch_eq (vMatch : List Bool) (height pos : ℕ) :
    parentOfMatch vMatch.length vMatch height pos = .ok (!(selected vMatch height pos).isEmpty) := by
  have hend : (pos + 1) * 2 ^ height = pos * 2 ^ height + 2 ^ height := by ring
  rw [parentOfMatch, hend, selected]
  generalize pos * 2 ^ height = start at *
  rw [foldlM_access]
  · -- a leaf beyond the end is not matched
    have hany : ((range' start (min (start + 2 ^ height) vMatch.length - start)).any fun p => vMatch.getD p false) =
        (range' start (2 ^ height)).any fun p => vMatch.getD p false := by
      rw [Bool.eq_iff_iff, List.any_eq_true, List.any_eq_true]
      refine exists_congr fun p => and_congr_left fun hmatch => ?_
      have hlt : p < vMatch.length := by
        by_contra hle
        rw [getD_eq_default _ _ (Nat.le_of_not_lt hle)] at hmatch
        cases hmatch
      simp only [mem_range'_1]
      omega
    rw [hany]
    refine congrArg Except.ok (Bool.eq_iff_iff.2 ?_)
    simp [and_assoc]
  · intro p hp
    rw [mem_range'_1] at hp
    omega

end Build

/-! ## Extracting what was built -/

lemma of_drop_eq_cons {r : List α} (h : v.drop i = a :: r) :
    i < v.length ∧ access v i = .ok a ∧ v.drop (i + 1) = r := by
  have hget : v[i]? = some a := by rw [← head?_drop, h, head?_cons]
  refine ⟨(List.getElem?_eq_some_iff.1 hget).1, access_eq_ok.2 hget, ?_⟩
  rw [← tail_drop, h, tail_cons]

lemma drop_add_length {v w r : List α} (h : v.drop i = w ++ r) : v.drop (i + w.length) = r := by
  rw [← drop_drop, h, drop_left]

/-- From the flag bits and the hashes, the traversal of a subtree takes its value and the matched leaves. -/
def Extracts (H : Uint256 → Uint256 → Uint256) (n height pos : ℕ) (bits : List Bool) (hashes : List Uint256) (value : Uint256)
    (ids : List Uint256) (indices : List ℕ) : Prop :=
  ∀ tree e r r', tree.nTransactions = n → tree.vBits.drop e.nBitsUsed = bits ++ r → tree.vHash.drop e.nHashUsed = hashes ++ r' →
    ∃ hashed, traverseAndExtract H tree height pos e = .ok (value,
      ⟨e.nBitsUsed + bits.length, e.nHashUsed + hashes.length, e.vMatch ++ ids, e.vnIndex ++ indices, e.fBad, hashed⟩)

lemma useHash_eq {tree : CPartialMerkleTree} {e : Extraction} {value : Uint256} {r' : List Uint256} (height pos : ℕ)
    (fParentOfMatch : Bool) (hhash : tree.vHash.drop e.nHashUsed = value :: r') :
    useHash tree height pos fParentOfMatch e = .ok (value, ⟨e.nBitsUsed, e.nHashUsed + 1,
      e.vMatch ++ if height = 0 ∧ fParentOfMatch then [value] else [],
      e.vnIndex ++ if height = 0 ∧ fParentOfMatch then [pos] else [], e.fBad, e.hashed⟩) := by
  obtain ⟨hlt, haccess, -⟩ := of_drop_eq_cons hhash
  rw [useHash, if_neg (not_le.2 hlt), haccess]
  simp only [ok_bind]
  split_ifs with hmatch
  · rfl
  · simp only [append_nil]
    rfl

variable (H) in
lemma extracts_stop {height : ℕ} {f : Bool} (hstop : height = 0 ∨ f = false) (n pos : ℕ)
    (value : Uint256) : Extracts H n height pos [f] [value] value (if f then [value] else []) (if f then [pos] else []) := by
  intro tree e r r' hn hbits hhash
  obtain ⟨hlt, haccess, -⟩ := of_drop_eq_cons hbits
  have huse := useHash_eq (e := { e with nBitsUsed := e.nBitsUsed + 1 }) height pos f hhash
  refine ⟨e.hashed, ?_⟩
  rcases hstop with rfl | rfl
  · rw [traverseAndExtract, if_neg (not_le.2 hlt), haccess]
    exact huse.trans (by simp)
  · cases height <;>
    · rw [traverseAndExtract, if_neg (not_le.2 hlt), haccess]
      exact huse.trans (by simp)

variable {n height pos : ℕ} {bits bits' : List Bool} {hashes hashes' : List Uint256} {value value' : Uint256}
  {ids ids' : List Uint256} {indices indices' : List ℕ}

section

variable (h : Extracts H n height (pos * 2) bits hashes value ids indices)
include h

lemma Extracts.two (h' : Extracts H n height (pos * 2 + 1) bits' hashes' value' ids' indices')
    (hright : pos * 2 + 1 < calcTreeWidth n height) (hne : value ≠ value') :
    Extracts H n (height + 1) pos (true :: (bits ++ bits')) (hashes ++ hashes') (H value value') (ids ++ ids')
      (indices ++ indices') := by
  intro tree e r r' hn hbits hhash
  obtain ⟨hlt, haccess, hrest⟩ := of_drop_eq_cons hbits
  replace hrest : tree.vBits.drop (e.nBitsUsed + 1) = bits ++ (bits' ++ r) := hrest.trans (append_assoc ..)
  rw [append_assoc] at hhash
  obtain ⟨hashed, hleft⟩ := h tree { e with nBitsUsed := e.nBitsUsed + 1 } (bits' ++ r) (hashes' ++ r') hn hrest hhash
  obtain ⟨hashed', hrightRun⟩ := h' tree ⟨e.nBitsUsed + 1 + bits.length, e.nHashUsed + hashes.length, e.vMatch ++ ids,
    e.vnIndex ++ indices, e.fBad, hashed⟩ r r' hn (drop_add_length hrest) (drop_add_length hhash)
  refine ⟨hashed' ++ [(value, value')], ?_⟩
  rw [traverseAndExtract, if_neg (not_le.2 hlt), haccess]
  simp only [ok_bind, Bool.not_true, Bool.false_eq_true, if_false, hleft, hn, if_pos hright, hrightRun]
  have hbad : (value' == value) = false := beq_false_of_ne hne.symm
  simp only [combine, hbad, Bool.or_false, length_cons, length_append, pure, Except.pure, append_assoc]
  congr 3
  · omega
  · omega

lemma Extracts.one (hright : ¬ pos * 2 + 1 < calcTreeWidth n height) :
    Extracts H n (height + 1) pos (true :: bits) hashes (H value value) ids indices := by
  intro tree e r r' hn hbits hhash
  obtain ⟨hlt, haccess, hrest⟩ := of_drop_eq_cons hbits
  obtain ⟨hashed, hleft⟩ := h tree { e with nBitsUsed := e.nBitsUsed + 1 } r r' hn hrest hhash
  refine ⟨hashed ++ [(value, value)], ?_⟩
  rw [traverseAndExtract, if_neg (not_le.2 hlt), haccess]
  simp only [ok_bind, Bool.not_true, Bool.false_eq_true, if_false, hleft, hn, if_neg hright]
  simp only [combine, length_cons]
  congr 3
  omega

end

/-! ## A subtree that is built -/

/-- The number of leaves below a node. -/
def leafCount (n height pos : ℕ) : ℕ := min ((pos + 1) * 2 ^ height) n - pos * 2 ^ height

lemma leafCount_succ (n height pos : ℕ) :
    leafCount n (height + 1) pos = leafCount n height (pos * 2) + leafCount n height (pos * 2 + 1) := by
  have hends := ends_children height pos
  rw [leafCount, leafCount, leafCount]
  omega

lemma leafCount_pos {n height pos : ℕ} (h : pos < calcTreeWidth n height) : 0 < leafCount n height pos := by
  have hpow : 0 < 2 ^ height := by positivity
  have hmul : (pos + 1) * 2 ^ height ≤ n + 2 ^ height - 1 := by
    exact (le_div_iff_mul_le hpow).1 h
  have hnext : (pos + 1) * 2 ^ height = pos * 2 ^ height + 2 ^ height := by ring
  rw [leafCount]
  omega

/-- The bits and the hashes that building a subtree appends, and what is extracted from them. -/
structure Subtree (H : Uint256 → Uint256 → Uint256) (leaves : List Uint256) (vMatch : List Bool) (height pos : ℕ)
    (bits : List Bool) (hashes : List Uint256) (value : Uint256) : Prop where
  value_eq : (levels H height leaves)[pos]? = some value
  built : ∀ acc, traverseAndBuild H leaves.length leaves vMatch height pos acc = .ok (acc.1 ++ bits, acc.2 ++ hashes)
  extracts : Extracts H leaves.length height pos bits hashes value
    ((selected vMatch height pos).map fun p => leaves.getD p 0) (selected vMatch height pos)
  hashes_le : hashes.length ≤ leafCount leaves.length height pos
  hashes_le_bits : hashes.length ≤ bits.length
  bits_lt : bits.length < 2 ^ (height + 1)

section Subtree

variable {vMatch : List Bool}

variable (hne : leaves ≠ []) (hlen : vMatch.length = leaves.length)
include hne hlen

lemma subtree_leaf {pos : ℕ} (hpos : pos < leaves.length) :
    Subtree H leaves vMatch 0 pos [vMatch.getD pos false] [leaves.getD pos 0] (leaves.getD pos 0) := by
  have hget : leaves[pos]? = some (leaves.getD pos 0) := by
    rw [getD_eq_getElem _ _ hpos, getElem?_eq_getElem]
  have hsel : selected vMatch 0 pos = if vMatch.getD pos false then [pos] else [] := by
    simp [selected, filter_cons]
  have hparent : parentOfMatch leaves.length vMatch 0 pos = .ok (vMatch.getD pos false) := by
    rw [← hlen, parentOfMatch_eq, hsel]
    cases vMatch.getD pos false <;> rfl
  constructor
  case value_eq => exact hget
  case built =>
    intro acc
    have hcalc : calcHash H leaves.length leaves 0 pos = .ok (leaves.getD pos 0) := by
      rw [calcHash, if_neg (by simpa using hne), access_eq_ok, hget]
    rw [traverseAndBuild, hparent]
    simp only [storeHash, hcalc]
    rfl
  case extracts =>
    have hids : (selected vMatch 0 pos).map (fun p => leaves.getD p 0) =
        if vMatch.getD pos false then [leaves.getD pos 0] else [] := by
      rw [hsel]
      cases vMatch.getD pos false <;> rfl
    rw [hids, hsel]
    exact extracts_stop H (.inl rfl) _ pos _
  case hashes_le => exact leafCount_pos (by rwa [calcTreeWidth_zero])
  case hashes_le_bits => simp
  case bits_lt => simp

lemma subtree_stop {height pos : ℕ}
    (hpos : pos < calcTreeWidth leaves.length (height + 1)) (hsel : selected vMatch (height + 1) pos = []) :
    ∃ value, Subtree H leaves vMatch (height + 1) pos [false] [value] value := by
  obtain ⟨value, hvalue, hcalc⟩ := calcHash_eq hne hpos
  refine ⟨value, hvalue, ?_, ?_, ?_, ?_, ?_⟩
  · intro acc
    rw [traverseAndBuild, ← hlen, parentOfMatch_eq, hsel, hlen]
    simp only [storeHash, hcalc]
    rfl
  · rw [hsel]
    exact extracts_stop H (.inr rfl) _ pos value
  · exact leafCount_pos hpos
  · simp
  · have := Nat.lt_two_pow_self (n := height + 1 + 1)
    simp only [length_singleton]
    omega

/-- **A node is built with what its children are built with.** -/
theorem exists_subtree
    (hsib : ∀ k i a b, (levels H k leaves)[2 * i]? = some a → (levels H k leaves)[2 * i + 1]? = some b → a ≠ b)
    {height pos : ℕ} (hpos : pos < calcTreeWidth leaves.length height) :
    ∃ bits hashes value, Subtree H leaves vMatch height pos bits hashes value := by
  induction height generalizing pos with
  | zero => exact ⟨_, _, _, subtree_leaf hne hlen (by rwa [calcTreeWidth_zero] at hpos)⟩
  | succ height ih =>
    by_cases hsel : selected vMatch (height + 1) pos = []
    · obtain ⟨value, h⟩ := subtree_stop hne hlen hpos hsel
      exact ⟨_, _, _, h⟩
    have hparent : parentOfMatch leaves.length vMatch (height + 1) pos = .ok true := by
      rw [← hlen, parentOfMatch_eq]
      simpa using hsel
    obtain ⟨bits, hashes, value, hl⟩ := ih (left_lt hpos)
    by_cases hright : pos * 2 + 1 < calcTreeWidth leaves.length height
    · obtain ⟨bits', hashes', value', hr⟩ := ih hright
      have hvalue := hl.value_eq
      have hvalue' := hr.value_eq
      refine ⟨true :: (bits ++ bits'), hashes ++ hashes', H value value', getElem?_levels_succ_two hvalue hvalue', ?_, ?_, ?_,
        ?_, ?_⟩
      · intro acc
        rw [traverseAndBuild, hparent]
        simp only [ok_bind, hl.built, if_pos hright, hr.built]
        simp
      · rw [selected_succ, map_append]
        rw [mul_comm] at hvalue hvalue'
        exact hl.extracts.two hr.extracts hright (hsib height pos value value' hvalue hvalue')
      · rw [leafCount_succ, length_append]
        exact Nat.add_le_add hl.hashes_le hr.hashes_le
      · have := hl.hashes_le_bits
        have := hr.hashes_le_bits
        simp only [length_cons, length_append]
        omega
      · have := hl.bits_lt
        have := hr.bits_lt
        simp only [length_cons, length_append]
        omega
    · have hvalue := hl.value_eq
      refine ⟨true :: bits, hashes, H value value, getElem?_levels_succ_one hvalue ?_, ?_, ?_, ?_, ?_, ?_⟩
      · rw [length_levels, width_of_no_right hpos hright]
      · intro acc
        rw [traverseAndBuild, hparent]
        simp only [ok_bind, hl.built, if_neg hright]
        simp [pure, Except.pure]
      · have hnone : selected vMatch height (pos * 2 + 1) = [] := by
          apply selected_eq_nil
          rw [hlen]
          omega
        rw [selected_succ, hnone, append_nil]
        exact hl.extracts.one hright
      · have := hl.hashes_le
        rw [leafCount_succ]
        omega
      · have := hl.hashes_le_bits
        simp only [length_cons]
        omega
      · have := hl.bits_lt
        simp only [length_cons]
        omega

end Subtree

end CPartialMerkleTree

/-! ## The format -/

/-- Bit `p` of the bytes. -/
def bitAt (vBytes : List UInt8) (p : ℕ) : Bool := (vBytes.getD (p / 8) 0).toNat.testBit (p % 8)

lemma unpackBits_eq (vBytes : List UInt8) : unpackBits vBytes = (range (vBytes.length * 8)).map (bitAt vBytes) := by
  refine map_congr_left fun p _ => ?_
  rw [bitAt, one_shiftLeft, and_two_pow]
  cases (vBytes.getD (p / 8) 0).toNat.testBit (p % 8) <;> simp

lemma bitAt_modify {vBytes : List UInt8} {p : ℕ} (hp : p < vBytes.length * 8) (b : Bool) (q : ℕ) :
    bitAt (vBytes.modify (q / 8) (· ||| UInt8.ofNat (b.toNat <<< (q % 8)))) p = (bitAt vBytes p || (p == q && b)) := by
  have hbyte : p / 8 < vBytes.length := by omega
  have hsmall : b.toNat <<< (q % 8) < 2 ^ 8 := by
    rw [shiftLeft_eq]
    have hb : b.toNat ≤ 1 := Bool.toNat_le b
    have hpow : 2 ^ (q % 8) < 2 ^ 8 := Nat.pow_lt_pow_right (by omega) (by omega)
    nlinarith
  rw [bitAt, bitAt, getD_eq_getElem _ _ hbyte, getD_eq_getElem _ _ (by rwa [length_modify]), getElem_modify]
  by_cases hq : q / 8 = p / 8
  · rw [if_pos hq, UInt8.toNat_or, testBit_or, UInt8.toNat_ofNat',
      mod_eq_of_lt hsmall, testBit_shiftLeft]
    congr 1
    by_cases hpq : p = q
    · subst hpq
      cases b <;> simp
    · rw [beq_false_of_ne hpq, Bool.false_and]
      by_cases hge : p % 8 ≥ q % 8
      · have hzero : b.toNat.testBit (p % 8 - q % 8) = false := by
          apply testBit_lt_two_pow
          have hb : b.toNat ≤ 1 := Bool.toNat_le b
          have hpow : 2 ^ 1 ≤ 2 ^ (p % 8 - q % 8) := Nat.pow_le_pow_right (by omega) (by omega)
          omega
        rw [hzero, Bool.and_false]
      · rw [decide_eq_false hge, Bool.false_and]
  · have hpq : p ≠ q := by
      rintro rfl
      exact hq rfl
    rw [if_neg hq, beq_false_of_ne hpq]
    simp

lemma foldl_packBits (bits : List Bool) (k : ℕ) (vBytes : List UInt8) :
    let packed := (bits.zipIdx k).foldl
      (fun vBytes bit => vBytes.modify (bit.2 / 8) (· ||| UInt8.ofNat (bit.1.toNat <<< (bit.2 % 8)))) vBytes
    packed.length = vBytes.length ∧
      ∀ p < vBytes.length * 8, bitAt packed p = (bitAt vBytes p || (decide (k ≤ p) && bits.getD (p - k) false)) := by
  induction bits generalizing k vBytes with
  | nil => simp
  | cons b bits ih =>
    obtain ⟨hlen, hbits⟩ := ih (k + 1) (vBytes.modify (k / 8) (· ||| UInt8.ofNat (b.toNat <<< (k % 8))))
    rw [length_modify] at hlen hbits
    refine ⟨hlen, fun p hp => ?_⟩
    rw [zipIdx_cons, foldl_cons, hbits p hp, bitAt_modify hp, Bool.or_assoc]
    congr 1
    rcases lt_trichotomy p k with hlt | rfl | hgt
    · have hpk : ¬ k ≤ p ∧ ¬ k + 1 ≤ p ∧ p ≠ k := by omega
      simp [hpk]
    · simp
    · obtain ⟨d, rfl⟩ := Nat.exists_eq_add_of_lt hgt
      have hd : k + d + 1 - k = d + 1 ∧ k + d + 1 - (k + 1) = d := by omega
      have hle : k ≤ k + d + 1 ∧ k + 1 ≤ k + d + 1 ∧ k + d + 1 ≠ k := by omega
      simp [hd, hle]

variable (bits : List Bool)

lemma length_packBits : (packBits bits).length = (bits.length + 7) / 8 := by
  rw [packBits, (foldl_packBits bits 0 _).1, length_replicate]

/-- **Unpacking gives the bits back, padded to whole bytes.** -/
theorem unpackBits_packBits :
    unpackBits (packBits bits) = bits ++ replicate ((bits.length + 7) / 8 * 8 - bits.length) false := by
  rw [unpackBits_eq, length_packBits]
  apply ext_getElem
  · simp only [length_map, length_range, length_append, length_replicate]
    omega
  intro p hp hp'
  rw [length_map, length_range] at hp
  have hbit := (foldl_packBits bits 0 (replicate ((bits.length + 7) / 8) 0)).2 p (by rwa [length_replicate])
  have hzero : bitAt (replicate ((bits.length + 7) / 8) 0) p = false := by
    rw [bitAt]
    simp
  rw [hzero, Bool.false_or, Nat.sub_zero, decide_eq_true (zero_le p), Bool.true_and] at hbit
  rw [getElem_map, getElem_range, packBits, hbit, getElem_append]
  split_ifs with hlt
  · rw [getD_eq_getElem _ _ hlt]
  · rw [getD_eq_default _ _ (by omega), getElem_replicate]

lemma reads_partialMerkleTree (tree : CPartialMerkleTree) (hn : tree.nTransactions < 2 ^ 32)
    (hhash : tree.vHash.length ≤ MAX_SIZE) (hbits : (tree.vBits.length + 7) / 8 ≤ MAX_SIZE) :
    Reads readPartialMerkleTree (writePartialMerkleTree tree)
      ⟨tree.nTransactions, tree.vBits ++ replicate ((tree.vBits.length + 7) / 8 * 8 - tree.vBits.length) false,
        tree.vHash, false⟩ := by
  refine ((codes_data 4).reads hn).bind (((codes_vector codes_uint256).reads ⟨hhash, fun _ _ => trivial⟩).bind ?_)
  rw [← map_eq_pure_bind, ← unpackBits_packBits]
  refine (codes_byteVector.reads ?_).map _
  rwa [length_packBits]

namespace CPartialMerkleTree

lemma two_pow_treeHeight_lt (h : 0 < n) : 2 ^ treeHeight n < 2 * n := by
  cases hk : treeHeight n with
  | zero => omega
  | succ k =>
    have hwidth := one_lt_calcTreeWidth (n := n) (k := k) (by omega)
    have hmul : 2 * 2 ^ k ≤ n + 2 ^ k - 1 := by
      exact (le_div_iff_mul_le (by positivity)).1 hwidth
    omega

lemma selected_treeHeight {vMatch : List Bool} (hlen : vMatch.length = n) :
    selected vMatch (treeHeight n) 0 = (range n).filter fun p => vMatch.getD p false := by
  have hle := le_two_pow_treeHeight n
  have hbeyond : (range' n (2 ^ treeHeight n - n)).filter (fun p => vMatch.getD p false) = [] := by
    rw [filter_eq_nil_iff]
    intro p hp
    rw [mem_range'_1] at hp
    rw [getD_eq_default _ _ (by omega)]
    simp
  have hsplit : range' 0 (2 ^ treeHeight n) = range' 0 n ++ range' n (2 ^ treeHeight n - n) := by
    have happend := range'_append_1 (s := 0) (m := n) (n := 2 ^ treeHeight n - n)
    rwa [zero_add, Nat.add_sub_cancel' hle, eq_comm] at happend
  rw [selected, zero_mul, hsplit, filter_append, hbeyond, append_nil, range_eq_range']

/-- **Matches come back.** From a tree that was built, written and read back the root and exactly the matches are
extracted, unless the merkle computation is mutated or pairs collide. -/
theorem extractMatches_build (H : Uint256 → Uint256 → Uint256) (vTxid : List Uint256) (vMatch : List Bool)
    (rest : List UInt8) (hne : vTxid ≠ []) (hmax : vTxid.length ≤ MAX_BLOCK_WEIGHT / MIN_TRANSACTION_WEIGHT)
    (hlen : vMatch.length = vTxid.length) (hmutated : (computeMerkleRoot H vTxid).2 = false)
    (hinj : Set.InjOn (fun p => H p.1 p.2) {p | p ∈ merklePairs H vTxid}) :
    ∃ tree tree' e, build H vTxid vMatch = .ok tree ∧
      readPartialMerkleTree (writePartialMerkleTree tree ++ rest) = .ok (tree', rest) ∧
      extractMatches H tree' [] = .ok ((computeMerkleRoot H vTxid).1, e) ∧
      e.vnIndex = (List.range vTxid.length).filter (fun i => vMatch.getD i false) ∧
      e.vMatch = e.vnIndex.map fun i => vTxid.getD i 0 := by
  have hpos := length_pos_iff.2 hne
  have hno : ¬ HasTwins H vTxid := by
    rw [← merkleComputation_mutated vTxid (2 ^ 32 - 1), Bool.not_eq_true]
    exact hmutated
  have hroot : 0 < calcTreeWidth vTxid.length (treeHeight vTxid.length) := by
    rw [calcTreeWidth_treeHeight hpos]
    omega
  obtain ⟨bits, hashes, value, h⟩ := exists_subtree hne hlen (fun k i a b => siblings_ne hno hinj) hroot
  have hvalue : value = (computeMerkleRoot H vTxid).1 := by
    have htop := getElem?_levels_treeHeight (H := H) hne
    rw [h.value_eq] at htop
    exact some.inj htop
  have hhashes : hashes.length ≤ vTxid.length := by
    have hle := h.hashes_le
    rw [leafCount] at hle
    omega
  have hbits : bits.length < 4 * vTxid.length := by
    have hlt := h.bits_lt
    have hpow := two_pow_treeHeight_lt hpos
    omega
  have hlimit : MAX_BLOCK_WEIGHT / MIN_TRANSACTION_WEIGHT < 2 ^ 20 := by decide
  have hsize : MAX_SIZE = 2 ^ 25 := by decide
  have hn : vTxid.length < 2 ^ 32 := by omega
  have hstored : hashes.length ≤ MAX_SIZE := by omega
  have hbytes : (bits.length + 7) / 8 ≤ MAX_SIZE := by omega
  have hread := reads_partialMerkleTree ⟨vTxid.length, bits, hashes, false⟩ hn hstored hbytes rest
  have hpad : (bits ++ replicate ((bits.length + 7) / 8 * 8 - bits.length) false).length = (bits.length + 7) / 8 * 8 := by
    rw [length_append, length_replicate]
    omega
  generalize replicate ((bits.length + 7) / 8 * 8 - bits.length) false = pad at hread hpad
  obtain ⟨hashed, hextract⟩ := h.extracts ⟨vTxid.length, bits ++ pad, hashes, false⟩ ⟨0, 0, [], [], false, []⟩ pad [] rfl rfl
    (append_nil _).symm
  simp only [selected_treeHeight hlen, Nat.zero_add, hvalue] at hextract
  refine ⟨⟨vTxid.length, bits, hashes, false⟩, ⟨vTxid.length, bits ++ pad, hashes, false⟩, ⟨bits.length, hashes.length,
    ((range vTxid.length).filter fun i => vMatch.getD i false).map fun i => vTxid.getD i 0,
    (range vTxid.length).filter fun i => vMatch.getD i false, false, hashed⟩, ?_, hread, ?_, rfl, rfl⟩
  · rw [build, h.built]
    rfl
  · have hle := h.hashes_le_bits
    have henough : ¬ (bits ++ pad).length < hashes.length := by omega
    rw [extractMatches, if_neg (Nat.ne_of_gt hpos), if_neg (Nat.not_lt.2 hmax), if_neg (Nat.not_lt.2 hhashes),
      if_neg henough, hextract]
    simp only [ok_bind, Bool.false_eq_true, if_false]
    rw [if_neg (by omega), if_neg (by simp)]
    rfl

lemma merklePairs_three : merklePairs (fun a b : Uint256 => a * 1000 + b) [5, 6, 7] = [(5, 6), (7, 7), (5006, 7007)] := by
  simp [merklePairs, pairs, pairUp]

/-- The second of three transactions is matched. -/
theorem extractMatches_build_three :
    ∃ tree tree' e, build (fun a b => a * 1000 + b) [5, 6, 7] [false, true, false] = .ok tree ∧
      readPartialMerkleTree (writePartialMerkleTree tree ++ []) = .ok (tree', []) ∧
      extractMatches (fun a b => a * 1000 + b) tree' [] =
        .ok ((computeMerkleRoot (fun a b => a * 1000 + b) [5, 6, 7]).1, e) ∧
      e.vnIndex = (List.range 3).filter (fun i => [false, true, false].getD i false) ∧
      e.vMatch = e.vnIndex.map fun i => [5, 6, 7].getD i 0 := by
  apply extractMatches_build (fun a b => a * 1000 + b) [5, 6, 7] [false, true, false] []
  · simp
  · decide
  · rfl
  · decide +kernel
  · rw [merklePairs_three]
    exact injOn_of_list (fun _ hp => hp) (by decide +kernel)

end CPartialMerkleTree

end Soferox
