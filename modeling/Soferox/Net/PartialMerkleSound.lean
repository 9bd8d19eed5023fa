import Mathlib.Data.List.Forall2
import Soferox.Net.PartialMerkleCorrect

/-!
# Partial merkle trees are sound

Who makes a partial merkle tree chooses its bits and its hashes. The shape of the tree comes from the number of
transactions alone, so a traversal meets the nodes of the honest tree, and from a root that is right on it every value that
is combined is the honest one.

* `Took` — what the traversal of a subtree does to the variables of `ExtractMatches`;
* `exists_took` — every traversal ends, without an access out of range;
* `extractMatches_sound` — matches that come with the right root are transactions of the block.
-/

namespace Soferox

open Lib List List.Forall₂

namespace CPartialMerkleTree

variable {H : Uint256 → Uint256 → Uint256} {tree : CPartialMerkleTree} {leaves : List Uint256}

/-- The traversal of the subtree at `height` and `pos` has the value `value`, and appends `ids` and `indices`, honest
matches if the value is honest. -/
structure Took (H : Uint256 → Uint256 → Uint256) (n height pos : ℕ) (e : Extraction) (value : Uint256) (e' : Extraction)
    (ids : List Uint256) (indices : List ℕ) : Prop where
  vMatch : e'.vMatch = e.vMatch ++ ids
  vnIndex : e'.vnIndex = e.vnIndex ++ indices
  hashed : e.hashed ⊆ e'.hashed
  sorted : indices.Pairwise (· < ·)
  below : ∀ i ∈ indices, pos * 2 ^ height ≤ i ∧ i < (pos + 1) * 2 ^ height
  honest : ∀ leaves : List Uint256, leaves.length = n →
    Set.InjOn (fun p => H p.1 p.2) {p | p ∈ e'.hashed ∨ p ∈ merklePairs H leaves} →
    (levels H height leaves)[pos]? = some value → List.Forall₂ (fun i id => leaves[i]? = some id) indices ids

section Took

variable {n height pos : ℕ} {e e₁ e₂ : Extraction} {value value' : Uint256} {ids ids' : List Uint256} {indices indices' : List ℕ}

lemma Took.nothing (hvMatch : e₁.vMatch = e.vMatch) (hvnIndex : e₁.vnIndex = e.vnIndex) (hhashed : e₁.hashed = e.hashed) :
    Took H n height pos e value e₁ [] [] := by
  constructor
  case vMatch => rw [hvMatch, append_nil]
  case vnIndex => rw [hvnIndex, append_nil]
  case hashed => rw [hhashed]; exact List.Subset.refl _
  case sorted => exact List.Pairwise.nil
  case below => simp
  case honest => intro leaves _ _ _; exact nil

lemma exists_level (hlen : leaves.length = n) (hpos : pos < calcTreeWidth n height) :
    ∃ a, (levels H height leaves)[pos]? = some a := by
  subst hlen
  rw [← length_levels H] at hpos
  exact ⟨_, getElem?_eq_getElem hpos⟩

lemma two_le_length_levels (hlen : leaves.length = n) (hheight : height < treeHeight n) :
    2 ≤ (levels H height leaves).length := by
  rw [length_levels, hlen]
  exact one_lt_calcTreeWidth hheight

section

variable (h : Took H n height (pos * 2) e value e₁ ids indices)
include h

lemma Took.two
    (h' : Took H n height (pos * 2 + 1) e₁ value' e₂ ids' indices') (hpos : pos < calcTreeWidth n (height + 1))
    (hheight : height < treeHeight n) (hright : pos * 2 + 1 < calcTreeWidth n height) (fBad : Bool) :
    Took H n (height + 1) pos e (H value value') (combine H value value' { e₂ with fBad }).2 (ids ++ ids')
      (indices ++ indices') := by
  have hends := ends_children height pos
  constructor
  case vMatch => simp [combine, h'.vMatch, h.vMatch]
  case vnIndex => simp only [combine, h'.vnIndex, h.vnIndex, append_assoc]
  case hashed => exact fun p hp => mem_append_left _ (h'.hashed (h.hashed hp))
  case sorted =>
    refine pairwise_append.2 ⟨h.sorted, h'.sorted, fun i hi j hj => ?_⟩
    have hi := h.below i hi
    have hj := h'.below j hj
    omega
  case below =>
    intro i hi
    rcases mem_append.1 hi with hi | hi
    · have := h.below i hi
      omega
    · have := h'.below i hi
      omega
  case honest =>
    intro leaves hlen hinj hvalue
    obtain ⟨a, ha⟩ := exists_level (H := H) hlen (left_lt hpos)
    obtain ⟨b, hb⟩ := exists_level (H := H) hlen hright
    rw [getElem?_levels_succ_two ha hb, Option.some.injEq] at hvalue
    -- the pair that was combined here and the pair of the honest tree have the same hash
    have hpair : (a, b) ∈ merklePairs H leaves := by
      apply pairs_levels_subset leaves (two_le_length_levels hlen hheight)
      rw [Nat.mul_comm] at ha hb
      exact mem_of_getElem? (getElem?_pairs_of_two ha hb)
    have heq : (a, b) = (value, value') := hinj (.inr hpair) (.inl (mem_append_right _ mem_cons_self)) hvalue
    obtain ⟨rfl, rfl⟩ := heq
    have hsub : ∀ l, l ⊆ e₂.hashed → Set.InjOn (fun p => H p.1 p.2) {p | p ∈ l ∨ p ∈ merklePairs H leaves} := fun l hl =>
      hinj.mono fun p hp => hp.imp_left fun hp => mem_append_left _ (hl hp)
    exact rel_append (h.honest leaves hlen (hsub _ h'.hashed) ha)
      (h'.honest leaves hlen (hsub _ (List.Subset.refl _)) hb)

lemma Took.one (hpos : pos < calcTreeWidth n (height + 1))
    (hheight : height < treeHeight n) (hright : ¬ pos * 2 + 1 < calcTreeWidth n height) :
    Took H n (height + 1) pos e (H value value) (combine H value value e₁).2 ids indices := by
  have hends := ends_children height pos
  constructor
  case vMatch => exact h.vMatch
  case vnIndex => exact h.vnIndex
  case hashed => exact fun p hp => mem_append_left _ (h.hashed hp)
  case sorted => exact h.sorted
  case below =>
    intro i hi
    have := h.below i hi
    omega
  case honest =>
    intro leaves hlen hinj hvalue
    obtain ⟨a, ha⟩ := exists_level hlen (left_lt hpos)
    have hlast : (levels H height leaves).length = pos * 2 + 1 := by
      rw [length_levels, hlen, width_of_no_right hpos hright]
    rw [getElem?_levels_succ_one ha hlast, Option.some.injEq] at hvalue
    have hpair : (a, a) ∈ merklePairs H leaves := by
      apply pairs_levels_subset leaves (two_le_length_levels hlen hheight)
      rw [Nat.mul_comm] at ha hlast
      exact mem_of_getElem? (getElem?_pairs_of_one ha hlast)
    have heq : (a, a) = (value, value) := hinj (.inr hpair) (.inl (mem_append_right _ mem_cons_self)) hvalue
    obtain ⟨rfl, -⟩ := heq
    exact h.honest leaves hlen (hinj.mono fun p hp => hp.imp_left (mem_append_left _)) ha

end

end Took

/-! ## Every traversal -/

lemma exists_access {α : Type} {v : List α} {i : ℕ} (h : ¬ i ≥ v.length) : ∃ a, access v i = .ok a := by
  have hlt : i < v.length := by omega
  exact ⟨v[i], access_eq_ok.2 (getElem?_eq_getElem hlt)⟩

variable (H) (tree)

lemma took_useHash (height pos : ℕ) (fParentOfMatch : Bool) (e : Extraction) :
    ∃ value e' ids indices, useHash tree height pos fParentOfMatch e = .ok (value, e') ∧
      Took H tree.nTransactions height pos e value e' ids indices := by
  by_cases hbeyond : e.nHashUsed ≥ tree.vHash.length
  · exact ⟨0, { e with fBad := true }, [], [], if_pos hbeyond, Took.nothing rfl rfl rfl⟩
  obtain ⟨hash, haccess⟩ := exists_access hbeyond
  rw [useHash, if_neg hbeyond, haccess, ok_bind]
  split_ifs with hleaf
  · obtain ⟨rfl, -⟩ := hleaf
    refine ⟨hash, _, [hash], [pos], rfl, rfl, rfl, List.Subset.refl _, pairwise_singleton _ _, ?_, ?_⟩
    · simp
    · intro leaves _ _ hvalue
      exact cons hvalue nil
  · exact ⟨hash, _, [], [], rfl, Took.nothing rfl rfl rfl⟩

/-- **Every traversal ends, without an access out of range.** -/
theorem exists_took {height pos : ℕ} (hheight : height ≤ treeHeight tree.nTransactions) (hpos : pos < calcTreeWidth tree.nTransactions height) (e : Extraction) :
    ∃ value e' ids indices, traverseAndExtract H tree height pos e = .ok (value, e') ∧
      Took H tree.nTransactions height pos e value e' ids indices := by
  induction height generalizing pos e
  all_goals
    rcases em (e.nBitsUsed ≥ tree.vBits.length) with hbeyond | hbeyond
    · exact ⟨0, { e with fBad := true }, [], [], if_pos hbeyond, Took.nothing rfl rfl rfl⟩
    obtain ⟨f, haccess⟩ := exists_access hbeyond
    rw [traverseAndExtract, if_neg hbeyond, haccess, ok_bind]
  case zero.inr =>
    obtain ⟨value, e', ids, indices, huse, htook⟩ := took_useHash H tree 0 pos f { e with nBitsUsed := e.nBitsUsed + 1 }
    exact ⟨value, e', ids, indices, huse, { htook with }⟩
  case succ.inr height ih =>
    cases f with
    | false =>
      obtain ⟨value, e', ids, indices, huse, htook⟩ := took_useHash H tree (height + 1) pos false
        { e with nBitsUsed := e.nBitsUsed + 1 }
      exact ⟨value, e', ids, indices, huse, { htook with }⟩
    | true =>
      obtain ⟨value, e₁, ids, indices, hleft, htook⟩ := ih (by omega) (left_lt hpos) { e with nBitsUsed := e.nBitsUsed + 1 }
      simp only [Bool.not_true, Bool.false_eq_true, if_false, hleft, ok_bind]
      replace htook : Took H tree.nTransactions height (pos * 2) e value e₁ ids indices := { htook with }
      by_cases hright : pos * 2 + 1 < calcTreeWidth tree.nTransactions height
      · obtain ⟨value', e₂, ids', indices', hrun, htook'⟩ := ih (by omega) hright e₁
        simp only [if_pos hright, hrun, ok_bind]
        exact ⟨_, _, _, _, rfl, htook.two htook' hpos (by omega) hright _⟩
      · simp only [if_neg hright]
        exact ⟨_, _, _, _, rfl, htook.one hpos (by omega) hright⟩

/-- **Matches that come with the right root are transactions of the block.** `ExtractMatches` ends without an access
out of range, and if its root is that of `leaves`, every match is the leaf at its index, in increasing order, where no
pairs collide. -/
theorem extractMatches_sound (H : Uint256 → Uint256 → Uint256) (leaves : List Uint256) (tree : CPartialMerkleTree)
    (hn : tree.nTransactions = leaves.length) :
    ∃ root e, extractMatches H tree [] = .ok (root, e) ∧
      (root = (computeMerkleRoot H leaves).1 → root ≠ 0 →
        Set.InjOn (fun p => H p.1 p.2) {p | p ∈ e.hashed ∨ p ∈ merklePairs H leaves} →
        List.Forall₂ (fun i id => leaves[i]? = some id) e.vnIndex e.vMatch ∧ e.vnIndex.Pairwise (· < ·)) := by
  rw [extractMatches]
  split_ifs with hzero hmax hhashes hbits
  iterate 4 exact ⟨_, _, rfl, fun _ hroot => absurd rfl hroot⟩
  have hpos : 0 < calcTreeWidth tree.nTransactions (treeHeight tree.nTransactions) := by
    rw [calcTreeWidth_treeHeight (by omega)]
    omega
  obtain ⟨value, e, ids, indices, hrun, htook⟩ := exists_took H tree le_rfl hpos ⟨0, 0, [], [], tree.fBad, []⟩
  simp only [hrun, ok_bind]
  split_ifs with hbad hbitsUsed hhashUsed
  · exact ⟨_, _, rfl, fun _ hroot => absurd rfl hroot⟩
  · exact ⟨_, _, rfl, fun _ hroot => absurd rfl hroot⟩
  · exact ⟨_, _, rfl, fun _ hroot => absurd rfl hroot⟩
  refine ⟨value, e, rfl, fun hroot _ hinj => ?_⟩
  have hne : leaves ≠ [] := by
    rintro rfl
    exact hzero hn
  have htop := getElem?_levels_treeHeight (H := H) hne
  rw [← hroot, ← hn] at htop
  rw [htook.vMatch, htook.vnIndex]
  exact ⟨htook.honest leaves hn.symm hinj htop, htook.sorted⟩

lemma treeHeight_three : treeHeight 3 = 2 := by
  rw [treeHeight, Nat.find_eq_iff]
  decide

/-- The second of three transactions is matched. -/
theorem extractMatches_sound_three :
    ∃ e, extractMatches (fun a b => a * 1000 + b) ⟨3, [true, true, false, true, false, false, false, false], [5, 6, 7007], false⟩
        [] = .ok ((computeMerkleRoot (fun a b => a * 1000 + b) [5, 6, 7]).1, e) ∧
      List.Forall₂ (fun i id => [5, 6, 7][i]? = some id) e.vnIndex e.vMatch ∧ e.vnIndex.Pairwise (· < ·) := by
  obtain ⟨root, e, hrun, hsound⟩ := extractMatches_sound (fun a b => a * 1000 + b) [5, 6, 7]
    ⟨3, [true, true, false, true, false, false, false, false], [5, 6, 7007], false⟩ rfl
  have hresult : extractMatches (fun a b => a * 1000 + b)
      ⟨3, [true, true, false, true, false, false, false, false], [5, 6, 7007], false⟩ [] =
      .ok (5013007, ⟨5, 3, [6], [1], false, [(5, 6), (5006, 7007)]⟩) := by
    rw [extractMatches, treeHeight_three]
    decide +kernel
  rw [hresult, Except.ok.injEq, Prod.mk.injEq] at hrun
  obtain ⟨rfl, rfl⟩ := hrun
  have hroot : (computeMerkleRoot (fun a b => a * 1000 + b) [5, 6, 7]).1 = 5013007 := by decide +kernel
  refine ⟨_, by rw [hroot]; exact hresult, hsound hroot.symm (by decide) ?_⟩
  rw [merklePairs_three]
  exact injOn_of_list (fun _ => mem_append.2) (by decide +kernel)

end CPartialMerkleTree

end Soferox
