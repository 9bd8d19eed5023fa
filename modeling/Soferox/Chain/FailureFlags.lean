import Soferox.Chain.ChainState
import Soferox.Lib.Restrict

/-!
# Failure flags

Two invariants of the failure flags: the blocks of `g_failed_blocks` are marked `BLOCK_FAILED_VALID` (`FailedMarked`),
and a block marked `BLOCK_FAILED_CHILD` has an ancestor marked `BLOCK_FAILED_VALID` (`ChildBelowFailed`). `Kept s s'`
says that both pass from `s` to `s'`, as they do over every function that only adds marks; `Grows.kept` is the rule for
one change, `Kept.trans` the one for sequences and loops. `ResetBlockFailureFlags` takes marks away, see
`Chain/FailureRuns`.
-/

namespace Soferox

open Lib CBlockIndex List

/-! ## Small facts about the state -/

namespace CBlockIndex

variable (i : CBlockIndex) (n : ℕ)

@[simp] lemma failedValid_raiseValidity : (i.raiseValidity n).failedValid = i.failedValid := by
  unfold raiseValidity
  split_ifs <;> rfl

@[simp] lemma failedChild_raiseValidity : (i.raiseValidity n).failedChild = i.failedChild := by
  unfold raiseValidity
  split_ifs <;> rfl

lemma failed_eq_true : i.failed = true ↔ i.failedValid = true ∨ i.failedChild = true := by
  rw [failed, Bool.or_eq_true]

end CBlockIndex

namespace CChainState

variable {ι : Type} {T : HeaderTree ι} {s s' s'' : CChainState ι} {a b c : ι}

variable (T) in
/-- The sets of the chain state hold known blocks, and the active chain is the path of its tip. -/
structure WellFormed (s : CChainState ι) : Prop where
  genesis_mem : T.genesis ∈ s.mapBlockIndex
  closed : ∀ b ∈ s.mapBlockIndex, ∀ a ∈ T.path b, a ∈ s.mapBlockIndex
  candidates : ∀ b ∈ s.setBlockIndexCandidates, b ∈ s.mapBlockIndex
  unlinked : ∀ e ∈ s.mapBlocksUnlinked, e.2 ∈ s.mapBlockIndex
  failed : ∀ b ∈ s.g_failed_blocks, b ∈ s.mapBlockIndex
  follows : s.chainActive.FollowsTip T.toBlockTree
  tip_mem : ∃ t ∈ s.mapBlockIndex, s.tip = some t

/-- The blocks of `g_failed_blocks` are marked. -/
def FailedMarked (s : CChainState ι) : Prop := ∀ b ∈ s.g_failed_blocks, (s.index b).failedValid = true

variable (T) in
/-- A block marked as the child of a failed one has a failed ancestor. -/
def ChildBelowFailed (s : CChainState ι) : Prop :=
  ∀ b ∈ s.mapBlockIndex, (s.index b).failedChild = true →
    ∃ a ∈ T.path b, a ≠ b ∧ (s.index a).failedValid = true

variable (T) in
/-- `s'` is well formed, has the marks of `s`, and has the two invariants when `s` has them. -/
structure Kept (s s' : CChainState ι) : Prop where
  wf : s'.WellFormed T
  mem : ∀ b ∈ s.mapBlockIndex, b ∈ s'.mapBlockIndex
  valid : ∀ b ∈ s.mapBlockIndex, (s.index b).failedValid = true → (s'.index b).failedValid = true
  marked : s.FailedMarked → s'.FailedMarked
  child : s.ChildBelowFailed T → s'.ChildBelowFailed T

lemma Kept.refl (h : s.WellFormed T) : Kept T s s := ⟨h, fun _ hb => hb, fun _ _ hv => hv, id, id⟩

lemma Kept.trans (h : Kept T s s') (h' : Kept T s' s'') : Kept T s s'' :=
  ⟨h'.wf, fun b hb => h'.mem b (h.mem b hb), fun b hb hv => h'.valid b (h.mem b hb) (h.valid b hb hv),
    fun hm => h'.marked (h.marked hm), fun hc => h'.child (h.child hc)⟩

variable (T) in
/-- `s'` is `s` with more marks: new blocks in `g_failed_blocks` are marked, and children only below a block that has
failed. -/
structure Grows (s s' : CChainState ι) : Prop where
  map : s'.mapBlockIndex = s.mapBlockIndex
  valid : ∀ b, (s.index b).failedValid = true → (s'.index b).failedValid = true
  child : ∀ b ∈ s.mapBlockIndex, (s'.index b).failedChild = true → (s.index b).failedChild = true ∨
    ∃ a ∈ T.path b, a ≠ b ∧ ((s.index a).failed = true ∨ (s'.index a).failedValid = true)
  failed : ∀ b ∈ s'.g_failed_blocks, b ∈ s.g_failed_blocks ∨
    (b ∈ s.mapBlockIndex ∧ (s'.index b).failedValid = true)
  candidates : ∀ b ∈ s'.setBlockIndexCandidates, b ∈ s.setBlockIndexCandidates ∨ b ∈ s.mapBlockIndex
  unlinked : ∀ e ∈ s'.mapBlocksUnlinked, e ∈ s.mapBlocksUnlinked ∨ e.2 ∈ s.mapBlockIndex
  follows : s.chainActive.FollowsTip T.toBlockTree → s'.chainActive.FollowsTip T.toBlockTree
  tip : s'.tip = s.tip ∨ ∃ t ∈ s.mapBlockIndex, s'.tip = some t

lemma Grows.kept (h : Grows T s s') (hwf : s.WellFormed T) : Kept T s s' where
  wf := {
    genesis_mem := h.map ▸ hwf.genesis_mem
    closed := h.map ▸ hwf.closed
    candidates := fun b hb => h.map ▸ (h.candidates b hb).elim (hwf.candidates b) id
    unlinked := fun e he => h.map ▸ (h.unlinked e he).elim (hwf.unlinked e) id
    failed := fun b hb => h.map ▸ (h.failed b hb).elim (hwf.failed b) And.left
    follows := h.follows hwf.follows
    tip_mem := by
      rw [h.map]
      rcases h.tip with htip | htip
      · rw [htip]
        exact hwf.tip_mem
      · exact htip }
  mem := fun b hb => h.map ▸ hb
  valid := fun b _ => h.valid b
  marked := fun hm b hb => (h.failed b hb).elim (fun hold => h.valid b (hm b hold)) And.right
  child := fun hc b hb hfc => by
    rw [h.map] at hb
    -- a failed block is marked itself or has a marked ancestor
    have hbelow : ∀ a ∈ T.path b, a ≠ b → (s.index a).failed = true →
        ∃ r ∈ T.path b, r ≠ b ∧ (s'.index r).failedValid = true := by
      intro a ha hab hfailed
      rcases (CBlockIndex.failed_eq_true _).1 hfailed with hv | hch
      · exact ⟨a, ha, hab, h.valid a hv⟩
      · obtain ⟨r, hr, -, hv⟩ := hc a (hwf.closed b hb a ha) hch
        refine ⟨r, T.forest.path_trans ha hr, ?_, h.valid r hv⟩
        rintro rfl
        exact hab (T.forest.eq_of_mem_path ha (T.forest.depth_le_of_mem_path hr))
    rcases h.child b hb hfc with hold | ⟨a, ha, hab, hfailed | hv⟩
    · obtain ⟨r, hr, hrb, hv⟩ := hc b hb hold
      exact ⟨r, hr, hrb, h.valid r hv⟩
    · exact hbelow a ha hab hfailed
    · exact ⟨a, ha, hab, hv⟩

lemma Kept.of_flags (h' : s'.WellFormed T) (hmap : s'.mapBlockIndex = s.mapBlockIndex)
    (hflags : ∀ b, (s'.index b).failedValid = (s.index b).failedValid ∧ (s'.index b).failedChild = (s.index b).failedChild)
    (hfailed : s'.g_failed_blocks = s.g_failed_blocks) : Kept T s s' := by
  refine ⟨h', fun b hb => hmap ▸ hb, fun b _ hv => (hflags b).1.trans hv, fun hm b hb => ?_, fun hc b hb hfc => ?_⟩
  · exact (hflags b).1.trans (hm b (hfailed ▸ hb))
  · obtain ⟨a, ha, hab, hv⟩ := hc b (hmap ▸ hb) ((hflags b).2.symm.trans hfc)
    exact ⟨a, ha, hab, (hflags a).1.trans hv⟩

/-! ## One change -/

variable [LinearOrder ι]

variable (s b) in
lemma index_modify (f : CBlockIndex → CBlockIndex) (c : ι) :
    (s.modify b f).index c = if c = b then f (s.index b) else s.index c := Function.update_apply ..

lemma mem_eraseCandidate : c ∈ (s.eraseCandidate b).setBlockIndexCandidates ↔ c ∈ s.setBlockIndexCandidates ∧ c ≠ b := by
  simp [eraseCandidate]

lemma mem_insertCandidate : c ∈ (s.insertCandidate b).setBlockIndexCandidates ↔ c = b ∨ c ∈ s.setBlockIndexCandidates :=
  mem_insert_iff

lemma WellFormed.modify (h : s.WellFormed T) (b : ι) (f : CBlockIndex → CBlockIndex) : (s.modify b f).WellFormed T :=
  { h with }

variable {l : List ι} {contextual : Bool}

/-! ## Looking for the best candidate -/

lemma lastCandidate_mem (h : s.lastCandidate T l = some b) : b ∈ l := by
  induction l generalizing b with
  | nil => cases h
  | cons c l ih =>
    simp only [lastCandidate] at h
    cases hl : s.lastCandidate T l with
    | none =>
      rw [hl] at h
      cases h
      exact mem_cons_self
    | some d =>
      rw [hl] at h
      dsimp only at h
      split at h
      · cases h
        exact mem_cons_self
      · cases h
        exact mem_cons_of_mem _ (ih hl)

lemma firstUnusable_eq_some (h : s.firstUnusable T l = .ok (some a)) :
    a ∈ l ∧ ((s.index a).failed = true ∨ (s.index a).haveData = false) := by
  induction l with
  | nil => cases h
  | cons b l ih =>
    simp only [firstUnusable] at h
    split at h
    · cases h
    · split at h
      · cases h
      · split at h
        · rename_i hunusable
          cases h
          refine ⟨mem_cons_self, ?_⟩
          simpa using hunusable
        · obtain ⟨hmem, hunusable⟩ := ih h
          exact ⟨mem_cons_of_mem _ hmem, hunusable⟩

/-! ## Connecting and disconnecting -/

omit [LinearOrder ι] in
lemma invalidChainFound_eq_ok {u : Unit} : s.invalidChainFound = .ok u ↔ s.tip ≠ none := by
  unfold invalidChainFound
  split_ifs with h
  · simp [h]
  · simp [h]

lemma invalidBlockFound_eq_ok : s.invalidBlockFound b = .ok s' ↔ s.tip ≠ none ∧
    s' = ({ s.modify b failValid with g_failed_blocks := s.g_failed_blocks.insert b } :
      CChainState ι).eraseCandidate b := by
  constructor
  · intro h
    obtain ⟨_, htip, h⟩ := bind_eq_ok.1 h
    cases h
    exact ⟨invalidChainFound_eq_ok.1 htip, rfl⟩
  · rintro ⟨htip, rfl⟩
    exact bind_eq_ok.2 ⟨(), invalidChainFound_eq_ok.2 htip, rfl⟩

/-! ## Manual invalidation -/

variable (s l) in
lemma failDisconnected_spec :
    (s.failDisconnected l).mapBlockIndex = s.mapBlockIndex ∧
    (s.failDisconnected l).mapBlocksUnlinked = s.mapBlocksUnlinked ∧
    (s.failDisconnected l).nBlockSequenceId = s.nBlockSequenceId ∧
    (s.failDisconnected l).g_failed_blocks = s.g_failed_blocks ∧
    (s.failDisconnected l).chainActive = s.chainActive ∧
    (∀ c, (s.failDisconnected l).index c = if c ∈ l then (s.index c).failChild else s.index c) ∧
    ∀ c, c ∈ (s.failDisconnected l).setBlockIndexCandidates ↔ c ∈ s.setBlockIndexCandidates ∧ c ∉ l := by
  induction l generalizing s with
  | nil => exact ⟨rfl, rfl, rfl, rfl, rfl, fun c => by rw [if_neg not_mem_nil]; rfl, fun c => by
      simp [failDisconnected]⟩
  | cons b l ih =>
    obtain ⟨hmap, hunl, hseq, hfailed, hchain, hindex, hcand⟩ := ih ((s.modify b failChild).eraseCandidate b)
    refine ⟨hmap, hunl, hseq, hfailed, hchain, fun c => (hindex c).trans ?_, fun c => (hcand c).trans ?_⟩
    · have hmod : ((s.modify b failChild).eraseCandidate b).index c =
          if c = b then (s.index b).failChild else s.index c := index_modify ..
      rw [hmod]
      by_cases hcb : c = b
      · subst hcb
        by_cases hcl : c ∈ l <;> simp [failChild]
      · simp [hcb]
    · rw [mem_eraseCandidate, mem_cons]
      tauto

variable (s l) in
lemma index_failBranch (pindex c : ι) : (s.failBranch l pindex).index c =
    let i := if c ∈ l then (s.index c).failChild else s.index c
    if c = pindex then i.failValid else i := by
  have hmod : (s.failBranch l pindex).index c =
    if c = pindex then ((s.failDisconnected l).index pindex).failValid else (s.failDisconnected l).index c := index_modify ..
  obtain ⟨-, -, -, -, -, hindex, -⟩ := s.failDisconnected_spec l
  rw [hmod]
  split
  · rename_i heq
    rw [hindex, heq]
  · rw [hindex]

/-! ## New headers and blocks -/

lemma mem_addToBlockIndex : c ∈ (s.addToBlockIndex b).mapBlockIndex ↔ c ∈ s.mapBlockIndex ∨ c = b := by
  unfold addToBlockIndex
  split_ifs with hb
  · exact ⟨.inl, fun hc => hc.elim id fun heq => heq ▸ hb⟩
  · simp

lemma index_addToBlockIndex (hb : b ∉ s.mapBlockIndex) (c : ι) : (s.addToBlockIndex b).index c =
    if c = b then null.raiseValidity BLOCK_VALID_TREE else s.index c := by
  rw [addToBlockIndex, if_neg hb]
  exact Function.update_apply ..

lemma index_addToBlockIndex_of_mem (hc : c ∈ s.mapBlockIndex) : (s.addToBlockIndex b).index c = s.index c := by
  by_cases hb : b ∈ s.mapBlockIndex
  · rw [addToBlockIndex, if_pos hb]
  · have hcb : c ≠ b := fun heq => hb (heq ▸ hc)
    rw [index_addToBlockIndex hb, if_neg hcb]

variable (s b) in
lemma addToBlockIndex_rest :
    (s.addToBlockIndex b).setBlockIndexCandidates = s.setBlockIndexCandidates ∧
    (s.addToBlockIndex b).mapBlocksUnlinked = s.mapBlocksUnlinked ∧
    (s.addToBlockIndex b).nBlockSequenceId = s.nBlockSequenceId ∧
    (s.addToBlockIndex b).g_failed_blocks = s.g_failed_blocks ∧
    (s.addToBlockIndex b).chainActive = s.chainActive := by
  unfold addToBlockIndex
  split <;> exact ⟨rfl, rfl, rfl, rfl, rfl⟩

section

variable (h : s.WellFormed T) (hb : b = T.genesis ∨ ∃ p ∈ s.mapBlockIndex, T.pprev b = some p)
include h hb

omit [LinearOrder ι] in
lemma WellFormed.path_subset (ha : a ∈ T.path b) : a ∈ s.mapBlockIndex ∨ a = b := by
  rcases T.forest.mem_path_iff.1 ha with rfl | ⟨p, hp, hap⟩
  · exact .inr rfl
  · rcases hb with rfl | ⟨q, hq, hbq⟩
    · cases ((T.pprev_eq_none _).2 rfl).symm.trans hp
    · cases hbq.symm.trans hp
      exact .inl (h.closed p hq a hap)

lemma kept_addToBlockIndex : Kept T s (s.addToBlockIndex b) := by
  by_cases hnew : b ∈ s.mapBlockIndex
  · rw [addToBlockIndex, if_pos hnew]
    exact .refl h
  · obtain ⟨hcand, hunl, -, hfailed, hchain⟩ := s.addToBlockIndex_rest b
    have hold : ∀ c ∈ s.mapBlockIndex, (s.addToBlockIndex b).index c = s.index c := fun _ =>
      index_addToBlockIndex_of_mem
    have hmem : ∀ c ∈ s.mapBlockIndex, c ∈ (s.addToBlockIndex b).mapBlockIndex := fun c hc =>
      mem_addToBlockIndex.2 (.inl hc)
    refine ⟨⟨hmem _ h.genesis_mem, fun c hc a ha => ?_, fun c hc => hmem c (h.candidates c (hcand ▸ hc)),
      fun e he => hmem _ (h.unlinked e (hunl ▸ he)), fun c hc => hmem c (h.failed c (hfailed ▸ hc)), hchain ▸ h.follows,
      ?_⟩, hmem, fun c hc hv => by rwa [hold c hc], fun hm c hc => ?_, fun hch c hc hfc => ?_⟩
    · rcases mem_addToBlockIndex.1 hc with hc | rfl
      · exact hmem a (h.closed c hc a ha)
      · exact mem_addToBlockIndex.2 (h.path_subset hb ha)
    · obtain ⟨t, ht, htip⟩ := h.tip_mem
      exact ⟨t, hmem t ht, (congrArg CChain.tip hchain).trans htip⟩
    · rw [hfailed] at hc
      rw [hold c (h.failed c hc)]
      exact hm c hc
    · rcases mem_addToBlockIndex.1 hc with hcm | rfl
      · rw [hold c hcm] at hfc
        obtain ⟨a, ha, hac, hv⟩ := hch c hcm hfc
        exact ⟨a, ha, hac, by rwa [hold a (h.closed c hcm a ha)]⟩
      · rw [index_addToBlockIndex hnew, if_pos rfl] at hfc
        cases hfc

end

lemma failedAncestor_eq_some (h : s.failedAncestor T b l = .ok (some a)) :
    a ∈ l ∧ a ∈ T.path b ∧ (s.index a).failedValid = true := by
  induction l with
  | nil => cases h
  | cons c l ih =>
    simp only [failedAncestor] at h
    split at h
    · rename_i hanc
      split at h
      · rename_i hv
        cases h
        exact ⟨mem_cons_self, (T.forest.ancestorAt_eq_some.1 hanc).1, hv⟩
      · cases h
    · obtain ⟨hmem, hrest⟩ := ih h
      exact ⟨mem_cons_of_mem _ hmem, hrest⟩

/-- `AcceptBlockHeader` does nothing, adds the block, or marks the path from its parent to a failed block. -/
theorem acceptBlockHeader_cases {check r : Bool} (hrun : s.acceptBlockHeader T b check contextual = .ok (r, s')) :
    (s' = s ∧ (r = true → b ∈ s.mapBlockIndex ∧ (s.index b).failed = false)) ∨
    (r = true ∧ b = T.genesis ∧ s' = s.addToBlockIndex b) ∨
    (r = true ∧ b ∉ s.mapBlockIndex ∧ s' = s.addToBlockIndex b ∧ ∃ p ∈ s.mapBlockIndex, T.pprev b = some p ∧
      (s.index p).failed = false ∧ ((s.index p).isValid BLOCK_VALID_SCRIPTS = true ∨
        s.failedAncestor T p s.g_failed_blocks.toList = .ok none)) ∨
    (r = false ∧ ∃ p ∈ s.mapBlockIndex, ∃ failedit ∈ s.g_failed_blocks, failedit ∈ T.path p ∧
      (s.index failedit).failedValid = true ∧
      s' = ((T.path p).takeWhile (· ≠ failedit)).foldl (fun s c => s.modify c failChild) s) := by
  unfold acceptBlockHeader at hrun
  split at hrun
  · rename_i hgen
    cases hrun
    exact .inr (.inl ⟨rfl, hgen, rfl⟩)
  split at hrun
  · rename_i hmem
    rw [Except.ok.injEq, Prod.mk.injEq] at hrun
    obtain ⟨hr, rfl⟩ := hrun
    exact .inl ⟨rfl, fun htrue => ⟨hmem, by rw [htrue] at hr; simpa using hr⟩⟩
  rename_i hnew
  split at hrun
  · cases hrun
    exact .inl ⟨rfl, nofun⟩
  split at hrun
  · cases hrun
    exact .inl ⟨rfl, nofun⟩
  rename_i p hp
  split at hrun
  · cases hrun
    exact .inl ⟨rfl, nofun⟩
  rename_i hpm
  have hpm := not_not.1 hpm
  split at hrun
  · cases hrun
    exact .inl ⟨rfl, nofun⟩
  rename_i hpf
  have hpf := Bool.eq_false_of_not_eq_true hpf
  split at hrun
  · cases hrun
    exact .inl ⟨rfl, nofun⟩
  split at hrun
  · rename_i hscripts
    cases hrun
    exact .inr (.inr (.inl ⟨rfl, hnew, rfl, p, hpm, hp, hpf, .inl hscripts⟩))
  obtain ⟨found, hscan, hrun⟩ := bind_eq_ok.1 hrun
  cases found with
  | none =>
    cases hrun
    exact .inr (.inr (.inl ⟨rfl, hnew, rfl, p, hpm, hp, hpf, .inr hscan⟩))
  | some failedit =>
    cases hrun
    obtain ⟨hmem, hpath, hv⟩ := failedAncestor_eq_some hscan
    exact .inr (.inr (.inr ⟨rfl, p, hpm, failedit, hmem, hpath, hv, rfl⟩))

lemma acceptBlockHeader_accepted {check : Bool} (hrun : s.acceptBlockHeader T b check contextual = .ok (true, s')) :
    s' = s.addToBlockIndex b := by
  rcases acceptBlockHeader_cases hrun with ⟨rfl, hr⟩ | ⟨-, -, rfl⟩ | ⟨-, -, rfl, -⟩ | ⟨hr, -⟩
  · rw [addToBlockIndex, if_pos (hr rfl).1]
  · rfl
  · rfl
  · cases hr

variable {arrival : Arrival}

/-- What `AcceptBlock` does after the header: nothing, mark the block, or take its transactions. -/
theorem acceptBlock_of_header {accepted : Bool} {s₁ : CChainState ι}
    (hhead : s.acceptBlockHeader T b arrival.checkBlockHeader arrival.contextualCheckBlockHeader = .ok (accepted, s₁)) :
    (∃ r, s.acceptBlock T b arrival = .ok (r, s₁)) ∨ (accepted = true ∧ (s₁.index b).haveData = false ∧
      ((arrival.checkBlock = .invalid ∨ T.vtxSize b = 0) ∧
          s.acceptBlock T b arrival = .ok (false, s₁.modify b failValid) ∨
        0 < T.vtxSize b ∧ s.acceptBlock T b arrival = s₁.receivedBlockTransactions T b >>= fun s => .ok (true, s))) := by
  rw [acceptBlock, hhead]
  cases accepted with
  | false => exact .inl ⟨false, rfl⟩
  | true =>
    by_cases hwanted : s₁.wanted T b arrival = true
    swap
    · exact .inl ⟨true, by simp [ok_bind, hwanted, pure, Except.pure]⟩
    have hdata : (s₁.index b).haveData = false := by
      cases hd : (s₁.index b).haveData with
      | false => rfl
      | true => simp [wanted, hd] at hwanted
    simp only [ok_bind, Bool.not_true, Bool.false_eq_true, if_false, hwanted]
    split
    · exact .inl ⟨false, rfl⟩
    · rename_i hverdict
      refine .inr ⟨trivial, hdata, .inl ⟨?_, rfl⟩⟩
      split at hverdict
      · rename_i hempty
        exact .inr hempty.1
      · exact .inl hverdict
    · rename_i hvalid
      refine .inr ⟨trivial, hdata, .inr ⟨Nat.pos_of_ne_zero fun hzero => ?_, rfl⟩⟩
      split at hvalid
      · cases hvalid
      · rename_i hne
        exact hne ⟨hzero, hvalid⟩

end CChainState

end Soferox
