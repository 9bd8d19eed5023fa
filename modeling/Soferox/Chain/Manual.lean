import Soferox.Chain.Activate

/-!
# `InvalidateBlock` and `ResetBlockFailureFlags`

The two manual changes of validity, each with what it does to the whole state.

* `invalidateBlock_ok` — the chain is cut below the block, the blocks that were cut off and the block are marked, and
  what is as good as the new tip is a candidate again (`Invalidated`);
* `resetBlockFailureFlags_ok` — the marks of the block, its descendants and its ancestors are cleared; only the
  descendants leave `g_failed_blocks` and become candidates again (`Reset`).
-/

namespace Soferox

open Lib CBlockIndex List

namespace CChainState

variable {ι : Type} [LinearOrder ι] {T : HeaderTree ι} {s s' : CChainState ι} {b c p t : ι} {l : List ι} {u : ι}
  {i : CBlockIndex}

/-! ## `ResetBlockFailureFlags` -/

lemma clearFailed_of_not_failed (h : i.failed = false) : i.clearFailed = i := by
  obtain ⟨hv, hc⟩ := Bool.or_eq_false_iff.1 h
  cases i
  cases hv
  cases hc
  rfl

variable (T) in
/-- `s'` is `s` after the loops of `ResetBlockFailureFlags` have visited the blocks of `l`, and those of `cleared`. -/
structure ResetLoops (p : ι) (l cleared : List ι) (s s' : CChainState ι) : Prop where
  map : s'.mapBlockIndex = s.mapBlockIndex
  unlinked : s'.mapBlocksUnlinked = s.mapBlocksUnlinked
  sequence : s'.nBlockSequenceId = s.nBlockSequenceId
  chain : s'.chainActive = s.chainActive
  index : ∀ c, s'.index c =
    if (c ∈ l ∧ p ∈ T.path c) ∨ c ∈ cleared then (s.index c).clearFailed else s.index c
  failed : ∀ c, c ∈ s'.g_failed_blocks ↔ c ∈ s.g_failed_blocks ∧
    ¬ (c ∈ l ∧ p ∈ T.path c ∧ (s.index c).isValid BLOCK_VALID_TRANSACTIONS = false)
  candidates : ∀ c, c ∈ s'.setBlockIndexCandidates ↔ c ∈ s.setBlockIndexCandidates ∨
    (c ∈ l ∧ p ∈ T.path c ∧ (s.index c).failed = true ∧ BLOCK_VALID_TRANSACTIONS ≤ (s.index c).nValid ∧
      (s.index c).nChainTx ≠ 0 ∧ ∃ t, s.tip = some t ∧ s.workLess T t c = true)

variable (T) in
/-- What `ResetBlockFailureFlags` does to a state. -/
abbrev Reset (p : ι) (s s' : CChainState ι) : Prop := ResetLoops T p s.mapBlockIndex (T.path p) s s'

omit [LinearOrder ι] in
lemma getAncestor_eq_self_iff : T.getAncestor b (T.nHeight p) = some p ↔ p ∈ T.path b :=
  T.forest.ancestorAt_eq_some.trans (and_iff_left rfl)

/-- The block `b` without marks. -/
def forgive (s : CChainState ι) (b : ι) : CChainState ι :=
  { s.modify b CBlockIndex.clearFailed with g_failed_blocks := s.g_failed_blocks.erase b }

variable (s b c) in
lemma index_forgive :
    (s.forgive b).index c = if c = b then (s.index b).clearFailed else s.index c := index_modify ..

lemma isLinked_forgive : (s.forgive b).isLinked b = true ↔
    BLOCK_VALID_TRANSACTIONS ≤ (s.index b).nValid ∧ (s.index b).nChainTx ≠ 0 := by
  rw [isLinked, index_forgive, if_pos rfl]
  simp only [isValid, CBlockIndex.failed, clearFailed, Bool.and_eq_true, Bool.or_false, Bool.not_false, true_and]
  exact and_congr decide_eq_true_iff decide_eq_true_iff

lemma workLess_forgive (b c d : ι) : (s.forgive b).workLess T c d = s.workLess T c d := by
  have hsame := sameData_modify s b (f := clearFailed) fun i => ⟨rfl, rfl, rfl, rfl, le_rfl⟩
  exact workLess_congr (hsame.nSequenceId c) (hsame.nSequenceId d)

lemma failed_of_isValid {nUpTo : ℕ} (h : i.isValid nUpTo = true) : i.failed = false := by
  rw [isValid, Bool.and_eq_true] at h
  simpa using h.1

/-- Where no block over `p` is invalid nothing changes. -/
lemma ResetLoops.refl (h : ∀ c ∈ l, p ∈ T.path c → (s.index c).isValid BLOCK_VALID_TRANSACTIONS = true) :
    ResetLoops T p l [] s s := by
  refine ⟨rfl, rfl, rfl, rfl, fun c => ?_, fun c => ⟨fun hc => ⟨hc, ?_⟩, And.left⟩,
    fun c => ⟨.inl, fun hc => hc.resolve_right ?_⟩⟩
  · split_ifs with hc
    · obtain ⟨hc, hp⟩ := hc.resolve_right not_mem_nil
      rw [clearFailed_of_not_failed (failed_of_isValid (h c hc hp))]
    · rfl
  · rintro ⟨hl, hp, hinvalid⟩
    cases (h c hl hp).symm.trans hinvalid
  · rintro ⟨hl, hp, hf, -⟩
    cases (failed_of_isValid (h c hl hp)).symm.trans hf

lemma resetDescendant_ok (htip : s.tip = some t) : ∃ s', resetDescendant T p s b = .ok s' ∧
    ResetLoops T p [b] [] s s' := by
  by_cases hcond : (!(s.index b).isValid BLOCK_VALID_TRANSACTIONS && decide (T.getAncestor b (T.nHeight p) = some p)) = true
  swap
  · refine ⟨s, if_neg hcond, .refl fun c hc hp => ?_⟩
    rw [mem_singleton.1 hc] at hp ⊢
    simpa [getAncestor_eq_self_iff, hp] using hcond
  obtain ⟨hinvalid, hpath⟩ : (s.index b).isValid BLOCK_VALID_TRANSACTIONS = false ∧ p ∈ T.path b := by
    simpa [getAncestor_eq_self_iff] using hcond
  have hindex : ∀ c, (s.forgive b).index c =
      if (c ∈ [b] ∧ p ∈ T.path c) ∨ c ∈ [] then (s.index c).clearFailed else s.index c := by
    intro c
    rw [index_forgive]
    by_cases hcb : c = b
    · subst hcb
      simp [hpath]
    · simp [hcb]
  have hfailed : ∀ c, c ∈ (s.forgive b).g_failed_blocks ↔ c ∈ s.g_failed_blocks ∧
      ¬ (c ∈ [b] ∧ p ∈ T.path c ∧ (s.index c).isValid BLOCK_VALID_TRANSACTIONS = false) := by
    intro c
    refine OrdSet.mem_erase.trans ?_
    by_cases hcb : c = b
    · subst hcb
      simp [hpath, hinvalid]
    · simp [hcb]
  have hstep : resetDescendant T p s b = if (s.forgive b).isLinked b then
      .ok (if s.workLess T t b then (s.forgive b).insertCandidate b else s.forgive b) else .ok (s.forgive b) := by
    have htip' : ∀ x, CChainState.tip { s.modify b clearFailed with g_failed_blocks := x } = some t :=
      fun _ => htip
    rw [resetDescendant, if_pos hcond, ← workLess_forgive b t b]
    simp only [htip']
    rfl
  by_cases hlinked : BLOCK_VALID_TRANSACTIONS ≤ (s.index b).nValid ∧ (s.index b).nChainTx ≠ 0
  · rw [if_pos (isLinked_forgive.2 hlinked)] at hstep
    have hf : (s.index b).failed = true := by
      by_contra hnf
      simp [isValid, hnf, hlinked.1] at hinvalid
    by_cases hbetter : s.workLess T t b = true
    · rw [if_pos hbetter] at hstep
      refine ⟨_, hstep, rfl, rfl, rfl, rfl, hindex, hfailed, fun c => mem_insertCandidate.trans ?_⟩
      constructor
      · rintro (rfl | hc)
        · exact .inr ⟨mem_singleton_self _, hpath, hf, hlinked.1, hlinked.2, t, htip, hbetter⟩
        · exact .inl hc
      · rintro (hc | ⟨hc, -⟩)
        · exact .inr hc
        · exact .inl (mem_singleton.1 hc)
    · rw [if_neg hbetter] at hstep
      refine ⟨_, hstep, rfl, rfl, rfl, rfl, hindex, hfailed, fun c => ⟨.inl, fun hc => hc.resolve_right ?_⟩⟩
      rintro ⟨hc', -, -, -, -, t', ht', hless'⟩
      cases htip.symm.trans ht'
      exact hbetter (mem_singleton.1 hc' ▸ hless')
  · rw [if_neg (mt isLinked_forgive.1 hlinked)] at hstep
    refine ⟨_, hstep, rfl, rfl, rfl, rfl, hindex, hfailed, fun c => ⟨.inl, fun hc => hc.resolve_right ?_⟩⟩
    rintro ⟨hc', -, -, hl, hn, -⟩
    rw [mem_singleton.1 hc'] at hl hn
    exact hlinked ⟨hl, hn⟩

section

variable {m : List ι} (h : ResetLoops T p l m s s')
include h

lemma ResetLoops.tip : s'.tip = s.tip := congrArg CChain.tip h.chain

lemma ResetLoops.sameData : SameData s s' := by
  refine ⟨h.map, h.unlinked, fun c => ?_, fun c => ?_, fun c => ?_, fun c => ?_, fun c => ?_⟩ <;> rw [h.index] <;> split <;>
    rfl

lemma ResetLoops.workLess (b c : ι) : s'.workLess T b c = s.workLess T b c :=
  workLess_congr (h.sameData.nSequenceId b) (h.sameData.nSequenceId c)

end

lemma ResetLoops.cons {s₁ : CChainState ι} (h₁ : ResetLoops T p [b] [] s s₁) (h : ResetLoops T p l [] s₁ s') :
    ResetLoops T p (b :: l) [] s s' := by
  have hne : ∀ c, c ≠ b → s₁.index c = s.index c := fun c hc => by
    rw [h₁.index, if_neg fun hcb => hc (mem_singleton.1 (hcb.resolve_right not_mem_nil).1)]
  have hself : p ∈ T.path b → s₁.index b = (s.index b).clearFailed := fun hp => by
    rw [h₁.index, if_pos (.inl ⟨mem_singleton_self _, hp⟩)]
  refine ⟨h.map.trans h₁.map, h.unlinked.trans h₁.unlinked, h.sequence.trans h₁.sequence, h.chain.trans h₁.chain,
    fun c => ?_, fun c => ?_, fun c => ?_⟩
  · rw [h.index]
    by_cases hcb : c = b
    · subst hcb
      by_cases hp : p ∈ T.path c
      · rw [hself hp]
        simp [hp, clearFailed]
      · rw [h₁.index]
        simp [hp]
    · rw [hne c hcb]
      simp [hcb]
  · rw [h.failed, h₁.failed]
    by_cases hcb : c = b
    · subst hcb
      by_cases hp : p ∈ T.path c
      · cases hv : (s.index c).isValid BLOCK_VALID_TRANSACTIONS with
        | false => simp [hp]
        | true =>
          rw [hself hp, clearFailed_of_not_failed (failed_of_isValid hv), hv]
          simp
      · simp [hp]
    · rw [hne c hcb]
      simp [hcb]
  · rw [h.candidates, h₁.candidates, h₁.tip]
    simp only [h₁.workLess]
    by_cases hcb : c = b
    · subst hcb
      by_cases hp : p ∈ T.path c
      · rw [hself hp]
        simp [clearFailed, CBlockIndex.failed]
      · simp [hp]
    · rw [hne c hcb]
      simp [hcb]

lemma foldlM_resetDescendant (l : List ι) (htip : s.tip = some t) :
    ∃ s', l.foldlM (resetDescendant T p) s = .ok s' ∧ ResetLoops T p l [] s s' := by
  induction l generalizing s with
  | nil => exact ⟨s, rfl, .refl fun c hc => absurd hc not_mem_nil⟩
  | cons b l ih =>
    obtain ⟨s₁, h₁, hloop₁⟩ := resetDescendant_ok htip
    obtain ⟨s', h', hloop'⟩ := ih (hloop₁.tip.trans htip)
    exact ⟨s', by rw [foldlM_cons, h₁]; exact h', hloop₁.cons hloop'⟩

variable (s l) in
lemma foldl_clearFailed : ∃ g,
    l.foldl (fun s b => if (s.index b).failed then s.modify b clearFailed else s) s = { s with index := g } ∧
      ∀ c, g c = if c ∈ l then (s.index c).clearFailed else s.index c := by
  have hstep : (fun (s : CChainState ι) b => if (s.index b).failed then s.modify b clearFailed else s) =
      fun s b => s.modify b clearFailed := by
    funext s b
    split_ifs with hf
    · rfl
    · rw [modify, clearFailed_of_not_failed (Bool.eq_false_of_not_eq_true hf), Function.update_eq_self]
  rw [hstep]
  exact foldl_modify (f := clearFailed) (fun _ => rfl) s l

lemma resetBlockFailureFlags_ok (htip : s.tip = some t) (p : ι) :
    ∃ s', s.resetBlockFailureFlags T p = .ok s' ∧ Reset T p s s' := by
  obtain ⟨s₁, h₁, hloop⟩ := foldlM_resetDescendant s.mapBlockIndex htip
  obtain ⟨f, hf, hfc⟩ := foldl_clearFailed s₁ (T.path p)
  refine ⟨_, by rw [resetBlockFailureFlags, h₁]; rfl, ?_⟩
  rw [hf]
  refine { hloop with index := fun c => (hfc c).trans ?_ }
  rw [hloop.index]
  by_cases hcp : c ∈ T.path p
  · by_cases hc : c ∈ s.mapBlockIndex ∧ p ∈ T.path c <;> simp [hc, clearFailed]
  · simp [hcp]

section

variable (h : Reset T p s s')
include h

lemma Reset.wf (hwf : s.WellFormed T) : s'.WellFormed T := by
  obtain ⟨t, ht, htip⟩ := hwf.tip_mem
  exact hwf.moved h.map (fun c hc => ((h.candidates c).1 hc).elim (hwf.candidates c) And.left) h.unlinked
    (fun c hc => hwf.failed c ((h.failed c).1 hc).1) (h.chain ▸ hwf.follows.isPathOf htip) ht

lemma Reset.linked (hl : s.Linked T) : s'.Linked T :=
  hl.of_sameData h.sameData
    (fun c hc => ((h.candidates c).1 hc).elim (hl.candidates c) fun hc => hc.2.2.2.2.1) fun t ht => hl.active t (h.tip ▸ ht)

end

/-! ## `InvalidateBlock` -/

variable (s u) in
lemma readmit_spec : ∃ l, s.readmit T u = { s with setBlockIndexCandidates := l } ∧
    ∀ c, c ∈ l ↔ c ∈ s.setBlockIndexCandidates ∨
      (c ∈ s.mapBlockIndex ∧ s.isLinked c = true ∧ s.workKey T u ≤ s.workKey T c) := by
  have hloop : ∀ (known : List ι) (s : CChainState ι), ∃ l, known.foldl (fun s b =>
      if s.isLinked b && !s.workLess T b u then s.insertCandidate b else s) s = { s with setBlockIndexCandidates := l } ∧
      ∀ c, c ∈ l ↔ c ∈ s.setBlockIndexCandidates ∨
        (c ∈ known ∧ s.isLinked c = true ∧ s.workKey T u ≤ s.workKey T c) := by
    intro known
    induction known with
    | nil => exact fun s => ⟨s.setBlockIndexCandidates, rfl, fun c => (or_iff_left fun hc => not_mem_nil hc.1).symm⟩
    | cons b known ih =>
      intro s
      rw [foldl_cons]
      split_ifs with hb
      · rw [Bool.and_eq_true, Bool.not_eq_true', workLess_eq_false] at hb
        obtain ⟨l, hl, hmem⟩ := ih (s.insertCandidate b)
        refine ⟨l, hl, fun c => ?_⟩
        rw [hmem, mem_insertCandidate, mem_cons]
        exact collect_iff fun hc => hc ▸ hb
      · rw [Bool.and_eq_true, Bool.not_eq_true', workLess_eq_false] at hb
        obtain ⟨l, hl, hmem⟩ := ih s
        refine ⟨l, hl, fun c => ?_⟩
        rw [hmem, mem_cons]
        exact skip_iff fun hc hrest => hb (hc ▸ hrest)
  exact hloop s.mapBlockIndex s

variable (T) in
/-- What `InvalidateBlock` does to a state with tip `t`, leaving `u` as the tip. -/
structure Invalidated (p t u : ι) (s s' : CChainState ι) : Prop where
  below : u ∈ T.path t
  not_mem : p ∉ T.path u
  index : ∀ c, s'.index c =
    let i := if c ∈ T.path t ∧ p ∈ T.path c ∧ p ≠ c then (s.index c).failChild else s.index c
    if c = p then i.failValid else i
  candidates : ∀ c, c ∈ s'.setBlockIndexCandidates ↔
    (c ∈ s.setBlockIndexCandidates ∧ c ≠ p ∧ ¬ (c ∈ T.path t ∧ p ∈ T.path c)) ∨
      (c ∈ s.mapBlockIndex ∧ s'.isLinked c = true ∧ s'.workKey T u ≤ s'.workKey T c)
  map : s'.mapBlockIndex = s.mapBlockIndex
  unlinked : s'.mapBlocksUnlinked = s.mapBlocksUnlinked
  failed : ∀ c, c ∈ s'.g_failed_blocks ↔ c = p ∨ c ∈ s.g_failed_blocks
  chain : s'.chainActive.IsPathOf T.toBlockTree u

/-- The marks and the candidates once the chain is cut at `u`. -/
theorem invalidated_readmit {walk : List ι} (hu : u ∈ T.path t) (hp : p ∉ T.path u)
    (hwalk : ∀ c, c ∈ walk ↔ c ∈ T.path t ∧ p ∈ T.path c ∧ p ≠ c) :
    Invalidated T p t u s <| readmit T ((s.atTip T u).failBranch walk p) u := by
  obtain ⟨hmap, hunl, -, hfailed, hchain, -, hcand⟩ := (s.atTip T u).failDisconnected_spec walk
  obtain ⟨l, hl, hmem⟩ := readmit_spec ((s.atTip T u).failBranch walk p) u
  rw [hl]
  refine ⟨hu, hp, fun c => ?_, fun c => (hmem c).trans (or_congr ?_ ?_), hmap, hunl, fun c => ?_, ?_⟩
  · refine (index_failBranch (s.atTip T u) walk p c).trans ?_
    rw [if_congr (hwalk c) rfl rfl]
    rfl
  · refine mem_eraseCandidate.trans ?_
    refine (and_congr_left' (hcand c)).trans ?_
    rw [hwalk]
    constructor
    · rintro ⟨⟨hc, hnot⟩, hne⟩
      exact ⟨hc, hne, fun hcut => hnot ⟨hcut.1, hcut.2, hne.symm⟩⟩
    · rintro ⟨hc, hne, hnot⟩
      exact ⟨⟨hc, fun hcut => hnot ⟨hcut.1, hcut.2.1⟩⟩, hne⟩
  · rw [show ((s.atTip T u).failBranch walk p).mapBlockIndex = s.mapBlockIndex from hmap]
    rfl
  · refine OrdSet.mem_insert.trans (or_congr_right ?_)
    show c ∈ ((s.atTip T u).failDisconnected walk).g_failed_blocks ↔ _
    rw [hfailed]
    rfl
  · show ((s.atTip T u).failDisconnected walk).chainActive.IsPathOf _ u
    rw [hchain]
    rfl

lemma invalidateBlock_ok (hwf : s.WellFormed T) (ht : s.tip = some t) (p : ι) :
    s.invalidateBlock T p = .ok (false, s.atTip T T.genesis) ∨
      ∃ u s', s.invalidateBlock T p = .ok (true, s') ∧ Invalidated T p t u s s' := by
  have hpath := hwf.follows.isPathOf ht
  have hstop : ∀ d, (!(s.atTip T d).isActive T p) = true ↔ p ∉ T.path d := fun d => by
    rw [Bool.not_eq_true', ← Bool.not_eq_true]
    exact not_congr (s.isPathOf_atTip d).contains_iff
  have hlen : s.chainActive.vChain.length = T.nHeight t + 1 := hpath.length
  -- once the chain is cut, the rest is the same in both cases
  have hrest : ∀ u walk, u ∈ T.path t → p ∉ T.path u → (∀ c, c ∈ walk ↔ c ∈ T.path t ∧ p ∈ T.path c ∧ p ≠ c) →
      (if s.isActive T p then (s.tip.elim [] T.path).takeWhile (· ≠ p) else []) = walk →
      disconnectUntil T (fun s => !s.isActive T p) s.chainActive.vChain.length s = .ok (true, s.atTip T u) →
      ∃ u s', s.invalidateBlock T p = .ok (true, s') ∧ Invalidated T p t u s s' := by
    intro u walk hu hpu hwalk hdef hdis
    have hinv := invalidated_readmit (s := s) hu hpu hwalk
    have htip : ((s.atTip T u).failBranch walk p).tip = some u :=
      (congrArg CChain.tip ((s.atTip T u).failDisconnected_spec walk).2.2.2.2.1).trans (tip_atTip s u)
    refine ⟨u, _, ?_, hinv⟩
    rw [invalidateBlock]
    simp only [hdis, hdef, ok_bind, if_true, htip]
  by_cases hpt : p ∈ T.path t
  · have hact : s.isActive T p = true := (hwf.isActive_iff ht).2 hpt
    cases hq : T.pprev p with
    | none =>
      -- the genesis block stays active
      obtain rfl := (T.pprev_eq_none p).1 hq
      have hdis := disconnectUntil_genesis (fun s => !s.isActive T T.genesis) hwf ht
        (fun d _ => Bool.eq_false_of_not_eq_true fun hd => (hstop d).1 hd (genesis_mem_path T d))
        (show T.nHeight t < s.chainActive.vChain.length by omega)
      left
      rw [invalidateBlock]
      simp only [hdis, ok_bind]
      rfl
    | some q =>
      have hheight : T.nHeight p = T.nHeight q + 1 := T.forest.depth_of_parent hq
      have hqp : p ∉ T.path q := fun hmem => by
        have hle : T.nHeight p ≤ T.nHeight q := T.forest.depth_le_of_mem_path hmem
        omega
      have hqt : q ∈ T.path t := T.forest.path_trans hpt (T.forest.parent_mem_path hq)
      refine .inr (hrest q _ hqt hqp (fun c => T.forest.mem_takeWhile_path hpt) ?_ ?_)
      · rw [if_pos hact, ht]
        rfl
      · refine disconnectUntil_ok _ hwf ht hqt ((hstop q).2 hqp) (fun d hd hqd hne => ?_) (by omega)
        refine Bool.eq_false_of_not_eq_true fun hd' => (hstop d).1 hd' ?_
        have hlt : T.nHeight q < T.nHeight d := T.forest.depth_lt_of_mem_path hqd hne
        exact T.forest.mem_path_of_depth_le hd hpt (show T.nHeight p ≤ T.nHeight d by omega)
  · have hact : ¬ s.isActive T p = true := fun hact => hpt ((hwf.isActive_iff ht).1 hact)
    refine .inr (hrest t [] (T.forest.self_mem_path t) hpt (fun c => ?_) (if_neg hact) ?_)
    · exact ⟨nofun, fun hc => absurd (T.forest.path_trans hc.1 hc.2.1) hpt⟩
    · rw [hwf.eq_atTip ht]
      exact disconnectUntil_stop (by simpa using hact) _

lemma Invalidated.sameData (h : Invalidated T p t u s s') : SameData s s' := by
  refine ⟨h.map, h.unlinked, fun c => ?_, fun c => ?_, fun c => ?_, fun c => ?_, fun c => ?_⟩ <;> rw [h.index] <;>
    dsimp only <;> split_ifs <;> rfl

omit [LinearOrder ι] in
lemma isLinked_iff : s.isLinked b = true ↔
    (s.index b).failed = false ∧ BLOCK_VALID_TRANSACTIONS ≤ (s.index b).nValid ∧ (s.index b).nChainTx ≠ 0 := by
  rw [isLinked, isValid, Bool.and_eq_true, Bool.and_eq_true, Bool.not_eq_true', and_assoc]
  exact and_congr_right' (and_congr decide_eq_true_iff decide_eq_true_iff)

lemma Invalidated.linked (h : Invalidated T p t u s s') (hl : s.Linked T) (ht : s.tip = some t) : s'.Linked T := by
  refine hl.of_sameData h.sameData (fun c hc => ?_) fun v hv => ?_
  · rcases (h.candidates c).1 hc with hc | ⟨-, hc, -⟩
    · exact hl.candidates c hc.1
    · rw [← h.sameData.nChainTx]
      exact (isLinked_iff.1 hc).2.2
  · cases h.chain.tip.symm.trans hv
    exact hl.path (hl.active t ht) u h.below

end CChainState

end Soferox
