import Soferox.Chain.Manual
import Soferox.Lib.Runs

/-!
# Failure flags over whole runs

`ResetBlockFailureFlags` clears the marks of a block, its descendants and its ancestors. It forgets the descendants in
`g_failed_blocks` but not the ancestors, and it leaves the marks of the blocks that branch off below the block alone.
`Reset.keepsFailedMarked_iff` and `Reset.keepsChildBelowFailed_iff` say when the two invariants of `Chain/FailureFlags` survive
that; everything else keeps them.

* `ChainOp.run` — the calls that change the chain state; `run_ok` — the only assertion that can fail is the one in the
  scan of `g_failed_blocks`;
* `failedMarked_iff`, `childBelowFailed_iff` — a run from start-up keeps each invariant if and only if its calls of
  `ResetBlockFailureFlags` meet the condition.
-/

namespace Soferox

open Lib CBlockIndex List Function

namespace CChainState

variable {ι : Type} [LinearOrder ι] {T : HeaderTree ι} {s s' : CChainState ι} {b c p : ι} {check contextual : Bool}
  {r : Bool} {t : ι}

/-! ## Start-up -/

section

variable (T)

lemma loadGenesisBlock_eq : loadGenesisBlock T = .ok { started T with chainActive := ⟨[]⟩ } := by
  have hprev : T.pprev T.genesis = none := (T.pprev_eq_none _).2 rfl
  have hadd : empty.addToBlockIndex T.genesis = { empty with
      mapBlockIndex := [T.genesis]
      index := Function.update (fun _ => .null) T.genesis (null.raiseValidity BLOCK_VALID_TREE) } :=
    if_neg not_mem_nil
  rw [loadGenesisBlock, hadd, receivedBlockTransactions]
  simp only [modify, hprev, linkQueue, linkBlock]
  simp [started]
  rfl

lemma startUp_eq : startUp T = .ok (started T) := by
  have hprev : T.pprev T.genesis = none := (T.pprev_eq_none _).2 rfl
  have hpath : T.path T.genesis = [T.genesis] := T.forest.path_of_root hprev
  have hheight : T.nHeight T.genesis = 0 := T.forest.depth_of_root hprev
  have hanc : T.getAncestor T.genesis 0 = some T.genesis := by
    rw [← hheight]
    exact T.forest.ancestorAt_self _
  rw [startUp, loadGenesisBlock_eq]
  set s₀ : CChainState ι := { started T with chainActive := ⟨[]⟩ } with hs₀
  have htip : s₀.tip = none := rfl
  have htip' : (started T).tip = some T.genesis := rfl
  have hpick : pickTarget T none s₀ = .ok (some T.genesis, s₀) := by
    show findMostWorkChain T 2 s₀ = _
    rw [findMostWorkChain]
    simp [lastCandidate, hs₀, started, firstUnusable, hpath, hheight, failed, bind, Except.bind, pure, Except.pure]
  have hset : s₀.setTip T (some T.genesis) = started T := by
    simp [setTip, CChain.setTip, CChain.resize, CChain.fill, hs₀, started, hheight, hpath]
  have hprune : (started T).pruneBlockIndexCandidates T = .ok (started T) := by
    have hself : (started T).workLess T T.genesis T.genesis = false := workLess_eq_false.2 le_rfl
    have hkept : (started T).setBlockIndexCandidates.filter (fun c => !(started T).workLess T c T.genesis) =
        [T.genesis] := filter_cons_of_pos (by rw [hself]; rfl)
    rw [pruneBlockIndexCandidates_ok htip' (mem_singleton_self _) le_rfl, hkept]
    rfl
  have hconn : connectBlocks T none [T.genesis] s₀ = .ok (.better, started T) := by
    simp [connectBlocks, connectTip, hprev, htip, T.connectBlock_genesis, hset, hprune, ok_bind, pure, Except.pure]
  have hbatch : connectBatches T none T.genesis 1 (-1) s₀ = .ok (.better, started T) := by
    unfold connectBatches
    simp [hheight, hanc, hpath, hconn, ok_bind, pure, Except.pure]
  have hstep : s₀.activateBestChainStep T T.genesis = .ok (true, false, started T) := by
    have hfork : s₀.chainActive.findFork T.toBlockTree T.genesis = none := rfl
    rw [activateBestChainStep, htip, hfork, disconnectUntil_stop (by simp [htip])]
    simp [hheight, hbatch, ok_bind, pure, Except.pure]
  have hact : s₀.activateBestChain T (fun _ => false) = .ok (true, started T) := by
    have hfuel : (s₀.mapBlockIndex.length + 1) * (s₀.mapBlockIndex.length + 2) = 5 + 1 := rfl
    rw [activateBestChain, hfuel, activateLoop_succ, hpick]
    simp [climbTo, htip, hstep, htip', ok_bind, pure, Except.pure]
  simp [hact, ok_bind, pure, Except.pure]

lemma isPathOf_started : (started T).chainActive.IsPathOf T.toBlockTree T.genesis := by
  show [some T.genesis] = _
  rw [show T.path T.genesis = [T.genesis] from T.forest.path_of_root ((T.pprev_eq_none _).2 rfl)]
  rfl

lemma wellFormed_started : (started T).WellFormed T := by
  refine ⟨mem_singleton_self _, fun b hb a ha => ?_, fun _ hb => hb, nofun, fun b hb => absurd hb ?_,
    .inr ⟨_, isPathOf_started T⟩, ⟨T.genesis, mem_singleton_self _, (isPathOf_started T).tip⟩⟩
  · have hpath : T.path T.genesis = [T.genesis] := T.forest.path_of_root ((T.pprev_eq_none _).2 rfl)
    rw [mem_singleton.1 hb, hpath] at ha
    exact ha
  · exact OrdSet.not_mem_empty b

lemma index_started (c : ι) : (started T).index c =
    if c = T.genesis then ⟨BLOCK_VALID_TRANSACTIONS, true, false, false, T.vtxSize T.genesis, T.vtxSize T.genesis, 1⟩
    else .null := by
  simp [started, update_apply]

lemma linked_started : (started T).Linked T := by
  have hpos := T.vtxSize_genesis.ne'
  have hgen : ∀ c, ((started T).index c).haveData = true → c = T.genesis := fun c hc => by
    by_contra hne
    rw [index_started, if_neg hne] at hc
    cases hc
  have hgen' : ∀ c, ((started T).index c).nChainTx ≠ 0 → c = T.genesis := fun c hc => by
    by_contra hne
    rw [index_started, if_neg hne] at hc
    exact hc rfl
  have hself := index_started T T.genesis
  rw [if_pos rfl] at hself
  refine ⟨fun c hc => ?_, fun c p hc hp => ?_, fun c hc => ?_, fun c hc => ?_, fun c hc => ?_, fun c hc => ?_, fun t ht => ?_,
    nodup_nil, nofun, nofun, nofun⟩
  · rw [hgen' c hc, hself]
  · rw [hgen' c hc, (T.pprev_eq_none _).2 rfl] at hp
    cases hp
  · rw [hgen c hc, hself]
    exact ⟨hpos, le_rfl⟩
  · exact mem_singleton.2 (hgen c hc)
  · rw [mem_singleton.1 hc, hself]
    exact (by decide : BLOCK_VALID_TREE ≤ BLOCK_VALID_TRANSACTIONS)
  · rw [mem_singleton.1 hc, hself]
    exact hpos
  · cases (isPathOf_started T).tip.symm.trans ht
    rw [hself]
    exact hpos

end

/-! ## New headers and blocks -/

lemma failedAncestor_cases {l : List ι} : (∃ r, s.failedAncestor T b l = .ok r) ∨
    s.failedAncestor T b l = .error .assertion ∧ ∃ a ∈ l, (s.index a).failedValid = false := by
  induction l with
  | nil => exact .inl ⟨none, rfl⟩
  | cons a l ih =>
    rw [failedAncestor]
    split
    · cases hv : (s.index a).failedValid with
      | true => exact .inl ⟨some a, rfl⟩
      | false => exact .inr ⟨rfl, a, mem_cons_self, hv⟩
    · refine ih.imp_right ?_
      rintro ⟨herr, c, hc, hv⟩
      exact ⟨herr, c, mem_cons_of_mem _ hc, hv⟩

variable (s b check contextual) in
/-- `AcceptBlockHeader` fails only in its scan of `g_failed_blocks`, at a block that is not marked. -/
theorem acceptBlockHeader_ok_or : (∃ r s', s.acceptBlockHeader T b check contextual = .ok (r, s')) ∨
    s.acceptBlockHeader T b check contextual = .error .assertion ∧ ¬ s.FailedMarked := by
  unfold acceptBlockHeader
  split
  · exact .inl ⟨_, _, rfl⟩
  split
  · exact .inl ⟨_, _, rfl⟩
  split
  · exact .inl ⟨_, _, rfl⟩
  split
  · exact .inl ⟨_, _, rfl⟩
  rename_i p hp
  split
  · exact .inl ⟨_, _, rfl⟩
  split
  · exact .inl ⟨_, _, rfl⟩
  split
  · exact .inl ⟨_, _, rfl⟩
  split
  · exact .inl ⟨_, _, rfl⟩
  rcases failedAncestor_cases (T := T) (s := s) (b := p) (l := s.g_failed_blocks.toList) with
    ⟨r, hr⟩ | ⟨herr, a, ha, hv⟩
  · left
    rw [hr]
    cases r with
    | none => exact ⟨_, _, rfl⟩
    | some a => exact ⟨_, _, rfl⟩
  · right
    rw [herr]
    refine ⟨rfl, fun hm => ?_⟩
    cases (hm a ha).symm.trans hv

lemma found_markPath (hab : a ∈ T.path b) (hfailed : (s.index a).failed = true) :
    Found T s (((T.path b).takeWhile (· ≠ a)).foldl (fun s c => s.modify c failChild) s) := by
  obtain ⟨g, hg, hgc⟩ := foldl_modify (f := failChild) (fun _ => rfl) s ((T.path b).takeWhile (· ≠ a))
  rw [hg]
  refine ⟨fun c => ?_, fun _ hc => hc, fun _ hc hnc => absurd hc hnc, rfl, rfl, rfl, rfl⟩
  refine (em (c ∈ (T.path b).takeWhile (· ≠ a))).symm.imp (fun hc => (hgc c).trans (if_neg hc)) fun hc => ?_
  obtain ⟨-, hac, hne⟩ := (T.forest.mem_takeWhile_path hab).1 hc
  exact ⟨(hgc c).trans (if_pos hc), a, hac, hne, hfailed⟩

/-- What the header does to the state: it is added above a known block, or no more than marks change. -/
theorem acceptBlockHeader_found (hrun : s.acceptBlockHeader T b check contextual = .ok (r, s')) :
    (s' = s.addToBlockIndex b ∧ (b = T.genesis ∨ ∃ p ∈ s.mapBlockIndex, T.pprev b = some p)) ∨ Found T s s' := by
  rcases acceptBlockHeader_cases hrun with ⟨rfl, -⟩ | ⟨-, hgen, rfl⟩ | ⟨-, -, rfl, p, hpm, hp, -⟩ |
    ⟨-, p, -, a, -, hap, hv, rfl⟩
  · exact .inr (.refl s')
  · exact .inl ⟨rfl, .inl hgen⟩
  · exact .inl ⟨rfl, .inr ⟨p, hpm, hp⟩⟩
  · exact .inr (found_markPath hap ((failed_eq_true _).2 (.inl hv)))

lemma linked_acceptBlockHeader (hl : s.Linked T)
    (hrun : s.acceptBlockHeader T b check contextual = .ok (r, s')) : s'.Linked T := by
  rcases acceptBlockHeader_found hrun with ⟨rfl, -⟩ | hfound
  · exact hl.addToBlockIndex b
  · exact hfound.linked hl

section

variable (hwf : s.WellFormed T)
include hwf

omit [LinearOrder ι] in
lemma Found.kept (h : Found T s s') : Kept T s s' := by
  refine Grows.kept ⟨h.map, fun c hc => ?_, fun c _ hc => ?_, fun c hc => .inl (h.failed ▸ hc),
    fun c hc => .inl (h.candidates c hc), fun e he => .inl (h.unlinked ▸ he), fun hf => h.chain ▸ hf, .inl h.tip⟩ hwf
  · rcases h.index c with heq | ⟨heq, -⟩ <;> rw [heq] <;> exact hc
  · rcases h.index c with heq | ⟨-, a, ha, hac, hfailed⟩
    · exact .inl (heq ▸ hc)
    · exact .inr ⟨a, ha, hac, .inl hfailed⟩

lemma kept_acceptBlockHeader (hrun : s.acceptBlockHeader T b check contextual = .ok (r, s')) : Kept T s s' := by
  rcases acceptBlockHeader_found hrun with ⟨rfl, hb⟩ | hfound
  · exact kept_addToBlockIndex hwf hb
  · exact hfound.kept hwf

omit [LinearOrder ι] in
lemma Linked.genesis (hl : s.Linked T) : (s.index T.genesis).haveData = true := by
  obtain ⟨t, -, ht⟩ := hwf.tip_mem
  exact hl.data _ (hl.path (hl.active t ht) _ (genesis_mem_path T t))

lemma arrives_of_accepted (hl : s.Linked T)
    (hrun : s.acceptBlockHeader T b check contextual = .ok (true, s')) (hdata : (s'.index b).haveData = false)
    (hsize : 0 < T.vtxSize b) : Arrives T s' b := by
  refine ⟨acceptBlockHeader_accepted hrun ▸ mem_addToBlockIndex.2 (.inr rfl), ?_, hdata, hsize⟩
  rcases acceptBlockHeader_cases hrun with ⟨rfl, hr⟩ | ⟨-, rfl, rfl⟩ | ⟨-, hnew, rfl, -⟩ | ⟨hr, -⟩
  · exact (hr rfl).2
  · cases ((linked_acceptBlockHeader hl hrun).genesis (kept_acceptBlockHeader hwf hrun).wf).symm.trans hdata
  · rw [index_addToBlockIndex hnew, if_pos rfl]
    rfl
  · cases hr

end

/-! ## Calls -/

/-- A call that changes the chain state. -/
inductive ChainOp (ι : Type) where
  | acceptBlockHeader (hash : ι) (checkBlockHeader contextualCheckBlockHeader : Bool)
  | acceptBlock (hash : ι) (arrival : Arrival)
  /-- `InvalidBlockFound`, for a block for which `ConnectTip` fails -/
  | invalidBlockFound (pindex : ι)
  | findMostWorkChain
  | activateBestChain (shutdownRequested : ℕ → Bool)
  | invalidateBlock (pindex : ι)
  | resetBlockFailureFlags (pindex : ι)

variable (T) in
/-- The state after a call; the calls that take a block index are made for known blocks. -/
def ChainOp.run (s : CChainState ι) : ChainOp ι → Except ChainError (CChainState ι)
  | .acceptBlockHeader hash check contextual => Prod.snd <$> s.acceptBlockHeader T hash check contextual
  | .acceptBlock hash arrival => Prod.snd <$> s.acceptBlock T hash arrival
  | .invalidBlockFound pindex => if pindex ∈ s.mapBlockIndex then s.invalidBlockFound pindex else .ok s
  | .findMostWorkChain => Prod.snd <$> CChainState.findMostWorkChain T (s.setBlockIndexCandidates.length + 1) s
  | .activateBestChain shutdownRequested => Prod.snd <$> s.activateBestChain T shutdownRequested
  | .invalidateBlock pindex => if pindex ∈ s.mapBlockIndex then Prod.snd <$> s.invalidateBlock T pindex else .ok s
  | .resetBlockFailureFlags pindex => if pindex ∈ s.mapBlockIndex then s.resetBlockFailureFlags T pindex else .ok s

omit [LinearOrder ι] in
lemma map_snd_eq_ok {x : Except ChainError (β × CChainState ι)} : Prod.snd <$> x = .ok s ↔ ∃ r, x = .ok (r, s) := by
  cases x with
  | error e => exact ⟨nofun, nofun⟩
  | ok v =>
    obtain ⟨r, s₁⟩ := v
    constructor
    · intro h
      cases h
      exact ⟨r, rfl⟩
    · rintro ⟨r', h⟩
      cases h
      rfl

variable (T) in
/-- What a call that returns has done to the state. -/
inductive ChainOp.Ran (s : CChainState ι) : ChainOp ι → CChainState ι → Prop
  | idle (op : ChainOp ι) : Ran s op s
  | header (op : ChainOp ι) {hash : ι} {check contextual r : Bool} {s' : CChainState ι} :
      s.acceptBlockHeader T hash check contextual = .ok (r, s') → Ran s op s'
  | malformed {hash : ι} {arrival : Arrival} {s₁ : CChainState ι} :
      s.acceptBlockHeader T hash arrival.checkBlockHeader arrival.contextualCheckBlockHeader = .ok (true, s₁) →
      (arrival.checkBlock = .invalid ∨ T.vtxSize hash = 0) → (s₁.index hash).haveData = false →
      Ran s (.acceptBlock hash arrival) (s₁.modify hash CBlockIndex.failValid)
  | received {hash : ι} {arrival : Arrival} {s₁ s' : CChainState ι} :
      s.acceptBlockHeader T hash arrival.checkBlockHeader arrival.contextualCheckBlockHeader = .ok (true, s₁) →
      Arrives T s₁ hash → Received T hash s₁ s' → s'.Linked T → Ran s (.acceptBlock hash arrival) s'
  | rejected {p : ι} : p ∈ s.mapBlockIndex → Ran s (.invalidBlockFound p) (s.reject p)
  | found {s' : CChainState ι} : Found T s s' → Ran s .findMostWorkChain s'
  | activated {shutdown : ℕ → Bool} {s' : CChainState ι} : Activated T s s' → Ran s (.activateBestChain shutdown) s'
  | undone {p : ι} : Ran s (.invalidateBlock p) (s.atTip T T.genesis)
  | invalidated {p t u : ι} {s' : CChainState ι} : p ∈ s.mapBlockIndex → s.tip = some t → Invalidated T p t u s s' →
      Ran s (.invalidateBlock p) s'
  | reset {p : ι} {s' : CChainState ι} : p ∈ s.mapBlockIndex → Reset T p s s' → Ran s (.resetBlockFailureFlags p) s'

section

variable (hwf : s.WellFormed T) (hl : s.Linked T)
include hwf hl

/-- What `AcceptBlock` can do: what the header does, then nothing, a mark, or the arrival of the data. -/
theorem acceptBlock_ok {accepted : Bool} {arrival : Arrival} {s₁ : CChainState ι}
    (hhead : s.acceptBlockHeader T b arrival.checkBlockHeader arrival.contextualCheckBlockHeader = .ok (accepted, s₁)) :
    ∃ r s', s.acceptBlock T b arrival = .ok (r, s') ∧ ChainOp.Ran T s (.acceptBlock b arrival) s' := by
  rcases acceptBlock_of_header hhead with ⟨r, hr⟩ | ⟨rfl, hdata, ⟨hverdict, hr⟩ | ⟨hsize, hr⟩⟩
  · exact ⟨r, s₁, hr, .header _ hhead⟩
  · exact ⟨_, _, hr, .malformed hhead hverdict hdata⟩
  · have harr := arrives_of_accepted hwf hl hhead hdata hsize
    obtain ⟨s', hrecv, hl', hreceived⟩ := receivedBlockTransactions_ok (kept_acceptBlockHeader hwf hhead).wf
      (linked_acceptBlockHeader hl hhead) harr
    rw [hrecv] at hr
    exact ⟨true, s', hr, .received hhead harr hreceived hl'⟩

/-- **What a call can do.** It returns, or it fails the assertion in the scan of `g_failed_blocks`. -/
theorem ChainOp.run_ok_or (op : ChainOp ι) :
    (∃ s', op.run T s = .ok s' ∧ op.Ran T s s') ∨ op.run T s = .error .assertion ∧ ¬ s.FailedMarked := by
  obtain ⟨t, -, ht⟩ := hwf.tip_mem
  cases op with
  | acceptBlockHeader hash check contextual =>
    rcases s.acceptBlockHeader_ok_or hash check contextual with ⟨r, s', hrun⟩ | ⟨herr, hm⟩
    · exact .inl ⟨s', map_snd_eq_ok.2 ⟨r, hrun⟩, .header _ hrun⟩
    · exact .inr ⟨by rw [run, herr]; rfl, hm⟩
  | acceptBlock hash arrival =>
    rcases s.acceptBlockHeader_ok_or hash arrival.checkBlockHeader arrival.contextualCheckBlockHeader with
      ⟨r, s₁, hhead⟩ | ⟨herr, hm⟩
    · obtain ⟨r, s', hrun, hran⟩ := acceptBlock_ok hwf hl hhead
      exact .inl ⟨s', map_snd_eq_ok.2 ⟨r, hrun⟩, hran⟩
    · exact .inr ⟨by rw [run, CChainState.acceptBlock, herr]; rfl, hm⟩
  | invalidBlockFound p =>
    rw [run]
    split_ifs with hp
    · exact .inl ⟨_, invalidBlockFound_eq_ok.2 ⟨by rw [ht]; exact Option.some_ne_none t, rfl⟩, .rejected hp⟩
    · exact .inl ⟨s, rfl, .idle _⟩
  | findMostWorkChain =>
    obtain ⟨r, s', hrun, hfound, -⟩ := findMostWorkChain_ok hwf hl
      (Nat.lt_succ_of_le (toFinset_card_le s.setBlockIndexCandidates))
    exact .inl ⟨s', map_snd_eq_ok.2 ⟨r, hrun⟩, .found hfound⟩
  | activateBestChain shutdown =>
    obtain ⟨s', hrun, hact, -⟩ := activateBestChain_ok shutdown hwf hl
    exact .inl ⟨s', map_snd_eq_ok.2 ⟨true, hrun⟩, .activated hact⟩
  | invalidateBlock p =>
    rw [run]
    split_ifs with hp
    · rcases invalidateBlock_ok hwf ht p with hrun | ⟨u, s', hrun, hinv⟩
      · exact .inl ⟨_, map_snd_eq_ok.2 ⟨false, hrun⟩, .undone⟩
      · exact .inl ⟨s', map_snd_eq_ok.2 ⟨true, hrun⟩, .invalidated hp ht hinv⟩
    · exact .inl ⟨s, rfl, .idle _⟩
  | resetBlockFailureFlags p =>
    rw [run]
    split_ifs with hp
    · obtain ⟨s', hrun, hreset⟩ := resetBlockFailureFlags_ok ht p
      exact .inl ⟨s', hrun, .reset hp hreset⟩
    · exact .inl ⟨s, rfl, .idle _⟩

lemma ChainOp.run_ok {op : ChainOp ι} (hm : s.FailedMarked) : ∃ s', op.run T s = .ok s' :=
  (op.run_ok_or hwf hl).elim (fun ⟨s', hrun, _⟩ => ⟨s', hrun⟩) fun h => absurd hm h.2

end

variable (T) in
/-- What holds between any two calls. -/
def Sane (s : CChainState ι) : Prop := s.WellFormed T ∧ s.Linked T

lemma sane_started (T : HeaderTree ι) : (started T).Sane T := ⟨wellFormed_started T, linked_started T⟩

lemma ChainOp.ran {op : ChainOp ι} (h : s.Sane T) (hrun : op.run T s = .ok s') : op.Ran T s s' := by
  rcases op.run_ok_or h.1 h.2 with ⟨s₁, hrun₁, hran⟩ | ⟨herr, -⟩
  · cases hrun₁.symm.trans hrun
    exact hran
  · cases herr.symm.trans hrun

/-! ## The marks after a call -/

section

variable (hwf : s.WellFormed T)
include hwf

lemma kept_failValid (hb : b ∈ s.mapBlockIndex) (hmap : s'.mapBlockIndex = s.mapBlockIndex)
    (hindex : ∀ c, s'.index c = if c = b then (s.index b).failValid else s.index c)
    (hfailed : ∀ c ∈ s'.g_failed_blocks, c = b ∨ c ∈ s.g_failed_blocks) (hwf' : s'.WellFormed T) : Kept T s s' := by
  obtain ⟨t, ht, htip⟩ := hwf'.tip_mem
  have hvalid : ∀ c, (s.index c).failedValid = true → (s'.index c).failedValid = true := fun c hc => by
    rw [hindex]
    split
    · rfl
    · exact hc
  refine Grows.kept ⟨hmap, hvalid, fun c _ hc => .inl ?_, fun c hc => ?_, fun c hc => .inr (hmap ▸ hwf'.candidates c hc),
    fun e he => .inr (hmap ▸ hwf'.unlinked e he), fun _ => hwf'.follows, .inr ⟨t, hmap ▸ ht, htip⟩⟩ hwf
  · rw [hindex] at hc
    split at hc
    · rename_i heq
      exact heq ▸ hc
    · exact hc
  · rcases hfailed c hc with rfl | hc
    · exact .inr ⟨hb, by rw [hindex, if_pos rfl]; rfl⟩
    · exact .inl hc

lemma kept_reject (hb : b ∈ s.mapBlockIndex) : Kept T s (s.reject b) :=
  kept_failValid hwf hb rfl (index_reject s b) (fun _ hc => mem_reject_failed.1 hc) (hwf.reject hb)

omit [LinearOrder ι] in
lemma kept_atTip (ht : t ∈ s.mapBlockIndex) : Kept T s (s.atTip T t) :=
  .of_flags (hwf.atTip ht) rfl (fun _ => ⟨rfl, rfl⟩) rfl

lemma Climb.kept {t' : ι} (h : Climb T t t' s s') (ht : t' ∈ s.mapBlockIndex) : Kept T s s' :=
  .of_flags (h.wf hwf ht) h.map h.flags h.failed

lemma Round.kept (h : Round T s s') : Kept T s s' := by
  cases h with
  | find h => exact h.kept hwf
  | step t b f r ht hb _ hf hout =>
    have hk := kept_atTip hwf (hwf.closed t (hwf.tip_mem_map ht) f hf.left)
    have hpath := hwf.closed b (hwf.candidates b hb)
    cases hout with
    | running hc => exact hk.trans (hc.kept hk.wf (hwf.candidates b hb))
    | better t' hc ht' => exact hk.trans (hc.kept hk.wf (hpath t' ht'))
    | @invalid s₁ t' x hc hx hp =>
      have hk₁ := hk.trans (hc.kept hk.wf (hpath t' (T.forest.path_trans hx (T.forest.parent_mem_path hp))))
      exact hk₁.trans (kept_reject hk₁.wf (hk₁.mem x (hpath x hx)))

lemma Invalidated.kept {u : ι} (h : Invalidated T p t u s s') (ht : s.tip = some t)
    (hp : p ∈ s.mapBlockIndex) : Kept T s s' := by
  have hself : (s'.index p).failedValid = true := by
    rw [h.index]
    rw [if_pos rfl]
    rfl
  refine Grows.kept ⟨h.map, fun c hc => ?_, fun c _ hc => ?_, fun c hc => ?_, fun c hc => ?_, fun e he => .inl (h.unlinked ▸ he),
    fun _ => .inr ⟨u, h.chain⟩, .inr ⟨u, hwf.closed t (hwf.tip_mem_map ht) u h.below, h.chain.tip⟩⟩ hwf
  · rw [h.index]
    split_ifs <;> first | rfl | exact hc
  · by_cases hcut : c ∈ T.path t ∧ p ∈ T.path c ∧ p ≠ c
    · exact .inr ⟨p, hcut.2.1, hcut.2.2, .inr hself⟩
    · rw [h.index] at hc
      rw [if_neg hcut] at hc
      split at hc <;> exact .inl hc
  · rcases (h.failed c).1 hc with rfl | hc
    · exact .inr ⟨hp, hself⟩
    · exact .inl hc
  · exact ((h.candidates c).1 hc).imp And.left And.left

lemma Received.wf (h : Received T b s s') (hl' : s'.Linked T) : s'.WellFormed T := by
  refine ⟨h.map ▸ hwf.genesis_mem, h.map ▸ hwf.closed, fun c hc => hl'.known c (hl'.data c (hl'.candidates c hc)),
    fun e he => ?_, h.map ▸ h.failed ▸ hwf.failed, h.chain ▸ hwf.follows, ?_⟩
  · exact hl'.known e.2 (hl'.unlinked e.2 (mem_map.2 ⟨e, he, rfl⟩)).1
  · rw [h.map, tip, h.chain]
    exact hwf.tip_mem

end

/-- Every call but `ResetBlockFailureFlags` keeps both invariants. -/
theorem ChainOp.kept {op : ChainOp ι} (h : s.Sane T) (hrun : op.run T s = .ok s') :
    Kept T s s' ∨ ∃ p ∈ s.mapBlockIndex, op = .resetBlockFailureFlags p ∧ Reset T p s s' := by
  obtain ⟨hwf, hl⟩ := h
  cases ChainOp.ran ⟨hwf, hl⟩ hrun with
  | idle => exact .inl (.refl hwf)
  | header _ hhead => exact .inl (kept_acceptBlockHeader hwf hhead)
  | malformed hhead =>
    have hk := kept_acceptBlockHeader hwf hhead
    have hmem := acceptBlockHeader_accepted hhead ▸ mem_addToBlockIndex.2 (.inr rfl)
    exact .inl (hk.trans (kept_failValid hk.wf hmem rfl (index_modify _ _ _) (fun _ hc => .inr hc) (hk.wf.modify _ _)))
  | received hhead _ hreceived hl' =>
    have hk := kept_acceptBlockHeader hwf hhead
    exact .inl (hk.trans (.of_flags (hreceived.wf hk.wf hl') hreceived.map hreceived.flags hreceived.failed))
  | rejected hp => exact .inl (kept_reject hwf hp)
  | found hfound => exact .inl (hfound.kept hwf)
  | activated hact =>
    exact .inl (hact.keep hwf hl (.refl hwf) fun _ _ hwf _ hr hk => hk.trans (hr.kept hwf)).2.2
  | undone => exact .inl (kept_atTip hwf hwf.genesis_mem)
  | invalidated hp ht hinv => exact .inl (hinv.kept hwf ht hp)
  | reset hp hreset => exact .inr ⟨_, hp, rfl, hreset⟩

lemma Sane.run {op : ChainOp ι} (h : s.Sane T) (hrun : op.run T s = .ok s') : s'.Sane T := by
  have hwf' : s'.WellFormed T := (ChainOp.kept h hrun).elim Kept.wf fun ⟨_, _, _, hreset⟩ => hreset.wf h.1
  refine ⟨hwf', ?_⟩
  obtain ⟨hwf, hl⟩ := h
  cases ChainOp.ran ⟨hwf, hl⟩ hrun with
  | idle => exact hl
  | header _ hhead => exact linked_acceptBlockHeader hl hhead
  | @malformed hash _ s₁ hhead =>
    have hl₁ := linked_acceptBlockHeader hl hhead
    exact hl₁.of_sameData (sameData_modify s₁ hash fun i => ⟨rfl, rfl, rfl, rfl, le_rfl⟩) hl₁.candidates hl₁.active
  | received _ _ _ hl' => exact hl'
  | rejected => exact hl.reject _
  | found hfound => exact hfound.linked hl
  | activated hact => exact (hact.keep hwf hl trivial fun _ _ _ _ _ _ => trivial).2.1
  | undone =>
    obtain ⟨t, -, ht⟩ := hwf.tip_mem
    exact hl.atTip (hl.path (hl.active t ht) T.genesis (genesis_mem_path T t))
  | invalidated _ ht hinv => exact hinv.linked hl ht
  | reset _ hreset => exact hreset.linked hl

/-! ## Runs -/

variable (T) in
/-- No ancestor of `p` is in `g_failed_blocks`. -/
def NoFailedAncestor (p : ι) (s : CChainState ι) : Prop := ∀ a ∈ T.path p, a ≠ p → a ∉ s.g_failed_blocks

variable (T) in
/-- A child mark off the path of `p` has a cause off the path of `p`. -/
def SiblingsExplained (p : ι) (s : CChainState ι) : Prop :=
  ∀ b ∈ s.mapBlockIndex, p ∉ T.path b → b ∉ T.path p → (s.index b).failedChild = true →
    ∃ a ∈ T.path b, a ≠ b ∧ a ∉ T.path p ∧ (s.index a).failedValid = true

lemma Reset.keepsFailedMarked_iff (h : Reset T p s s') (hwf : s.WellFormed T) (hm : s.FailedMarked) :
    s'.FailedMarked ↔ NoFailedAncestor T p s := by
  constructor
  · intro hm' a ha hne hfailed
    have hpa : p ∉ T.path a := fun hpa => hne (T.forest.eq_of_mem_path ha (T.forest.depth_le_of_mem_path hpa))
    have hmark := hm' a ((h.failed a).2 ⟨hfailed, fun hc => hpa hc.2.1⟩)
    rw [h.index, if_pos (.inr ha)] at hmark
    cases hmark
  · intro hnone b hb
    obtain ⟨hb, hkept⟩ := (h.failed b).1 hb
    have hmark := hm b hb
    have hinvalid : (s.index b).isValid BLOCK_VALID_TRANSACTIONS = false := by
      rw [CBlockIndex.isValid, CBlockIndex.failed, hmark]
      rfl
    have hpb : p ∉ T.path b := fun hpb => hkept ⟨hwf.failed b hb, hpb, hinvalid⟩
    have hbp : b ∉ T.path p := fun hbp => by
      refine hnone b hbp ?_ hb
      rintro rfl
      exact hpb (T.forest.self_mem_path b)
    rw [h.index, if_neg (by tauto)]
    exact hmark

lemma Reset.keepsChildBelowFailed_iff (h : Reset T p s s') : s'.ChildBelowFailed T ↔ SiblingsExplained T p s := by
  constructor
  · intro hc b hb hpb hbp hchild
    obtain ⟨a, ha, hab, hmark⟩ := hc b (h.map ▸ hb) (by rw [h.index, if_neg (by tauto)]; exact hchild)
    rw [h.index] at hmark
    split at hmark
    · cases hmark
    · rename_i hkept
      exact ⟨a, ha, hab, fun hap => hkept (.inr hap), hmark⟩
  · intro hcond b hb hchild
    rw [h.map] at hb
    rw [h.index] at hchild
    split at hchild
    · cases hchild
    · rename_i hkept
      obtain ⟨hpb, hbp⟩ := not_or.1 hkept
      have hpb : p ∉ T.path b := fun hpb' => hpb ⟨hb, hpb'⟩
      obtain ⟨a, ha, hab, hap, hmark⟩ := hcond b hb hpb hbp hchild
      have hpa : p ∉ T.path a := fun hpa => hpb (T.forest.path_trans ha hpa)
      exact ⟨a, ha, hab, by rw [h.index, if_neg (by tauto)]; exact hmark⟩

/-- A condition on the blocks that are reconsidered. -/
def OnReset (cond : ι → CChainState ι → Prop) (s : CChainState ι) : ChainOp ι → Prop
  | .resetBlockFailureFlags p => p ∈ s.mapBlockIndex → cond p s
  | _ => True

/-- A condition that is exact for each call of `ResetBlockFailureFlags` is exact for runs. -/
theorem throughout_iff_of_reset {P : CChainState ι → Prop} {cond : ι → CChainState ι → Prop}
    (hkept : ∀ s s', Kept T s s' → P s → P s')
    (hreset : ∀ s s' p, s.Sane T → P s → Reset T p s s' → (P s' ↔ cond p s)) (hP : P (started T)) (ops : List (ChainOp ι)) :
    Throughout (ChainOp.run T) P (started T) ops ↔ Meets (ChainOp.run T) (OnReset cond) (started T) ops := by
  refine throughout_iff_meets (fun s op s' hs hrun => hs.run hrun) (fun s op hs hPs => ?_) (sane_started T) hP
  constructor
  · intro hafter
    cases op with
    | resetBlockFailureFlags p =>
      intro hp
      obtain ⟨t, -, ht⟩ := hs.1.tip_mem
      obtain ⟨s', hrun, hr⟩ := resetBlockFailureFlags_ok ht p
      exact (hreset s s' p hs hPs hr).1 (hafter s' (by rw [ChainOp.run, if_pos hp, hrun]))
    | _ => trivial
  · intro hcond s' hrun
    rcases ChainOp.kept hs hrun with hk | ⟨p, hp, rfl, hr⟩
    · exact hkept s s' hk hPs
    · exact (hreset s s' p hs hPs hr).2 (hcond hp)

variable (T) in
/-- **The blocks of `g_failed_blocks` are marked**, and so no assertion fails, in every state of a run if and only if
it never reconsiders a block above one of them. -/
theorem failedMarked_iff (ops : List (ChainOp ι)) : startUp T = .ok (started T) ∧
    (Throughout (ChainOp.run T) (fun s => s.FailedMarked ∧ ∀ op, ∃ s', ChainOp.run T s op = .ok s') (started T) ops ↔
      Meets (ChainOp.run T) (OnReset (NoFailedAncestor T)) (started T) ops) := by
  refine ⟨startUp_eq T, ?_⟩
  rw [← throughout_iff_of_reset (P := FailedMarked) (fun s s' hk => hk.marked)
    (fun s s' p hs hm hr => hr.keepsFailedMarked_iff hs.1 hm) fun b hb => absurd hb (OrdSet.not_mem_empty b)]
  exact throughout_congr (fun s op s' hs hrun => Sane.run hs hrun)
    (fun s hs => and_iff_left_of_imp fun hm op => ChainOp.run_ok hs.1 hs.2 hm) (sane_started T)

variable (T) in
/-- **A block marked as a child has a failed ancestor** in every state of a run from start-up if and only if, whenever the
run reconsiders a block, the child marks off its path have a cause off its path. -/
theorem childBelowFailed_iff (ops : List (ChainOp ι)) : startUp T = .ok (started T) ∧
    (Throughout (ChainOp.run T) (fun s => s.ChildBelowFailed T ∧ ∀ op, ChainOp.run T s op ≠ .error .endless)
        (started T) ops ↔
      Meets (ChainOp.run T) (OnReset (SiblingsExplained T)) (started T) ops) := by
  refine ⟨startUp_eq T, ?_⟩
  rw [← throughout_iff_of_reset (P := ChildBelowFailed T) (fun s s' hk => hk.child)
    (fun s s' p _ _ hr => hr.keepsChildBelowFailed_iff) ?_]
  · refine throughout_congr (fun s op s' hs hrun => Sane.run hs hrun)
      (fun s hs => and_iff_left_of_imp fun _ op hrun => ?_) (sane_started T)
    rcases op.run_ok_or hs.1 hs.2 with ⟨s', hok, -⟩ | ⟨herr, -⟩
    · cases hok.symm.trans hrun
    · cases herr.symm.trans hrun
  · intro b hb hchild
    rw [mem_singleton.1 hb, index_started, if_pos rfl] at hchild
    cases hchild

/-! ## Small trees -/

end CChainState

/-- A tree of blocks with one transaction and the same work each. -/
def HeaderTree.small {n : ℕ} [NeZero n] (pprev : Fin n → Option (Fin n)) (nHeight : Fin n → ℕ) (connectBlock : Fin n → Bool)
    (hheight : ∀ i, nHeight i = (pprev i).elim 0 (nHeight · + 1)) (hroot : ∀ i, pprev i = none ↔ i = 0)
    (hconnect : connectBlock 0 = true) : HeaderTree (Fin n) where
  pprev := pprev
  nHeight := nHeight
  nHeight_eq := hheight
  genesis := 0
  pprev_eq_none := hroot
  getBlockProof := fun _ => 1
  getBlockProof_pos := fun _ => Nat.one_pos
  nChainWork := fun i => nHeight i + 1
  nChainWork_eq := fun i => congrArg (· + 1) (hheight i)
  vtxSize := fun _ => 1
  vtxSize_genesis := Nat.one_pos
  connectBlock := connectBlock
  connectBlock_genesis := hconnect

namespace CChainState

instance {ι : Type} (s : CChainState ι) : Decidable s.FailedMarked :=
  inferInstanceAs (Decidable (∀ b ∈ s.g_failed_blocks.toList, (s.index b).failedValid = true))

scoped instance neZero_four : NeZero 4 := ⟨by decide⟩

/-- Three blocks on top of each other. -/
def line : HeaderTree (Fin 4) :=
  .small ![none, some 0, some 1, some 2] ![0, 1, 2, 3] (fun _ => true) (by decide) (by decide) rfl

/-- Two blocks on top of the first one. -/
def forked : HeaderTree (Fin 4) :=
  .small ![none, some 0, some 1, some 1] ![0, 1, 2, 2] (fun _ => true) (by decide) (by decide) rfl

/-- A block that passes the checks and was asked for. -/
def Arrival.requested : Arrival := ⟨true, true, .valid, true, 0⟩

/-- Block 2 is reconsidered after block 1, below it, was invalidated. -/
def reconsiderAbove : List (ChainOp (Fin 4)) :=
  [.acceptBlock 1 .requested, .activateBestChain fun _ => false, .acceptBlockHeader 2 true true, .invalidateBlock 1,
    .resetBlockFailureFlags 2]

/-- The next header on block 2 ends the process. -/
theorem failedMarked_fails : ∃ s, reconsiderAbove.foldlM (fun s op => ChainOp.run line s op) (started line) = .ok s ∧
    ¬ s.FailedMarked ∧ s.acceptBlockHeader line 3 true true = .error .assertion := by
  decide +kernel

/-- Block 1 is invalidated with block 2 on top, block 3 is found to be above it, and block 3 is reconsidered. -/
def reconsiderSibling : List (ChainOp (Fin 4)) :=
  [.acceptBlock 1 .requested, .acceptBlock 2 .requested, .acceptBlock 3 .requested, .activateBestChain fun _ => false,
    .invalidateBlock 1, .findMostWorkChain, .resetBlockFailureFlags 3]

/-- Block 2 stays marked as the child of a failed block, and no block has failed. -/
theorem childBelowFailed_fails :
    ∃ s, reconsiderSibling.foldlM (fun s op => ChainOp.run forked s op) (started forked) = .ok s ∧
      (s.index 2).failedChild = true ∧ ∀ b, (s.index b).failedValid = false := by
  decide +kernel

end CChainState

end Soferox
