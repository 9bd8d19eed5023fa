import Soferox.Chain.FailureFlags

/-!
# Which blocks have the data of all their ancestors

`nChainTx` is set exactly where the data of a block and of all its ancestors has arrived. `LinkedWith queue` is the
invariant behind that, with the queue of `ReceivedBlockTransactions`; between two calls the queue is empty (`Linked`).

* `linkQueue_ok` — the queue is emptied within the fuel, and nothing that waits in it or behind it is lost;
* `receivedBlockTransactions_ok` — what the arrival of a block's data does;
* `Linked.of_sameData` — everything else leaves the data alone.
-/

namespace Soferox

open List Option Prod CBlockIndex

namespace CBlockIndex

variable {i : CBlockIndex} {n : ℕ}

lemma le_nValid_raiseValidity : i.nValid ≤ (i.raiseValidity n).nValid := by
  unfold raiseValidity
  split_ifs with hf hlt
  · exact le_rfl
  · exact hlt.le
  · exact le_rfl

lemma raiseValidity_data : (i.raiseValidity n).haveData = i.haveData ∧ (i.raiseValidity n).nTx = i.nTx ∧
    (i.raiseValidity n).nChainTx = i.nChainTx ∧ (i.raiseValidity n).nSequenceId = i.nSequenceId := by
  unfold raiseValidity
  split_ifs <;> exact ⟨rfl, rfl, rfl, rfl⟩

lemma le_raiseValidity (h : i.failed = false) : n ≤ (i.raiseValidity n).nValid := by
  unfold raiseValidity
  rw [if_neg (by simp [h])]
  split_ifs with hlt
  · exact le_rfl
  · exact not_lt.1 hlt

end CBlockIndex

namespace CChainState

variable {ι : Type} {T : HeaderTree ι} {s s' s'' : CChainState ι} {b c p : ι}

/-- The blocks that wait for the data of an ancestor. -/
def waiting (s : CChainState ι) : List ι := s.mapBlocksUnlinked.map Prod.snd

variable (T) in
/-- The data of the blocks with `nChainTx` is there up to genesis. The blocks of the queue come next, those of
`mapBlocksUnlinked` wait for their parents. -/
structure LinkedWith (queue : List ι) (s : CChainState ι) : Prop where
  data : ∀ b, (s.index b).nChainTx ≠ 0 → (s.index b).haveData = true
  parent : ∀ b p, (s.index b).nChainTx ≠ 0 → T.pprev b = some p → (s.index p).nChainTx ≠ 0
  level : ∀ b, (s.index b).haveData = true → (s.index b).nTx ≠ 0 ∧ BLOCK_VALID_TRANSACTIONS ≤ (s.index b).nValid
  known : ∀ b, (s.index b).haveData = true → b ∈ s.mapBlockIndex
  tree : ∀ b ∈ s.mapBlockIndex, BLOCK_VALID_TREE ≤ (s.index b).nValid
  candidates : ∀ b ∈ s.setBlockIndexCandidates, (s.index b).nChainTx ≠ 0
  active : ∀ t, s.tip = some t → (s.index t).nChainTx ≠ 0
  nodup : (queue ++ s.waiting).Nodup
  unlinked : ∀ b ∈ queue ++ s.waiting, (s.index b).haveData = true ∧ (s.index b).nChainTx = 0
  queue : ∀ b ∈ queue, ∀ p, T.pprev b = some p → (s.index p).nChainTx ≠ 0
  waits : ∀ e ∈ s.mapBlocksUnlinked, T.pprev e.2 = some e.1 ∧ (s.index e.1).nChainTx = 0

variable (T) in
/-- The invariant between two calls. -/
def Linked (s : CChainState ι) : Prop := LinkedWith T [] s

variable {queue : List ι}

lemma LinkedWith.path (h : LinkedWith T queue s) (hb : (s.index b).nChainTx ≠ 0) :
    ∀ a ∈ T.path b, (s.index a).nChainTx ≠ 0 := by
  induction b using T.forest.induction with
  | step b ih =>
    intro a ha
    rcases T.forest.mem_path_iff.1 ha with rfl | ⟨p, hp, hap⟩
    · exact hb
    · exact ih p hp (h.parent b p hb hp) a hap

/-! ## Changes that leave the data alone -/

/-- `s'` has the blocks, the data and the sequence numbers of `s`. -/
structure SameData (s s' : CChainState ι) : Prop where
  map : s'.mapBlockIndex = s.mapBlockIndex
  unlinked : s'.mapBlocksUnlinked = s.mapBlocksUnlinked
  haveData : ∀ b, (s'.index b).haveData = (s.index b).haveData
  nTx : ∀ b, (s'.index b).nTx = (s.index b).nTx
  nChainTx : ∀ b, (s'.index b).nChainTx = (s.index b).nChainTx
  nSequenceId : ∀ b, (s'.index b).nSequenceId = (s.index b).nSequenceId
  level : ∀ b, (s.index b).nValid ≤ (s'.index b).nValid

lemma SameData.refl (s : CChainState ι) : SameData s s :=
  ⟨rfl, rfl, fun _ => rfl, fun _ => rfl, fun _ => rfl, fun _ => rfl, fun _ => le_rfl⟩

lemma SameData.trans (h : SameData s s') (h' : SameData s' s'') : SameData s s'' :=
  ⟨h'.map.trans h.map, h'.unlinked.trans h.unlinked, fun b => (h'.haveData b).trans (h.haveData b),
    fun b => (h'.nTx b).trans (h.nTx b), fun b => (h'.nChainTx b).trans (h.nChainTx b),
    fun b => (h'.nSequenceId b).trans (h.nSequenceId b), fun b => (h.level b).trans (h'.level b)⟩

lemma Linked.of_sameData (h : s.Linked T) (hd : SameData s s')
    (hcand : ∀ b ∈ s'.setBlockIndexCandidates, (s.index b).nChainTx ≠ 0)
    (htip : ∀ t, s'.tip = some t → (s.index t).nChainTx ≠ 0) : s'.Linked T := by
  have hwait : s'.waiting = s.waiting := congrArg (List.map snd) hd.unlinked
  refine ⟨fun b hb => ?_, fun b p hb hp => ?_, fun b hb => ?_, fun b hb => ?_,
    fun b hb => (h.tree b (hd.map ▸ hb)).trans (hd.level b), fun b hb => ?_, fun t ht => ?_, hwait ▸ h.nodup,
    fun b hb => ?_, nofun, fun e he => ?_⟩
  · rw [hd.nChainTx] at hb
    rw [hd.haveData]
    exact h.data b hb
  · rw [hd.nChainTx] at hb ⊢
    exact h.parent b p hb hp
  · rw [hd.haveData] at hb
    rw [hd.nTx]
    exact ⟨(h.level b hb).1, (h.level b hb).2.trans (hd.level b)⟩
  · rw [hd.haveData] at hb
    exact hd.map ▸ h.known b hb
  · rw [hd.nChainTx]
    exact hcand b hb
  · rw [hd.nChainTx]
    exact htip t ht
  · rw [hd.haveData, hd.nChainTx]
    exact h.unlinked b (hwait ▸ hb)
  · rw [hd.nChainTx]
    exact h.waits e (hd.unlinked ▸ he)

variable [LinearOrder ι] {f : CBlockIndex → CBlockIndex} {fuel : ℕ}

variable (s b) in
lemma sameData_modify (hf : ∀ i, (f i).haveData = i.haveData ∧ (f i).nTx = i.nTx ∧ (f i).nChainTx = i.nChainTx ∧
      (f i).nSequenceId = i.nSequenceId ∧ i.nValid ≤ (f i).nValid) : SameData s (s.modify b f) := by
  have hcases : ∀ c, (s.modify b f).index c = s.index c ∨ (s.modify b f).index c = f (s.index c) := by
    intro c
    rw [index_modify]
    split_ifs with heq
    · exact .inr (heq ▸ rfl)
    · exact .inl rfl
  refine ⟨rfl, rfl, fun c => ?_, fun c => ?_, fun c => ?_, fun c => ?_, fun c => ?_⟩ <;>
    rcases hcases c with hc | hc <;> rw [hc]
  · exact (hf _).1
  · exact (hf _).2.1
  · exact (hf _).2.2.1
  · exact (hf _).2.2.2.1
  · exact (hf _).2.2.2.2

lemma foldl_modify (hf : ∀ i, f (f i) = f i) (s : CChainState ι) (l : List ι) :
    ∃ g, l.foldl (fun s b => s.modify b f) s = { s with index := g } ∧
      ∀ c, g c = if c ∈ l then f (s.index c) else s.index c := by
  induction l generalizing s with
  | nil => exact ⟨s.index, rfl, fun c => by rw [if_neg not_mem_nil]⟩
  | cons b l ih =>
    obtain ⟨g, hg, hgc⟩ := ih (s.modify b f)
    refine ⟨g, hg, fun c => ?_⟩
    rw [hgc, index_modify]
    by_cases hcb : c = b
    · subst hcb
      simp [hf]
    · simp [hcb]

/-! ## Linking blocks -/

lemma workLess_congr (hb : (s'.index b).nSequenceId = (s.index b).nSequenceId)
    (hc : (s'.index c).nSequenceId = (s.index c).nSequenceId) : s'.workLess T b c = s.workLess T b c := by
  rw [workLess, workLess, hb, hc]

section

variable (s b)

lemma index_linkBlock (c : ι) : (s.linkBlock T b).index c =
    if c = b then
      { s.index b with
        nChainTx := (T.pprev b).elim 0 (fun p => (s.index p).nChainTx) + (s.index b).nTx
        nSequenceId := s.nBlockSequenceId }
    else s.index c := by
  have hindex := index_modify s b (fun i => { i with
    nChainTx := (T.pprev b).elim 0 (fun p => (s.index p).nChainTx) + i.nTx, nSequenceId := s.nBlockSequenceId }) c
  unfold linkBlock
  dsimp only
  split <;> exact hindex

lemma linkBlock_rest : (s.linkBlock T b).mapBlockIndex = s.mapBlockIndex ∧
    (s.linkBlock T b).mapBlocksUnlinked = s.mapBlocksUnlinked ∧
    (s.linkBlock T b).g_failed_blocks = s.g_failed_blocks ∧ (s.linkBlock T b).chainActive = s.chainActive := by
  unfold linkBlock
  dsimp only
  split <;> exact ⟨rfl, rfl, rfl, rfl⟩

lemma mem_linkBlock_candidates : c ∈ (s.linkBlock T b).setBlockIndexCandidates ↔
    c ∈ s.setBlockIndexCandidates ∨ (c = b ∧ ∀ t, s.tip = some t → (s.linkBlock T b).workLess T b t = false) := by
  have hcond : (s.tip.all fun t => !(s.linkBlock T b).workLess T b t) = true ↔
      ∀ t, s.tip = some t → (s.linkBlock T b).workLess T b t = false := by
    simp [Option.all_eq_true]
  rw [← hcond]
  unfold linkBlock
  dsimp only
  split_ifs with h
  · rw [mem_insertCandidate, or_comm]
    exact or_congr Iff.rfl (and_iff_left h).symm
  · exact (or_iff_left fun hc => h hc.2).symm

end

variable (T) in
/-- `s'` is `s` after some blocks have been linked. -/
structure Links (s s' : CChainState ι) : Prop where
  map : s'.mapBlockIndex = s.mapBlockIndex
  failed : s'.g_failed_blocks = s.g_failed_blocks
  chain : s'.chainActive = s.chainActive
  flags : ∀ c, (s'.index c).failedValid = (s.index c).failedValid ∧ (s'.index c).failedChild = (s.index c).failedChild
  haveData : ∀ c, (s'.index c).haveData = (s.index c).haveData
  nValid : ∀ c, (s'.index c).nValid = (s.index c).nValid
  linked : ∀ c, (s.index c).nChainTx ≠ 0 → s'.index c = s.index c
  candidates : ∀ c, c ∈ s'.setBlockIndexCandidates ↔ c ∈ s.setBlockIndexCandidates ∨
    ((s.index c).nChainTx = 0 ∧ (s'.index c).nChainTx ≠ 0 ∧ ∀ t, s.tip = some t → s'.workLess T c t = false)

lemma Links.of_unlinked (s : CChainState ι) (u : List (ι × ι)) : Links T s { s with mapBlocksUnlinked := u } :=
  ⟨rfl, rfl, rfl, fun _ => ⟨rfl, rfl⟩, fun _ => rfl, fun _ => rfl, fun _ _ => rfl,
    fun _ => (or_iff_left fun h => h.2.1 h.1).symm⟩

lemma Links.refl (s : CChainState ι) : Links T s s := .of_unlinked s s.mapBlocksUnlinked
lemma Links.tip (h : Links T s s') : s'.tip = s.tip := congrArg CChain.tip h.chain

lemma Links.trans (h : Links T s s') (h' : Links T s' s'') (htip : ∀ t, s.tip = some t → (s.index t).nChainTx ≠ 0) :
    Links T s s'' := by
  have hsame : ∀ c, (s'.index c).nChainTx ≠ 0 → s''.index c = s'.index c := h'.linked
  refine ⟨h'.map.trans h.map, h'.failed.trans h.failed, h'.chain.trans h.chain,
    fun c => ⟨(h'.flags c).1.trans (h.flags c).1, (h'.flags c).2.trans (h.flags c).2⟩,
    fun c => (h'.haveData c).trans (h.haveData c), fun c => (h'.nValid c).trans (h.nValid c), fun c hc => ?_, fun c => ?_⟩
  · have hc' := h.linked c hc
    rw [hsame c (hc' ▸ hc), hc']
  · -- a block that is linked keeps its place in the order
    have hless : (s'.index c).nChainTx ≠ 0 → ∀ t, s.tip = some t → s''.workLess T c t = s'.workLess T c t := by
      intro hc t ht
      have htt := h.linked t (htip t ht)
      exact workLess_congr (by rw [hsame c hc]) (by rw [hsame t (htt ▸ htip t ht)])
    rw [h'.candidates, h.candidates, h.tip]
    by_cases hc' : (s'.index c).nChainTx = 0
    · have hc : (s.index c).nChainTx = 0 := by
        by_contra hc
        exact hc (h.linked c hc ▸ hc')
      simp [hc, hc']
    · rw [hsame c hc']
      constructor
      · rintro ((hold | ⟨hc, -, hge⟩) | ⟨hzero, -⟩)
        · exact .inl hold
        · exact .inr ⟨hc, hc', fun t ht => (hless hc' t ht).trans (hge t ht)⟩
        · exact absurd hzero hc'
      · rintro (hold | ⟨hc, -, hge⟩)
        · exact .inl (.inl hold)
        · exact .inl (.inr ⟨hc, hc', fun t ht => (hless hc' t ht).symm.trans (hge t ht)⟩)

/-- One round of the loop of `ReceivedBlockTransactions`. -/
def linkFirst (T : HeaderTree ι) (s : CChainState ι) (b : ι) : CChainState ι :=
  { s.linkBlock T b with mapBlocksUnlinked := (s.linkBlock T b).mapBlocksUnlinked.filter (·.1 ≠ b) }

/-- The blocks that wait for `b`. -/
def childrenOf (s : CChainState ι) (b : ι) : List ι := (s.mapBlocksUnlinked.filter (·.1 = b)).map Prod.snd

lemma linkQueue_cons :
    linkQueue T (fuel + 1) (b :: queue) s = linkQueue T fuel (queue ++ s.childrenOf b) (s.linkFirst T b) := by
  rw [linkQueue, childrenOf, linkFirst, (linkBlock_rest s b).2.1]

variable (s b) in
lemma perm_waiting : (s.childrenOf b ++ (s.linkFirst T b).waiting).Perm s.waiting := by
  rw [childrenOf, waiting, linkFirst, (linkBlock_rest s b).2.1, ← map_append]
  have hperm := filter_append_perm (fun e : ι × ι => decide (e.1 = b)) s.mapBlocksUnlinked
  simp only [← decide_not] at hperm
  exact hperm.map snd

lemma mem_linkFirst_unlinked {e : ι × ι} :
    e ∈ (s.linkFirst T b).mapBlocksUnlinked ↔ e ∈ s.mapBlocksUnlinked ∧ e.1 ≠ b := by
  rw [linkFirst, (linkBlock_rest s b).2.1]
  simp

section Round

variable {queue : List ι} (h : LinkedWith T (b :: queue) s)

include h

omit [LinearOrder ι] in
lemma LinkedWith.nChainTx_linkBlock : (T.pprev b).elim 0 (fun p => (s.index p).nChainTx) + (s.index b).nTx ≠ 0 := by
  have hdata := (h.unlinked b mem_cons_self).1
  have hn := (h.level b hdata).1
  omega

lemma LinkedWith.links : Links T s (s.linkFirst T b) := by
  obtain ⟨hmap, -, hfailed, hchain⟩ := linkBlock_rest s b
  have hzero := (h.unlinked b mem_cons_self).2
  have hindex : ∀ c, (s.linkFirst T b).index c = _ := index_linkBlock s b
  refine ⟨hmap, hfailed, hchain, fun c => ?_, fun c => ?_, fun c => ?_, fun c hc => ?_, fun c => ?_⟩
  · rw [hindex]
    split_ifs with heq
    · exact heq ▸ ⟨rfl, rfl⟩
    · exact ⟨rfl, rfl⟩
  · rw [hindex]
    split
    · rename_i heq
      exact heq ▸ rfl
    · rfl
  · rw [hindex]
    split
    · rename_i heq
      exact heq ▸ rfl
    · rfl
  · rw [hindex, if_neg]
    rintro rfl
    exact hc hzero
  · refine (mem_linkBlock_candidates s b).trans (or_congr Iff.rfl ?_)
    rw [hindex]
    constructor
    · rintro ⟨rfl, hge⟩
      rw [if_pos rfl]
      exact ⟨hzero, h.nChainTx_linkBlock, hge⟩
    · rintro ⟨hc, hc', hge⟩
      split at hc'
      · rename_i heq
        subst heq
        exact ⟨rfl, hge⟩
      · exact absurd hc hc'

lemma LinkedWith.nChainTx_linkFirst (c : ι) : ((s.linkFirst T b).index c).nChainTx ≠ 0 ↔
    c = b ∨ (s.index c).nChainTx ≠ 0 := by
  have hindex : (s.linkFirst T b).index c = _ := index_linkBlock s b c
  rw [hindex]
  split_ifs with heq
  · exact ⟨fun _ => .inl heq, fun _ => h.nChainTx_linkBlock⟩
  · exact ⟨.inr, fun hc => hc.resolve_left heq⟩

/-- The first block of the queue is linked, and the blocks that waited for it join the queue. -/
theorem LinkedWith.linkFirst : LinkedWith T (queue ++ s.childrenOf b) (s.linkFirst T b) := by
  have hl := h.links
  have hiff := h.nChainTx_linkFirst
  have hperm : (queue ++ s.childrenOf b ++ (s.linkFirst T b).waiting).Perm (queue ++ s.waiting) := by
    rw [append_assoc]
    exact (perm_waiting s b).append_left queue
  have hnodup : (b :: (queue ++ s.waiting)).Nodup := h.nodup
  have hnotin : ∀ c ∈ queue ++ s.waiting, c ≠ b := fun c hc heq => (nodup_cons.1 hnodup).1 (heq ▸ hc)
  have hold : ∀ c p, (s.index c).nChainTx ≠ 0 → T.pprev c = some p → ((s.linkFirst T b).index p).nChainTx ≠ 0 :=
    fun c p hc hp => (hiff p).2 (.inr (h.parent c p hc hp))
  refine ⟨fun c hc => ?_, fun c p hc hp => ?_, fun c hc => ?_, fun c hc => ?_,
    fun c hc => (h.tree c (hl.map ▸ hc)).trans (hl.nValid c).ge, fun c hc => ?_, fun t ht => ?_,
    hperm.nodup_iff.2 (nodup_cons.1 hnodup).2, fun c hc => ?_, fun c hc p hp => ?_, fun e he => ?_⟩
  · rw [hl.haveData]
    rcases (hiff c).1 hc with rfl | hc
    · exact (h.unlinked c mem_cons_self).1
    · exact h.data c hc
  · rcases (hiff c).1 hc with rfl | hc
    · exact (hiff p).2 (.inr (h.queue c mem_cons_self p hp))
    · exact hold c p hc hp
  · rw [hl.haveData] at hc
    rw [hl.nValid]
    refine ⟨?_, (h.level c hc).2⟩
    have hindex : (s.linkFirst T b).index c = _ := index_linkBlock s b c
    rw [hindex]
    split_ifs with heq
    · exact heq ▸ (h.level c hc).1
    · exact (h.level c hc).1
  · rw [hl.haveData] at hc
    exact hl.map ▸ h.known c hc
  · rcases (hl.candidates c).1 hc with hc | ⟨-, hc, -⟩
    · exact (hiff c).2 (.inr (h.candidates c hc))
    · exact hc
  · exact (hiff t).2 (.inr (h.active t (hl.tip ▸ ht)))
  · have hc := hperm.mem_iff.1 hc
    obtain ⟨hdata, hzero⟩ := h.unlinked c (mem_cons_of_mem _ hc)
    refine ⟨(hl.haveData c).trans hdata, ?_⟩
    by_contra hne
    exact ((hiff c).1 hne).elim (hnotin c hc) fun hne => hne hzero
  · rcases mem_append.1 hc with hc | hc
    · exact (hiff p).2 (.inr (h.queue c (mem_cons_of_mem _ hc) p hp))
    · obtain ⟨e, he, rfl⟩ := List.mem_map.1 hc
      obtain ⟨he, heb⟩ := mem_filter.1 he
      have hpe := (h.waits e he).1
      cases hpe.symm.trans hp
      exact (hiff _).2 (.inl (of_decide_eq_true heb))
  · obtain ⟨he, hne⟩ := mem_linkFirst_unlinked.1 he
    obtain ⟨hp, hzero⟩ := h.waits e he
    refine ⟨hp, ?_⟩
    by_contra hlinked
    exact ((hiff _).1 hlinked).elim hne fun hlinked => hlinked hzero

end Round

lemma linkQueue_ok (h : LinkedWith T queue s) (hfuel : queue.length + s.waiting.length ≤ fuel) :
    ∃ s', linkQueue T fuel queue s = .ok s' ∧ s'.Linked T ∧ Links T s s' ∧
      ∀ c ∈ queue ++ s.waiting, (s'.index c).nChainTx = 0 → c ∈ s'.waiting := by
  induction fuel generalizing s queue with
  | zero =>
    cases queue with
    | nil => exact ⟨s, rfl, h, .refl s, fun c hc _ => hc⟩
    | cons b queue => simp at hfuel
  | succ fuel ih =>
    cases queue with
    | nil => exact ⟨s, rfl, h, .refl s, fun c hc _ => hc⟩
    | cons b queue =>
      have hlen := (perm_waiting (T := T) s b).length_eq
      obtain ⟨s', hrun, hlinked, hlinks, hwait⟩ := ih h.linkFirst (by
        simp only [length_append, length_cons] at hlen hfuel ⊢
        omega)
      refine ⟨s', linkQueue_cons.trans hrun, hlinked, h.links.trans hlinks h.active, fun c hc hzero => ?_⟩
      refine hwait c ?_ hzero
      rcases mem_cons.1 hc with rfl | hc
      · have hfirst := (h.nChainTx_linkFirst c).2 (.inl rfl)
        exact absurd hzero (by rwa [hlinks.linked c hfirst])
      · rw [append_assoc, mem_append, (perm_waiting s b).mem_iff]
        exact mem_append.1 hc

/-! ## A block's data arrives -/

/-- The first lines of `ReceivedBlockTransactions`. -/
def storeBlock (T : HeaderTree ι) (s : CChainState ι) (b : ι) : CChainState ι :=
  s.modify b fun i =>
    CBlockIndex.raiseValidity BLOCK_VALID_TRANSACTIONS { i with nTx := T.vtxSize b, nChainTx := 0, haveData := true }

/-- A block whose data has arrived before that of an ancestor, and that does not wait for it. -/
def Stranded (s : CChainState ι) (b : ι) : Prop :=
  (s.index b).haveData = true ∧ (s.index b).nChainTx = 0 ∧ b ∉ s.waiting

/-- A block whose data is about to arrive. -/
structure Arrives (T : HeaderTree ι) (s : CChainState ι) (b : ι) : Prop where
  mem : b ∈ s.mapBlockIndex
  valid : (s.index b).failed = false
  missing : (s.index b).haveData = false
  nonempty : 0 < T.vtxSize b

/-- `s'` is `s` with the data of `b`, not linked yet. -/
structure Stored (T : HeaderTree ι) (b : ι) (s s' : CChainState ι) : Prop where
  flags : ∀ c, (s'.index c).failedValid = (s.index c).failedValid ∧ (s'.index c).failedChild = (s.index c).failedChild
  haveData : ∀ c, (s'.index c).haveData = true ↔ c = b ∨ (s.index c).haveData = true
  nChainTx : ∀ c, (s'.index c).nChainTx = (s.index c).nChainTx
  nSequenceId : ∀ c, (s'.index c).nSequenceId = (s.index c).nSequenceId
  nValid : ∀ c, (s'.index c).nValid = (s.index c).nValid ∨
    (s.index c).nValid < BLOCK_VALID_TRANSACTIONS ∧ (s'.index c).nValid = BLOCK_VALID_TRANSACTIONS
  arrived : (s'.index b).nTx ≠ 0 ∧ BLOCK_VALID_TRANSACTIONS ≤ (s'.index b).nValid
  nTx : ∀ c, c ≠ b → (s'.index c).nTx = (s.index c).nTx

section Store

variable (h : s.Linked T) (hb : Arrives T s b)

include h hb

omit [LinearOrder ι] in
lemma Linked.nChainTx_of_arrives : (s.index b).nChainTx = 0 := by
  by_contra hne
  cases (h.data b hne).symm.trans hb.missing

omit [LinearOrder ι] in
lemma Linked.not_waiting_of_arrives : b ∉ s.waiting := fun hmem => by
  cases (h.unlinked b hmem).1.symm.trans hb.missing

lemma Linked.stored : Stored T b s (s.storeBlock T b) := by
  set i : CBlockIndex := { s.index b with nTx := T.vtxSize b, nChainTx := 0, haveData := true } with hi
  have hself : (s.storeBlock T b).index b = i.raiseValidity BLOCK_VALID_TRANSACTIONS := by
    rw [storeBlock, index_modify, if_pos rfl]
  have hother : ∀ c, c ≠ b → (s.storeBlock T b).index c = s.index c := fun c hc => by
    rw [storeBlock, index_modify, if_neg hc]
  have hvalid : i.failed = false := hb.valid
  obtain ⟨hdata, hntx, hchain, hseq⟩ := raiseValidity_data (i := i) (n := BLOCK_VALID_TRANSACTIONS)
  refine ⟨fun c => ?_, fun c => ?_, fun c => ?_, fun c => ?_, fun c => ?_, ?_, fun c hc => by rw [hother c hc]⟩
  · by_cases hcb : c = b
    · subst hcb
      rw [hself]
      exact ⟨i.failedValid_raiseValidity _, i.failedChild_raiseValidity _⟩
    · rw [hother c hcb]
      exact ⟨rfl, rfl⟩
  · by_cases hcb : c = b
    · subst hcb
      rw [hself, hdata]
      exact ⟨fun _ => .inl rfl, fun _ => rfl⟩
    · rw [hother c hcb]
      exact ⟨.inr, fun hc => hc.resolve_left hcb⟩
  · by_cases hcb : c = b
    · subst hcb
      rw [hself, hchain]
      exact (h.nChainTx_of_arrives hb).symm
    · rw [hother c hcb]
  · by_cases hcb : c = b
    · subst hcb
      rw [hself, hseq]
    · rw [hother c hcb]
  · by_cases hcb : c = b
    · subst hcb
      rw [hself, raiseValidity, if_neg (by simp [hvalid])]
      split_ifs with hlt
      · exact .inr ⟨hlt, rfl⟩
      · exact .inl rfl
    · rw [hother c hcb]
      exact .inl rfl
  · rw [hself, hntx]
    exact ⟨hb.nonempty.ne', le_raiseValidity hvalid⟩

lemma Linked.storeBlock : (s.storeBlock T b).Linked T := by
  have hf := h.stored hb
  have hlevel : ∀ c, (s.index c).nValid ≤ ((s.storeBlock T b).index c).nValid := fun c =>
    (hf.nValid c).elim Eq.ge fun hc => hc.2 ▸ hc.1.le
  refine ⟨fun c hc => ?_, fun c p hc hp => ?_, fun c hc => ?_, fun c hc => ?_, fun c hc => (h.tree c hc).trans (hlevel c),
    fun c hc => ?_, fun t ht => ?_, h.nodup, fun c hc => ?_, nofun, fun e he => ?_⟩
  · rw [hf.nChainTx] at hc
    exact (hf.haveData c).2 (.inr (h.data c hc))
  · rw [hf.nChainTx] at hc ⊢
    exact h.parent c p hc hp
  · by_cases hcb : c = b
    · exact hcb ▸ hf.arrived
    · have hc := ((hf.haveData c).1 hc).resolve_left hcb
      rw [hf.nTx c hcb]
      exact ⟨(h.level c hc).1, (h.level c hc).2.trans (hlevel c)⟩
  · rcases (hf.haveData c).1 hc with rfl | hc
    · exact hb.mem
    · exact h.known c hc
  · rw [hf.nChainTx]
    exact h.candidates c hc
  · rw [hf.nChainTx]
    exact h.active t ht
  · obtain ⟨hdata, hzero⟩ := h.unlinked c hc
    exact ⟨(hf.haveData c).2 (.inr hdata), (hf.nChainTx c).trans hzero⟩
  · rw [hf.nChainTx]
    exact h.waits e he

end Store

section

omit [LinearOrder ι]

lemma Linked.push (h : s.Linked T) (hdata : (s.index b).haveData = true) (hzero : (s.index b).nChainTx = 0)
    (hwait : b ∉ s.waiting) (hp : ∀ p, T.pprev b = some p → (s.index p).nChainTx ≠ 0) : LinkedWith T [b] s := by
  refine { h with nodup := nodup_cons.2 ⟨hwait, h.nodup⟩, unlinked := ?_, queue := ?_ }
  · rintro c (_ | ⟨_, hc⟩)
    · exact ⟨hdata, hzero⟩
    · exact h.unlinked c hc
  · intro c hc
    exact mem_singleton.1 hc ▸ hp

lemma mem_waiting_append : c ∈ waiting { s with mapBlocksUnlinked := s.mapBlocksUnlinked ++ [(p, b)] } ↔
    c ∈ s.waiting ∨ c = b := by
  simp [waiting]

lemma Linked.wait (h : s.Linked T) (hdata : (s.index b).haveData = true) (hzero : (s.index b).nChainTx = 0)
    (hwait : b ∉ s.waiting) (hp : T.pprev b = some p) (hpzero : (s.index p).nChainTx = 0) :
    Linked T { s with mapBlocksUnlinked := s.mapBlocksUnlinked ++ [(p, b)] } := by
  refine { h with nodup := ?_, unlinked := ?_, queue := nofun, waits := ?_ }
  · rw [nil_append, waiting, map_append]
    refine nodup_append.2 ⟨h.nodup, nodup_singleton b, ?_⟩
    rintro c hc d hd rfl
    cases mem_singleton.1 hd
    exact hwait hc
  · intro c hc
    rcases mem_waiting_append.1 hc with hc | rfl
    · exact h.unlinked c hc
    · exact ⟨hdata, hzero⟩
  · exact forall_mem_append.2 ⟨h.waits, forall_mem_singleton.2 ⟨hp, hpzero⟩⟩

end

/-- What the arrival of the data of `b` does to the state. -/
structure Received (T : HeaderTree ι) (b : ι) (s s' : CChainState ι) : Prop where
  map : s'.mapBlockIndex = s.mapBlockIndex
  failed : s'.g_failed_blocks = s.g_failed_blocks
  chain : s'.chainActive = s.chainActive
  flags : ∀ c, (s'.index c).failedValid = (s.index c).failedValid ∧ (s'.index c).failedChild = (s.index c).failedChild
  nValid : ∀ c, (s'.index c).nValid = (s.index c).nValid ∨
    (s.index c).nValid < BLOCK_VALID_TRANSACTIONS ∧ (s'.index c).nValid = BLOCK_VALID_TRANSACTIONS
  haveData : ∀ c, (s'.index c).haveData = true ↔ c = b ∨ (s.index c).haveData = true
  linked : ∀ c, (s.index c).nChainTx ≠ 0 →
    (s'.index c).nChainTx ≠ 0 ∧ (s'.index c).nSequenceId = (s.index c).nSequenceId
  candidates : ∀ c, c ∈ s'.setBlockIndexCandidates ↔ c ∈ s.setBlockIndexCandidates ∨
    ((s.index c).nChainTx = 0 ∧ (s'.index c).nChainTx ≠ 0 ∧ ∀ t, s.tip = some t → s'.workLess T c t = false)
  stranded : ∀ c, s'.Stranded c → s.Stranded c ∨
    (c = b ∧ ∃ p, T.pprev b = some p ∧ (s.index p).failed = true ∧ (s.index p).nChainTx = 0)

lemma Stored.received {s₁ : CChainState ι} (hst : Stored T b s s₁)
    (hrest : s₁.mapBlockIndex = s.mapBlockIndex ∧ s₁.g_failed_blocks = s.g_failed_blocks ∧ s₁.chainActive = s.chainActive ∧
      s₁.setBlockIndexCandidates = s.setBlockIndexCandidates)
    (hlinks : Links T s₁ s') (hstr : ∀ c, s'.Stranded c → s.Stranded c ∨
      (c = b ∧ ∃ p, T.pprev b = some p ∧ (s.index p).failed = true ∧ (s.index p).nChainTx = 0)) :
    Received T b s s' := by
  obtain ⟨hmap, hfailed, hchain, hcand⟩ := hrest
  refine ⟨hlinks.map.trans hmap, hlinks.failed.trans hfailed, hlinks.chain.trans hchain,
    fun c => ⟨(hlinks.flags c).1.trans (hst.flags c).1, (hlinks.flags c).2.trans (hst.flags c).2⟩, fun c => ?_,
    fun c => ?_, fun c hc => ?_, fun c => ?_, hstr⟩
  · rw [hlinks.nValid]
    exact hst.nValid c
  · rw [hlinks.haveData]
    exact hst.haveData c
  · have hc₁ : (s₁.index c).nChainTx ≠ 0 := (hst.nChainTx c).trans_ne hc
    rw [hlinks.linked c hc₁]
    exact ⟨hc₁, hst.nSequenceId c⟩
  · have htip : s₁.tip = s.tip := congrArg CChain.tip hchain
    rw [hlinks.candidates, hcand, hst.nChainTx, htip]

lemma receivedBlockTransactions_ok (hwf : s.WellFormed T) (h : s.Linked T) (hb : Arrives T s b) :
    ∃ s', s.receivedBlockTransactions T b = .ok s' ∧ s'.Linked T ∧ Received T b s s' := by
  have h₁ := h.storeBlock hb
  have hst := h.stored hb
  have hdata : ((s.storeBlock T b).index b).haveData = true := (hst.haveData b).2 (.inl rfl)
  have hzero : ((s.storeBlock T b).index b).nChainTx = 0 := (hst.nChainTx b).trans (h.nChainTx_of_arrives hb)
  have hwait := h.not_waiting_of_arrives hb
  -- what is stranded in between is `b` or was stranded before
  have hstr : ∀ c, (s.storeBlock T b).Stranded c → c = b ∨ s.Stranded c := by
    rintro c ⟨hcd, hcz, hcw⟩
    exact ((hst.haveData c).1 hcd).imp_right fun hcd => ⟨hcd, (hst.nChainTx c).symm.trans hcz, hcw⟩
  have hrun : s.receivedBlockTransactions T b =
      if (T.pprev b).all fun p => ((s.storeBlock T b).index p).nChainTx ≠ 0 then
        linkQueue T (s.mapBlocksUnlinked.length + 1) [b] (s.storeBlock T b)
      else .ok { s.storeBlock T b with
        mapBlocksUnlinked := s.mapBlocksUnlinked ++
          (((T.pprev b).filter fun p => ((s.storeBlock T b).index p).isValid BLOCK_VALID_TREE).map (·, b)).toList } := rfl
  rw [hrun]
  split_ifs with hall
  · have hq : LinkedWith T [b] (s.storeBlock T b) := by
      refine h₁.push hdata hzero hwait fun p hp => ?_
      rw [hp] at hall
      simpa using hall
    have hfuel : [b].length + (s.storeBlock T b).waiting.length ≤ s.mapBlocksUnlinked.length + 1 := by
      show 1 + (s.mapBlocksUnlinked.map snd).length ≤ _
      rw [length_map]
      omega
    obtain ⟨s', hok, hlinked, hlinks, hqueue⟩ := linkQueue_ok hq hfuel
    refine ⟨s', hok, hlinked, hst.received ⟨rfl, rfl, rfl, rfl⟩ hlinks ?_⟩
    rintro c ⟨hcd, hcz, hcw⟩
    rw [hlinks.haveData] at hcd
    have hcz₁ : ((s.storeBlock T b).index c).nChainTx = 0 := by
      by_contra hne
      exact hne (hlinks.linked c hne ▸ hcz)
    have hnot : c ∉ [b] ++ (s.storeBlock T b).waiting := fun hmem => hcw (hqueue c hmem hcz)
    rw [mem_append, not_or, mem_singleton] at hnot
    exact .inl ((hstr c ⟨hcd, hcz₁, hnot.2⟩).resolve_left hnot.1)
  · obtain ⟨p, hp, hpz⟩ : ∃ p, T.pprev b = some p ∧ ((s.storeBlock T b).index p).nChainTx = 0 := by
      cases hp : T.pprev b with
      | none => simp [hp] at hall
      | some p => exact ⟨p, rfl, by simpa [hp] using hall⟩
    have hpz' := (hst.nChainTx p).symm.trans hpz
    have hpf : ((s.storeBlock T b).index p).failed = (s.index p).failed := by
      rw [failed, failed, (hst.flags p).1, (hst.flags p).2]
    rw [hp]
    cases hv : ((s.storeBlock T b).index p).isValid BLOCK_VALID_TREE with
    | true =>
      simp only [filter_some, hv]
      refine ⟨_, rfl, h₁.wait hdata hzero hwait hp hpz, hst.received ⟨rfl, rfl, rfl, rfl⟩ (.of_unlinked _ _) ?_⟩
      rintro c ⟨hcd, hcz, hcw⟩
      have hcw : ¬ (c ∈ (s.storeBlock T b).waiting ∨ c = b) := fun hc => hcw (mem_waiting_append.2 hc)
      rw [not_or] at hcw
      exact .inl ((hstr c ⟨hcd, hcz, hcw.1⟩).resolve_left hcw.2)
    | false =>
      simp only [filter_some, hv, Bool.false_eq_true, if_false, map_none, toList_none, append_nil]
      refine ⟨_, rfl, h₁, hst.received ⟨rfl, rfl, rfl, rfl⟩ (.refl _) fun c hc => ?_⟩
      rcases hstr c hc with rfl | hc
      · -- a known parent is below the level of a header only when it has failed
        refine .inr ⟨rfl, p, hp, ?_, hpz'⟩
        have htree := h₁.tree p (hwf.closed c hb.mem p (T.forest.parent_mem_path hp))
        rw [isValid, Bool.and_eq_false_iff, hpf] at hv
        rcases hv with hv | hv
        · simpa using hv
        · exact absurd htree (of_decide_eq_false hv)
      · exact .inl hc

/-! ## New headers -/

lemma Linked.addToBlockIndex_data (h : s.Linked T) (b c : ι) :
    ((s.addToBlockIndex b).index c).haveData = (s.index c).haveData ∧
      ((s.addToBlockIndex b).index c).nChainTx = (s.index c).nChainTx := by
  by_cases hnew : b ∈ s.mapBlockIndex
  · rw [CChainState.addToBlockIndex, if_pos hnew]
    exact ⟨rfl, rfl⟩
  rw [index_addToBlockIndex hnew]
  split_ifs with heq
  · have hdata : (s.index b).haveData = false := Bool.eq_false_of_not_eq_true fun hd => hnew (h.known b hd)
    have hzero : (s.index b).nChainTx = 0 := by
      by_contra hne
      cases (h.data b hne).symm.trans hdata
    rw [heq, hdata, hzero]
    exact ⟨rfl, rfl⟩
  · exact ⟨rfl, rfl⟩

lemma Linked.addToBlockIndex (h : s.Linked T) (b : ι) : (s.addToBlockIndex b).Linked T := by
  by_cases hnew : b ∈ s.mapBlockIndex
  · rw [CChainState.addToBlockIndex, if_pos hnew]
    exact h
  have hindex := index_addToBlockIndex hnew
  have hsame := h.addToBlockIndex_data b
  obtain ⟨hcand, hunl, -, -, hchain⟩ := s.addToBlockIndex_rest b
  have hwait : (s.addToBlockIndex b).waiting = s.waiting := congrArg (List.map snd) hunl
  refine ⟨fun c hc => ?_, fun c p hc hp => ?_, fun c hc => ?_, fun c hc => ?_, fun c hc => ?_, fun c hc => ?_, fun t ht => ?_,
    hwait ▸ h.nodup, fun c hc => ?_, fun _ hc => (by cases hc), fun e he => ?_⟩
  · rw [(hsame c).2] at hc
    rw [(hsame c).1]
    exact h.data c hc
  · rw [(hsame c).2] at hc
    rw [(hsame p).2]
    exact h.parent c p hc hp
  · rw [(hsame c).1] at hc
    rw [index_addToBlockIndex_of_mem (h.known c hc)]
    exact h.level c hc
  · rw [(hsame c).1] at hc
    exact mem_addToBlockIndex.2 (.inl (h.known c hc))
  · rw [hindex]
    split_ifs with hne
    · decide
    · exact h.tree c ((mem_addToBlockIndex.1 hc).resolve_right hne)
  · rw [(hsame c).2]
    exact h.candidates c (hcand ▸ hc)
  · rw [(hsame t).2]
    exact h.active t ((congrArg CChain.tip hchain).symm.trans ht)
  · rw [(hsame c).1, (hsame c).2]
    exact h.unlinked c (hwait ▸ hc)
  · rw [(hsame e.1).2]
    exact h.waits e (hunl ▸ he)

end CChainState

end Soferox
