import Soferox.Chain.BestChain

/-!
# Headers on invalid blocks

`AcceptBlockHeader` rejects a header whose parent carries a mark, and otherwise looks for an ancestor in
`g_failed_blocks`, unless the parent has been connected before. `Guarded` is what makes that enough: an unmarked block
above one that has failed has such an ancestor, and has never been connected.

* `Guarded.run` — every call keeps it, except that `AcceptBlock` may mark a block with known children, and
  `InvalidateBlock` may leave a descendant unmarked that was connected earlier (`Guards`);
* `headers_guarded` — under that condition no header is added above a block marked earlier.
-/

namespace Soferox

open Lib CBlockIndex

namespace CChainState

variable {ι : Type} [LinearOrder ι] {T : HeaderTree ι} {s s' : CChainState ι} {a b f p t t' x : ι} {op : ChainOp ι}

/-! ## The invariant -/

variable (T) in
/-- What `AcceptBlockHeader` relies on. -/
structure Guarded (s : CChainState ι) : Prop where
  active : ∀ t, s.tip = some t → s.ValidUpTo T t
  /-- blocks that were connected can be connected -/
  scripts : ∀ b, BLOCK_VALID_SCRIPTS ≤ (s.index b).nValid → ∀ a ∈ T.path b, T.connectBlock a = true
  guarded : ∀ b ∈ s.mapBlockIndex, (s.index b).failed = false → ∀ a ∈ T.path b, (s.index a).failedValid = true →
    (∃ d ∈ T.path b, d ∈ s.g_failed_blocks) ∧ (s.index b).nValid < BLOCK_VALID_SCRIPTS

lemma guarded_started (T : HeaderTree ι) : (started T).Guarded T := by
  refine ⟨fun t ht => ((anchored_started T).active t ht).1, fun b hb => ?_, fun b hb _ a ha hv => ?_⟩
  · rw [index_started] at hb
    split at hb
    · exact absurd hb (by decide : ¬ BLOCK_VALID_SCRIPTS ≤ BLOCK_VALID_TRANSACTIONS)
    · exact absurd hb (by decide : ¬ BLOCK_VALID_SCRIPTS ≤ 0)
  · rw [index_started] at hv
    split at hv <;> cases hv

section

variable (h : s.Guarded T)
include h

omit [LinearOrder ι] in
/-- Where nothing but child marks and levels below `BLOCK_VALID_SCRIPTS` changes. -/
theorem Guarded.of_spread (hmap : s'.mapBlockIndex = s.mapBlockIndex)
    (hfailed : s'.g_failed_blocks = s.g_failed_blocks)
    (hvalid : ∀ c, (s'.index c).failedValid = (s.index c).failedValid)
    (hmono : ∀ c, (s.index c).failed = true → (s'.index c).failed = true)
    (hlevel : ∀ c, BLOCK_VALID_SCRIPTS ≤ (s'.index c).nValid → BLOCK_VALID_SCRIPTS ≤ (s.index c).nValid)
    (hactive : ∀ t, s'.tip = some t → s'.ValidUpTo T t) : s'.Guarded T := by
  refine ⟨hactive, fun b hb => h.scripts b (hlevel b hb), fun b hb hgood a ha hv => ?_⟩
  have hgood' : (s.index b).failed = false :=
    Bool.eq_false_of_not_eq_true fun hf => by cases (hmono b hf).symm.trans hgood
  obtain ⟨⟨d, hd, hdf⟩, hlt⟩ := h.guarded b (hmap ▸ hb) hgood' a ha (hvalid a ▸ hv)
  exact ⟨⟨d, hd, hfailed ▸ hdf⟩, not_le.1 fun hge => hlt.not_ge (hlevel b hge)⟩

omit [LinearOrder ι] in
lemma Guarded.found (hf : Found T s s') : s'.Guarded T := by
  have hindex : ∀ c, (s'.index c).failedValid = (s.index c).failedValid ∧ (s'.index c).nValid = (s.index c).nValid :=
    fun c => by
      rcases hf.index c with heq | ⟨heq, -⟩ <;> rw [heq] <;> exact ⟨rfl, rfl⟩
  exact h.of_spread hf.map hf.failed (fun c => (hindex c).1) (fun c => hf.failed_mono) (fun c hc => (hindex c).2 ▸ hc)
    fun t ht => (h.active t (hf.tip ▸ ht)).found hf

/-! ## Activation -/

lemma Guarded.climb (ht : s.tip = some t)
    (husable : ∀ a ∈ T.path b, a ∈ T.path t ∨ (s.index a).failed = false) (hf : IsFork T t b f)
    (hc : Climb T f t' (s.atTip T f) s') (ht' : t' ∈ T.path b) : s'.Guarded T := by
  have hvalid := (h.active t ht).climb husable hf hc ht'
  -- a block that was connected is on the new chain
  have hlevel : ∀ c, c ∉ T.path t' → s'.index c = s.index c := fun c hc' => by
    rw [hc.index, if_neg fun hmem => hc' hmem.1]
    rfl
  refine ⟨fun u hu => ?_, fun c hc' a ha => ?_, fun c hcm hgood a ha hv => ?_⟩
  · cases hc.tip.symm.trans hu
    exact hvalid
  · by_cases hmem : c ∈ T.path t'
    · exact (hvalid a (T.forest.path_trans hmem ha)).2
    · exact h.scripts c (hlevel c hmem ▸ hc') a ha
  · by_cases hmem : c ∈ T.path t'
    · have hgood' := (hvalid a (T.forest.path_trans hmem ha)).1
      rw [failed, hv] at hgood'
      cases hgood'
    · rw [hlevel c hmem] at hgood ⊢
      rw [(hc.flags a).1] at hv
      rw [hc.map] at hcm
      rw [hc.failed]
      exact h.guarded c hcm hgood a ha hv

lemma Guarded.reject (hx : T.connectBlock x = false) : (s.reject x).Guarded T := by
  have hlevel : ∀ c, ((s.reject x).index c).nValid = (s.index c).nValid := fun c => by
    rw [index_reject]
    split_ifs with heq
    · rw [heq]
      rfl
    · rfl
  refine ⟨fun t ht => (h.active t ht).reject hx, fun c hc => h.scripts c (hlevel c ▸ hc), fun c hc hgood a ha hv => ?_⟩
  · have hcx : c ≠ x := by
      rintro rfl
      rw [index_reject, if_pos rfl] at hgood
      cases hgood
    rw [hlevel]
    by_cases hax : a = x
    · subst hax
      refine ⟨⟨a, ha, mem_reject_failed.2 (.inl rfl)⟩, not_le.1 fun hge => ?_⟩
      cases (h.scripts c hge a ha).symm.trans hx
    · rw [index_reject, if_neg hcx] at hgood
      rw [index_reject, if_neg hax] at hv
      obtain ⟨⟨d, hd, hdf⟩, hlt⟩ := h.guarded c hc hgood a ha hv
      exact ⟨⟨d, hd, mem_reject_failed.2 (.inr hdf)⟩, hlt⟩

lemma Guarded.round (hr : Round T s s') : s'.Guarded T := by
  cases hr with
  | find hf => exact h.found hf
  | step t b f r ht hb husable hf hout =>
    cases hout with
    | running hc => exact h.climb ht husable hf hc (T.forest.self_mem_path b)
    | better t' hc ht' => exact h.climb ht husable hf hc ht'
    | invalid t' z hc hz hp hcon =>
      exact (h.climb ht husable hf hc (T.forest.path_trans hz (T.forest.parent_mem_path hp))).reject hcon

end

/-! ## Headers and blocks -/

lemma failedAncestor_none {l : List ι} (h : s.failedAncestor T b l = .ok none) : ∀ a ∈ l, a ∉ T.path b := by
  induction l with
  | nil => exact nofun
  | cons d l ih =>
    rw [failedAncestor] at h
    split at h
    · split at h <;> cases h
    · rename_i hnot
      exact List.forall_mem_cons.2 ⟨fun hab => hnot (getAncestor_eq_self_iff.2 hab), ih h⟩

variable (T) in
/-- A new header has no marked ancestor. -/
def NewUnmarked (s s' : CChainState ι) : Prop :=
  ∀ b ∈ s'.mapBlockIndex, b ∉ s.mapBlockIndex → ∀ a ∈ T.path b, a ≠ b → (s.index a).failedValid = false

section

variable (h : s.Guarded T) (hwf : s.WellFormed T)
include h hwf

lemma Guarded.addToBlockIndex (hnew : b ∉ s.mapBlockIndex)
    (hp : T.pprev b = some p) (hpm : p ∈ s.mapBlockIndex) (hclean : ∀ a ∈ T.path p, (s.index a).failedValid = false) :
    (s.addToBlockIndex b).Guarded T := by
  obtain ⟨-, -, -, hfailed, hchain⟩ := s.addToBlockIndex_rest b
  have hold : ∀ c ∈ s.mapBlockIndex, (s.addToBlockIndex b).index c = s.index c := fun _ => index_addToBlockIndex_of_mem
  refine ⟨fun t ht => ?_, fun c hc => ?_, fun c hc hgood a ha hv => ?_⟩
  · have ht : s.tip = some t := (congrArg CChain.tip hchain).symm.trans ht
    exact (h.active t ht).addToBlockIndex hwf (hwf.tip_mem_map ht) b
  · rw [index_addToBlockIndex hnew] at hc
    split at hc
    · exact absurd hc (by decide)
    · exact h.scripts c hc
  · rcases mem_addToBlockIndex.1 hc with hc | rfl
    · rw [hold c hc] at hgood ⊢
      rw [hold a (hwf.closed c hc a ha)] at hv
      rw [hfailed]
      exact h.guarded c hc hgood a ha hv
    · rcases T.forest.mem_path_iff.1 ha with rfl | ⟨q, hq, haq⟩
      · rw [index_addToBlockIndex hnew, if_pos rfl] at hv
        cases hv
      · cases hp.symm.trans hq
        rw [hold a (hwf.closed p hpm a haq)] at hv
        cases hv.symm.trans (hclean a haq)

lemma Guarded.acceptBlockHeader {check contextual r : Bool} (hrun : s.acceptBlockHeader T b check contextual = .ok (r, s')) : s'.Guarded T ∧ NewUnmarked T s s' := by
  rcases acceptBlockHeader_cases hrun with ⟨rfl, -⟩ | ⟨-, rfl, rfl⟩ | ⟨-, hnew, rfl, p, hpm, hp, hgood, hscan⟩ |
    ⟨-, p, -, a, -, hap, hv, rfl⟩
  · exact ⟨h, fun c hc hnot => absurd hc hnot⟩
  · rw [CChainState.addToBlockIndex, if_pos hwf.genesis_mem]
    exact ⟨h, fun c hc hnot => absurd hc hnot⟩
  · have hclean : ∀ a ∈ T.path p, (s.index a).failedValid = false := by
      intro a ha
      refine Bool.eq_false_of_not_eq_true fun hv => ?_
      obtain ⟨⟨d, hd, hdf⟩, hlt⟩ := h.guarded p hpm hgood a ha hv
      rcases hscan with hscripts | hnone
      · rw [isValid, Bool.and_eq_true, decide_eq_true_eq] at hscripts
        exact hlt.not_ge hscripts.2
      · exact failedAncestor_none hnone d hdf hd
    refine ⟨h.addToBlockIndex hwf hnew hp hpm hclean, fun c hc hnot a ha hne => ?_⟩
    obtain rfl := (mem_addToBlockIndex.1 hc).resolve_left hnot
    rcases T.forest.mem_path_iff.1 ha with rfl | ⟨q, hq, haq⟩
    · exact absurd rfl hne
    · cases hp.symm.trans hq
      exact hclean a haq
  · have hf := found_markPath hap ((failed_eq_true _).2 (.inl hv))
    exact ⟨h.found hf, fun c hc hnot => absurd (hf.map ▸ hc) hnot⟩

/-- A mark on a block without known children is above everything. -/
theorem Guarded.failValid (hl : s.Linked T) (hdata : (s.index b).haveData = false)
    (hleaf : ∀ c ∈ s.mapBlockIndex, T.pprev c ≠ some b) : (s.modify b CBlockIndex.failValid).Guarded T := by
  have hlevel : ∀ c, ((s.modify b CBlockIndex.failValid).index c).nValid = (s.index c).nValid := fun c => by
    rw [index_modify]
    split_ifs with heq
    · rw [heq]
      rfl
    · rfl
  refine ⟨fun t ht => (h.active t ht).failValid hl (hl.active t ht) hdata, fun c hc => h.scripts c (hlevel c ▸ hc),
    fun c hc hgood a ha hv => ?_⟩
  · have hcb : c ≠ b := by
      rintro rfl
      rw [index_modify, if_pos rfl] at hgood
      cases hgood
    have hab : a ≠ b := by
      rintro rfl
      obtain ⟨d, hd, hda⟩ := T.forest.exists_child_of_mem_path ha hcb.symm
      exact hleaf d (hwf.closed c hc d hd) hda
    rw [index_modify, if_neg hcb] at hgood
    rw [index_modify, if_neg hab] at hv
    rw [hlevel]
    exact h.guarded c hc hgood a ha hv

omit hwf in
lemma Guarded.received (hr : Received T b s s') : s'.Guarded T := by
  have htip : s'.tip = s.tip := congrArg CChain.tip hr.chain
  refine h.of_spread hr.map hr.failed (fun c => (hr.flags c).1) (fun c hc => (hr.failed_eq c).trans hc) (fun c hc => ?_)
    fun t ht => (h.active t (htip ▸ ht)).received hr
  rcases hr.nValid c with heq | ⟨-, heq⟩
  · rwa [← heq]
  · rw [heq] at hc
    exact absurd hc (by decide)

/-! ## Manual invalidation -/

variable (T) in
/-- The descendants of `q` that were connected earlier are marked or active. -/
def ConnectedCovered (q : ι) (s : CChainState ι) : Prop :=
  ∀ b ∈ s.mapBlockIndex, q ∈ T.path b → b ≠ q → BLOCK_VALID_SCRIPTS ≤ (s.index b).nValid →
    (s.index b).failed = true ∨ s.isActive T b = true

lemma Guarded.invalidated {u : ι} (ht : s.tip = some t)
    (hi : Invalidated T p t u s s') (hcovered : ConnectedCovered T p s) : s'.Guarded T := by
  have hindex : ∀ c, (s'.index c).nValid = (s.index c).nValid ∧
      ((s.index c).failed = true → (s'.index c).failed = true) ∧
      (c ≠ p → (s'.index c).failedValid = (s.index c).failedValid) := by
    intro c
    rw [hi.index]
    refine ⟨?_, fun hf => ?_, fun hne => ?_⟩
    · split_ifs <;> rfl
    · rw [failed_eq_true] at hf ⊢
      split_ifs <;> simp [CBlockIndex.failValid, CBlockIndex.failChild, hf]
    · split_ifs <;> rfl
  refine ⟨fun v hv => ?_, fun c hc => h.scripts c ((hindex c).1 ▸ hc), fun c hc hgood a ha hv => ?_⟩
  · cases hi.chain.tip.symm.trans hv
    exact (h.active t ht).invalidated hi
  rw [hi.map] at hc
  rw [(hindex c).1]
  have hold : (s.index c).failed = false :=
    Bool.eq_false_of_not_eq_true fun hf => by cases ((hindex c).2.1 hf).symm.trans hgood
  by_cases hap : a = p
  · subst hap
    refine ⟨⟨a, ha, (hi.failed a).2 (.inl rfl)⟩, not_le.1 fun hge => ?_⟩
    have hca : c ≠ a := by
      rintro rfl
      rw [hi.index] at hgood
      rw [if_pos rfl] at hgood
      cases hgood
    rcases hcovered c hc ha hca hge with hf | hact
    · cases hf.symm.trans hold
    · -- an active descendant is marked as a child
      have hmark := hi.index c
      rw [if_neg hca, if_pos ⟨(hwf.isActive_iff ht).1 hact, ha, hca.symm⟩] at hmark
      rw [hmark] at hgood
      cases (Bool.or_true _).symm.trans hgood
  · obtain ⟨⟨d, hd, hdf⟩, hlt⟩ := h.guarded c hc hold a ha ((hindex a).2.2 hap ▸ hv)
    exact ⟨⟨d, hd, (hi.failed d).2 (.inr hdf)⟩, hlt⟩

end

/-! ## Runs -/

variable (T) in
/-- The calls that keep the guard: `AcceptBlock` marks no block with known children, `InvalidateBlock` covers the
descendants connected earlier, and no block is reconsidered. -/
def Guards (s : CChainState ι) : ChainOp ι → Prop
  | .acceptBlock hash arrival => (arrival.checkBlock = .invalid ∨ T.vtxSize hash = 0) → (s.index hash).haveData = false →
    ∀ c ∈ s.mapBlockIndex, T.pprev c ≠ some hash
  | .invalidateBlock q => q ∈ s.mapBlockIndex → ConnectedCovered T q s
  | .invalidBlockFound _ | .resetBlockFailureFlags _ => False
  | .acceptBlockHeader .. | .findMostWorkChain | .activateBestChain _ => True

section

variable (hs : s.Sane T) (hop : Guards T s op) (hrun : op.run T s = .ok s')
include hs hop hrun

lemma Guarded.run (h : s.Guarded T) : s'.Guarded T ∧ NewUnmarked T s s' := by
  have hnew : s'.mapBlockIndex = s.mapBlockIndex → NewUnmarked T s s' := fun hmap c hc hnot => absurd (hmap ▸ hc) hnot
  obtain ⟨hwf, hl⟩ := hs
  cases ChainOp.ran ⟨hwf, hl⟩ hrun with
  | idle => exact ⟨h, hnew rfl⟩
  | header _ hhead => exact h.acceptBlockHeader hwf hhead
  | @malformed hash arrival s₁ hhead hverdict hdata =>
    obtain ⟨h₁, hnew₁⟩ := h.acceptBlockHeader hwf hhead
    refine ⟨h₁.failValid (kept_acceptBlockHeader hwf hhead).wf (linked_acceptBlockHeader hl hhead) hdata ?_, hnew₁⟩
    obtain rfl := acceptBlockHeader_accepted hhead
    rw [(hl.addToBlockIndex_data hash hash).1] at hdata
    intro c hc
    rcases mem_addToBlockIndex.1 hc with hc | rfl
    · exact hop hverdict hdata c hc
    · intro hself
      have := T.forest.depth_of_parent hself
      omega
  | received hhead _ hreceived =>
    obtain ⟨h₁, hnew₁⟩ := h.acceptBlockHeader hwf hhead
    exact ⟨h₁.received hreceived, fun c hc => hnew₁ c (hreceived.map ▸ hc)⟩
  | found hfound => exact ⟨h.found hfound, hnew hfound.map⟩
  | activated hact => exact ⟨(hact.keep hwf hl h fun _ _ _ _ hr h => h.round hr).2.2, hnew hact.sameData.map⟩
  | undone =>
    obtain ⟨t, -, ht⟩ := hwf.tip_mem
    refine ⟨⟨fun v hv => ?_, h.scripts, h.guarded⟩, hnew rfl⟩
    cases (tip_atTip s T.genesis).symm.trans hv
    exact (h.active t ht).mono (genesis_mem_path T t)
  | invalidated hp ht hinv => exact ⟨h.invalidated hwf ht hinv (hop hp), hnew hinv.map⟩
  | rejected => exact hop.elim
  | reset => exact hop.elim

lemma failedValid_mono
    (ha : a ∈ s.mapBlockIndex ∧ (s.index a).failedValid = true) : a ∈ s'.mapBlockIndex ∧ (s'.index a).failedValid = true := by
  rcases ChainOp.kept hs hrun with hk | ⟨p, -, rfl, -⟩
  · exact ⟨hk.mem a ha.1, hk.valid a ha.1 ha.2⟩
  · exact hop.elim

end

/-- **No header is built on a known-invalid block**: where the calls of a run keep the guard, none adds a header above
a block marked `BLOCK_FAILED_VALID` before. -/
theorem headers_guarded (T : HeaderTree ι) {ops₁ ops₂ : List (ChainOp ι)} {op : ChainOp ι} {s₁ s₂ s₃ : CChainState ι}
    (hops : Meets (ChainOp.run T) (Guards T) (started T) (ops₁ ++ (ops₂ ++ [op])))
    (h₁ : ops₁.foldlM (ChainOp.run T) (started T) = .ok s₁) (h₂ : ops₂.foldlM (ChainOp.run T) s₁ = .ok s₂)
    (h₃ : op.run T s₂ = .ok s₃) : startUp T = .ok (started T) ∧ ∀ b ∈ s₃.mapBlockIndex, b ∉ s₂.mapBlockIndex →
      ∀ a ∈ T.path b, a ≠ b → a ∈ s₁.mapBlockIndex → (s₁.index a).failedValid = false := by
  refine ⟨startUp_eq T, fun b hb hnew a hab hne ha => ?_⟩
  obtain ⟨hops₁, hrest⟩ := hops.append h₁
  obtain ⟨hops₂, hlast⟩ := hrest.append h₂
  have hstep : ∀ s op s', s.Sane T ∧ s.Guarded T → Guards T s op → op.run T s = .ok s' → s'.Sane T ∧ s'.Guarded T :=
    fun s op s' h hop hrun => ⟨h.1.run hrun, (h.2.run h.1 hop hrun).1⟩
  have hinv₁ := hops₁.foldlM hstep ⟨sane_started T, guarded_started T⟩ h₁
  have hinv₂ := hops₂.foldlM hstep hinv₁ h₂
  refine Bool.eq_false_of_not_eq_true fun hv => ?_
  -- the mark is still there when the header arrives
  have hmark := hops₂.foldlM (I := fun s => s.Sane T ∧ a ∈ s.mapBlockIndex ∧ (s.index a).failedValid = true)
    (fun s op s' h hop hrun => ⟨h.1.run hrun, failedValid_mono h.1 hop hrun h.2⟩) ⟨hinv₁.1, ha, hv⟩ h₂
  have hclean := (hinv₂.2.run hinv₂.1 hlast.1 h₃).2 b hb hnew a hab hne
  cases hmark.2.2.symm.trans hclean

section Decidable

variable [Fintype ι]

instance : Decidable (ConnectedCovered T p s) :=
  inferInstanceAs (Decidable (∀ b ∈ s.mapBlockIndex, p ∈ T.path b → b ≠ p → BLOCK_VALID_SCRIPTS ≤ (s.index b).nValid →
    (s.index b).failed = true ∨ s.isActive T b = true))

instance : (op : ChainOp ι) → Decidable (Guards T s op)
  | .acceptBlock hash arrival => inferInstanceAs (Decidable ((arrival.checkBlock = .invalid ∨ T.vtxSize hash = 0) →
      (s.index hash).haveData = false → ∀ c ∈ s.mapBlockIndex, T.pprev c ≠ some hash))
  | .invalidateBlock q => inferInstanceAs (Decidable (q ∈ s.mapBlockIndex → ConnectedCovered T q s))
  | .invalidBlockFound _ | .resetBlockFailureFlags _ => instDecidableFalse
  | .acceptBlockHeader .. | .findMostWorkChain | .activateBestChain _ => instDecidableTrue

end Decidable

/-- A block that fails `CheckBlock`. -/
def Arrival.malformed : Arrival := ⟨true, true, .invalid, true, 0⟩

/-- Two chains on the genesis block: blocks 1 to 3, and blocks 4 to 6. -/
def twoChains : HeaderTree (Fin 7) :=
  .small ![none, some 0, some 1, some 2, some 0, some 4, some 5] ![0, 1, 2, 3, 1, 2, 3] (fun _ => true) (by decide)
    (by decide) rfl

/-- Block 1 fails `CheckBlock`, and then the header of another block on the genesis block arrives. -/
theorem headers_guarded_twoChains :
    Meets (ChainOp.run twoChains) (Guards twoChains) (started twoChains)
      ([.acceptBlock 1 .malformed] ++ ([] ++ [.acceptBlockHeader 4 true true])) ∧
    ∃ s₁ s₂, [ChainOp.acceptBlock 1 .malformed].foldlM (ChainOp.run twoChains) (started twoChains) = .ok s₁ ∧
      ChainOp.run twoChains s₁ (.acceptBlockHeader 4 true true) = .ok s₂ ∧ (s₁.index 1).failedValid = true ∧
      4 ∈ s₂.mapBlockIndex ∧ ∀ b ∈ s₂.mapBlockIndex, b ∉ s₁.mapBlockIndex → ∀ a ∈ twoChains.path b, a ≠ b →
        a ∈ s₁.mapBlockIndex → (s₁.index a).failedValid = false := by
  obtain ⟨s₁, h₁, hv, s₂, h₂, hmem⟩ : ∃ s₁, [ChainOp.acceptBlock 1 .malformed].foldlM (ChainOp.run twoChains)
      (started twoChains) = .ok s₁ ∧ (s₁.index 1).failedValid = true ∧
      ∃ s₂, ChainOp.run twoChains s₁ (.acceptBlockHeader 4 true true) = .ok s₂ ∧ 4 ∈ s₂.mapBlockIndex := by
    decide +kernel
  refine ⟨?hops, s₁, s₂, h₁, h₂, hv, hmem, (headers_guarded twoChains ?hops h₁ rfl h₂).2⟩
  decide +kernel

/-- Block 1 fails `CheckBlock` when the header of block 2 is known already, and the header of block 3 arrives. -/
def headerAboveMalformed : List (ChainOp (Fin 4)) :=
  [.acceptBlockHeader 1 true true, .acceptBlockHeader 2 true true, .acceptBlock 1 .malformed]

/-- Blocks 1 and 2 are connected and then reorganised away, and block 1 is invalidated. -/
def headerAboveInvalidated : List (ChainOp (Fin 7)) :=
  [.acceptBlock 1 .requested, .acceptBlock 2 .requested, .activateBestChain fun _ => false, .acceptBlock 4 .requested,
    .acceptBlock 5 .requested, .acceptBlock 6 .requested, .activateBestChain fun _ => false, .invalidateBlock 1]

/-- In both runs the header of block 3 is accepted although block 1 below it is marked. -/
theorem headers_unguarded :
    (∃ s, headerAboveMalformed.foldlM (ChainOp.run line) (started line) = .ok s ∧ (s.index 1).failedValid = true ∧
      1 ∈ line.path 3 ∧ 3 ∉ s.mapBlockIndex ∧
      ∃ s', ChainOp.run line s (.acceptBlockHeader 3 true true) = .ok s' ∧ 3 ∈ s'.mapBlockIndex) ∧
    ∃ s, headerAboveInvalidated.foldlM (ChainOp.run twoChains) (started twoChains) = .ok s ∧
      (s.index 1).failedValid = true ∧ 1 ∈ twoChains.path 3 ∧ 3 ∉ s.mapBlockIndex ∧
      ∃ s', ChainOp.run twoChains s (.acceptBlockHeader 3 true true) = .ok s' ∧ 3 ∈ s'.mapBlockIndex := by
  refine ⟨?_, ?_⟩ <;> decide +kernel

end CChainState

end Soferox
