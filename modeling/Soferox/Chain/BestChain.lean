import Soferox.Chain.FailureRuns

/-!
# The best chain is active

`setBlockIndexCandidates` does not hold every block that could be connected: blocks below the tip are dropped, and a
reorganisation that fails half way leaves a tip that is lower than the one they were compared with. What survives all
of that is `Anchored`: there is a candidate whose chain is valid and from which on no candidate is missing.

* `Anchored.round` — one round of `ActivateBestChain` keeps such a candidate or finds a better one;
* `Anchored.run` — so do the other calls, `ResetBlockFailureFlags` under a condition;
* `activateBestChain_best` — after any arrivals, `ActivateBestChain` ends at the best valid chain;
* `candidates_complete` — with manual changes of validity in between, no candidate is missing after it.
-/

namespace Soferox

open Lib CBlockIndex List

namespace CChainState

variable {ι : Type} [LinearOrder ι] {T : HeaderTree ι} {s s' : CChainState ι} {a b c f p t t' x : ι}
  {check contextual r : Bool}

/-! ## The invariant -/

variable (T) in
/-- The blocks up to `b` carry no mark and can be connected. -/
def ValidUpTo (s : CChainState ι) (b : ι) : Prop := ∀ a ∈ T.path b, (s.index a).failed = false ∧ T.connectBlock a = true

variable (T) in
/-- The block `h` is a candidate that can be connected and is not worse than the tip, and no candidate from `h` on is
missing. -/
structure Anchored (s : CChainState ι) (h : ι) : Prop where
  mem : h ∈ s.setBlockIndexCandidates
  valid : s.ValidUpTo T h
  active : ∀ t, s.tip = some t → s.ValidUpTo T t ∧ s.workKey T t ≤ s.workKey T h
  complete : ∀ b ∈ s.mapBlockIndex, (s.index b).nChainTx ≠ 0 → (s.index b).failed = false →
    s.workKey T h ≤ s.workKey T b → b ∈ s.setBlockIndexCandidates

omit [LinearOrder ι] in
lemma ValidUpTo.mono (h : s.ValidUpTo T b) (hab : a ∈ T.path b) : s.ValidUpTo T a :=
  fun c hc => h c (T.forest.path_trans hab hc)

lemma anchored_started (T : HeaderTree ι) : (started T).Anchored T T.genesis := by
  have hvalid : (started T).ValidUpTo T T.genesis := by
    intro a ha
    rw [show T.path T.genesis = [T.genesis] from T.forest.path_of_root ((T.pprev_eq_none _).2 rfl)] at ha
    rw [mem_singleton.1 ha, index_started, if_pos rfl]
    exact ⟨rfl, T.connectBlock_genesis⟩
  refine ⟨mem_singleton_self _, hvalid, fun t ht => ?_, fun b hb _ _ _ => hb⟩
  cases (isPathOf_started T).tip.symm.trans ht
  exact ⟨hvalid, le_rfl⟩

/-! ## Activation -/

omit [LinearOrder ι] in
/-- Marks spread upwards from failed blocks, so a valid chain stays valid. -/
theorem ValidUpTo.found (h : s.ValidUpTo T b) (hf : Found T s s') : s'.ValidUpTo T b := by
  intro a ha
  refine ⟨Bool.eq_false_of_not_eq_true fun hfailed => ?_, (h a ha).2⟩
  obtain ⟨d, hd, hfd⟩ := hf.below hfailed
  cases hfd.symm.trans (h d (T.forest.path_trans ha hd)).1

lemma Anchored.found (h : s.Anchored T x) (hf : Found T s s') : s'.Anchored T x := by
  have hkey := fun b => hf.sameData.workKey (T := T) b
  have hvalid := h.valid.found hf
  refine ⟨?_, hvalid, fun t ht => ?_, fun b hb htx hgood hge => ?_⟩
  · by_contra hgone
    cases (hf.erased x h.mem hgone).symm.trans (hvalid x (T.forest.self_mem_path x)).1
  · obtain ⟨hvt, hle⟩ := h.active t (hf.tip ▸ ht)
    rw [hkey, hkey]
    exact ⟨hvt.found hf, hle⟩
  · rw [hkey, hkey] at hge
    rw [hf.sameData.nChainTx] at htx
    have hold : (s.index b).failed = false :=
      Bool.eq_false_of_not_eq_true fun hfailed => by cases (hf.failed_mono hfailed).symm.trans hgood
    by_contra hgone
    cases (hf.erased b (h.complete b (hf.map ▸ hb) htx hold hge) hgone).symm.trans hgood

lemma ValidUpTo.climb (ht : s.ValidUpTo T t) (hb : ∀ a ∈ T.path b, a ∈ T.path t ∨ (s.index a).failed = false)
    (hf : IsFork T t b f) (hc : Climb T f t' (s.atTip T f) s') (ht' : t' ∈ T.path b) : s'.ValidUpTo T t' := by
  intro a ha
  rw [hc.isFailed]
  by_cases haf : a ∈ T.path f
  · exact ht a (T.forest.path_trans hf.left haf)
  · have hab := T.forest.path_trans ht' ha
    exact ⟨(hb a hab).resolve_left fun hat => haf (hf.last a hat hab), hc.connects a ha haf⟩

lemma Anchored.climb (h : s.Anchored T x) (hwf : s.WellFormed T) (hl : s.Linked T) (ht : s.tip = some t)
    (hb : b ∈ s.setBlockIndexCandidates) (husable : ∀ a ∈ T.path b, a ∈ T.path t ∨ (s.index a).failed = false)
    (hf : IsFork T t b f) (hc : Climb T f t' (s.atTip T f) s') (ht' : t' ∈ T.path b) : ∃ y, s'.Anchored T y := by
  have hkey : ∀ d, s'.workKey T d = s.workKey T d := hc.sameData.workKey
  have hvalid := (h.active t ht).1.climb husable hf hc ht'
  have hold : ∀ d, s.ValidUpTo T d → s'.ValidUpTo T d := fun d hd a ha => by
    rw [hc.isFailed]
    exact hd a ha
  have htip : ∀ u, s'.tip = some u → u = t' := fun u hu => Option.some.inj (hu.symm.trans hc.tip)
  -- no candidate from the old anchor on is dropped unless it is below the new tip
  have hcomplete : ∀ d ∈ s'.mapBlockIndex, (s'.index d).nChainTx ≠ 0 → (s'.index d).failed = false →
      s.workKey T x ≤ s.workKey T d → s.workKey T t' ≤ s.workKey T d → d ∈ s'.setBlockIndexCandidates := by
    intro d hd htx hgood hx hd'
    rw [hc.isFailed] at hgood
    rw [hc.sameData.nChainTx] at htx
    exact (hc.candidates d).2 ⟨h.complete d (hc.map ▸ hd) htx hgood hx, .inr hd'⟩
  rcases le_or_gt (s.workKey T t') (s.workKey T x) with hle | hlt
  · refine ⟨x, (hc.candidates x).2 ⟨h.mem, .inr hle⟩, hold x h.valid, fun u hu => ?_, fun d hd htx hgood hge => ?_⟩
    · rw [htip u hu, hkey, hkey]
      exact ⟨hvalid, hle⟩
    · rw [hkey, hkey] at hge
      exact hcomplete d hd htx hgood hge (hle.trans hge)
  · have hmap : t' ∈ s'.mapBlockIndex := by
      rw [hc.map]
      exact hwf.closed b (hwf.candidates b hb) t' ht'
    have htx : (s'.index t').nChainTx ≠ 0 := by
      rw [hc.sameData.nChainTx]
      exact hl.path (hl.candidates b hb) t' ht'
    refine ⟨t', hcomplete t' hmap htx (hvalid t' (T.forest.self_mem_path t')).1 hlt.le le_rfl, hvalid, fun u hu => ?_,
      fun d hd htx hgood hge => ?_⟩
    · rw [htip u hu]
      exact ⟨hvalid, le_rfl⟩
    · rw [hkey, hkey] at hge
      exact hcomplete d hd htx hgood (hlt.le.trans hge) hge

omit [LinearOrder ι] in
lemma ValidUpTo.ne (h : s.ValidUpTo T b) (hx : T.connectBlock x = false) : ∀ a ∈ T.path b, a ≠ x := by
  rintro a ha rfl
  cases (h a ha).2.symm.trans hx

lemma ValidUpTo.reject (h : s.ValidUpTo T b) (hx : T.connectBlock x = false) : (s.reject x).ValidUpTo T b := fun a ha => by
  rw [index_reject, if_neg (h.ne hx a ha)]
  exact h a ha

lemma Anchored.reject (h : s.Anchored T b) (hx : T.connectBlock x = false) : (s.reject x).Anchored T b := by
  have hkey := fun d => (sameData_reject s x).workKey (T := T) d
  refine ⟨mem_reject_candidates.2 ⟨h.mem, h.valid.ne hx b (T.forest.self_mem_path b)⟩, h.valid.reject hx, fun t ht => ?_,
    fun d hd htx hgood hge => ?_⟩
  · rw [hkey, hkey]
    exact ⟨(h.active t ht).1.reject hx, (h.active t ht).2⟩
  · have hdx : d ≠ x := by
      rintro rfl
      rw [index_reject, if_pos rfl] at hgood
      cases hgood
    rw [index_reject, if_neg hdx] at htx hgood
    rw [hkey, hkey] at hge
    exact mem_reject_candidates.2 ⟨h.complete d hd htx hgood hge, hdx⟩

lemma Anchored.round (hwf : s.WellFormed T) (hl : s.Linked T) (hr : Round T s s') (h : ∃ x, s.Anchored T x) :
    ∃ y, s'.Anchored T y := by
  obtain ⟨x, h⟩ := h
  cases hr with
  | find hf => exact ⟨x, h.found hf⟩
  | step t b f r ht hb husable hf hout =>
    cases hout with
    | running hc => exact h.climb hwf hl ht hb husable hf hc (T.forest.self_mem_path b)
    | better t' hc ht' => exact h.climb hwf hl ht hb husable hf hc ht'
    | invalid t' z hc hz hp hcon =>
      obtain ⟨y, hy⟩ := h.climb hwf hl ht hb husable hf hc (T.forest.path_trans hz (T.forest.parent_mem_path hp))
      exact ⟨y, hy.reject hcon⟩

section

variable (h : s.Anchored T x) {u : ι}
include h

lemma Anchored.settled (hs : s.Settled T) : s.tip = some x := by
  obtain ⟨t, ht, hmax⟩ := hs
  rw [ht, workKey_injective (le_antisymm (h.active t ht).2 (hmax x h.mem))]

/-! ## Arrivals -/

omit h in
lemma ValidUpTo.addToBlockIndex (h : s.ValidUpTo T t) (hwf : s.WellFormed T) (ht : t ∈ s.mapBlockIndex) (b : ι) :
    (s.addToBlockIndex b).ValidUpTo T t := fun a ha => by
  rw [index_addToBlockIndex_of_mem (hwf.closed t ht a ha)]
  exact h a ha

lemma Anchored.addToBlockIndex (hwf : s.WellFormed T) (b : ι) : (s.addToBlockIndex b).Anchored T x := by
  by_cases hnew : b ∈ s.mapBlockIndex
  · rw [CChainState.addToBlockIndex, if_pos hnew]
    exact h
  obtain ⟨hcand, -, -, -, hchain⟩ := s.addToBlockIndex_rest b
  have hold : ∀ c ∈ s.mapBlockIndex, (s.addToBlockIndex b).index c = s.index c := fun _ => index_addToBlockIndex_of_mem
  have hkey : ∀ d ∈ s.mapBlockIndex, (s.addToBlockIndex b).workKey T d = s.workKey T d := fun d hd =>
    workKey_congr (by rw [hold d hd])
  have hxm := hwf.candidates x h.mem
  refine ⟨hcand ▸ h.mem, h.valid.addToBlockIndex hwf hxm b, fun t ht => ?_, fun d hd htx hgood hge => ?_⟩
  · have ht : s.tip = some t := (congrArg CChain.tip hchain).symm.trans ht
    have htm := hwf.tip_mem_map ht
    rw [hkey t htm, hkey x hxm]
    exact ⟨(h.active t ht).1.addToBlockIndex hwf htm b, (h.active t ht).2⟩
  · rcases mem_addToBlockIndex.1 hd with hd | rfl
    · rw [hold d hd] at htx hgood
      rw [hkey d hd, hkey x hxm] at hge
      exact hcand ▸ h.complete d hd htx hgood hge
    · rw [index_addToBlockIndex hnew, if_pos rfl] at htx
      exact absurd rfl htx

omit h in
/-- A block without data is on no chain that can be connected. -/
theorem ValidUpTo.failValid (h : s.ValidUpTo T t) (hl : s.Linked T) (ht : (s.index t).nChainTx ≠ 0)
    (hb : (s.index b).haveData = false) : (s.modify b CBlockIndex.failValid).ValidUpTo T t := fun a ha => by
  have hab : a ≠ b := by
    rintro rfl
    cases (hl.data a (hl.path ht a ha)).symm.trans hb
  rw [index_modify, if_neg hab]
  exact h a ha

lemma Anchored.failValid (hl : s.Linked T) (hb : (s.index b).haveData = false) :
    (s.modify b CBlockIndex.failValid).Anchored T x := by
  have hkey : ∀ d, (s.modify b CBlockIndex.failValid).workKey T d = s.workKey T d := fun d =>
    (sameData_modify s b (f := CBlockIndex.failValid) fun i => ⟨rfl, rfl, rfl, rfl, le_rfl⟩).workKey d
  refine ⟨h.mem, h.valid.failValid hl (hl.candidates x h.mem) hb, fun t ht => ?_, fun d hd htx hgood hge => ?_⟩
  · rw [hkey, hkey]
    exact ⟨(h.active t ht).1.failValid hl (hl.active t ht) hb, (h.active t ht).2⟩
  · have hdb : d ≠ b := by
      rintro rfl
      rw [index_modify, if_pos rfl] at hgood
      cases hgood
    rw [index_modify, if_neg hdb] at htx hgood
    rw [hkey, hkey] at hge
    exact h.complete d hd htx hgood hge

omit h in
lemma Received.failed_eq (hr : Received T b s s') (d : ι) : (s'.index d).failed = (s.index d).failed := by
  rw [CBlockIndex.failed, CBlockIndex.failed, (hr.flags d).1, (hr.flags d).2]

omit h in
lemma ValidUpTo.received (h : s.ValidUpTo T t) (hr : Received T b s s') : s'.ValidUpTo T t := fun a ha => by
  rw [hr.failed_eq]
  exact h a ha

lemma Anchored.received (hl : s.Linked T) (hr : Received T b s s') : s'.Anchored T x := by
  have hkey : ∀ d, (s.index d).nChainTx ≠ 0 → s'.workKey T d = s.workKey T d := fun d hd =>
    workKey_congr (hr.linked d hd).2
  have htip : s'.tip = s.tip := congrArg CChain.tip hr.chain
  have hx := hl.candidates x h.mem
  have hactive : ∀ t, s.tip = some t → s'.workKey T t ≤ s'.workKey T x := fun t ht => by
    rw [hkey t (hl.active t ht), hkey x hx]
    exact (h.active t ht).2
  refine ⟨(hr.candidates x).2 (.inl h.mem), h.valid.received hr,
    fun t ht => ⟨(h.active t (htip ▸ ht)).1.received hr, hactive t (htip ▸ ht)⟩, fun d hd htx hgood hge => ?_⟩
  rw [hr.failed_eq] at hgood
  rw [hr.map] at hd
  rw [hr.candidates]
  by_cases hold : (s.index d).nChainTx = 0
  · exact .inr ⟨hold, htx, fun t ht => workLess_eq_false.2 ((hactive t ht).trans hge)⟩
  · rw [hkey d hold, hkey x hx] at hge
    exact .inl (h.complete d hd hold hgood hge)

lemma Anchored.acceptBlockHeader (hwf : s.WellFormed T)
    (hrun : s.acceptBlockHeader T b check contextual = .ok (r, s')) : s'.Anchored T x := by
  rcases acceptBlockHeader_found hrun with ⟨rfl, -⟩ | hfound
  · exact h.addToBlockIndex hwf b
  · exact h.found hfound

/-! ## Manual changes -/

lemma Anchored.atGenesis (ht : s.tip = some t) : (s.atTip T T.genesis).Anchored T x := by
  refine ⟨h.mem, h.valid, fun u hu => ?_, h.complete⟩
  cases (tip_atTip s T.genesis).symm.trans hu
  obtain ⟨hvalid, hle⟩ := h.active t ht
  exact ⟨hvalid.mono (genesis_mem_path T t), (workKey_le_of_mem_path s (genesis_mem_path T t)).trans hle⟩

omit h in
lemma ValidUpTo.invalidated (h : s.ValidUpTo T t) (hi : Invalidated T p t u s s') : s'.ValidUpTo T u := by
  intro a ha
  have hpa : p ∉ T.path a := fun hpa => hi.not_mem (T.forest.path_trans ha hpa)
  have hap : a ≠ p := by
    rintro rfl
    exact hpa (T.forest.self_mem_path a)
  rw [hi.index]
  rw [if_neg hap, if_neg fun hc => hpa hc.2.1]
  exact h a (T.forest.path_trans hi.below ha)

/-- After `InvalidateBlock` the tip is the anchor: everything that is not worse is a candidate again. -/
theorem Anchored.invalidated (hwf : s.WellFormed T) (hl : s.Linked T) (ht : s.tip = some t)
    (hi : Invalidated T p t u s s') : s'.Anchored T u := by
  have hvalid := (h.active t ht).1.invalidated hi
  have hadmitted : ∀ d ∈ s.mapBlockIndex, (s'.index d).nChainTx ≠ 0 → (s'.index d).failed = false →
      s'.workKey T u ≤ s'.workKey T d → d ∈ s'.setBlockIndexCandidates := by
    intro d hd htx hgood hge
    have hlevel := ((hi.linked hl ht).level d ((hi.linked hl ht).data d htx)).2
    exact (hi.candidates d).2 (.inr ⟨hd, isLinked_iff.2 ⟨hgood, hlevel, htx⟩, hge⟩)
  have hu : u ∈ s.mapBlockIndex := hwf.closed t (hwf.tip_mem_map ht) u hi.below
  have hutx : (s'.index u).nChainTx ≠ 0 := (hi.linked hl ht).active u hi.chain.tip
  refine ⟨hadmitted u hu hutx (hvalid u (T.forest.self_mem_path u)).1 le_rfl, hvalid, fun v hv => ?_,
    fun d hd => hadmitted d (hi.map ▸ hd)⟩
  cases hi.chain.tip.symm.trans hv
  exact ⟨hvalid, le_rfl⟩

variable (T) in
/-- The marked ancestors of `p` that have all their data are below the tip. -/
def AncestorsBelowTip (p : ι) (s : CChainState ι) : Prop :=
  ∀ a ∈ T.path p, a ≠ p → (s.index a).failed = true → (s.index a).nChainTx ≠ 0 →
    ∀ t, s.tip = some t → s.workLess T a t = true

lemma Anchored.reset (hwf : s.WellFormed T) (hl : s.Linked T) (hr : Reset T p s s')
    (hcond : AncestorsBelowTip T p s) : s'.Anchored T x := by
  have hkey := fun d => hr.sameData.workKey (T := T) d
  have hvalid : ∀ d, s.ValidUpTo T d → s'.ValidUpTo T d := fun d hd a ha => by
    refine ⟨?_, (hd a ha).2⟩
    rw [hr.index]
    split
    · rfl
    · exact (hd a ha).1
  refine ⟨(hr.candidates x).2 (.inl h.mem), hvalid x h.valid, fun t ht => ?_, fun d hd htx hgood hge => ?_⟩
  · rw [hkey, hkey]
    exact ⟨hvalid t (h.active t (hr.tip ▸ ht)).1, (h.active t (hr.tip ▸ ht)).2⟩
  rw [hkey, hkey] at hge
  rw [hr.sameData.nChainTx] at htx
  rw [hr.map] at hd
  rw [hr.candidates]
  cases hfailed : (s.index d).failed with
  | false => exact .inl (h.complete d hd htx hfailed hge)
  | true =>
    obtain ⟨t, -, ht⟩ := hwf.tip_mem
    obtain ⟨hvt, hle⟩ := h.active t ht
    have hcleared : (d ∈ s.mapBlockIndex ∧ p ∈ T.path d) ∨ d ∈ T.path p := by
      by_contra hnot
      rw [hr.index, if_neg hnot] at hgood
      cases hgood.symm.trans hfailed
    by_cases hpd : p ∈ T.path d
    · have hlt : s.workKey T t < s.workKey T d := by
        refine lt_of_le_of_ne (hle.trans hge) fun heq => ?_
        cases hfailed.symm.trans (workKey_injective heq ▸ (hvt t (T.forest.self_mem_path t)).1)
      exact .inr ⟨hd, hpd, rfl, (hl.level d (hl.data d htx)).2, htx, t, ht, workLess_eq_true.2 hlt⟩
    · have hdp := hcleared.resolve_left fun hc => hpd hc.2
      have hne : d ≠ p := by
        rintro rfl
        exact hpd (T.forest.self_mem_path d)
      exact absurd (hle.trans hge) (workLess_eq_true.1 (hcond d hdp hne hfailed htx t ht)).not_ge

end

/-! ## Whole calls -/

lemma Activated.sameData (h : Activated T s s') : SameData s s' := by
  induction h with
  | refl => exact .refl s
  | tail _ hr ih => exact ih.trans hr.sameData

variable {op : ChainOp ι}

omit [LinearOrder ι] in
lemma SameData.stranded (h : SameData s s') (hc : s'.Stranded c) : s.Stranded c := by
  obtain ⟨hdata, hzero, hwait⟩ := hc
  rw [h.haveData] at hdata
  rw [h.nChainTx] at hzero
  exact ⟨hdata, hzero, by rwa [waiting, ← h.unlinked]⟩

lemma stranded_acceptBlockHeader (hl : s.Linked T)
    (hrun : s.acceptBlockHeader T b check contextual = .ok (r, s')) (hc : s'.Stranded c) : s.Stranded c := by
  rcases acceptBlockHeader_found hrun with ⟨rfl, -⟩ | hfound
  · obtain ⟨hdata, hzero, hwait⟩ := hc
    rw [waiting, (s.addToBlockIndex_rest b).2.1] at hwait
    by_cases hcm : c ∈ s.mapBlockIndex
    · rw [index_addToBlockIndex_of_mem hcm] at hdata hzero
      exact ⟨hdata, hzero, hwait⟩
    · -- a new block has no data
      have hdata' := ((hl.addToBlockIndex b).known c hdata)
      rcases mem_addToBlockIndex.1 hdata' with hmem | rfl
      · exact absurd hmem hcm
      · rw [index_addToBlockIndex hcm, if_pos rfl] at hdata
        cases hdata
  · exact hfound.sameData.stranded hc

variable (T) in
/-- The block's parent carries a mark and does not have the data of its ancestors. -/
def ParentGivenUp (s : CChainState ι) (b : ι) : Prop :=
  ∃ p, T.pprev b = some p ∧ (s.index p).failed = true ∧ (s.index p).nChainTx = 0

/-- A block is stranded only when it arrives while its parent is given up. -/
theorem ChainOp.stranded (hs : s.Sane T) (hrun : op.run T s = .ok s') (hc : s'.Stranded c) :
    s.Stranded c ∨ ∃ arrival, op = .acceptBlock c arrival ∧ c ∈ s.mapBlockIndex ∧ (s.index c).haveData = false ∧
      ParentGivenUp T s c := by
  cases ChainOp.ran hs hrun with
  | idle => exact .inl hc
  | header _ hhead => exact .inl (stranded_acceptBlockHeader hs.2 hhead hc)
  | @malformed hash _ s₁ hhead =>
    have hsame := sameData_modify s₁ hash (f := failValid) fun i => ⟨rfl, rfl, rfl, rfl, le_rfl⟩
    exact .inl (stranded_acceptBlockHeader hs.2 hhead (hsame.stranded hc))
  | @received hash arrival s₁ _ hhead harr hreceived =>
    rcases hreceived.stranded c hc with hc | ⟨rfl, p, hp, hfailed, hzero⟩
    · exact .inl (stranded_acceptBlockHeader hs.2 hhead hc)
    · -- a header whose parent carries a mark is accepted only when it is known already
      rcases acceptBlockHeader_cases hhead with ⟨rfl, -⟩ | ⟨-, rfl, -⟩ | ⟨-, hnew, rfl, q, hq, hpq, hgood, -⟩ | ⟨hrej, -⟩
      · exact .inr ⟨arrival, rfl, harr.mem, harr.missing, p, hp, hfailed, hzero⟩
      · cases ((T.pprev_eq_none _).2 rfl).symm.trans hp
      · cases hp.symm.trans hpq
        rw [index_addToBlockIndex_of_mem hq, hgood] at hfailed
        cases hfailed
      · cases hrej
  | rejected => exact .inl ((sameData_reject s _).stranded hc)
  | found hfound => exact .inl (hfound.sameData.stranded hc)
  | activated hact => exact .inl (hact.sameData.stranded hc)
  | undone => exact .inl ((sameData_atTip s T.genesis).stranded hc)
  | invalidated _ _ hinv => exact .inl (hinv.sameData.stranded hc)
  | reset _ hreset => exact .inl (hreset.sameData.stranded hc)

/-- **The calls keep an anchor**, unless one marks a block that can be connected, or reconsiders one with a marked
ancestor that is not below the tip. -/
theorem Anchored.run (h : ∃ x, s.Anchored T x) (hs : s.Sane T) (hrun : op.run T s = .ok s')
    (hop : ∀ p, op ≠ .invalidBlockFound p)
    (hreset : ∀ p ∈ s.mapBlockIndex, op = .resetBlockFailureFlags p → AncestorsBelowTip T p s) :
    ∃ x, s'.Anchored T x := by
  obtain ⟨x, hx⟩ := h
  obtain ⟨hwf, hl⟩ := hs
  cases ChainOp.ran ⟨hwf, hl⟩ hrun with
  | idle => exact ⟨x, hx⟩
  | header _ hhead => exact ⟨x, hx.acceptBlockHeader hwf hhead⟩
  | malformed hhead _ hdata => exact ⟨x, (hx.acceptBlockHeader hwf hhead).failValid (linked_acceptBlockHeader hl hhead) hdata⟩
  | received hhead _ hreceived =>
    exact ⟨x, (hx.acceptBlockHeader hwf hhead).received (linked_acceptBlockHeader hl hhead) hreceived⟩
  | rejected => exact absurd rfl (hop _)
  | found hfound => exact ⟨x, hx.found hfound⟩
  | activated hact => exact (hact.keep hwf hl ⟨x, hx⟩ fun _ _ => Anchored.round).2.2
  | undone =>
    obtain ⟨t, -, ht⟩ := hwf.tip_mem
    exact ⟨x, hx.atGenesis ht⟩
  | invalidated _ ht hinv => exact ⟨_, hx.invalidated hwf hl ht hinv⟩
  | reset hp hr => exact ⟨x, hx.reset hwf hl hr (hreset _ hp rfl)⟩

omit [LinearOrder ι] in
lemma Linked.of_data (hl : s.Linked T) (hdata : ∀ a ∈ T.path b, (s.index a).haveData = true)
    (hstr : ∀ a ∈ T.path b, ¬ s.Stranded a) : (s.index b).nChainTx ≠ 0 := by
  induction b using T.forest.induction with
  | step b ih =>
    intro hzero
    have hwait : b ∈ s.waiting := by
      by_contra hwait
      have hself := T.forest.self_mem_path b
      exact hstr b hself ⟨hdata b hself, hzero, hwait⟩
    obtain ⟨e, he, rfl⟩ := mem_map.1 hwait
    obtain ⟨hp, hpz⟩ := hl.waits e he
    have hsub : ∀ a ∈ T.path e.1, a ∈ T.path e.2 := fun a => T.forest.mem_path_of_parent hp
    exact ih e.1 hp (fun a ha => hdata a (hsub a ha)) (fun a ha => hstr a (hsub a ha)) hpz

/-! ## Arrivals only -/

/-- The calls that arriving headers and blocks make. -/
def ChainOp.isArrival : ChainOp ι → Bool
  | .acceptBlockHeader .. | .acceptBlock .. | .activateBestChain _ => true
  | _ => false

lemma Round.failed_mono (h : Round T s s') (ha : (s.index a).failed = true) : (s'.index a).failed = true := by
  have hreject : ∀ (s : CChainState ι) x, (s.index a).failed = true → ((s.reject x).index a).failed = true := by
    intro s x hf
    rw [index_reject]
    split
    · exact Bool.true_or _
    · exact hf
  cases h with
  | find hf => exact hf.failed_mono ha
  | step t b f r ht hb husable hf hout =>
    cases hout with
    | running hc => rwa [hc.isFailed]
    | better t' hc => rwa [hc.isFailed]
    | invalid t' x hc => exact hreject _ x (by rwa [hc.isFailed])

lemma ChainOp.failed_mono (hs : s.Sane T) (hop : op.isArrival = true) (hrun : op.run T s = .ok s')
    (ham : a ∈ s.mapBlockIndex) (ha : (s.index a).failed = true) : (s'.index a).failed = true := by
  have hheader : ∀ {b check contextual r} {s₁ : CChainState ι}, s.acceptBlockHeader T b check contextual = .ok (r, s₁) →
      (s₁.index a).failed = true := by
    intro b check contextual r s₁ hrun
    rcases acceptBlockHeader_found hrun with ⟨rfl, -⟩ | hfound
    · rwa [index_addToBlockIndex_of_mem ham]
    · exact hfound.failed_mono ha
  cases ChainOp.ran hs hrun with
  | idle => exact ha
  | header _ hhead => exact hheader hhead
  | malformed hhead =>
    rw [index_modify]
    split
    · exact Bool.true_or _
    · exact hheader hhead
  | received hhead _ hreceived =>
    rw [failed, (hreceived.flags a).1, (hreceived.flags a).2]
    exact hheader hhead
  | activated hact => exact (hact.keep hs.1 hs.2 ha fun _ _ _ _ hr => hr.failed_mono).2.2
  | _ => cases hop

variable (T) in
/-- What holds after any arrivals. -/
structure AfterArrivals (s : CChainState ι) : Prop where
  sane : s.Sane T
  marked : s.FailedMarked
  anchored : ∃ x, s.Anchored T x
  stranded : ∀ c, s.Stranded c → ∃ p, T.pprev c = some p ∧ (s.index p).failed = true

lemma afterArrivals_started (T : HeaderTree ι) : AfterArrivals T (started T) := by
  refine ⟨sane_started T, fun b hb => absurd hb (OrdSet.not_mem_empty b), ⟨_, anchored_started T⟩, fun c hc => ?_⟩
  have hmem := (linked_started T).known c hc.1
  have hzero := hc.2.1
  rw [mem_singleton.1 hmem] at hzero
  exact absurd hzero ((linked_started T).candidates _ (mem_singleton_self _))

lemma AfterArrivals.run (h : AfterArrivals T s) (hop : op.isArrival = true) :
    ∃ s', op.run T s = .ok s' ∧ AfterArrivals T s' := by
  obtain ⟨s', hrun⟩ : ∃ s', op.run T s = .ok s' := ChainOp.run_ok h.sane.1 h.sane.2 h.marked
  have hnot : ∀ p, op ≠ .invalidBlockFound p := by
    rintro p rfl
    cases hop
  have hnoreset : ∀ p, op ≠ .resetBlockFailureFlags p := by
    rintro p rfl
    cases hop
  have hk : Kept T s s' := (ChainOp.kept h.sane hrun).resolve_right fun ⟨p, _, hp, _⟩ => hnoreset p hp
  refine ⟨s', hrun, h.sane.run hrun, hk.marked h.marked,
    h.anchored.elim fun x hx => Anchored.run ⟨x, hx⟩ h.sane hrun hnot fun p _ hp => absurd hp (hnoreset p), fun c hc => ?_⟩
  have hmono := fun a ham => ChainOp.failed_mono (a := a) h.sane hop hrun ham
  rcases ChainOp.stranded h.sane hrun hc with hold | ⟨arrival, rfl, hcm, -, p, hp, hfailed, -⟩
  · obtain ⟨p, hp, hfailed⟩ := h.stranded c hold
    have hcm := h.sane.2.known c hold.1
    exact ⟨p, hp, hmono p (h.sane.1.closed c hcm p (T.forest.parent_mem_path hp)) hfailed⟩
  · exact ⟨p, hp, hmono p (h.sane.1.closed c hcm p (T.forest.parent_mem_path hp)) hfailed⟩

lemma AfterArrivals.foldlM {ops : List (ChainOp ι)} (h : AfterArrivals T s) (hops : ∀ op ∈ ops, op.isArrival = true) :
    ∃ s', ops.foldlM (ChainOp.run T) s = .ok s' ∧ AfterArrivals T s' := by
  induction ops generalizing s with
  | nil => exact ⟨s, rfl, h⟩
  | cons op ops ih =>
    obtain ⟨s₁, hrun, h₁⟩ := h.run (hops op mem_cons_self)
    obtain ⟨s', hrun', h'⟩ := ih h₁ fun o ho => hops o (mem_cons_of_mem _ ho)
    exact ⟨s', by rw [foldlM_cons, hrun]; exact hrun', h'⟩

variable (T) in
/-- The active chain is the path of its tip, and no valid chain whose blocks are all there has more work. -/
def BestActive (s : CChainState ι) : Prop :=
  ∃ t, s.tip = some t ∧ s.chainActive.vChain = (T.path t).reverse.map some ∧
    ∀ b ∈ s.mapBlockIndex, (∀ a ∈ T.path b, (s.index a).haveData = true ∧ (s.index a).failed = false ∧
      T.connectBlock a = true) → T.nChainWork b ≤ T.nChainWork t

lemma Settled.bestActive (hs : s.Settled T) (h : AfterArrivals T s) : BestActive T s := by
  obtain ⟨x, hx⟩ := h.anchored
  obtain ⟨t, ht, hmax⟩ := id hs
  obtain rfl : x = t := Option.some.inj ((hx.settled hs).symm.trans ht)
  refine ⟨x, ht, h.sane.1.follows.isPathOf ht, fun b hb hgood => ?_⟩
  have htx : (s.index b).nChainTx ≠ 0 := by
    refine h.sane.2.of_data (fun a ha => (hgood a ha).1) fun a ha hstr => ?_
    obtain ⟨p, hp, hfailed⟩ := h.stranded a hstr
    cases hfailed.symm.trans (hgood p (T.forest.path_trans ha (T.forest.parent_mem_path hp))).2.1
  by_contra hmore
  have hlt : s.workKey T x < s.workKey T b := Prod.Lex.toLex_lt_toLex.2 (.inl (not_le.1 hmore))
  exact hlt.not_ge (hmax b (hx.complete b hb htx (hgood b (T.forest.self_mem_path b)).2.1 hlt.le))

/-- **Best-block selection.** After any arrivals and calls of `ActivateBestChain`, cut short or not,
`ActivateBestChain` returns true with the best chain active. -/
theorem activateBestChain_best (T : HeaderTree ι) {ops : List (ChainOp ι)} (hops : ∀ op ∈ ops, op.isArrival = true) :
    ∃ s₀ s s', startUp T = .ok s₀ ∧ ops.foldlM (ChainOp.run T) s₀ = .ok s ∧
      s.activateBestChain T (fun _ => false) = .ok (true, s') ∧ BestActive T s' := by
  obtain ⟨s, hrun, h⟩ := (afterArrivals_started T).foldlM hops
  have hactivation : (ChainOp.activateBestChain fun _ => false : ChainOp ι).isArrival = true := rfl
  obtain ⟨s₁, hrun₁, h₁⟩ := h.run hactivation
  obtain ⟨s', hact, -, hsettled⟩ := activateBestChain_ok (fun _ => false) h.sane.1 h.sane.2
  cases (map_snd_eq_ok.2 ⟨true, hact⟩).symm.trans hrun₁
  exact ⟨started T, s, s₁, startUp_eq T, hrun, hact, (hsettled fun _ => rfl).bestActive h₁⟩

def twoArrivals : List (ChainOp (Fin 4)) := [.acceptBlock 1 .requested, .acceptBlock 2 .requested]

theorem activateBestChain_best_line : (∀ op ∈ twoArrivals, op.isArrival = true) ∧
    ∃ s₀ s s', startUp line = .ok s₀ ∧ twoArrivals.foldlM (ChainOp.run line) s₀ = .ok s ∧
      s.activateBestChain line (fun _ => false) = .ok (true, s') ∧ BestActive line s' :=
  have h : ∀ op ∈ twoArrivals, op.isArrival = true := by simp [twoArrivals, ChainOp.isArrival]
  ⟨h, activateBestChain_best line h⟩

/-- A shutdown that is requested after the first block is connected: `ActivateBestChain` returns true with the second
block left out. -/
theorem activateBestChain_shutdown :
    ∃ s, (twoArrivals.foldlM (ChainOp.run line) (started line) >>= fun s => s.activateBestChain line fun _ => true) =
        .ok s ∧ s.1 = true ∧ s.2.tip = some 1 ∧ 2 ∈ s.2.mapBlockIndex ∧
      (∀ a ∈ line.path 2, (s.2.index a).haveData = true ∧ (s.2.index a).failed = false ∧ line.connectBlock a = true) ∧
      line.nChainWork 1 < line.nChainWork 2 := by
  decide +kernel

/-! ## Candidates -/

variable (T) in
/-- Every block at least as high as the tip, with its data and no failed block up to the genesis block, is a candidate,
and so is the tip. -/
def CandidatesComplete (s : CChainState ι) : Prop :=
  ∃ t, s.tip = some t ∧ t ∈ s.setBlockIndexCandidates ∧
    ∀ b ∈ s.mapBlockIndex, s.workLess T b t = false →
      (∀ a ∈ T.path b, (s.index a).haveData = true ∧ (s.index a).failedValid = false) → b ∈ s.setBlockIndexCandidates

variable (T) in
/-- The calls after which no candidate is missing: a reconsidered block explains the marks of its siblings and has no
marked ancestor, and no block arrives while its parent is given up. -/
def Orderly (s : CChainState ι) : ChainOp ι → Prop
  | .resetBlockFailureFlags p => p ∈ s.mapBlockIndex → SiblingsExplained T p s ∧ AncestorsBelowTip T p s
  | .acceptBlock hash _ => (s.index hash).haveData = false → ¬ ParentGivenUp T s hash
  | .invalidBlockFound _ => False
  | _ => True

variable (T) in
/-- What holds after orderly calls. -/
structure AfterOrderly (s : CChainState ι) : Prop where
  sane : s.Sane T
  child : s.ChildBelowFailed T
  anchored : ∃ x, s.Anchored T x
  stranded : ∀ c, ¬ s.Stranded c

lemma afterOrderly_started (T : HeaderTree ι) : AfterOrderly T (started T) := by
  have h := afterArrivals_started T
  refine ⟨h.sane, fun b hb hchild => ?_, h.anchored, fun c hc => ?_⟩
  · rw [mem_singleton.1 hb, index_started, if_pos rfl] at hchild
    cases hchild
  · obtain ⟨p, hp, -⟩ := h.stranded c hc
    rw [mem_singleton.1 (h.sane.2.known c hc.1), (T.pprev_eq_none _).2 rfl] at hp
    cases hp

lemma AfterOrderly.run (h : AfterOrderly T s) (hop : Orderly T s op) (hrun : op.run T s = .ok s') :
    AfterOrderly T s' := by
  refine ⟨h.sane.run hrun, ?_, Anchored.run h.anchored h.sane hrun ?_ ?_, fun c hc => ?_⟩
  · rcases ChainOp.kept h.sane hrun with hk | ⟨p, hp, rfl, hr⟩
    · exact hk.child h.child
    · exact hr.keepsChildBelowFailed_iff.2 (hop hp).1
  · rintro p rfl
    exact hop
  · rintro p hp rfl
    exact (hop hp).2
  · rcases ChainOp.stranded h.sane hrun hc with hold | ⟨arrival, rfl, -, hdata, hgiven⟩
    · exact h.stranded c hold
    · exact hop hdata hgiven

lemma Settled.candidatesComplete (hs : s.Settled T) (h : AfterOrderly T s) : CandidatesComplete T s := by
  obtain ⟨x, hx⟩ := h.anchored
  refine ⟨x, hx.settled hs, hx.mem, fun b hb hge hgood => ?_⟩
  have htx := h.sane.2.of_data (fun a ha => (hgood a ha).1) fun a _ => h.stranded a
  refine hx.complete b hb htx (Bool.eq_false_of_not_eq_true fun hfailed => ?_) (workLess_eq_false.1 hge)
  rcases (failed_eq_true _).1 hfailed with hv | hchild
  · cases hv.symm.trans (hgood b (T.forest.self_mem_path b)).2
  · obtain ⟨a, ha, -, hv⟩ := h.child b hb hchild
    cases hv.symm.trans (hgood a ha).2

/-- **Candidate-set completeness.** In a run of orderly calls, `ActivateBestChain` returns true and leaves no
candidate out. -/
theorem candidates_complete (T : HeaderTree ι) {ops : List (ChainOp ι)}
    (hops : Meets (ChainOp.run T) (Orderly T) (started T) ops) : startUp T = .ok (started T) ∧
    Throughout (ChainOp.run T)
      (fun s => ∃ s', s.activateBestChain T (fun _ => false) = .ok (true, s') ∧ s'.CandidatesComplete T) (started T) ops := by
  refine ⟨startUp_eq T, throughout_of_meets (I := AfterOrderly T) (fun s h => ?_) (fun s op s' h hop hrun => h.run hop hrun)
    (afterOrderly_started T) hops⟩
  obtain ⟨s', hact, -, hsettled⟩ := activateBestChain_ok (fun _ => false) h.sane.1 h.sane.2
  have hrun : ChainOp.run T s (.activateBestChain fun _ => false) = .ok s' := map_snd_eq_ok.2 ⟨true, hact⟩
  have horderly : Orderly T s (.activateBestChain fun _ => false) := trivial
  have h' := h.run horderly hrun
  exact ⟨s', hact, (hsettled fun _ => rfl).candidatesComplete h'⟩

section Decidable

variable [Fintype ι]

instance : Decidable (SiblingsExplained T p s) :=
  inferInstanceAs (Decidable (∀ b ∈ s.mapBlockIndex, p ∉ T.path b → b ∉ T.path p → (s.index b).failedChild = true →
    ∃ a ∈ T.path b, a ≠ b ∧ a ∉ T.path p ∧ (s.index a).failedValid = true))

instance : Decidable (AncestorsBelowTip T p s) :=
  inferInstanceAs (Decidable (∀ a ∈ T.path p, a ≠ p → (s.index a).failed = true → (s.index a).nChainTx ≠ 0 →
    ∀ t, s.tip = some t → s.workLess T a t = true))

instance : Decidable (ParentGivenUp T s b) :=
  inferInstanceAs (Decidable (∃ p, T.pprev b = some p ∧ (s.index p).failed = true ∧ (s.index p).nChainTx = 0))

instance : (op : ChainOp ι) → Decidable (Orderly T s op)
  | .resetBlockFailureFlags p =>
    inferInstanceAs (Decidable (p ∈ s.mapBlockIndex → SiblingsExplained T p s ∧ AncestorsBelowTip T p s))
  | .acceptBlock hash _ => inferInstanceAs (Decidable ((s.index hash).haveData = false → ¬ ParentGivenUp T s hash))
  | .invalidBlockFound _ => instDecidableFalse
  | .acceptBlockHeader .. | .findMostWorkChain | .activateBestChain _ | .invalidateBlock _ => instDecidableTrue

end Decidable

/-- A block is invalidated with one on top, and both are reconsidered. -/
def reconsidered : List (ChainOp (Fin 4)) :=
  [.acceptBlock 1 .requested, .acceptBlock 2 .requested, .activateBestChain fun _ => false, .invalidateBlock 1,
    .activateBestChain fun _ => false, .resetBlockFailureFlags 1]

theorem candidates_complete_line : Meets (ChainOp.run line) (Orderly line) (started line) reconsidered ∧
    Throughout (ChainOp.run line)
      (fun s => ∃ s', s.activateBestChain line (fun _ => false) = .ok (true, s') ∧ s'.CandidatesComplete line)
      (started line) reconsidered :=
  have h : Meets (ChainOp.run line) (Orderly line) (started line) reconsidered := by decide +kernel
  ⟨h, (candidates_complete line h).2⟩

/-- Two blocks on top of each other, of which the second cannot be connected. -/
def brokenLine : HeaderTree (Fin 3) :=
  .small ![none, some 0, some 1] ![0, 1, 2] (fun b => b ≠ 2) (by decide) (by decide) rfl

/-- Block 1 is invalidated, and block 2 on top of it is reconsidered. -/
def reconsiderBroken : List (ChainOp (Fin 3)) :=
  [.acceptBlock 1 .requested, .activateBestChain fun _ => false, .acceptBlock 2 .requested, .invalidateBlock 1,
    .resetBlockFailureFlags 2, .activateBestChain fun _ => false]

/-- The data of block 2 arrives while block 1 is invalidated, and that of block 1 after it is reconsidered. -/
def arriveGivenUp : List (ChainOp (Fin 4)) :=
  [.acceptBlockHeader 1 true true, .acceptBlockHeader 2 true true, .invalidateBlock 1, .acceptBlock 2 .requested,
    .resetBlockFailureFlags 1, .acceptBlock 1 .requested, .activateBestChain fun _ => false]

/-- Three ways to lose a candidate: the tip below a block that cannot be connected, a sibling that keeps its mark, and
a block that arrived while its parent was given up. -/
theorem candidates_incomplete :
    (∃ s, reconsiderBroken.foldlM (ChainOp.run brokenLine) (started brokenLine) = .ok s ∧
      s.tip = some 1 ∧ 1 ∉ s.setBlockIndexCandidates) ∧
    (∃ s, (reconsiderSibling ++ [ChainOp.activateBestChain fun _ => false]).foldlM (ChainOp.run forked) (started forked) = .ok s ∧
      s.tip = some 3 ∧ s.workLess forked 2 3 = false ∧
      (∀ a ∈ forked.path 2, (s.index a).haveData = true ∧ (s.index a).failedValid = false) ∧
      2 ∉ s.setBlockIndexCandidates) ∧
    ∃ s, arriveGivenUp.foldlM (ChainOp.run line) (started line) = .ok s ∧
      s.tip = some 1 ∧ s.workLess line 2 1 = false ∧
      (∀ a ∈ line.path 2, (s.index a).haveData = true ∧ (s.index a).failedValid = false) ∧
      2 ∉ s.setBlockIndexCandidates := by
  refine ⟨?_, ?_, ?_⟩ <;> decide +kernel

end CChainState

end Soferox
