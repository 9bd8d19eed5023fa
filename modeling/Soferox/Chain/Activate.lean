import Soferox.Chain.Linked
import Mathlib.Data.Prod.Lex

/-!
# `ActivateBestChain`, step by step

What `ActivateBestChain` does from a well-formed state whose candidates are linked. It never fails an assertion and it
ends: each round that finds an invalid block marks one more block, the others climb towards the block they look for.

* `findMostWorkChain_ok` — the best candidate that can be used, and what becomes of the others;
* `connectBatches_ok`, `activateBestChainStep_ok` — how far the chain climbs;
* `activateBestChain_ok` — `ActivateBestChain` returns true; the state comes about by such rounds (`Activated`), and the
  tip is the best candidate unless a shutdown was requested (`Settled`).
-/

namespace Soferox

open Lib CBlockIndex Option List Finset Nat

namespace CChainState

variable {ι : Type} [LinearOrder ι] {T : HeaderTree ι} {s s' s'' : CChainState ι} {a b c f t t' p x : ι}

/-! ## The order of the candidates -/

variable (T) in
/-- What `CBlockIndexWorkComparator` compares: first the work, then who came first. -/
def workKey (s : CChainState ι) (b : ι) : ℕ ×ₗ ℤ ×ₗ ιᵒᵈ :=
  toLex (T.nChainWork b, toLex (-(s.index b).nSequenceId, OrderDual.toDual b))

lemma workLess_eq_true : s.workLess T b c = true ↔ s.workKey T b < s.workKey T c := by
  rw [workKey, workKey, Prod.Lex.toLex_lt_toLex, Prod.Lex.toLex_lt_toLex]
  simp only [workLess]
  rcases lt_trichotomy (T.nChainWork b) (T.nChainWork c) with h | h | h
  · simp [h, h.not_gt]
  · rcases lt_trichotomy (s.index b).nSequenceId (s.index c).nSequenceId with h' | h' | h'
    · simp [h, h', h'.not_gt, h'.ne]
    · rcases lt_trichotomy b c with h'' | h'' | h'' <;> simp [h, h', h''.not_gt]
    · simp [h, h', h'.not_gt]
  · simp [h, h.not_gt, h.ne']

lemma workLess_eq_false : s.workLess T b c = false ↔ s.workKey T c ≤ s.workKey T b := by
  rw [← not_lt, ← workLess_eq_true, Bool.not_eq_true]

section

omit [LinearOrder ι]

lemma workKey_injective (h : s.workKey T b = s.workKey T c) : b = c := by
  have h := congrArg (fun k => (ofLex (ofLex k).2).2) h
  exact h

lemma workKey_congr (h : (s'.index b).nSequenceId = (s.index b).nSequenceId) : s'.workKey T b = s.workKey T b := by
  rw [workKey, workKey, h]

lemma SameData.workKey (h : SameData s s') (b : ι) : s'.workKey T b = s.workKey T b := workKey_congr (h.nSequenceId b)

lemma nChainWork_lt_of_mem_path (h : a ∈ T.path b) (hne : a ≠ b) : T.nChainWork a < T.nChainWork b := by
  induction b using T.forest.induction with
  | step b ih =>
    rcases T.forest.mem_path_iff.1 h with rfl | ⟨p, hp, hap⟩
    · exact absurd rfl hne
    · have hb := T.nChainWork_eq b
      rw [show T.pprev b = some p from hp, elim_some] at hb
      have hpos := T.getBlockProof_pos b
      by_cases hapeq : a = p
      · subst hapeq
        omega
      · have hlt := ih p hp hap hapeq
        omega

end

lemma workKey_lt_of_mem_path (s : CChainState ι) (h : a ∈ T.path b) (hne : a ≠ b) : s.workKey T a < s.workKey T b :=
  Prod.Lex.toLex_lt_toLex.2 (.inl (nChainWork_lt_of_mem_path h hne))

lemma workKey_le_of_mem_path (s : CChainState ι) (h : a ∈ T.path b) : s.workKey T a ≤ s.workKey T b := by
  rcases eq_or_ne a b with rfl | hne
  · exact le_rfl
  · exact (workKey_lt_of_mem_path s h hne).le

variable {l : List ι} {stop : CChainState ι → Bool}

lemma lastCandidate_eq_none (h : s.lastCandidate T l = none) : l = [] := by
  cases l with
  | nil => rfl
  | cons b l =>
    rw [lastCandidate] at h
    split at h
    · cases h
    · split at h <;> cases h

lemma lastCandidate_max (h : s.lastCandidate T l = some b) : ∀ c ∈ l, s.workKey T c ≤ s.workKey T b := by
  induction l generalizing b with
  | nil => cases h
  | cons d l ih =>
    rw [lastCandidate] at h
    cases hl : s.lastCandidate T l with
    | none =>
      rw [hl] at h
      cases h
      rw [lastCandidate_eq_none hl]
      intro c hc
      rw [List.mem_singleton.1 hc]
    | some e =>
      rw [hl] at h
      dsimp only at h
      intro c hc
      split at h
      · rename_i hless
        cases h
        rcases List.mem_cons.1 hc with rfl | hc
        · exact le_rfl
        · exact (ih hl c hc).trans (workLess_eq_true.1 hless).le
      · rename_i hless
        cases h
        rcases List.mem_cons.1 hc with rfl | hc
        · exact workLess_eq_false.1 (Bool.eq_false_of_not_eq_true hless)
        · exact ih hl c hc

/-! ## The tip -/

variable (T) in
/-- The state with the active chain up to `t`. -/
def atTip (s : CChainState ι) (t : ι) : CChainState ι := { s with chainActive := ⟨(T.path t).reverse.map some⟩ }

section

omit [LinearOrder ι]

variable (s t) in
lemma isPathOf_atTip : (s.atTip T t).chainActive.IsPathOf T.toBlockTree t := rfl

variable (s t) in
@[simp] lemma tip_atTip : (s.atTip T t).tip = some t := (s.isPathOf_atTip t).tip

variable (h : s.WellFormed T)
include h

lemma WellFormed.eq_atTip (ht : s.tip = some t) : s.atTip T t = s := by
  have hpath := h.follows.isPathOf ht
  rw [atTip, ← show s.chainActive.vChain = _ from hpath]

lemma WellFormed.tip_mem_map (ht : s.tip = some t) : t ∈ s.mapBlockIndex := by
  obtain ⟨t', hmem, ht'⟩ := h.tip_mem
  cases ht.symm.trans ht'
  exact hmem

/-- A change that keeps the blocks and moves the chain to a known block. -/
theorem WellFormed.moved (hmap : s'.mapBlockIndex = s.mapBlockIndex)
    (hcand : ∀ c ∈ s'.setBlockIndexCandidates, c ∈ s.mapBlockIndex) (hunl : s'.mapBlocksUnlinked = s.mapBlocksUnlinked)
    (hfailed : ∀ c ∈ s'.g_failed_blocks, c ∈ s.mapBlockIndex) (hchain : s'.chainActive.IsPathOf T.toBlockTree t)
    (ht : t ∈ s.mapBlockIndex) : s'.WellFormed T :=
  ⟨hmap ▸ h.genesis_mem, hmap ▸ h.closed, hmap ▸ hcand, fun e he => hmap ▸ h.unlinked e (hunl ▸ he), hmap ▸ hfailed,
    .inr ⟨t, hchain⟩, ⟨t, hmap ▸ ht, hchain.tip⟩⟩

lemma WellFormed.atTip (ht : t ∈ s.mapBlockIndex) : (s.atTip T t).WellFormed T :=
  h.moved rfl h.candidates rfl h.failed (s.isPathOf_atTip t) ht

end

lemma WellFormed.setTip_eq (h : s.WellFormed T) (t : ι) : s.setTip T (some t) = s.atTip T t := by
  have hpath := h.follows.setTip_isPathOf t
  rw [setTip]
  congr 1
  exact congrArg CChain.mk hpath

lemma WellFormed.isActive_iff (h : s.WellFormed T) (ht : s.tip = some t) : s.isActive T b = true ↔ b ∈ T.path t :=
  (h.follows.isPathOf ht).contains_iff

lemma disconnectTip_eq (h : s.WellFormed T) (ht : s.tip = some t) (hp : T.pprev t = some p) :
    s.disconnectTip T = .ok (true, s.atTip T p) := by
  rw [disconnectTip, ht]
  dsimp only
  rw [hp]
  dsimp only
  rw [h.setTip_eq]

lemma disconnectUntil_stop (h : stop s = true) (fuel : ℕ) : disconnectUntil T stop fuel s = .ok (true, s) := by
  unfold disconnectUntil
  rw [if_pos h]

variable {fuel : ℕ}

lemma disconnectUntil_step (hwf : s.WellFormed T) (ht : s.tip = some t)
    (hstop : stop s = false) (hp : T.pprev t = some p) :
    disconnectUntil T stop (fuel + 1) s = disconnectUntil T stop fuel (s.atTip T p) := by
  conv_lhs => unfold disconnectUntil
  rw [if_neg (by simp [hstop])]
  rw [disconnectTip_eq hwf ht hp]
  rfl

variable (pindexOldTip : Option ι) (stop : CChainState ι → Bool)

lemma disconnectUntil_ok (hwf : s.WellFormed T) (ht : s.tip = some t) (hf : f ∈ T.path t)
    (hstop : stop (s.atTip T f) = true) (hgo : ∀ d ∈ T.path t, f ∈ T.path d → f ≠ d → stop (s.atTip T d) = false)
    (hfuel : T.nHeight t ≤ T.nHeight f + fuel) : disconnectUntil T stop fuel s = .ok (true, s.atTip T f) := by
  induction fuel generalizing s t with
  | zero =>
    obtain rfl := T.forest.eq_of_mem_path hf hfuel
    rw [hwf.eq_atTip ht] at hstop ⊢
    exact disconnectUntil_stop hstop 0
  | succ fuel ih =>
    rcases T.forest.mem_path_iff.1 hf with rfl | ⟨p, hp, hfp⟩
    · rw [hwf.eq_atTip ht] at hstop ⊢
      exact disconnectUntil_stop hstop _
    · have hheight := T.forest.depth_of_parent hp
      have hne : f ≠ t := by
        rintro rfl
        have := T.forest.depth_le_of_mem_path hfp
        omega
      have hhere := hgo t (T.forest.self_mem_path t) hf hne
      rw [hwf.eq_atTip ht] at hhere
      rw [disconnectUntil_step hwf ht hhere hp]
      have hpm := hwf.closed t (hwf.tip_mem_map ht) p (T.forest.parent_mem_path hp)
      refine ih (hwf.atTip hpm) (tip_atTip s p) hfp hstop (fun d hd => hgo d (T.forest.mem_path_of_parent hp hd)) ?_
      show T.forest.depth p ≤ T.nHeight f + fuel
      have : T.forest.depth t ≤ T.nHeight f + (fuel + 1) := hfuel
      omega

lemma disconnectUntil_genesis (hwf : s.WellFormed T) (ht : s.tip = some t)
    (hgo : ∀ d ∈ T.path t, stop (s.atTip T d) = false) (hfuel : T.nHeight t < fuel) :
    disconnectUntil T stop fuel s = .ok (false, s.atTip T T.genesis) := by
  induction fuel generalizing s t with
  | zero => omega
  | succ fuel ih =>
    have hhere := hgo t (T.forest.self_mem_path t)
    rw [hwf.eq_atTip ht] at hhere
    cases hp : T.pprev t with
    | none =>
      obtain rfl := (T.pprev_eq_none t).1 hp
      unfold disconnectUntil
      rw [if_neg (by simp [hhere]), hwf.eq_atTip ht]
      rw [disconnectTip, ht]
      dsimp only
      rw [hp]
      rfl
    | some p =>
      rw [disconnectUntil_step hwf ht hhere hp]
      have hheight : T.nHeight t = T.nHeight p + 1 := T.forest.depth_of_parent hp
      have hpm := hwf.closed t (hwf.tip_mem_map ht) p (T.forest.parent_mem_path hp)
      exact ih (hwf.atTip hpm) (tip_atTip s p) (fun d hd => hgo d (T.forest.mem_path_of_parent hp hd)) (by omega)

/-! ## Climbing -/

variable (T) in
/-- `s'` is `s` after the chain has grown from `t` to `t'`. -/
structure Climb (t t' : ι) (s s' : CChainState ι) : Prop where
  above : t ∈ T.path t'
  connects : ∀ y ∈ T.path t', y ∉ T.path t → T.connectBlock y = true
  index : ∀ y, s'.index y =
    if y ∈ T.path t' ∧ y ∉ T.path t then (s.index y).raiseValidity BLOCK_VALID_SCRIPTS else s.index y
  candidates : ∀ c, c ∈ s'.setBlockIndexCandidates ↔
    c ∈ s.setBlockIndexCandidates ∧ (t' = t ∨ s.workKey T t' ≤ s.workKey T c)
  map : s'.mapBlockIndex = s.mapBlockIndex
  unlinked : s'.mapBlocksUnlinked = s.mapBlocksUnlinked
  failed : s'.g_failed_blocks = s.g_failed_blocks
  chain : s'.chainActive.IsPathOf T.toBlockTree t'

lemma Climb.refl (h : s.chainActive.IsPathOf T.toBlockTree t) : Climb T t t s s :=
  ⟨T.forest.self_mem_path t, fun _ hy hny => absurd hy hny, fun _ => (if_neg fun hy => hy.2 hy.1).symm,
    fun _ => (and_iff_left (.inl rfl)).symm, rfl, rfl, rfl, h⟩

section

variable (h : Climb T t t' s s')
include h

lemma Climb.sameData : SameData s s' := by
  have hcases : ∀ y, s'.index y = s.index y ∨ s'.index y = (s.index y).raiseValidity BLOCK_VALID_SCRIPTS := by
    intro y
    rw [h.index]
    split
    · exact .inr rfl
    · exact .inl rfl
  refine ⟨h.map, h.unlinked, fun y => ?_, fun y => ?_, fun y => ?_, fun y => ?_, fun y => ?_⟩ <;>
    rcases hcases y with hy | hy <;> rw [hy]
  · exact raiseValidity_data.1
  · exact raiseValidity_data.2.1
  · exact raiseValidity_data.2.2.1
  · exact raiseValidity_data.2.2.2
  · exact le_nValid_raiseValidity

lemma Climb.tip : s'.tip = some t' := h.chain.tip

lemma Climb.flags (y : ι) : (s'.index y).failedValid = (s.index y).failedValid ∧
    (s'.index y).failedChild = (s.index y).failedChild := by
  rw [h.index]
  split
  · exact ⟨failedValid_raiseValidity .., failedChild_raiseValidity ..⟩
  · exact ⟨rfl, rfl⟩

lemma Climb.isFailed (y : ι) : (s'.index y).failed = (s.index y).failed := by
  rw [CBlockIndex.failed, CBlockIndex.failed, (h.flags y).1, (h.flags y).2]

lemma Climb.trans (h' : Climb T t' f s' s'') : Climb T t f s s'' := by
  have hsub : ∀ y ∈ T.path t', y ∈ T.path f := fun y => T.forest.path_trans h'.above
  have hsub' : ∀ y ∈ T.path t, y ∈ T.path t' := fun y => T.forest.path_trans h.above
  refine ⟨T.forest.path_trans h'.above h.above, fun y hy hny => ?_, fun y => ?_, fun c => ?_, h'.map.trans h.map,
    h'.unlinked.trans h.unlinked, h'.failed.trans h.failed, h'.chain⟩
  · by_cases hyt : y ∈ T.path t'
    · exact h.connects y hyt hny
    · exact h'.connects y hy hyt
  · rw [h'.index, h.index]
    by_cases hyt : y ∈ T.path t'
    · simp [hyt, hsub y hyt]
    · have hny : y ∉ T.path t := fun hy => hyt (hsub' y hy)
      simp [hyt, hny]
  · rw [h'.candidates, h.candidates, h.sameData.workKey, h.sameData.workKey, and_assoc]
    refine and_congr_right fun _ => ?_
    by_cases hft : f = t'
    · subst hft
      rw [and_iff_left (.inl rfl)]
    · -- the last tip is the highest
      have hlt := workKey_lt_of_mem_path s h'.above (Ne.symm hft)
      have hfne : f ≠ t := by
        rintro rfl
        exact hlt.not_ge (workKey_le_of_mem_path s h.above)
      rw [or_iff_right hft, or_iff_right hfne]
      exact ⟨And.right, fun hc => ⟨.inr (hlt.le.trans hc), hc⟩⟩

lemma Climb.wf (hwf : s.WellFormed T) (ht : t' ∈ s.mapBlockIndex) : s'.WellFormed T :=
  hwf.moved h.map (fun c hc => hwf.candidates c ((h.candidates c).1 hc).1) h.unlinked
    (fun c hc => hwf.failed c (h.failed ▸ hc)) h.chain ht

lemma Climb.linked (hl : s.Linked T) (ht : (s.index t').nChainTx ≠ 0) : s'.Linked T := by
  refine hl.of_sameData h.sameData (fun c hc => hl.candidates c ((h.candidates c).1 hc).1) fun u hu => ?_
  cases h.chain.tip.symm.trans hu
  exact ht

end

/-- What `InvalidBlockFound` makes of the state. -/
def reject (s : CChainState ι) (x : ι) : CChainState ι :=
  ({ s.modify x CBlockIndex.failValid with g_failed_blocks := s.g_failed_blocks.insert x } : CChainState ι).eraseCandidate x

lemma index_reject (s : CChainState ι) (x y : ι) :
    (s.reject x).index y = if y = x then (s.index x).failValid else s.index y := index_modify ..

lemma mem_reject_candidates : c ∈ (s.reject x).setBlockIndexCandidates ↔ c ∈ s.setBlockIndexCandidates ∧ c ≠ x :=
  mem_eraseCandidate

lemma mem_reject_failed : c ∈ (s.reject x).g_failed_blocks ↔ c = x ∨ c ∈ s.g_failed_blocks := OrdSet.mem_insert

variable (s x) in
lemma sameData_reject : SameData s (s.reject x) := by
  have h := sameData_modify s x (f := failValid) fun i => ⟨rfl, rfl, rfl, rfl, le_rfl⟩
  exact { h with }

lemma WellFormed.reject (h : s.WellFormed T) (hx : x ∈ s.mapBlockIndex) : (s.reject x).WellFormed T := by
  obtain ⟨t, ht, htip⟩ := h.tip_mem
  exact h.moved rfl (fun c hc => h.candidates c (mem_reject_candidates.1 hc).1) rfl
    (fun c hc => (mem_reject_failed.1 hc).elim (fun heq => heq ▸ hx) (h.failed c)) (h.follows.isPathOf htip) ht

lemma Linked.reject (h : s.Linked T) (x : ι) : (s.reject x).Linked T :=
  h.of_sameData (sameData_reject s x) (fun c hc => h.candidates c (mem_reject_candidates.1 hc).1) h.active

variable (T) in
/-- How an attempt to climb from `t` to `b` can end. -/
inductive Outcome (b t : ι) (s : CChainState ι) : Progress → CChainState ι → Prop
  | running {s' : CChainState ι} : Climb T t b s s' → Outcome b t s .running s'
  | better {s' : CChainState ι} (t' : ι) : Climb T t t' s s' → t' ∈ T.path b → t' ≠ t → Outcome b t s .better s'
  | invalid {s' : CChainState ι} (t' x : ι) : Climb T t t' s s' → x ∈ T.path b → T.pprev x = some t' →
      T.connectBlock x = false → Outcome b t s .invalid (s'.reject x)

variable {r : Progress}

lemma Climb.outcome (h : Climb T t t' s s') (h' : Outcome T b t' s' r s'') : Outcome T b t s r s'' := by
  cases h' with
  | running hc => exact .running (h.trans hc)
  | better u hc hu hne =>
    refine .better u (h.trans hc) hu ?_
    rintro rfl
    exact hne (T.forest.eq_of_mem_path h.above (T.forest.depth_le_of_mem_path hc.above))
  | invalid u x hc hx hp hcon => exact .invalid u x (h.trans hc) hx hp hcon

lemma connectTip_valid (hwf : s.WellFormed T) (ht : s.tip = some t) (hp : T.pprev x = some t)
    (hcon : T.connectBlock x = true) :
    s.connectTip T x = .ok (true, (s.modify x (raiseValidity BLOCK_VALID_SCRIPTS)).atTip T x) := by
  have hgen : x ≠ T.genesis := by
    rintro rfl
    cases ((T.pprev_eq_none _).2 rfl).symm.trans hp
  rw [connectTip, if_neg (by rw [hp, ht]; exact not_not.2 rfl), if_pos hcon, if_neg hgen]
  dsimp only
  rw [(hwf.modify x _).setTip_eq]

lemma connectTip_invalid (ht : s.tip = some t) (hp : T.pprev x = some t) (hcon : T.connectBlock x = false) :
    s.connectTip T x = .ok (false, s.reject x) := by
  have hinv : s.invalidBlockFound x = .ok (s.reject x) :=
    invalidBlockFound_eq_ok.2 ⟨by rw [ht]; exact some_ne_none t, rfl⟩
  rw [connectTip, if_neg (by rw [hp, ht]; exact not_not.2 rfl), if_neg (by simp [hcon]), hinv]
  rfl

lemma pruneBlockIndexCandidates_ok (ht : s.tip = some t) (hb : b ∈ s.setBlockIndexCandidates)
    (hbt : s.workKey T t ≤ s.workKey T b) : s.pruneBlockIndexCandidates T =
      .ok { s with setBlockIndexCandidates := s.setBlockIndexCandidates.filter fun c => !s.workLess T c t } := by
  rw [pruneBlockIndexCandidates, ht]
  dsimp only
  rw [if_neg]
  refine ne_nil_of_mem (List.mem_filter.2 ⟨hb, ?_⟩)
  rw [workLess_eq_false.2 hbt]
  rfl

/-- One block is connected, and the candidates that are worse are dropped. -/
theorem climb_one (hp : T.pprev x = some t) (hcon : T.connectBlock x = true) :
    Climb T t x s { (s.modify x (raiseValidity BLOCK_VALID_SCRIPTS)).atTip T x with
      setBlockIndexCandidates := s.setBlockIndexCandidates.filter fun c =>
        !(s.modify x (raiseValidity BLOCK_VALID_SCRIPTS)).workLess T c x } := by
  have hxt : x ∉ T.path t := fun hx => by
    have hle := T.forest.depth_le_of_mem_path hx
    have heq := T.forest.depth_of_parent hp
    omega
  have hiff : ∀ y, y ∈ T.path x ∧ y ∉ T.path t ↔ y = x := by
    intro y
    constructor
    · rintro ⟨hy, hyt⟩
      rcases T.forest.mem_path_iff.1 hy with rfl | ⟨q, hq, hyq⟩
      · rfl
      · cases hp.symm.trans hq
        exact absurd hyq hyt
    · rintro rfl
      exact ⟨T.forest.self_mem_path y, hxt⟩
  have hsame := sameData_modify s x (f := raiseValidity BLOCK_VALID_SCRIPTS) fun i =>
    ⟨raiseValidity_data.1, raiseValidity_data.2.1, raiseValidity_data.2.2.1,
      raiseValidity_data.2.2.2, le_nValid_raiseValidity⟩
  refine ⟨T.forest.parent_mem_path hp, fun y hy hyt => ?_, fun y => ?_, fun c => ?_, rfl, rfl, rfl, rfl⟩
  · rw [(hiff y).1 ⟨hy, hyt⟩]
    exact hcon
  · rw [if_congr (hiff y) rfl rfl]
    refine (index_modify s x _ y).trans ?_
    split_ifs with heq
    · rw [heq]
    · rfl
  · have hne : x ≠ t := fun heq => hxt (heq ▸ T.forest.self_mem_path x)
    rw [or_iff_right hne, List.mem_filter, Bool.not_eq_true', workLess_eq_false, hsame.workKey, hsame.workKey]

lemma connectBlocks_ok {q : ι} (hwf : s.WellFormed T) (ht : s.tip = some t)
    (hpath : T.path q = l.reverse ++ T.path t) (hq : q ∈ T.path b) (hb : b ∈ s.setBlockIndexCandidates) :
    ∃ r s', connectBlocks T pindexOldTip l s = .ok (r, s') ∧ Outcome T q t s r s' := by
  induction l generalizing s t with
  | nil =>
    have hqt : q ∈ T.path t := by
      have := T.forest.self_mem_path q
      rwa [show T.forest.path q = T.path t from hpath] at this
    have htq : t ∈ T.path q := by
      rw [hpath]
      exact T.forest.self_mem_path t
    obtain rfl := T.forest.eq_of_mem_path hqt (T.forest.depth_le_of_mem_path htq)
    exact ⟨.running, s, rfl, .running (.refl (hwf.follows.isPathOf ht))⟩
  | cons x l ih =>
    have hsplit : T.path q = l.reverse ++ x :: T.path t := by
      rw [hpath, reverse_cons, append_assoc]
      rfl
    have hx : T.path x = x :: T.path t := T.forest.path_eq_of_suffix ⟨l.reverse, hsplit.symm⟩
    have hp : T.pprev x = some t := T.forest.parent_of_path_eq hx
    have hxq : x ∈ T.path q := by
      rw [hsplit]
      simp
    have hxb := T.forest.path_trans hq hxq
    cases hcon : T.connectBlock x with
    | true =>
      have hclimb := climb_one (s := s) hp hcon
      set s₁ := (s.modify x (raiseValidity BLOCK_VALID_SCRIPTS)).atTip T x
      have hprune := pruneBlockIndexCandidates_ok (s := s₁) (tip_atTip _ x) hb (workKey_le_of_mem_path _ hxb)
      have hwf₂ := hclimb.wf hwf (hwf.closed b (hwf.candidates b hb) x hxb)
      have hb₂ := (hclimb.candidates b).2 ⟨hb, .inr (workKey_le_of_mem_path s hxb)⟩
      have hne : x ≠ t := by
        rintro rfl
        have := T.forest.depth_of_parent hp
        omega
      rw [connectBlocks, connectTip_valid hwf ht hp hcon]
      simp only [bind, Except.bind, if_true]
      rw [hprune]
      dsimp only
      split
      · exact ⟨.better, _, rfl, .better x hclimb hxq hne⟩
      · obtain ⟨r, s', hrun, hout⟩ := ih hwf₂ hclimb.chain.tip (by rw [hsplit, hx]) hb₂
        exact ⟨r, s', hrun, hclimb.outcome hout⟩
    | false =>
      have hfound : (s.reject x).invalidChainFound = .ok () :=
        invalidChainFound_eq_ok.2 (by rw [show (s.reject x).tip = some t from ht]; exact some_ne_none t)
      rw [connectBlocks, connectTip_invalid ht hp hcon]
      simp only [ok_bind]
      rw [hfound]
      exact ⟨.invalid, _, rfl, .invalid t x (.refl (hwf.follows.isPathOf ht)) hxq hp hcon⟩

lemma connectBatches_ok (hwf : s.WellFormed T) (ht : s.tip = some t) (htb : t ∈ T.path b)
    (hb : b ∈ s.setBlockIndexCandidates) (hfuel : T.nHeight b ≤ T.nHeight t + fuel) :
    ∃ r s', connectBatches T pindexOldTip b fuel (T.nHeight t) s = .ok (r, s') ∧ Outcome T b t s r s' := by
  induction fuel generalizing s t with
  | zero =>
    obtain rfl := T.forest.eq_of_mem_path htb hfuel
    refine ⟨.running, s, ?_, .running (.refl (hwf.follows.isPathOf ht))⟩
    unfold connectBatches
    rw [if_pos rfl]
  | succ fuel ih =>
    unfold connectBatches
    by_cases hheight : (T.nHeight t : ℤ) = T.nHeight b
    · obtain rfl := T.forest.eq_of_mem_path htb (cast_injective hheight).ge
      exact ⟨.running, s, by rw [if_pos rfl], .running (.refl (hwf.follows.isPathOf ht))⟩
    rw [if_neg hheight]
    have hle : T.nHeight t ≤ T.nHeight b := T.forest.depth_le_of_mem_path htb
    -- the last block of the batch
    obtain ⟨q, hq⟩ := T.forest.exists_ancestorAt (d := min (T.nHeight t + 32) (T.nHeight b)) (min_le_right _ _)
    obtain ⟨hqb, hqheight⟩ := T.forest.ancestorAt_eq_some.1 hq
    have hqheight : T.nHeight q = min (T.nHeight t + 32) (T.nHeight b) := hqheight
    have htarget : min ((T.nHeight t : ℤ) + 32) (T.nHeight b) = T.nHeight q := by
      rw [hqheight]
      push_cast
      rfl
    have hanc : T.getAncestor b (T.nHeight q : ℤ).toNat = some q := by
      rw [hqheight]
      exact hq
    have htq : t ∈ T.path q := T.forest.mem_path_of_depth_le hqb htb (by
      show T.nHeight t ≤ T.nHeight q
      omega)
    have hcut : (T.path q).takeWhile (fun c => decide ((T.nHeight c : ℤ) ≠ T.nHeight t)) ++ T.path t = T.path q := by
      refine T.forest.takeWhile_append_path_of htq (by simp) fun k hk htk hne => ?_
      have hlt : T.nHeight t < T.nHeight k := T.forest.depth_lt_of_mem_path htk hne
      exact decide_eq_true (by omega)
    obtain ⟨r, s₁, hrun, hout⟩ := connectBlocks_ok pindexOldTip
      (l := ((T.path q).takeWhile fun c => decide ((T.nHeight c : ℤ) ≠ T.nHeight t)).reverse) hwf ht
      (by rw [reverse_reverse, hcut]) hqb hb
    simp only [htarget, hanc, elim_some, hrun]
    cases hout with
    | running hc =>
      have hwf₁ := hc.wf hwf (hwf.closed b (hwf.candidates b hb) q hqb)
      have hb₁ := (hc.candidates b).2 ⟨hb, .inr (workKey_le_of_mem_path s hqb)⟩
      obtain ⟨r, s', hrun', hout'⟩ := ih hwf₁ hc.chain.tip hqb hb₁ (by omega)
      exact ⟨r, s', hrun', hc.outcome hout'⟩
    | better t' hc ht' hne => exact ⟨.better, s₁, rfl, .better t' hc (T.forest.path_trans hqb ht') hne⟩
    | invalid t' x hc hx hp hcon => exact ⟨.invalid, _, rfl, .invalid t' x hc (T.forest.path_trans hqb hx) hp hcon⟩

variable (T) in
/-- `f` is the last common block of the paths of `t` and `b`. -/
structure IsFork (t b f : ι) : Prop where
  left : f ∈ T.path t
  right : f ∈ T.path b
  last : ∀ d ∈ T.path t, d ∈ T.path b → d ∈ T.path f

variable (T b) in
omit [LinearOrder ι] in
lemma genesis_mem_path : T.genesis ∈ T.path b := by
  induction b using T.forest.induction with
  | step b ih =>
    cases hp : T.pprev b with
    | none =>
      rw [(T.pprev_eq_none b).1 hp]
      exact T.forest.self_mem_path _
    | some p => exact T.forest.mem_path_of_parent hp (ih p hp)

lemma activateBestChainStep_ok (hwf : s.WellFormed T) (ht : s.tip = some t) (hb : b ∈ s.setBlockIndexCandidates) :
    ∃ r s' f, s.activateBestChainStep T b = .ok (true, decide (r = .invalid), s') ∧ IsFork T t b f ∧
      Outcome T b f (s.atTip T f) r s' := by
  obtain ⟨f, hfork, hft, hfb, hlast⟩ :=
    (hwf.follows.isPathOf ht).findFork_spec (genesis_mem_path T t) (genesis_mem_path T b)
  have hheight : T.nHeight f ≤ T.nHeight b := T.forest.depth_le_of_mem_path hfb
  have hdis : disconnectUntil T (fun s => decide (s.tip = none ∨ s.tip = some f)) s.chainActive.vChain.length s =
      .ok (true, s.atTip T f) := by
    refine disconnectUntil_ok _ hwf ht hft (by simp) (fun d _ _ hne => ?_) ?_
    · simpa using hne.symm
    · rw [(hwf.follows.isPathOf ht).length]
      omega
  have hfm := hwf.closed t (hwf.tip_mem_map ht) f hft
  obtain ⟨r, s', hrun, hout⟩ := connectBatches_ok s.tip (hwf.atTip hfm) (tip_atTip s f) hfb hb
    (show T.nHeight b ≤ T.nHeight f + (T.nHeight b + 1) by omega)
  refine ⟨r, s', f, ?_, ⟨hft, hfb, hlast⟩, hout⟩
  rw [activateBestChainStep, hfork]
  simp only [hdis, hrun, ok_bind, if_true, elim_some]
  rfl

/-! ## The best candidate -/

variable (T) in
/-- `s'` is `s` after `FindMostWorkChain` has removed, and marked, candidates above failed blocks. -/
structure Found (s s' : CChainState ι) : Prop where
  index : ∀ c, s'.index c = s.index c ∨
    s'.index c = (s.index c).failChild ∧ ∃ a ∈ T.path c, a ≠ c ∧ (s.index a).failed = true
  candidates : ∀ c ∈ s'.setBlockIndexCandidates, c ∈ s.setBlockIndexCandidates
  erased : ∀ c ∈ s.setBlockIndexCandidates, c ∉ s'.setBlockIndexCandidates → (s'.index c).failed = true
  map : s'.mapBlockIndex = s.mapBlockIndex
  unlinked : s'.mapBlocksUnlinked = s.mapBlocksUnlinked
  failed : s'.g_failed_blocks = s.g_failed_blocks
  chain : s'.chainActive = s.chainActive

section

omit [LinearOrder ι]

lemma Found.refl (s : CChainState ι) : Found T s s :=
  ⟨fun _ => .inl rfl, fun _ hc => hc, fun _ hc hnc => absurd hc hnc, rfl, rfl, rfl, rfl⟩

section

variable (h : Found T s s')
include h

lemma Found.failed_mono (hc : (s.index c).failed = true) : (s'.index c).failed = true := by
  rcases h.index c with heq | ⟨heq, -⟩
  · rw [heq, hc]
  · rw [heq]
    exact Bool.or_true _

lemma Found.below (hc : (s'.index c).failed = true) : ∃ a ∈ T.path c, (s.index a).failed = true := by
  rcases h.index c with heq | ⟨-, a, ha, -, hfailed⟩
  · exact ⟨c, T.forest.self_mem_path c, heq ▸ hc⟩
  · exact ⟨a, ha, hfailed⟩

lemma Found.trans (h' : Found T s' s'') : Found T s s'' := by
  refine ⟨fun c => ?_, fun c hc => h.candidates c (h'.candidates c hc), fun c hc hnc => ?_, h'.map.trans h.map,
    h'.unlinked.trans h.unlinked, h'.failed.trans h.failed, h'.chain.trans h.chain⟩
  · rcases h'.index c with heq' | ⟨heq', a, ha, hac, hfailed⟩
    · rw [heq']
      exact h.index c
    · refine .inr ⟨?_, ?_⟩
      · rcases h.index c with heq | ⟨heq, -⟩
        · rw [heq', heq]
        · rw [heq', heq]
          rfl
      · obtain ⟨d, hd, hfd⟩ := h.below hfailed
        refine ⟨d, T.forest.path_trans ha hd, ?_, hfd⟩
        rintro rfl
        exact hac (T.forest.eq_of_mem_path ha (T.forest.depth_le_of_mem_path hd))
  · by_cases hc' : c ∈ s'.setBlockIndexCandidates
    · exact h'.erased c hc' hnc
    · exact h'.failed_mono (h.erased c hc hc')

lemma Found.sameData : SameData s s' := by
  refine ⟨h.map, h.unlinked, fun c => ?_, fun c => ?_, fun c => ?_, fun c => ?_, fun c => ?_⟩ <;>
    rcases h.index c with heq | ⟨heq, -⟩ <;> rw [heq] <;> rfl

lemma Found.tip : s'.tip = s.tip := congrArg CChain.tip h.chain

lemma Found.wf (hwf : s.WellFormed T) : s'.WellFormed T := by
  obtain ⟨t, ht, htip⟩ := hwf.tip_mem
  exact hwf.moved h.map (fun c hc => hwf.candidates c (h.candidates c hc)) h.unlinked
    (fun c hc => hwf.failed c (h.failed ▸ hc)) (h.chain ▸ hwf.follows.isPathOf htip) ht

lemma Found.linked (hl : s.Linked T) : s'.Linked T :=
  hl.of_sameData h.sameData (fun c hc => hl.candidates c (h.candidates c hc)) fun t ht => hl.active t (h.tip ▸ ht)

end

end

lemma found_removeChain (hab : a ∈ T.path b) (hfailed : (s.index a).failed = true) :
    Found T s ((s.failDisconnected ((T.path b).takeWhile (· ≠ a))).eraseCandidate a) := by
  obtain ⟨hmap, hunl, -, hfailedBlocks, hchain, hindex, hcand⟩ :=
    s.failDisconnected_spec ((T.path b).takeWhile (· ≠ a))
  refine ⟨fun c => ?_, fun c hc => ((hcand c).1 (mem_eraseCandidate.1 hc).1).1, fun c hc hnc => ?_, hmap, hunl,
    hfailedBlocks, hchain⟩
  · refine (em (c ∈ (T.path b).takeWhile (· ≠ a))).symm.imp (fun hc => (hindex c).trans (if_neg hc)) fun hc => ?_
    obtain ⟨-, hac, hne⟩ := (T.forest.mem_takeWhile_path hab).1 hc
    exact ⟨(hindex c).trans (if_pos hc), a, hac, hne, hfailed⟩
  · show ((s.failDisconnected _).index c).failed = true
    rw [hindex]
    by_cases habove : c ∈ (T.path b).takeWhile (· ≠ a)
    · rw [if_pos habove]
      exact Bool.or_true _
    · rw [if_neg habove]
      have hca : c = a := by
        by_contra hne
        exact hnc (mem_eraseCandidate.2 ⟨(hcand c).2 ⟨hc, habove⟩, hne⟩)
      rw [hca, hfailed]

lemma firstUnusable_ok (h : ∀ a ∈ l, (s.index a).nChainTx ≠ 0) : ∃ r, s.firstUnusable T l = .ok r := by
  induction l with
  | nil => exact ⟨none, rfl⟩
  | cons a l ih =>
    rw [firstUnusable]
    split
    · exact ⟨none, rfl⟩
    · rw [if_neg fun hzero => h a List.mem_cons_self hzero.1]
      split
      · exact ⟨some a, rfl⟩
      · exact ih fun c hc => h c (List.mem_cons_of_mem _ hc)

lemma firstUnusable_none (hwf : s.WellFormed T) (ht : s.tip = some t) (h : s.firstUnusable T (T.path b) = .ok none) :
    ∀ a ∈ T.path b, a ∈ T.path t ∨ (s.index a).failed = false := by
  induction b using T.forest.induction with
  | step b ih =>
    by_cases hact : s.isActive T b = true
    · intro a ha
      exact .inl (T.forest.path_trans ((hwf.isActive_iff ht).1 hact) ha)
    have hsplit : ∃ l, T.path b = b :: l ∧ ∀ p, T.pprev b = some p → l = T.path p := by
      cases hp : T.pprev b with
      | none => exact ⟨[], T.forest.path_of_root hp, nofun⟩
      | some p => exact ⟨T.path p, T.forest.path_of_parent hp, fun q hq => some.inj hq ▸ rfl⟩
    obtain ⟨l, hl, hparent⟩ := hsplit
    rw [hl, firstUnusable, if_neg hact] at h
    split at h
    · cases h
    split at h
    · cases h
    rename_i hgood
    have hb : (s.index b).failed = false := by
      simp only [Bool.or_eq_true, not_or, Bool.not_eq_true] at hgood
      exact hgood.1
    intro a ha
    rcases T.forest.mem_path_iff.1 ha with rfl | ⟨p, hp, hap⟩
    · exact .inr hb
    · exact ih p hp (hparent p hp ▸ h) a hap

variable (T) in
/-- `b` is the best candidate, and its path can be used from the active chain on. -/
structure Target (s : CChainState ι) (b : ι) : Prop where
  mem : b ∈ s.setBlockIndexCandidates
  max : ∀ c ∈ s.setBlockIndexCandidates, s.workKey T c ≤ s.workKey T b
  usable : ∀ t, s.tip = some t → ∀ a ∈ T.path b, a ∈ T.path t ∨ (s.index a).failed = false

lemma findMostWorkChain_ok (hwf : s.WellFormed T) (hl : s.Linked T)
    (hfuel : s.setBlockIndexCandidates.toFinset.card < fuel) :
    ∃ r s', findMostWorkChain T fuel s = .ok (r, s') ∧ Found T s s' ∧ (r = none → s'.setBlockIndexCandidates = []) ∧
      ∀ b, r = some b → Target T s' b := by
  induction fuel generalizing s with
  | zero => omega
  | succ fuel ih =>
    rw [findMostWorkChain]
    cases hlast : s.lastCandidate T s.setBlockIndexCandidates with
    | none => exact ⟨none, s, rfl, .refl s, fun _ => lastCandidate_eq_none hlast, fun _ hb => by cases hb⟩
    | some b =>
      have hb := lastCandidate_mem hlast
      have hpath := hl.path (hl.candidates b hb)
      obtain ⟨test, htest⟩ := firstUnusable_ok (T := T) hpath
      simp only [htest, ok_bind]
      cases test with
      | none =>
        refine ⟨some b, s, rfl, .refl s, fun hb => (by cases hb), fun c hc => ?_⟩
        cases hc
        exact ⟨hb, lastCandidate_max hlast, fun t ht => firstUnusable_none hwf ht htest⟩
      | some a =>
        obtain ⟨hab, hunusable⟩ := firstUnusable_eq_some htest
        -- the data is there, so the block has failed
        have hfailed : (s.index a).failed = true :=
          hunusable.resolve_right (by rw [hl.data a (hpath a hab)]; exact Bool.true_eq_false_eq_False)
        have hfound := found_removeChain hab hfailed
        have hstep : (((T.path b).takeWhile (· ≠ a)).foldl (removeUnusable T (s.index a).failed) s).eraseCandidate a =
            (s.failDisconnected ((T.path b).takeWhile (· ≠ a))).eraseCandidate a := by
          rw [hfailed]
          rfl
        dsimp only
        rw [hstep]
        -- the candidate itself is removed
        have hgone : b ∉ ((s.failDisconnected ((T.path b).takeWhile (· ≠ a))).eraseCandidate a).setBlockIndexCandidates := by
          intro hmem
          obtain ⟨hmem, hne⟩ := mem_eraseCandidate.1 hmem
          obtain ⟨-, -, -, -, -, -, hcand⟩ := s.failDisconnected_spec ((T.path b).takeWhile (· ≠ a))
          exact ((hcand b).1 hmem).2 ((T.forest.mem_takeWhile_path hab).2 ⟨T.forest.self_mem_path b, hab, hne.symm⟩)
        have hless := card_lt_card (ssubset_iff_of_subset
          (fun c hc => List.mem_toFinset.2 (hfound.candidates c (List.mem_toFinset.1 hc)))
          |>.2 ⟨b, List.mem_toFinset.2 hb, fun hmem => hgone (List.mem_toFinset.1 hmem)⟩)
        obtain ⟨r, s', hrun, hfound', hnone, hsome⟩ := ih (hfound.wf hwf) (hfound.linked hl) (by omega)
        exact ⟨r, s', hrun, hfound.trans hfound', hnone, hsome⟩

/-! ## The loop -/

section

variable (h : Outcome T b f s r s')
include h

lemma Outcome.wf (hwf : s.WellFormed T) (hb : b ∈ s.mapBlockIndex) : s'.WellFormed T := by
  cases h with
  | running hc => exact hc.wf hwf hb
  | better t' hc ht' => exact hc.wf hwf (hwf.closed b hb t' ht')
  | invalid t' x hc hx hp hcon =>
    have hwf₁ := hc.wf hwf (hwf.closed b hb t' (T.forest.path_trans hx (T.forest.parent_mem_path hp)))
    exact hwf₁.reject (hc.map ▸ hwf.closed b hb x hx)

lemma Outcome.linked (hl : s.Linked T) (hb : (s.index b).nChainTx ≠ 0) : s'.Linked T := by
  cases h with
  | running hc => exact hc.linked hl hb
  | better t' hc ht' => exact hc.linked hl (hl.path hb t' ht')
  | invalid t' x hc hx hp hcon =>
    exact (hc.linked hl (hl.path hb t' (T.forest.path_trans hx (T.forest.parent_mem_path hp)))).reject x

lemma Outcome.sameData : SameData s s' := by
  cases h with
  | running hc => exact hc.sameData
  | better t' hc => exact hc.sameData
  | invalid t' x hc => exact hc.sameData.trans (sameData_reject _ x)

end

variable (s t) in
omit [LinearOrder ι] in
lemma sameData_atTip : SameData s (s.atTip T t) :=
  ⟨rfl, rfl, fun _ => rfl, fun _ => rfl, fun _ => rfl, fun _ => rfl, fun _ => le_rfl⟩

omit [LinearOrder ι] in
lemma Linked.atTip (h : s.Linked T) (ht : (s.index t).nChainTx ≠ 0) : (s.atTip T t).Linked T := by
  refine h.of_sameData (sameData_atTip s t) h.candidates fun u hu => ?_
  cases (tip_atTip s t).symm.trans hu
  exact ht

variable (T) in
/-- What one round of `ActivateBestChain` can do: look for the best candidate, or climb towards it. -/
inductive Round (s s' : CChainState ι) : Prop
  | find : Found T s s' → Round s s'
  | step (t b f : ι) (r : Progress) : s.tip = some t → b ∈ s.setBlockIndexCandidates →
      (∀ a ∈ T.path b, a ∈ T.path t ∨ (s.index a).failed = false) → IsFork T t b f →
      Outcome T b f (s.atTip T f) r s' → Round s s'

lemma Round.wf (h : Round T s s') (hwf : s.WellFormed T) : s'.WellFormed T := by
  cases h with
  | find h => exact h.wf hwf
  | step t b f r ht hb _ hf hout =>
    exact hout.wf (hwf.atTip (hwf.closed t (hwf.tip_mem_map ht) f hf.left)) (hwf.candidates b hb)

lemma Round.linked (h : Round T s s') (hl : s.Linked T) : s'.Linked T := by
  cases h with
  | find h => exact h.linked hl
  | step t b f r ht hb _ hf hout =>
    exact hout.linked (hl.atTip (hl.path (hl.active t ht) f hf.left)) (hl.candidates b hb)

lemma Round.sameData (h : Round T s s') : SameData s s' := by
  cases h with
  | find h => exact h.sameData
  | step t b f r ht hb _ hf hout => exact (sameData_atTip s f).trans hout.sameData

variable (T) in
/-- `s'` comes about from `s` by rounds of `ActivateBestChain`. -/
def Activated (s s' : CChainState ι) : Prop := Relation.ReflTransGen (Round T) s s'

/-- **An invariant of the rounds** is kept by `ActivateBestChain`. -/
theorem Activated.keep {P : CChainState ι → Prop} (h : Activated T s s') (hwf : s.WellFormed T) (hl : s.Linked T) (hP : P s)
    (hround : ∀ s s', s.WellFormed T → s.Linked T → Round T s s' → P s → P s') :
    s'.WellFormed T ∧ s'.Linked T ∧ P s' := by
  induction h with
  | refl => exact ⟨hwf, hl, hP⟩
  | tail _ hr ih =>
    obtain ⟨hwf, hl, hP⟩ := ih
    exact ⟨hr.wf hwf, hr.linked hl, hround _ _ hwf hl hr hP⟩

variable (T) in
/-- No candidate is better than the tip. -/
def Settled (s : CChainState ι) : Prop := ∃ t, s.tip = some t ∧ ∀ c ∈ s.setBlockIndexCandidates, s.workKey T c ≤ s.workKey T t

/-- The known blocks that have not been found invalid. -/
def unmarked (s : CChainState ι) : Finset ι := s.mapBlockIndex.toFinset.filter fun b => (s.index b).failedValid = false

lemma unmarked_congr (hmap : s'.mapBlockIndex = s.mapBlockIndex)
    (hvalid : ∀ b, (s'.index b).failedValid = (s.index b).failedValid) : s'.unmarked = s.unmarked := by
  rw [unmarked, unmarked, hmap]
  simp [hvalid]

lemma card_unmarked_reject (hx : x ∈ s.mapBlockIndex) (hvalid : (s.index x).failedValid = false) :
    (s.reject x).unmarked.card < s.unmarked.card := by
  refine card_lt_card ((ssubset_iff_of_subset fun b hb => ?_).2 ⟨x, ?_, fun hmem => ?_⟩)
  · obtain ⟨hb, hfv⟩ := Finset.mem_filter.1 hb
    rw [index_reject] at hfv
    split at hfv
    · cases hfv
    · exact Finset.mem_filter.2 ⟨hb, hfv⟩
  · exact Finset.mem_filter.2 ⟨List.mem_toFinset.2 hx, hvalid⟩
  · have hfv := (Finset.mem_filter.1 hmem).2
    rw [index_reject, if_pos rfl] at hfv
    cases hfv

omit [LinearOrder ι] in
lemma WellFormed.nHeight_lt (hwf : s.WellFormed T) (hb : b ∈ s.mapBlockIndex) : T.nHeight b < s.mapBlockIndex.length := by
  have hle := ((T.forest.path_nodup b).subperm (hwf.closed b hb)).length_le
  rw [T.forest.length_path] at hle
  exact hle

variable (T) in
/-- A bound on the rounds that are left: each mark pays for a climb from the genesis block. -/
def rank (s : CChainState ι) (cached : Option ι) : ℕ :=
  s.unmarked.card * (s.mapBlockIndex.length + 2) +
    cached.elim (s.mapBlockIndex.length + 1) fun b => T.nHeight b - s.tip.elim 0 T.nHeight

lemma Target.climb (h : Target T s b) (ht : s.tip = some t) (hf : IsFork T t b f) (hc : Climb T f t' (s.atTip T f) s')
    (ht' : t' ∈ T.path b) : Target T s' b := by
  refine ⟨(hc.candidates b).2 ⟨h.mem, .inr (workKey_le_of_mem_path _ ht')⟩, fun c hcand => ?_, fun u hu a ha => ?_⟩
  · rw [hc.sameData.workKey, hc.sameData.workKey]
    exact h.max c ((hc.candidates c).1 hcand).1
  · cases hc.chain.tip.symm.trans hu
    rw [hc.isFailed]
    rcases h.usable t ht a ha with hat | hgood
    · exact .inl (T.forest.path_trans hc.above (hf.last a hat ha))
    · exact .inr hgood

variable (T) in
/-- The first half of a round: the block to climb to. -/
def pickTarget (cached : Option ι) (s : CChainState ι) : Except ChainError (Option ι × CChainState ι) :=
  match cached with
  | some b => .ok (some b, s)
  | none => findMostWorkChain T (s.setBlockIndexCandidates.length + 1) s

variable (T) in
/-- The second half of a round. -/
def climbTo (shutdown : ℕ → Bool) (fuel i : ℕ) (b : ι) (s : CChainState ι) : Except ChainError (Bool × CChainState ι) :=
  if s.tip = some b then .ok (true, s)
  else do
    let (ok, fInvalidFound, s) ← s.activateBestChainStep T b
    if ok then
      let cached := if fInvalidFound then none else some b
      if shutdown i || s.tip = cached then pure (true, s) else activateLoop T shutdown fuel (i + 1) cached s
    else pure (false, s)

variable {cached : Option ι} {shutdown : ℕ → Bool}

lemma activateLoop_succ {fuel i : ℕ} :
    activateLoop T shutdown (fuel + 1) i cached s = (do
      let (mostWork, s) ← pickTarget T cached s
      match mostWork with
      | none => pure (true, s)
      | some b => climbTo T shutdown fuel i b s) := by
  cases cached <;> rfl

lemma Found.rank (h : Found T s s') (cached : Option ι) : s'.rank T cached = s.rank T cached := by
  have hvalid : ∀ b, (s'.index b).failedValid = (s.index b).failedValid := fun b => by
    rcases h.index b with heq | ⟨heq, -⟩ <;> rw [heq]
    rfl
  rw [CChainState.rank, CChainState.rank, unmarked_congr h.map hvalid, h.map, h.tip]

lemma pickTarget_ok (hwf : s.WellFormed T) (hl : s.Linked T)
    (hcached : ∀ b, cached = some b → Target T s b) :
    ∃ r s', pickTarget T cached s = .ok (r, s') ∧ Found T s s' ∧ (r = none → s'.setBlockIndexCandidates = []) ∧
      (∀ b, r = some b → Target T s' b) ∧ ∀ b, cached = some b → r = some b := by
  cases cached with
  | none =>
    have hcard := toFinset_card_le s.setBlockIndexCandidates
    obtain ⟨r, s', hrun, hfound, hnone, hsome⟩ := findMostWorkChain_ok hwf hl (lt_succ_of_le hcard)
    exact ⟨r, s', hrun, hfound, hnone, hsome, nofun⟩
  | some b => exact ⟨some b, s, rfl, .refl s, nofun, hcached, fun _ hc => hc⟩

lemma rank_climb (hwf : s.WellFormed T) (ht : s.tip = some t) (hb : b ∈ s.mapBlockIndex)
    (hcached : ∀ c, cached = some c → c = b ∧ t ∈ T.path c) (hf : IsFork T t b f) (hc : Climb T f t' (s.atTip T f) s')
    (hne : t' ≠ f) (htb : t' ∈ T.path b) : s'.rank T (some b) < s.rank T cached := by
  have hvalid : ∀ c, (s'.index c).failedValid = (s.index c).failedValid := fun c => (hc.flags c).1
  have hmap : s'.mapBlockIndex = s.mapBlockIndex := hc.map
  rw [rank, rank, unmarked_congr hmap hvalid, hmap, elim_some, hc.tip, elim_some, ht]
  have hheight : T.nHeight b < s.mapBlockIndex.length := hwf.nHeight_lt hb
  refine Nat.add_lt_add_left ?_ _
  cases cached with
  | none =>
    rw [elim_none]
    omega
  | some c =>
    obtain ⟨rfl, htc⟩ := hcached c rfl
    have hft : t = f := T.forest.eq_of_mem_path (hf.last t (T.forest.self_mem_path t) htc)
      (T.forest.depth_le_of_mem_path hf.left)
    have hlt : T.nHeight f < T.nHeight t' := T.forest.depth_lt_of_mem_path hc.above hne.symm
    have hle : T.nHeight t' ≤ T.nHeight c := T.forest.depth_le_of_mem_path htb
    rw [elim_some, elim_some, hft]
    omega

lemma rank_reject (cached : Option ι) (hx : x ∈ s.mapBlockIndex) (hvalid : (s.index x).failedValid = false)
    (hc : Climb T f t' (s.atTip T f) s') : (s'.reject x).rank T none < s.rank T cached := by
  have hcard := card_unmarked_reject (hc.map ▸ hx) ((hc.flags x).1.trans hvalid)
  rw [unmarked_congr (s := s) hc.map fun c => (hc.flags c).1] at hcard
  have hmap : (s'.reject x).mapBlockIndex = s.mapBlockIndex := hc.map
  have hle := mul_le_mul_right (s.mapBlockIndex.length + 2) (succ_le_of_lt hcard)
  rw [succ_mul] at hle
  rw [rank, rank, hmap, elim_none]
  omega

lemma activateLoop_ok {fuel i : ℕ} (hwf : s.WellFormed T) (hl : s.Linked T)
    (hcached : ∀ b, cached = some b → Target T s b ∧ ∃ t, s.tip = some t ∧ t ∈ T.path b) (hfuel : s.rank T cached < fuel) :
    ∃ s', activateLoop T shutdown fuel i cached s = .ok (true, s') ∧ Activated T s s' ∧
      ((∀ i, shutdown i = false) → Settled T s') := by
  induction fuel generalizing s i cached with
  | zero => omega
  | succ fuel ih =>
    obtain ⟨r, s₁, hpick, hfound, hnone, hsome, hkeep⟩ := pickTarget_ok hwf hl fun b hb => (hcached b hb).1
    have hwf₁ := hfound.wf hwf
    have hl₁ := hfound.linked hl
    obtain ⟨t, -, ht⟩ := hwf₁.tip_mem
    rw [← hfound.rank cached] at hfuel
    rw [activateLoop_succ, hpick]
    cases r with
    | none =>
      refine ⟨s₁, rfl, .single (.find hfound), fun _ => ⟨t, ht, ?_⟩⟩
      rw [hnone rfl]
      exact nofun
    | some b =>
      have htarget := hsome b rfl
      show ∃ s', climbTo T shutdown fuel i b s₁ = _ ∧ _
      unfold climbTo
      split
      · rename_i htb
        exact ⟨s₁, rfl, .single (.find hfound), fun _ => ⟨b, htb, htarget.max⟩⟩
      obtain ⟨r, s₂, f, hstep, hfork, hout⟩ := activateBestChainStep_ok hwf₁ ht htarget.mem
      have hround : Round T s₁ s₂ := .step t b f r ht htarget.mem (htarget.usable t ht) hfork hout
      have hact : Activated T s s₂ := .tail (.single (.find hfound)) hround
      have hwf₂ := hround.wf hwf₁
      have hl₂ := hround.linked hl₁
      have hbm := hwf₁.candidates b htarget.mem
      have hcached₁ : ∀ c, cached = some c → c = b ∧ t ∈ T.path c := fun c hc => by
        obtain ⟨-, u, hu, huc⟩ := hcached c hc
        rw [← hfound.tip, ht] at hu
        cases hu
        exact ⟨some.inj (hkeep c hc).symm, huc⟩
      simp only [hstep, ok_bind, if_true]
      cases hout with
      | running hc =>
        simp only [reduceCtorEq, decide_false, Bool.false_eq_true, if_false, hc.tip, decide_true, Bool.or_true, if_true]
        exact ⟨s₂, rfl, hact, fun _ => ⟨b, hc.tip, (htarget.climb ht hfork hc (T.forest.self_mem_path b)).max⟩⟩
      | better t' hc htb hne =>
        have htarget₂ := htarget.climb ht hfork hc htb
        simp only [reduceCtorEq, decide_false, Bool.false_eq_true, if_false]
        split_ifs with hstop
        · refine ⟨s₂, rfl, hact, fun hnever => ⟨b, ?_, htarget₂.max⟩⟩
          simpa [hnever] using hstop
        · have hrank := rank_climb hwf₁ ht hbm hcached₁ hfork hc hne htb
          obtain ⟨s', hrun, hact', hsettled⟩ := ih hwf₂ hl₂ (fun c hc' => ⟨some.inj hc' ▸ htarget₂, t', hc.tip,
            some.inj hc' ▸ htb⟩) (by omega)
          exact ⟨s', hrun, hact.trans hact', hsettled⟩
      | invalid t' x hc hx hp hcon =>
        have htip : (CChainState.reject _ x).tip = some t' := hc.tip
        simp only [decide_true, if_true, htip, reduceCtorEq, decide_false, Bool.or_false]
        split_ifs with hstop
        · exact ⟨_, rfl, hact, fun hnever => absurd hstop (by simp [hnever])⟩
        · -- the block is above the fork, so it was not marked
          have hxf : x ∉ T.path f := fun hxf => by
            have hle := T.forest.depth_le_of_mem_path (T.forest.path_trans hc.above hxf)
            have heq := T.forest.depth_of_parent hp
            omega
          have hgood := (htarget.usable t ht x hx).resolve_left fun hxt => hxf (hfork.last x hxt hx)
          have hrank := rank_reject cached (hwf₁.closed b hbm x hx) (Bool.or_eq_false_iff.1 hgood).1 hc
          obtain ⟨s', hrun, hact', hsettled⟩ := ih hwf₂ hl₂ (by rintro _ ⟨⟩) (hrank.trans_le (le_of_lt_succ hfuel))
          exact ⟨s', hrun, hact.trans hact', hsettled⟩

lemma activateBestChain_ok (shutdown : ℕ → Bool) (hwf : s.WellFormed T) (hl : s.Linked T) :
    ∃ s', s.activateBestChain T shutdown = .ok (true, s') ∧ Activated T s s' ∧
      ((∀ i, shutdown i = false) → Settled T s') := by
  refine activateLoop_ok hwf hl nofun ?_
  have hcard : s.unmarked.card ≤ s.mapBlockIndex.length :=
    (card_filter_le _ _).trans (toFinset_card_le _)
  have hle := mul_le_mul_right (s.mapBlockIndex.length + 2) hcard
  rw [rank, elim_none, succ_mul]
  omega

end CChainState

end Soferox
