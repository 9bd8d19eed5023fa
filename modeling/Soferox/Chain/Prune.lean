import Soferox.Lib.Restrict
import Soferox.Chain.BlockFiles
import Soferox.Lib.Runs

/-!
# Pruning keeps recent blocks

The summary of a block file has the greatest height of the blocks that are stored there, so a file that is pruned has no
block that is close to the tip.

* `Recorded` — every block with data or undo data is in a file whose summary counts it;
* `Recorded.step` — every call keeps it;
* `prune_keeps_recent` — what a pruning leaves alone.
-/

namespace Soferox

open Lib Function List BlockFiles CChainState DiskIndex

namespace BlockFiles

variable {ι : Type} {T : HeaderTree ι} {P : PruneSettings} {s s' : BlockFiles ι} {c c' : CChainState ι}

/-! ## The invariant -/

/-- Every block with data or undo data is known, and in a file whose summary counts it. -/
structure Recorded (T : HeaderTree ι) (s : BlockFiles ι) : Prop where
  known : ∀ b, (s.chain.index b).haveData ∨ (s.disk b).haveUndo → b ∈ s.chain.mapBlockIndex
  nHeightLast : ∀ b, (s.chain.index b).haveData ∨ (s.disk b).haveUndo →
    T.nHeight b ≤ (s.info (s.disk b).nFile).nHeightLast

lemma recorded_empty : Recorded T (empty : BlockFiles ι) where
  known b h := by simp [empty, CChainState.empty, CBlockIndex.null, null] at h
  nHeightLast b h := by simp [empty, CChainState.empty, CBlockIndex.null, null] at h

/-! ## The summaries -/

variable (v : List CBlockFileInfo) (nFile : ℕ) (info : CBlockFileInfo) (n : ℕ)

lemma getD_resize : (resize v nFile).getD n .null = v.getD n .null := by
  rw [resize, getD_eq_getElem?_getD, getD_eq_getElem?_getD]
  by_cases hn : n < v.length
  · rw [getElem?_append_left hn]
  · rw [getElem?_append_right (by omega), getElem?_replicate, getElem?_eq_none (Nat.le_of_not_lt hn)]
    split_ifs with h
    · rfl
    · rfl

lemma getD_set : (v.set nFile info).getD n .null = if n = nFile ∧ nFile < v.length then info else v.getD n .null := by
  by_cases hn : nFile = n
  · subst hn
    by_cases hlt : nFile < v.length
    · simp [hlt]
    · simp [hlt]
  · simp [hn, Ne.symm hn]

lemma nHeightLast_addBlock (nHeight nTime : ℕ) :
    (info.addBlock nHeight nTime).nHeightLast = max info.nHeightLast nHeight := by
  simp only [CBlockFileInfo.addBlock]
  split_ifs with h
  · omega
  · omega

variable (P s) in
/-- The summary of the file where a block is stored gets its height, and no greatest height goes down. -/
theorem nHeightLast_addToFile (pos : CDiskBlockPos) (nAddSize nHeight nTime : ℕ)
    (fKnown diskSpace : Bool) (n : ℕ) :
    ((s.addToFile P pos nAddSize nHeight nTime fKnown diskSpace).2.info n).nHeightLast =
      if n = pos.nFile then max (s.info pos.nFile).nHeightLast nHeight else (s.info n).nHeightLast := by
  have hlen : pos.nFile < (resize s.vinfoBlockFile pos.nFile).length := by
    simp only [resize, length_append, length_replicate]
    omega
  simp only [addToFile, info, getD_set, getD_resize]
  by_cases hn : n = pos.nFile
  · rw [if_pos ⟨hn, hlen⟩, if_pos hn]
    exact nHeightLast_addBlock _ nHeight nTime
  · rw [if_neg fun h => hn h.1, if_neg hn]

lemma Recorded.addToFile (h : Recorded T s) (pos : CDiskBlockPos) (nAddSize nHeight nTime : ℕ) (fKnown diskSpace : Bool) :
    Recorded T (s.addToFile P pos nAddSize nHeight nTime fKnown diskSpace).2 := by
  refine ⟨h.known, fun b hb => (h.nHeightLast b hb).trans ?_⟩
  rw [nHeightLast_addToFile]
  show (s.info (s.disk b).nFile).nHeightLast ≤ if (s.disk b).nFile = pos.nFile then _ else _
  split_ifs with hfile
  · rw [hfile]
    exact le_max_left _ _
  · exact le_rfl

/-! ## `ReceivedBlockTransactions` -/

/-- The same blocks are known and have their data. -/
structure SameFlags (c c' : CChainState ι) : Prop where
  map : c'.mapBlockIndex = c.mapBlockIndex
  haveData : ∀ b, (c'.index b).haveData = (c.index b).haveData

lemma SameFlags.refl (c : CChainState ι) : SameFlags c c := ⟨rfl, fun _ => rfl⟩

lemma SameFlags.trans {c₁ : CChainState ι} (h : SameFlags c c₁) (h' : SameFlags c₁ c') : SameFlags c c' :=
  ⟨h'.map.trans h.map, fun b => (h'.haveData b).trans (h.haveData b)⟩

variable [LinearOrder ι] {pindex : ι} {fileNumber : ℕ}

variable (c pindex) in
lemma sameFlags_linkBlock : SameFlags c (c.linkBlock T pindex) := by
  have hmodify : ∀ b, ((c.modify pindex fun i => { i with
      nChainTx := ((T.pprev pindex).elim 0 fun p => (c.index p).nChainTx) + i.nTx
      nSequenceId := c.nBlockSequenceId }).index b).haveData = (c.index b).haveData := by
    intro b
    by_cases hb : b = pindex
    · subst hb
      simp [CChainState.modify]
    · simp [CChainState.modify, hb]
  unfold linkBlock
  simp only
  split_ifs
  · exact ⟨rfl, hmodify⟩
  · exact ⟨rfl, hmodify⟩

lemma sameFlags_linkQueue {fuel : ℕ} {queue : List ι} (h : linkQueue T fuel queue c = .ok c') :
    SameFlags c c' := by
  induction fuel generalizing queue c with
  | zero =>
    cases queue with
    | nil =>
      cases h
      exact .refl _
    | cons pindex queue => cases h
  | succ fuel ih =>
    cases queue with
    | nil =>
      cases h
      exact .refl _
    | cons pindex queue =>
      have hrest := ih h
      exact (sameFlags_linkBlock c pindex).trans ⟨hrest.map, hrest.haveData⟩

lemma haveData_of_received (h : c.receivedBlockTransactions T pindex = .ok c') :
    c'.mapBlockIndex = c.mapBlockIndex ∧ ∀ b ≠ pindex, (c'.index b).haveData = (c.index b).haveData := by
  unfold receivedBlockTransactions at h
  simp only at h
  split_ifs at h
  · have hflags := sameFlags_linkQueue h
    refine ⟨hflags.map, fun b hb => ?_⟩
    rw [hflags.haveData b]
    simp [CChainState.modify, hb]
  · cases h
    refine ⟨rfl, fun b hb => ?_⟩
    simp [CChainState.modify, hb]

/-! ## Storing -/

section

variable (h : Recorded T s)
include h

lemma Recorded.received {pindex : ι} {chain : CChainState ι} {nFile : ℕ}
    (hmem : pindex ∈ s.chain.mapBlockIndex) (hheight : T.nHeight pindex ≤ (s.info nFile).nHeightLast)
    (hreceived : s.chain.receivedBlockTransactions T pindex = .ok chain) (nPos : ℕ) (haveUndo : Bool) :
    Recorded T { s with chain, disk := update s.disk pindex ⟨nFile, nPos, 0, haveUndo⟩ } := by
  obtain ⟨hmap, hdata⟩ := haveData_of_received hreceived
  constructor
  case known =>
    intro b hb
    rw [hmap]
    by_cases heq : b = pindex
    · rwa [heq]
    · simp only [hdata b heq, update_of_ne heq] at hb
      exact h.known b hb
  case nHeightLast =>
    intro b hb
    by_cases heq : b = pindex
    · subst heq
      simp only [update_self]
      exact hheight
    · simp only [hdata b heq, update_of_ne heq] at hb ⊢
      exact h.nHeightLast b hb

lemma Recorded.saveBlock {known : Option CDiskBlockPos} {nBlockSize nTime : ℕ}
    {diskSpace written : Bool} (hmem : pindex ∈ s.chain.mapBlockIndex)
    (hsave : s.saveBlock T P pindex known nBlockSize nTime diskSpace written = .ok s') : Recorded T s' := by
  obtain ⟨⟨blockPos, s₁⟩, hfind, hsave⟩ := bind_eq_ok.1 hsave
  -- whether or not the position is known, the block is added to the summary of its file
  have hadd : ∃ pos fKnown, s.addToFile P pos (nBlockSize + 8) (T.nHeight pindex) nTime fKnown diskSpace = (blockPos, s₁) := by
    unfold findBlockPos at hfind
    split at hfind
    · exact ⟨_, _, Except.ok.inj hfind⟩
    · split at hfind
      · cases hfind
      · exact ⟨_, _, Except.ok.inj hfind⟩
  obtain ⟨pos, fKnown, hadd⟩ := hadd
  have h₁ := h.addToFile (P := P) pos (nBlockSize + 8) (T.nHeight pindex) nTime fKnown diskSpace
  have hlast := nHeightLast_addToFile P s pos (nBlockSize + 8) (T.nHeight pindex) nTime fKnown diskSpace pos.nFile
  have hpos : blockPos = none ∨ blockPos = some pos := by
    rw [← show (s.addToFile P pos _ _ _ fKnown diskSpace).1 = blockPos from congrArg Prod.fst hadd]
    exact ite_eq_or_eq _ _ _
  have hchain : s₁.chain = s.chain := by
    rw [← show (s.addToFile P pos _ _ _ fKnown diskSpace).2 = s₁ from congrArg Prod.snd hadd]
    rfl
  rw [hadd] at h₁ hlast
  rw [if_pos rfl] at hlast
  rcases hpos with rfl | rfl
  · cases hsave
    exact h₁
  · simp only at hsave
    split at hsave
    · cases hsave
      exact h₁
    · cases hreceived : s₁.chain.receivedBlockTransactions T pindex with
      | error e =>
        rw [hreceived] at hsave
        cases hsave
      | ok chain =>
        rw [hreceived] at hsave
        cases hsave
        refine h₁.received (hchain ▸ hmem) ?_ hreceived _ _
        rw [hlast]
        exact le_max_right _ _

lemma Recorded.writeUndoDataForBlock (hdata : (s.chain.index pindex).haveData = true)
    (nAddSize : ℕ) (diskSpace written : Bool) : Recorded T (s.writeUndoDataForBlock P pindex nAddSize diskSpace written) := by
  -- the size of the undo data is no height
  have hlast (nUndoSize n : ℕ) : ((s.vinfoBlockFile.set (s.disk pindex).nFile
      { s.info (s.disk pindex).nFile with nUndoSize }).getD n .null).nHeightLast = (s.info n).nHeightLast := by
    rw [getD_set]
    split_ifs with hn
    · rw [hn.1]
    · rfl
  unfold BlockFiles.writeUndoDataForBlock
  simp only
  split_ifs
  · exact h
  · exact ⟨h.known, fun b hb => (h.nHeightLast b hb).trans (hlast _ _).ge⟩
  · constructor
    case known =>
      intro b hb
      by_cases heq : b = pindex
      · exact heq ▸ h.known pindex (.inl hdata)
      · simp only [update_of_ne heq] at hb
        exact h.known b hb
    case nHeightLast =>
      intro b hb
      simp only [info] at hlast ⊢
      rw [hlast]
      by_cases heq : b = pindex
      · subst heq
        rw [update_self]
        exact h.nHeightLast b (.inl hdata)
      · simp only [update_of_ne heq] at hb ⊢
        exact h.nHeightLast b hb

/-! ## Pruning -/

/-- The flags of all blocks above a height are as before. -/
def KeptAbove (T : HeaderTree ι) (height : ℕ) (s s' : BlockFiles ι) : Prop :=
  ∀ b, height < T.nHeight b →
    (s'.chain.index b).haveData = (s.chain.index b).haveData ∧ (s'.disk b).haveUndo = (s.disk b).haveUndo

lemma Recorded.pruneOneBlockFile (fileNumber : ℕ) : Recorded T (s.pruneOneBlockFile T fileNumber) := by
  -- a block that has a flag is not in the file
  have hkept (b : ι) (hb : ((s.pruneOneBlockFile T fileNumber).chain.index b).haveData ∨
      ((s.pruneOneBlockFile T fileNumber).disk b).haveUndo) :
      s.inFile fileNumber b = false ∧ ((s.chain.index b).haveData ∨ (s.disk b).haveUndo) := by
    cases hin : s.inFile fileNumber b with
    | true => simp [BlockFiles.pruneOneBlockFile, hin, null] at hb
    | false => simpa [BlockFiles.pruneOneBlockFile, hin] using hb
  constructor
  case known => exact fun b hb => h.known b (hkept b hb).2
  case nHeightLast =>
    intro b hb
    obtain ⟨hin, hflag⟩ := hkept b hb
    have hfile : (s.disk b).nFile ≠ fileNumber := by
      intro heq
      simp [inFile, h.known b hflag, heq] at hin
    have hheight := h.nHeightLast b hflag
    simp only [BlockFiles.pruneOneBlockFile, hin, info, getD_set]
    rw [if_neg fun hn => hfile hn.1]
    exact hheight

lemma Recorded.keptAbove {height : ℕ} (hlast : (s.info fileNumber).nHeightLast ≤ height) :
    KeptAbove T height s (s.pruneOneBlockFile T fileNumber) := by
  intro b hb
  cases hin : s.inFile fileNumber b with
  | false => simp [BlockFiles.pruneOneBlockFile, hin]
  | true =>
    -- a block with a flag in this file would be counted in its summary
    have hfile : (s.disk b).nFile = fileNumber := by
      simp only [inFile, Bool.and_eq_true, decide_eq_true_eq] at hin
      exact hin.2
    have hnone : ¬ ((s.chain.index b).haveData = true ∨ (s.disk b).haveUndo = true) := by
      intro hflag
      have hheight := h.nHeightLast b hflag
      rw [hfile] at hheight
      omega
    rw [not_or] at hnone
    simp [BlockFiles.pruneOneBlockFile, hin, hnone, null]

end

variable {height nLastBlockWeCanPrune : ℕ} {allowed : List ℕ} {setFilesToPrune : List ℕ}

/-- A pruning: the summaries stay right, the blocks above a height keep their flags, and the files are among `files`. -/
structure Pruned (T : HeaderTree ι) (height : ℕ) (files : List ℕ) (s : BlockFiles ι) (r : List ℕ × BlockFiles ι) : Prop where
  recorded : Recorded T r.2
  keptAbove : KeptAbove T height s r.2
  files : ∀ f ∈ r.1, f ∈ files

lemma Pruned.cons {r : List ℕ × BlockFiles ι} (h : Recorded T s)
    (hlast : (s.info fileNumber).nHeightLast ≤ height) (hr : Pruned T height allowed (s.pruneOneBlockFile T fileNumber) r) :
    Pruned T height allowed s r := by
  refine ⟨hr.recorded, fun b hb => ?_, hr.files⟩
  obtain ⟨hdata, hundo⟩ := h.keptAbove hlast b hb
  obtain ⟨hdata', hundo'⟩ := hr.keptAbove b hb
  exact ⟨hdata'.trans hdata, hundo'.trans hundo⟩

section

variable (hlimit : nLastBlockWeCanPrune ≤ height) {files : List ℕ} (hfiles : ∀ f ∈ files, f ∈ allowed)
  (hset : ∀ f ∈ setFilesToPrune, f ∈ allowed) (h : Recorded T s)
include hlimit hfiles hset h

lemma pruned_pruneUpTo : Pruned T height allowed s (pruneUpTo T nLastBlockWeCanPrune files (setFilesToPrune, s)) := by
  induction files generalizing setFilesToPrune s with
  | nil => exact ⟨h, fun _ _ => ⟨rfl, rfl⟩, hset⟩
  | cons fileNumber files ih =>
    obtain ⟨hfile, hfiles⟩ := forall_mem_cons.1 hfiles
    rw [pruneUpTo]
    split_ifs with hskip
    · exact ih hfiles hset h
    · refine Pruned.cons h (by omega) (ih hfiles ?_ (h.pruneOneBlockFile fileNumber))
      simpa [or_imp, forall_and] using ⟨hset, hfile⟩

lemma pruned_pruneToTarget (P : PruneSettings) (nCurrentUsage : ℕ) :
    Pruned T height allowed s (pruneToTarget T P nLastBlockWeCanPrune files nCurrentUsage (setFilesToPrune, s)) := by
  induction files generalizing nCurrentUsage setFilesToPrune s with
  | nil => exact ⟨h, fun _ _ => ⟨rfl, rfl⟩, hset⟩
  | cons fileNumber files ih =>
    obtain ⟨hfile, hfiles⟩ := forall_mem_cons.1 hfiles
    rw [pruneToTarget]
    split_ifs with hempty hbelow hrecent
    · exact ih hfiles hset h _
    · exact ⟨h, fun _ _ => ⟨rfl, rfl⟩, hset⟩
    · exact ih hfiles hset h _
    · refine Pruned.cons h (by omega) (ih hfiles ?_ (h.pruneOneBlockFile fileNumber) _)
      simpa [or_imp, forall_and] using ⟨hset, hfile⟩

end

section

variable (h : Recorded T s)
include h

/-- A pruning, for any height that is not below the last block that can be pruned. -/
theorem pruned_flushStateToDisk (nManualPruneHeight height : ℕ)
    (hheight : ∀ tip, s.chain.tip = some tip → lastBlockWeCanPrune (T.nHeight tip) ≤ height) :
    Pruned T height (range s.nLastBlockFile) s (s.flushStateToDisk T P nManualPruneHeight) := by
  have hnil : Pruned T height (range s.nLastBlockFile) s ([], s) := ⟨h, fun _ _ => ⟨rfl, rfl⟩, nofun⟩
  unfold flushStateToDisk
  split_ifs with hmode hmanual
  · unfold findFilesToPruneManual
    cases htip : s.chain.tip with
    | none => exact hnil
    | some tip => exact pruned_pruneUpTo ((min_le_right _ _).trans (hheight tip htip)) (fun _ hf => hf) nofun h
  · have hauto : Pruned T height (range s.nLastBlockFile) s (s.findFilesToPrune T P) := by
      unfold findFilesToPrune
      cases htip : s.chain.tip with
      | none => exact hnil
      | some tip =>
        simp only
        split_ifs
        · exact hnil
        · exact pruned_pruneToTarget (hheight tip htip) (fun _ hf => hf) (by simp) h P _
        · exact hnil
    exact ⟨⟨hauto.recorded.known, hauto.recorded.nHeightLast⟩, hauto.keptAbove, hauto.files⟩
  · exact hnil

lemma Recorded.flushStateToDisk (nManualPruneHeight : ℕ) :
    Recorded T (s.flushStateToDisk T P nManualPruneHeight).2 := by
  cases htip : s.chain.tip with
  | none => exact (pruned_flushStateToDisk h nManualPruneHeight 0 fun tip htip' => by simp [htip] at htip').recorded
  | some tip =>
    refine (pruned_flushStateToDisk h nManualPruneHeight (lastBlockWeCanPrune (T.nHeight tip)) fun tip' htip' => ?_).recorded
    rw [htip, Option.some.injEq] at htip'
    rw [htip']

lemma Recorded.pruneblockchain (heightParam : ℤ) (earliest : Option ℕ) :
    Recorded T (s.pruneblockchain T P heightParam earliest).2 := by
  unfold BlockFiles.pruneblockchain
  cases s.pruneHeight T P heightParam earliest with
  | error e => exact h
  | ok height => exact h.flushStateToDisk height

/-! ## Runs -/

lemma Recorded.step {call : Call ι} (hstep : s.step T P call = .ok s') : Recorded T s' := by
  cases call with
  | changeChain chain =>
    cases hstep
    exact ⟨fun b hb => mem_append_left _ (h.known b hb), h.nHeightLast⟩
  | saveBlock pindex known nBlockSize nTime diskSpace written =>
    rw [BlockFiles.step] at hstep
    split_ifs at hstep with hmem
    · exact h.saveBlock hmem hstep
    · cases hstep
      exact h
  | writeUndoDataForBlock pindex nAddSize diskSpace written =>
    rw [BlockFiles.step] at hstep
    split_ifs at hstep with hdata
    · cases hstep
      exact h.writeUndoDataForBlock hdata nAddSize diskSpace written
    · cases hstep
      exact h
  | flushStateToDisk nManualPruneHeight =>
    cases hstep
    exact h.flushStateToDisk nManualPruneHeight
  | pruneblockchain heightParam earliest =>
    cases hstep
    exact h.pruneblockchain heightParam earliest

lemma Recorded.run {calls : List (Call ι)} (hrun : calls.foldlM (BlockFiles.step T P) s = .ok s') : Recorded T s' := by
  induction calls generalizing s with
  | nil =>
    cases hrun
    exact h
  | cons call calls ih =>
    obtain ⟨s₁, hstep, hrun⟩ := bind_eq_ok.1 hrun
    exact ih (h.step hstep) hrun

end

lemma lastBlockWeCanPrune_eq {nHeight : ℕ} (hkeep : MIN_BLOCKS_TO_KEEP ≤ nHeight) (hint : nHeight < 2 ^ 31) :
    lastBlockWeCanPrune nHeight = nHeight - MIN_BLOCKS_TO_KEEP := by
  rw [lastBlockWeCanPrune]
  omega

/-- **A pruning keeps recent blocks**: with the tip at least `MIN_BLOCKS_TO_KEEP` high it changes no flag of a block
above `MIN_BLOCKS_TO_KEEP` below the tip, on any branch, and does not select the last block file. -/
theorem prune_keeps_recent (T : HeaderTree ι) (P : PruneSettings) (calls : List (Call ι)) (s : BlockFiles ι)
    (hrun : calls.foldlM (BlockFiles.step T P) empty = .ok s) (tip : ι) (htip : s.chain.tip = some tip)
    (hkeep : MIN_BLOCKS_TO_KEEP ≤ T.nHeight tip) (hint : T.nHeight tip < 2 ^ 31) (nManualPruneHeight : ℕ) :
    s.nLastBlockFile ∉ (s.flushStateToDisk T P nManualPruneHeight).1 ∧
      ∀ b, T.nHeight tip - MIN_BLOCKS_TO_KEEP < T.nHeight b →
        (((s.flushStateToDisk T P nManualPruneHeight).2.chain.index b).haveData = (s.chain.index b).haveData ∧
          ((s.flushStateToDisk T P nManualPruneHeight).2.disk b).haveUndo = (s.disk b).haveUndo) := by
  have hheight : ∀ tip', s.chain.tip = some tip' → lastBlockWeCanPrune (T.nHeight tip') ≤ T.nHeight tip - MIN_BLOCKS_TO_KEEP := by
    intro tip' htip'
    rw [htip, Option.some.injEq] at htip'
    subst htip'
    exact (lastBlockWeCanPrune_eq hkeep hint).le
  have hpruned := pruned_flushStateToDisk (P := P) (recorded_empty.run hrun) nManualPruneHeight _ hheight
  refine ⟨fun hlast => ?_, hpruned.keptAbove⟩
  have hlt := mem_range.1 (hpruned.files _ hlast)
  omega

/-- A chain without end. -/
def endlessLine : HeaderTree ℕ where
  pprev n := if n = 0 then none else some (n - 1)
  nHeight n := n
  nHeight_eq n := by
    cases n with
    | zero => rfl
    | succ n => rfl
  genesis := 0
  pprev_eq_none n := by simp
  getBlockProof _ := 1
  getBlockProof_pos _ := Nat.one_pos
  nChainWork n := n + 1
  nChainWork_eq n := by
    cases n with
    | zero => rfl
    | succ n => rfl
  vtxSize _ := 1
  vtxSize_genesis := Nat.one_pos
  connectBlock _ := true
  connectBlock_genesis := rfl

/-- Block 1 fills the first file, and block 300 is in the second one. -/
def twoFiles : List (Call ℕ) :=
  [.changeChain { CChainState.empty with mapBlockIndex := List.range 301, chainActive := ⟨(List.range 301).map some⟩ },
    .saveBlock 1 none 0x7fffff0 7 true true, .saveBlock 300 none 1000 9 true true]

/-- Block 1 is pruned, and block 300 is not. -/
theorem prune_keeps_recent_twoFiles :
    ∃ s, twoFiles.foldlM (BlockFiles.step endlessLine ⟨true, false, 1, 100⟩) empty = .ok s ∧
      (s.flushStateToDisk endlessLine ⟨true, false, 1, 100⟩ 0).1 = [0] ∧
      s.nLastBlockFile ∉ (s.flushStateToDisk endlessLine ⟨true, false, 1, 100⟩ 0).1 ∧
      ∀ b, endlessLine.nHeight 300 - MIN_BLOCKS_TO_KEEP < endlessLine.nHeight b →
        (((s.flushStateToDisk endlessLine ⟨true, false, 1, 100⟩ 0).2.chain.index b).haveData = (s.chain.index b).haveData ∧
          ((s.flushStateToDisk endlessLine ⟨true, false, 1, 100⟩ 0).2.disk b).haveUndo = (s.disk b).haveUndo) := by
  obtain ⟨s, hrun, htip, hfiles⟩ : ∃ s, twoFiles.foldlM (BlockFiles.step endlessLine ⟨true, false, 1, 100⟩) empty = .ok s ∧
      s.chain.tip = some 300 ∧ (s.flushStateToDisk endlessLine ⟨true, false, 1, 100⟩ 0).1 = [0] := by decide +kernel
  exact ⟨s, hrun, hfiles, prune_keeps_recent endlessLine ⟨true, false, 1, 100⟩ twoFiles s hrun 300 htip (by decide)
    (by decide) 0⟩

end BlockFiles

end Soferox
