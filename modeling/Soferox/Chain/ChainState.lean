import Soferox.Chain.CChain
import Soferox.Lib.OrdSet

/-!
# The chain state

`CChainState` of `validation.cpp`: the block index with its failure flags, the candidates for the best chain and the
active chain, for block indexes of any type `ι`. What a header fixes once and for all is in `HeaderTree`; what changes
is in `CBlockIndex`. `mapBlockIndex` holds the blocks that are known, in some order of iteration.

A failed assertion, and a null pointer that is read, end the process and are errors here. The results of the checks of
a header or a block on its own are arguments of `acceptBlockHeader` and `acceptBlock`; the result of `ConnectBlock` is a
function of the block, whose ancestors are fixed. Reading and writing files does not fail, except that the genesis
block has no undo data. `setBlockIndexCandidates` is the list of its members, whose last one is looked for with the
comparator: a member's `nSequenceId` is never changed. Work, counters and sequence numbers do not wrap.

Left out: the mempool, the notifications and warnings (with `pindexBestInvalid` and `pindexBestHeader`), which none of
the functions below reads, pruning, and the debugging check `CheckBlockIndex`.
-/

namespace Soferox

open Lib

/-! ## Block indexes -/

def BLOCK_VALID_TREE : ℕ := 2
def BLOCK_VALID_TRANSACTIONS : ℕ := 3
def BLOCK_VALID_SCRIPTS : ℕ := 5

/-- How far ahead of the tip an unrequested block is stored. -/
def MIN_BLOCKS_TO_KEEP : ℕ := 288

/-- The fields of `CBlockIndex` that change; `nStatus` is taken apart into its level and the flags `BLOCK_HAVE_DATA`,
`BLOCK_FAILED_VALID` and `BLOCK_FAILED_CHILD`. A chain has fewer than `2 ^ 32` transactions, as `chain.h` says, so that
`nChainTx` does not wrap. -/
structure CBlockIndex where
  nValid : ℕ
  haveData : Bool
  failedValid : Bool
  failedChild : Bool
  nTx : ℕ
  nChainTx : ℕ
  nSequenceId : ℤ
  deriving DecidableEq, Repr

namespace CBlockIndex

/-- `SetNull`. -/
def null : CBlockIndex := ⟨0, false, false, false, 0, 0, 0⟩

/-- `nStatus & BLOCK_FAILED_MASK`. -/
def failed (i : CBlockIndex) : Bool := i.failedValid || i.failedChild
def isValid (i : CBlockIndex) (nUpTo : ℕ) : Bool := !i.failed && decide (nUpTo ≤ i.nValid)

def raiseValidity (nUpTo : ℕ) (i : CBlockIndex) : CBlockIndex :=
  if i.failed then i else if i.nValid < nUpTo then { i with nValid := nUpTo } else i

/-- `nStatus |= BLOCK_FAILED_VALID`. -/
def failValid (i : CBlockIndex) : CBlockIndex := { i with failedValid := true }

/-- `nStatus |= BLOCK_FAILED_CHILD`. -/
def failChild (i : CBlockIndex) : CBlockIndex := { i with failedChild := true }

/-- `nStatus &= ~BLOCK_FAILED_MASK`. -/
def clearFailed (i : CBlockIndex) : CBlockIndex := { i with failedValid := false, failedChild := false }

end CBlockIndex

/-- All blocks that can arrive, with what their headers and ancestors determine. -/
structure HeaderTree (ι : Type) extends BlockTree ι where
  /-- `hashGenesisBlock` -/
  genesis : ι
  pprev_eq_none : ∀ pindex, pprev pindex = none ↔ pindex = genesis
  getBlockProof : ι → ℕ
  /-- `CheckProofOfWork` does not pass a target for which `GetBlockProof` is zero. -/
  getBlockProof_pos : ∀ pindex, 0 < getBlockProof pindex
  nChainWork : ι → ℕ
  nChainWork_eq : ∀ pindex, nChainWork pindex = (pprev pindex).elim 0 nChainWork + getBlockProof pindex
  /-- `vtx.size()` -/
  vtxSize : ι → ℕ
  vtxSize_genesis : 0 < vtxSize genesis
  /-- Whether `ConnectBlock` accepts the block on the chain of its ancestors. -/
  connectBlock : ι → Bool
  /-- The transactions of the genesis block are not connected. -/
  connectBlock_genesis : connectBlock genesis = true

/-- The process ends. -/
inductive ChainError where
  /-- A failed assertion, or a null pointer that is read. -/
  | assertion
  /-- A loop that takes more rounds than the model counts for it; `activateBestChain_ok` and `acceptBlock_ok` show that
  none does. -/
  | endless
  deriving DecidableEq, Repr

structure CChainState (ι : Type) where
  mapBlockIndex : List ι
  index : ι → CBlockIndex
  setBlockIndexCandidates : List ι
  mapBlocksUnlinked : List (ι × ι)
  nBlockSequenceId : ℤ
  g_failed_blocks : OrdSet ι
  chainActive : CChain ι

namespace CChainState

variable {ι : Type} [LinearOrder ι] (T : HeaderTree ι)

/-- For the tests of membership in `mapBlockIndex`. -/
scoped instance lawfulBEq_index : LawfulBEq ι := inferInstance

/-- The state at start-up. -/
def empty : CChainState ι := ⟨[], fun _ => .null, [], [], 1, ∅, ⟨[]⟩⟩
def tip (s : CChainState ι) : Option ι := s.chainActive.tip

/-- `chainActive.Contains(pindex)`. -/
def isActive (s : CChainState ι) (pindex : ι) : Bool := s.chainActive.contains T.toBlockTree pindex

/-- A change to one block index. -/
def modify (s : CChainState ι) (pindex : ι) (f : CBlockIndex → CBlockIndex) : CChainState ι :=
  { s with index := Function.update s.index pindex (f (s.index pindex)) }

/-- `chainActive.SetTip(pindex)`. -/
def setTip (s : CChainState ι) (pindex : Option ι) : CChainState ι :=
  { s with chainActive := s.chainActive.setTip T.toBlockTree pindex }

/-! ## Candidates -/

/-- `CBlockIndexWorkComparator`; pointers are compared like the elements of `ι`. -/
def workLess (s : CChainState ι) (pa pb : ι) : Bool :=
  if T.nChainWork pa > T.nChainWork pb then false
  else if T.nChainWork pa < T.nChainWork pb then true
  else if (s.index pa).nSequenceId < (s.index pb).nSequenceId then false
  else if (s.index pa).nSequenceId > (s.index pb).nSequenceId then true
  else if pa < pb then false
  else if pa > pb then true
  else false

/-- `setBlockIndexCandidates.insert(pindex)`. -/
def insertCandidate (s : CChainState ι) (pindex : ι) : CChainState ι :=
  { s with setBlockIndexCandidates := s.setBlockIndexCandidates.insert pindex }

/-- `setBlockIndexCandidates.erase(pindex)`. -/
def eraseCandidate (s : CChainState ι) (pindex : ι) : CChainState ι :=
  { s with setBlockIndexCandidates := s.setBlockIndexCandidates.filter (· ≠ pindex) }

/-- The last element of a list of candidates. -/
def lastCandidate (s : CChainState ι) : List ι → Option ι
  | [] => none
  | b :: rest =>
    match s.lastCandidate rest with
    | none => some b
    | some c => if s.workLess T c b then some b else some c

/-- The walk of `FindMostWorkChain` from a candidate to the active chain: the first block that cannot be used. -/
def firstUnusable (s : CChainState ι) : List ι → Except ChainError (Option ι)
  | [] => .ok none
  | pindexTest :: rest =>
    if s.isActive T pindexTest then .ok none
    else if (s.index pindexTest).nChainTx = 0 ∧ T.nHeight pindexTest ≠ 0 then .error .assertion
    else if (s.index pindexTest).failed || !(s.index pindexTest).haveData then .ok (some pindexTest)
    else s.firstUnusable rest

/-- One round of the loop that removes a chain from the candidates: a block above a failed one fails as well, one above
missing data waits. -/
def removeUnusable (fFailedChain : Bool) (s : CChainState ι) (pindexFailed : ι) : CChainState ι :=
  let s := if fFailedChain then s.modify pindexFailed CBlockIndex.failChild
    else { s with
      mapBlocksUnlinked := s.mapBlocksUnlinked ++ ((T.pprev pindexFailed).map fun p => (p, pindexFailed)).toList }
  s.eraseCandidate pindexFailed

/-- `FindMostWorkChain`; each round but the last removes a candidate. -/
def findMostWorkChain : ℕ → CChainState ι → Except ChainError (Option ι × CChainState ι)
  | 0, _ => .error .endless
  | fuel + 1, s =>
    match s.lastCandidate T s.setBlockIndexCandidates with
    | none => .ok (none, s)
    | some pindexNew => do
      match ← s.firstUnusable T (T.path pindexNew) with
      | none => pure (some pindexNew, s)
      | some pindexTest =>
        let above := (T.path pindexNew).takeWhile (· ≠ pindexTest)
        let s := above.foldl (removeUnusable T (s.index pindexTest).failed) s
        findMostWorkChain fuel (s.eraseCandidate pindexTest)

def pruneBlockIndexCandidates (s : CChainState ι) : Except ChainError (CChainState ι) :=
  match s.tip with
  | none => .error .assertion
  | some tip =>
    let kept := s.setBlockIndexCandidates.filter fun b => !s.workLess T b tip
    if kept = [] then .error .assertion else .ok { s with setBlockIndexCandidates := kept }

/-! ## The active chain -/

/-- The assertion of `InvalidChainFound`. -/
def invalidChainFound (s : CChainState ι) : Except ChainError Unit :=
  if s.tip = none then .error .assertion else .ok ()

/-- `InvalidBlockFound`, for a failure that does not hint at corrupted data. -/
def invalidBlockFound (s : CChainState ι) (pindex : ι) : Except ChainError (CChainState ι) := do
  let s := s.modify pindex CBlockIndex.failValid
  let s := { s with g_failed_blocks := s.g_failed_blocks.insert pindex }
  let s := s.eraseCandidate pindex
  s.invalidChainFound
  pure s

/-- `DisconnectTip`; the genesis block has no undo data. -/
def disconnectTip (s : CChainState ι) : Except ChainError (Bool × CChainState ι) :=
  match s.tip with
  | none => .error .assertion
  | some pindexDelete =>
    match T.pprev pindexDelete with
    | none => .ok (false, s)
    | some pprev => .ok (true, s.setTip T (some pprev))

/-- `DisconnectTip` until a condition holds. -/
def disconnectUntil (stop : CChainState ι → Bool) : ℕ → CChainState ι → Except ChainError (Bool × CChainState ι)
  | fuel, s =>
    if stop s then .ok (true, s)
    else match fuel with
      | 0 => .error .endless
      | fuel + 1 => do
        let (disconnected, s) ← s.disconnectTip T
        if disconnected then disconnectUntil stop fuel s else pure (false, s)

/-- `ConnectTip`: `false` when the block is invalid. -/
def connectTip (s : CChainState ι) (pindexNew : ι) : Except ChainError (Bool × CChainState ι) :=
  if T.pprev pindexNew ≠ s.tip then .error .assertion
  else if T.connectBlock pindexNew then
    -- `ConnectBlock` returns early for the genesis block
    let s := if pindexNew = T.genesis then s else s.modify pindexNew (CBlockIndex.raiseValidity BLOCK_VALID_SCRIPTS)
    .ok (true, s.setTip T (some pindexNew))
  else do
    let s ← s.invalidBlockFound pindexNew
    pure (false, s)

/-- How the loops of `ActivateBestChainStep` go on. -/
inductive Progress where
  /-- `fContinue` still holds -/
  | running
  /-- the chain is better than before -/
  | better
  /-- `fInvalidFound` -/
  | invalid
  deriving DecidableEq, Repr

/-- The loop of `ActivateBestChainStep` over `vpindexToConnect`, in the order of connection. -/
def connectBlocks (pindexOldTip : Option ι) :
    List ι → CChainState ι → Except ChainError (Progress × CChainState ι)
  | [], s => .ok (.running, s)
  | pindexConnect :: rest, s => do
    let (connected, s) ← s.connectTip T pindexConnect
    if connected then do
      let s ← s.pruneBlockIndexCandidates T
      if pindexOldTip.all fun old => T.nChainWork pindexConnect > T.nChainWork old then pure (.better, s)
      else connectBlocks pindexOldTip rest s
    else do
      s.invalidChainFound
      pure (.invalid, s)

/-- The outer loop of `ActivateBestChainStep`: batches of 32 blocks. -/
def connectBatches (pindexOldTip : Option ι) (pindexMostWork : ι) :
    ℕ → ℤ → CChainState ι → Except ChainError (Progress × CChainState ι)
  | fuel, nHeight, s =>
    if nHeight = T.nHeight pindexMostWork then .ok (.running, s)
    else match fuel with
      | 0 => .error .endless
      | fuel + 1 => do
        let nTargetHeight : ℤ := min (nHeight + 32) (T.nHeight pindexMostWork)
        let pindexIter := T.getAncestor pindexMostWork nTargetHeight.toNat
        let vpindexToConnect := (pindexIter.elim [] T.path).takeWhile fun b => (T.nHeight b : ℤ) ≠ nHeight
        match ← connectBlocks T pindexOldTip vpindexToConnect.reverse s with
        | (.running, s) => connectBatches pindexOldTip pindexMostWork fuel nTargetHeight s
        | (.better, s) => pure (.better, s)
        | (.invalid, s) => pure (.invalid, s)

/-- `ActivateBestChainStep`, with `fInvalidFound` as its second result. -/
def activateBestChainStep (s : CChainState ι) (pindexMostWork : ι) : Except ChainError (Bool × Bool × CChainState ι) := do
  let pindexOldTip := s.tip
  let pindexFork := s.chainActive.findFork T.toBlockTree pindexMostWork
  let (disconnected, s) ←
    disconnectUntil T (fun s => s.tip = none ∨ s.tip = pindexFork) s.chainActive.vChain.length s
  if disconnected then do
    let nHeight : ℤ := pindexFork.elim (-1) fun b => T.nHeight b
    let (progress, s) ← connectBatches T pindexOldTip pindexMostWork (T.nHeight pindexMostWork + 1) nHeight s
    pure (true, progress = .invalid, s)
  else pure (false, false, s)

/-- The loop of `ActivateBestChain`; `shutdownRequested i` is the answer of `ShutdownRequested` in round `i`. -/
def activateLoop (shutdownRequested : ℕ → Bool) :
    ℕ → ℕ → Option ι → CChainState ι → Except ChainError (Bool × CChainState ι)
  | 0, _, _, _ => .error .endless
  | fuel + 1, i, cached, s => do
    let (pindexMostWork, s) ← (
      match cached with
      | some b => .ok (some b, s)
      | none => findMostWorkChain T (s.setBlockIndexCandidates.length + 1) s)
    match pindexMostWork with
    | none => pure (true, s)
    | some b =>
      if s.tip = some b then pure (true, s)
      else do
        let (ok, fInvalidFound, s) ← s.activateBestChainStep T b
        if ok then
          let cached := if fInvalidFound then none else some b
          if shutdownRequested i || s.tip = cached then pure (true, s)
          else activateLoop shutdownRequested fuel (i + 1) cached s
        else pure (false, s)

def activateBestChain (s : CChainState ι) (shutdownRequested : ℕ → Bool) : Except ChainError (Bool × CChainState ι) :=
  let n := s.mapBlockIndex.length
  activateLoop T shutdownRequested ((n + 1) * (n + 2)) 0 none s

/-! ## Manual changes of validity -/

/-- `IsValid(BLOCK_VALID_TRANSACTIONS) && nChainTx`. -/
def isLinked (s : CChainState ι) (pindex : ι) : Bool :=
  (s.index pindex).isValid BLOCK_VALID_TRANSACTIONS && (s.index pindex).nChainTx ≠ 0

/-- The loop of `InvalidateBlock` over the blocks it has disconnected. -/
def failDisconnected (s : CChainState ι) (l : List ι) : CChainState ι :=
  l.foldl (fun s b => (s.modify b CBlockIndex.failChild).eraseCandidate b) s

/-- The marks that `InvalidateBlock` sets once the block is not active any more. -/
def failBranch (s : CChainState ι) (l : List ι) (pindex : ι) : CChainState ι :=
  let s := ((s.failDisconnected l).modify pindex CBlockIndex.failValid).eraseCandidate pindex
  { s with g_failed_blocks := s.g_failed_blocks.insert pindex }

/-- The last loop of `InvalidateBlock`: what is as good as the new tip is a candidate again. -/
def readmit (s : CChainState ι) (tip : ι) : CChainState ι :=
  s.mapBlockIndex.foldl (fun s b => if s.isLinked b && !s.workLess T b tip then s.insertCandidate b else s) s

def invalidateBlock (s : CChainState ι) (pindex : ι) : Except ChainError (Bool × CChainState ι) := do
  let wasInChain := s.isActive T pindex
  let walk := if wasInChain then (s.tip.elim [] T.path).takeWhile (· ≠ pindex) else []
  let (disconnected, s) ← disconnectUntil T (fun s => !s.isActive T pindex) s.chainActive.vChain.length s
  if disconnected then
    let s := s.failBranch walk pindex
    match s.tip with
    | none => .error .assertion
    | some tip => .ok (true, s.readmit T tip)
  else pure (false, s)

/-- One round of the first loop of `ResetBlockFailureFlags`. -/
def resetDescendant (pindex : ι) (s : CChainState ι) (b : ι) : Except ChainError (CChainState ι) :=
  if !(s.index b).isValid BLOCK_VALID_TRANSACTIONS && T.getAncestor b (T.nHeight pindex) = some pindex then
    let s := s.modify b CBlockIndex.clearFailed
    let s := { s with g_failed_blocks := s.g_failed_blocks.erase b }
    if s.isLinked b then
      match s.tip with
      | none => .error .assertion
      | some tip => .ok (if s.workLess T tip b then s.insertCandidate b else s)
    else .ok s
  else .ok s

def resetBlockFailureFlags (s : CChainState ι) (pindex : ι) : Except ChainError (CChainState ι) := do
  let s ← s.mapBlockIndex.foldlM (resetDescendant T pindex) s
  pure ((T.path pindex).foldl
    (fun s b => if (s.index b).failed then s.modify b CBlockIndex.clearFailed else s) s)

/-! ## New headers and blocks -/

def addToBlockIndex (s : CChainState ι) (hash : ι) : CChainState ι :=
  if hash ∈ s.mapBlockIndex then s
  else { s with
    mapBlockIndex := s.mapBlockIndex ++ [hash]
    index := Function.update s.index hash (CBlockIndex.null.raiseValidity BLOCK_VALID_TREE) }

/-- A block whose ancestors have their data gets its `nChainTx` and `nSequenceId` and may be a candidate. -/
def linkBlock (s : CChainState ι) (pindex : ι) : CChainState ι :=
  let parentTx := (T.pprev pindex).elim 0 fun p => (s.index p).nChainTx
  let s := s.modify pindex fun i => { i with nChainTx := parentTx + i.nTx, nSequenceId := s.nBlockSequenceId }
  let s := { s with nBlockSequenceId := s.nBlockSequenceId + 1 }
  if s.tip.all fun tip => !s.workLess T pindex tip then s.insertCandidate pindex else s

/-- The loop of `ReceivedBlockTransactions` over the blocks whose ancestors all have their data now. -/
def linkQueue : ℕ → List ι → CChainState ι → Except ChainError (CChainState ι)
  | _, [], s => .ok s
  | 0, _ :: _, _ => .error .endless
  | fuel + 1, pindex :: queue, s =>
    let s := s.linkBlock T pindex
    let children := (s.mapBlocksUnlinked.filter (·.1 = pindex)).map Prod.snd
    linkQueue fuel (queue ++ children) { s with mapBlocksUnlinked := s.mapBlocksUnlinked.filter (·.1 ≠ pindex) }

def receivedBlockTransactions (s : CChainState ι) (pindexNew : ι) : Except ChainError (CChainState ι) :=
  let s := s.modify pindexNew fun i =>
    CBlockIndex.raiseValidity BLOCK_VALID_TRANSACTIONS { i with nTx := T.vtxSize pindexNew, nChainTx := 0, haveData := true }
  if (T.pprev pindexNew).all fun p => (s.index p).nChainTx ≠ 0 then
    linkQueue T (s.mapBlocksUnlinked.length + 1) [pindexNew] s
  else
    let waiting := (T.pprev pindexNew).filter fun p => (s.index p).isValid BLOCK_VALID_TREE
    .ok { s with mapBlocksUnlinked := s.mapBlocksUnlinked ++ (waiting.map fun p => (p, pindexNew)).toList }

/-- The scan of `g_failed_blocks` in `AcceptBlockHeader` for an ancestor of `pindexPrev`. -/
def failedAncestor (s : CChainState ι) (pindexPrev : ι) : List ι → Except ChainError (Option ι)
  | [] => .ok none
  | failedit :: rest =>
    if T.getAncestor pindexPrev (T.nHeight failedit) = some failedit then
      if (s.index failedit).failedValid then .ok (some failedit) else .error .assertion
    else s.failedAncestor pindexPrev rest

/-- `AcceptBlockHeader`, given the results of `CheckBlockHeader` and `ContextualCheckBlockHeader`. -/
def acceptBlockHeader (s : CChainState ι) (hash : ι) (checkBlockHeader contextualCheckBlockHeader : Bool) :
    Except ChainError (Bool × CChainState ι) :=
  if hash = T.genesis then .ok (true, s.addToBlockIndex hash)
  else if hash ∈ s.mapBlockIndex then .ok (!(s.index hash).failed, s)
  else if !checkBlockHeader then .ok (false, s)
  else match T.pprev hash with
    | none => .ok (false, s)
    | some pindexPrev =>
      if pindexPrev ∉ s.mapBlockIndex then .ok (false, s)
      else if (s.index pindexPrev).failed then .ok (false, s)
      else if !contextualCheckBlockHeader then .ok (false, s)
      else if (s.index pindexPrev).isValid BLOCK_VALID_SCRIPTS then .ok (true, s.addToBlockIndex hash)
      else do
        match ← s.failedAncestor T pindexPrev s.g_failed_blocks.toList with
        | none => pure (true, s.addToBlockIndex hash)
        | some failedit =>
          let walk := (T.path pindexPrev).takeWhile (· ≠ failedit)
          pure (false, walk.foldl (fun s b => s.modify b CBlockIndex.failChild) s)

/-- The result of `CheckBlock` and `ContextualCheckBlock`. -/
inductive BlockVerdict where
  | valid
  | invalid
  /-- `CorruptionPossible` -/
  | corrupted
  deriving DecidableEq, Repr

/-- What comes with a block: the results of the checks, and what the node asked for. -/
structure Arrival where
  checkBlockHeader : Bool
  contextualCheckBlockHeader : Bool
  checkBlock : BlockVerdict
  fRequested : Bool
  nMinimumChainWork : ℕ
  deriving DecidableEq, Repr

/-- The tests of `AcceptBlock` on whether a block is stored. -/
def wanted (s : CChainState ι) (pindex : ι) (a : Arrival) : Bool :=
  !(s.index pindex).haveData &&
    (a.fRequested ||
      ((s.index pindex).nTx = 0 && (s.tip.all fun tip => T.nChainWork pindex ≥ T.nChainWork tip) &&
        T.nHeight pindex < s.chainActive.vChain.length + MIN_BLOCKS_TO_KEEP &&
        T.nChainWork pindex ≥ a.nMinimumChainWork))

/-- `AcceptBlock`; `CheckBlock` rejects a block without transactions. -/
def acceptBlock (s : CChainState ι) (hash : ι) (a : Arrival) : Except ChainError (Bool × CChainState ι) := do
  let (accepted, s) ← s.acceptBlockHeader T hash a.checkBlockHeader a.contextualCheckBlockHeader
  if !accepted then pure (false, s)
  else if !s.wanted T hash a then pure (true, s)
  else match (if T.vtxSize hash = 0 ∧ a.checkBlock = .valid then .invalid else a.checkBlock) with
    | .corrupted => pure (false, s)
    | .invalid => pure (false, s.modify hash CBlockIndex.failValid)
    | .valid => do
      let s ← s.receivedBlockTransactions T hash
      pure (true, s)

/-- `LoadGenesisBlock` at the first start. -/
def loadGenesisBlock : Except ChainError (CChainState ι) :=
  (CChainState.empty.addToBlockIndex T.genesis).receivedBlockTransactions T T.genesis

/-- The first start of a node: the genesis block is loaded and connected. -/
def startUp : Except ChainError (CChainState ι) := do
  let s ← loadGenesisBlock T
  let (_, s) ← s.activateBestChain T fun _ => false
  pure s

/-- The state after the first start. -/
def started : CChainState ι where
  mapBlockIndex := [T.genesis]
  index := Function.update (fun _ => .null) T.genesis
    ⟨BLOCK_VALID_TRANSACTIONS, true, false, false, T.vtxSize T.genesis, T.vtxSize T.genesis, 1⟩
  setBlockIndexCandidates := [T.genesis]
  mapBlocksUnlinked := []
  nBlockSequenceId := 2
  g_failed_blocks := ∅
  chainActive := ⟨[some T.genesis]⟩

end CChainState

end Soferox
