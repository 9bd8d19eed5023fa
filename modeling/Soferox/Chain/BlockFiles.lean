import Soferox.Chain.ChainState

/-!
# Block files

`validation.cpp` and `chain.h`: where blocks and their undo data are stored, and how block files are pruned.

The files themselves are not in the model; `FindBlockPos` and `FindUndoPos` are given whether there is disk space, and storing
a block whether it could be written. A block index has its place on disk in `disk`, and its flag `BLOCK_HAVE_DATA` in the
chain state.

* `findBlockPos`, `saveBlock`, `writeUndoDataForBlock` — storing;
* `pruneOneBlockFile`, `findFilesToPrune`, `findFilesToPruneManual`, `flushStateToDisk`, `pruneblockchain` — pruning;
* `BlockFiles.step` — one call.
-/

namespace Soferox

open scoped CChainState

/-- 128 MiB. -/
def MAX_BLOCKFILE_SIZE : ℕ := 0x8000000

/-- 16 MiB. -/
def BLOCKFILE_CHUNK_SIZE : ℕ := 0x1000000

/-- 1 MiB. -/
def UNDOFILE_CHUNK_SIZE : ℕ := 0x100000

structure CBlockFileInfo where
  nBlocks : ℕ := 0
  nSize : ℕ := 0
  nUndoSize : ℕ := 0
  nHeightFirst : ℕ := 0
  nHeightLast : ℕ := 0
  nTimeFirst : ℕ := 0
  nTimeLast : ℕ := 0
  deriving DecidableEq, Repr

/-- `CBlockFileInfo::SetNull`. -/
def CBlockFileInfo.null : CBlockFileInfo := {}

/-- The bytes of the two files, as an `unsigned int`. -/
def CBlockFileInfo.bytes (info : CBlockFileInfo) : ℕ := (info.nSize + info.nUndoSize) % 2 ^ 32

def CBlockFileInfo.addBlock (info : CBlockFileInfo) (nHeightIn nTimeIn : ℕ) : CBlockFileInfo where
  nBlocks := info.nBlocks + 1
  nSize := info.nSize
  nUndoSize := info.nUndoSize
  nHeightFirst := if info.nBlocks = 0 ∨ info.nHeightFirst > nHeightIn then nHeightIn else info.nHeightFirst
  nHeightLast := if nHeightIn > info.nHeightLast then nHeightIn else info.nHeightLast
  nTimeFirst := if info.nBlocks = 0 ∨ info.nTimeFirst > nTimeIn then nTimeIn else info.nTimeFirst
  nTimeLast := if nTimeIn > info.nTimeLast then nTimeIn else info.nTimeLast

structure CDiskBlockPos where
  nFile : ℕ
  nPos : ℕ
  deriving DecidableEq, Repr

/-- The fields of `CBlockIndex` that say where a block is stored, and the flag `BLOCK_HAVE_UNDO`. -/
structure DiskIndex where
  nFile : ℕ := 0
  nDataPos : ℕ := 0
  nUndoPos : ℕ := 0
  haveUndo : Bool := false
  deriving DecidableEq, Repr

/-- A block that is not stored. -/
def DiskIndex.null : DiskIndex := {}

structure PruneSettings where
  fPruneMode : Bool
  fReindex : Bool
  nPruneTarget : ℕ
  nPruneAfterHeight : ℕ
  deriving DecidableEq, Repr

inductive FileError where
  | chain (e : ChainError)
  /-- `while (vinfoBlockFile[nFile].nSize + nAddSize >= MAX_BLOCKFILE_SIZE)` does not end -/
  | endless
  deriving DecidableEq, Repr

structure BlockFiles (ι : Type) where
  chain : CChainState ι
  disk : ι → DiskIndex
  vinfoBlockFile : List CBlockFileInfo
  nLastBlockFile : ℕ
  fCheckForPruning : Bool

namespace BlockFiles

variable {ι : Type} [LinearOrder ι] (T : HeaderTree ι) (P : PruneSettings)

/-- No blocks. -/
def empty : BlockFiles ι := ⟨.empty, fun _ => .null, [], 0, false⟩

/-- `vinfoBlockFile[nFile]`. -/
def info (s : BlockFiles ι) (nFile : ℕ) : CBlockFileInfo := s.vinfoBlockFile.getD nFile .null

/-- `if (vinfoBlockFile.size() <= nFile) vinfoBlockFile.resize(nFile + 1)`. -/
def resize (vinfoBlockFile : List CBlockFileInfo) (nFile : ℕ) : List CBlockFileInfo :=
  vinfoBlockFile ++ List.replicate (nFile + 1 - vinfoBlockFile.length) .null

/-! ## Storing -/

/-- The file for a block that is not on disk: the first one, from the last block file on, that has space; files after
the vector are empty. -/
def nextFile (s : BlockFiles ι) (nAddSize : ℕ) : Option ℕ :=
  (List.range' s.nLastBlockFile (s.vinfoBlockFile.length + 1)).find? fun nFile =>
    ((s.info nFile).nSize + nAddSize) % 2 ^ 32 < MAX_BLOCKFILE_SIZE

/-- `FindBlockPos` after the file has been chosen; it fails if there is no disk space. -/
def addToFile (s : BlockFiles ι) (pos : CDiskBlockPos) (nAddSize nHeight nTime : ℕ) (fKnown diskSpace : Bool) :
    Option CDiskBlockPos × BlockFiles ι :=
  let info := (s.info pos.nFile).addBlock nHeight nTime
  let nSize := if fKnown then max ((pos.nPos + nAddSize) % 2 ^ 32) info.nSize else (info.nSize + nAddSize) % 2 ^ 32
  let newChunks : Bool := !fKnown && decide ((nSize + BLOCKFILE_CHUNK_SIZE - 1) / BLOCKFILE_CHUNK_SIZE >
    (pos.nPos + BLOCKFILE_CHUNK_SIZE - 1) / BLOCKFILE_CHUNK_SIZE)
  (if newChunks && !diskSpace then none else some pos, { s with
    vinfoBlockFile := (resize s.vinfoBlockFile pos.nFile).set pos.nFile { info with nSize }
    nLastBlockFile := pos.nFile
    fCheckForPruning := s.fCheckForPruning || (newChunks && P.fPruneMode) })

/-- `FindBlockPos`; the position is known for a block that is on disk. -/
def findBlockPos (s : BlockFiles ι) (known : Option CDiskBlockPos) (nAddSize nHeight nTime : ℕ) (diskSpace : Bool) :
    Except FileError (Option CDiskBlockPos × BlockFiles ι) :=
  match known with
  | some pos => .ok (s.addToFile P pos nAddSize nHeight nTime true diskSpace)
  | none =>
    match s.nextFile nAddSize with
    | none => .error .endless
    | some nFile => .ok (s.addToFile P ⟨nFile, (s.info nFile).nSize⟩ nAddSize nHeight nTime false diskSpace)

/-- The end of `AcceptBlock`: `SaveBlockToDisk` and `ReceivedBlockTransactions`. `written` says whether
`WriteBlockToDisk` succeeds. -/
def saveBlock (s : BlockFiles ι) (pindex : ι) (known : Option CDiskBlockPos) (nBlockSize nTime : ℕ)
    (diskSpace written : Bool) : Except FileError (BlockFiles ι) := do
  let (blockPos, s) ← s.findBlockPos P known (nBlockSize + 8) (T.nHeight pindex) nTime diskSpace
  match blockPos with
  | none => pure s
  | some pos =>
    if known.isNone && !written then pure s
    else
      match s.chain.receivedBlockTransactions T pindex with
      | .error e => .error (.chain e)
      | .ok chain => pure { s with
          chain
          -- `WriteBlockToDisk` moves the position past the magic and the size
          disk := Function.update s.disk pindex
            ⟨pos.nFile, if known.isNone then pos.nPos + 8 else pos.nPos, 0, (s.disk pindex).haveUndo⟩ }

/-- `WriteUndoDataForBlock`, with `FindUndoPos`. -/
def writeUndoDataForBlock (s : BlockFiles ι) (pindex : ι) (nAddSize : ℕ) (diskSpace written : Bool) : BlockFiles ι :=
  if (s.disk pindex).haveUndo then s
  else
    let nFile := (s.disk pindex).nFile
    let nPos := (s.info nFile).nUndoSize
    let nNewSize := (nPos + nAddSize) % 2 ^ 32
    let newChunks : Bool := decide ((nNewSize + UNDOFILE_CHUNK_SIZE - 1) / UNDOFILE_CHUNK_SIZE >
      (nPos + UNDOFILE_CHUNK_SIZE - 1) / UNDOFILE_CHUNK_SIZE)
    let s := { s with
      vinfoBlockFile := s.vinfoBlockFile.set nFile { s.info nFile with nUndoSize := nNewSize }
      fCheckForPruning := s.fCheckForPruning || (newChunks && P.fPruneMode) }
    if (newChunks && !diskSpace) || !written then s
    else { s with disk := Function.update s.disk pindex { s.disk pindex with nUndoPos := nPos, haveUndo := true } }

/-! ## Pruning -/

def inFile (s : BlockFiles ι) (fileNumber : ℕ) (pindex : ι) : Bool :=
  pindex ∈ s.chain.mapBlockIndex && (s.disk pindex).nFile = fileNumber

def pruneOneBlockFile (s : BlockFiles ι) (fileNumber : ℕ) : BlockFiles ι where
  chain := { s.chain with
    index := fun pindex =>
      if s.inFile fileNumber pindex then { s.chain.index pindex with haveData := false } else s.chain.index pindex
    mapBlocksUnlinked := s.chain.mapBlocksUnlinked.filter fun e =>
      !(s.inFile fileNumber e.2 && T.pprev e.2 = some e.1) }
  disk := fun pindex => if s.inFile fileNumber pindex then .null else s.disk pindex
  vinfoBlockFile := s.vinfoBlockFile.set fileNumber .null
  nLastBlockFile := s.nLastBlockFile
  fCheckForPruning := s.fCheckForPruning

/-- `chainActive.Tip()->nHeight - MIN_BLOCKS_TO_KEEP`, an unsigned number. -/
def lastBlockWeCanPrune (nHeight : ℕ) : ℕ := (nHeight + 2 ^ 32 - MIN_BLOCKS_TO_KEEP) % 2 ^ 32

/-- The loop of `FindFilesToPruneManual` over the file numbers, with `setFilesToPrune`. -/
def pruneUpTo (nLastBlockWeCanPrune : ℕ) : List ℕ → List ℕ × BlockFiles ι → List ℕ × BlockFiles ι
  | [], acc => acc
  | fileNumber :: rest, (setFilesToPrune, s) =>
    if (s.info fileNumber).nSize = 0 ∨ (s.info fileNumber).nHeightLast > nLastBlockWeCanPrune then
      pruneUpTo nLastBlockWeCanPrune rest (setFilesToPrune, s)
    else pruneUpTo nLastBlockWeCanPrune rest (setFilesToPrune ++ [fileNumber], s.pruneOneBlockFile T fileNumber)

def findFilesToPruneManual (s : BlockFiles ι) (nManualPruneHeight : ℕ) : List ℕ × BlockFiles ι :=
  match s.chain.tip with
  | none => ([], s)
  | some tip =>
    pruneUpTo T (min nManualPruneHeight (lastBlockWeCanPrune (T.nHeight tip))) (List.range s.nLastBlockFile) ([], s)

def calculateCurrentUsage (s : BlockFiles ι) : ℕ := (s.vinfoBlockFile.map CBlockFileInfo.bytes).sum

/-- The loop of `FindFilesToPrune`, which ends when the usage is below the target. -/
def pruneToTarget (nLastBlockWeCanPrune : ℕ) : List ℕ → ℕ → List ℕ × BlockFiles ι → List ℕ × BlockFiles ι
  | [], _, acc => acc
  | fileNumber :: rest, nCurrentUsage, (setFilesToPrune, s) =>
    let nBytesToPrune := (s.info fileNumber).bytes
    if (s.info fileNumber).nSize = 0 then pruneToTarget nLastBlockWeCanPrune rest nCurrentUsage (setFilesToPrune, s)
    else if nCurrentUsage + (BLOCKFILE_CHUNK_SIZE + UNDOFILE_CHUNK_SIZE) < P.nPruneTarget then (setFilesToPrune, s)
    else if (s.info fileNumber).nHeightLast > nLastBlockWeCanPrune then
      pruneToTarget nLastBlockWeCanPrune rest nCurrentUsage (setFilesToPrune, s)
    else pruneToTarget nLastBlockWeCanPrune rest (nCurrentUsage - nBytesToPrune)
      (setFilesToPrune ++ [fileNumber], s.pruneOneBlockFile T fileNumber)

def findFilesToPrune (s : BlockFiles ι) : List ℕ × BlockFiles ι :=
  match s.chain.tip with
  | none => ([], s)
  | some tip =>
    if P.nPruneTarget = 0 ∨ T.nHeight tip ≤ P.nPruneAfterHeight then ([], s)
    else if s.calculateCurrentUsage + (BLOCKFILE_CHUNK_SIZE + UNDOFILE_CHUNK_SIZE) ≥ P.nPruneTarget then
      pruneToTarget T P (lastBlockWeCanPrune (T.nHeight tip)) (List.range s.nLastBlockFile) s.calculateCurrentUsage ([], s)
    else ([], s)

/-- The part of `FlushStateToDisk` that prunes. -/
def flushStateToDisk (s : BlockFiles ι) (nManualPruneHeight : ℕ) : List ℕ × BlockFiles ι :=
  if P.fPruneMode && (s.fCheckForPruning || decide (nManualPruneHeight > 0)) && !P.fReindex then
    if nManualPruneHeight > 0 then s.findFilesToPruneManual T nManualPruneHeight
    else
      let (setFilesToPrune, s) := s.findFilesToPrune T P
      (setFilesToPrune, { s with fCheckForPruning := false })
  else ([], s)

/-- The height that `pruneblockchain` prunes to; `earliest` is the height of `FindEarliestAtLeast`, for a time. -/
def pruneHeight (s : BlockFiles ι) (heightParam : ℤ) (earliest : Option ℕ) : Except String ℕ :=
  if !P.fPruneMode then .error "Cannot prune blocks because node is not in prune mode."
  else if heightParam < 0 then .error "Negative block height."
  else
    match (if heightParam > 1000000000 then earliest else some heightParam.toNat) with
    | none => .error "Could not find block with at least the specified timestamp."
    | some height =>
      let chainHeight := s.chain.tip.elim (2 ^ 32 - 1) T.nHeight
      if chainHeight < P.nPruneAfterHeight then .error "Blockchain is too short for pruning."
      else if height > chainHeight then .error "Blockchain is shorter than the attempted prune height."
      else if height > lastBlockWeCanPrune chainHeight then .ok (lastBlockWeCanPrune chainHeight)
      else .ok height

def pruneblockchain (s : BlockFiles ι) (heightParam : ℤ) (earliest : Option ℕ) : List ℕ × BlockFiles ι :=
  match s.pruneHeight T P heightParam earliest with
  | .error _ => ([], s)
  | .ok height => s.flushStateToDisk T P height

/-! ## Calls -/

inductive Call (ι : Type) where
  /-- the chain state becomes another one, by calls that leave `BLOCK_HAVE_DATA` of the known blocks as it is -/
  | changeChain (chain : CChainState ι)
  | saveBlock (pindex : ι) (known : Option CDiskBlockPos) (nBlockSize nTime : ℕ) (diskSpace written : Bool)
  | writeUndoDataForBlock (pindex : ι) (nAddSize : ℕ) (diskSpace written : Bool)
  | flushStateToDisk (nManualPruneHeight : ℕ)
  | pruneblockchain (heightParam : ℤ) (earliest : Option ℕ)

/-- Blocks are added to the block index, and any other fields change. -/
def changeChain (s : BlockFiles ι) (chain : CChainState ι) : BlockFiles ι :=
  { s with chain := { chain with
      mapBlockIndex := s.chain.mapBlockIndex ++ chain.mapBlockIndex.filter (· ∉ s.chain.mapBlockIndex)
      index := fun pindex => { chain.index pindex with haveData := (s.chain.index pindex).haveData } } }

/-- One call. A stored block is known, and undo data is written for a block that `ConnectTip` has read. -/
def step (s : BlockFiles ι) : Call ι → Except FileError (BlockFiles ι)
  | .changeChain chain => .ok (s.changeChain chain)
  | .saveBlock pindex known nBlockSize nTime diskSpace written =>
    if pindex ∈ s.chain.mapBlockIndex then s.saveBlock T P pindex known nBlockSize nTime diskSpace written else .ok s
  | .writeUndoDataForBlock pindex nAddSize diskSpace written =>
    if (s.chain.index pindex).haveData then .ok (s.writeUndoDataForBlock P pindex nAddSize diskSpace written) else .ok s
  | .flushStateToDisk nManualPruneHeight => .ok (s.flushStateToDisk T P nManualPruneHeight).2
  | .pruneblockchain heightParam earliest => .ok (s.pruneblockchain T P heightParam earliest).2

end BlockFiles

end Soferox
