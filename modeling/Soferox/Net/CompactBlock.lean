import Soferox.Primitives.RoundTrip
import Soferox.Validation.Block

/-!
# Compact blocks

`blockencodings.cpp` and `blockencodings.h`: a block as its header, short transaction ids and a few transactions, and how the
block is put together again.

The hash functions are parameters, as is the number of elements in a bucket of an `unordered_map`. An access out of range
or through a null reference, and a failed `assert`, end the run. The loop that skips slots takes a number of rounds that it
may use: it ends if some number is enough.

* `CBlockHeaderAndShortTxIDs`, `writeCmpctBlock`, `readCmpctBlock` — the message;
* `reads_cmpctBlock` — what was written is read back;
* `initSlots`, `initData` — `PartiallyDownloadedBlock::InitData`, up to the scan of the pool and the whole of it;
* `isTxAvailable`, `fillBlock` — the rest of `PartiallyDownloadedBlock`.
-/

namespace Soferox

open Lib Nat

/-- `MIN_SERIALIZABLE_TRANSACTION_WEIGHT`: 10 is the lower bound for the size of a serialized transaction. -/
def MIN_SERIALIZABLE_TRANSACTION_WEIGHT : ℕ := WITNESS_SCALE_FACTOR * 10

/-! ## Headers and blocks -/

structure CBlockHeader where
  nVersion : ℤ
  hashPrevBlock : Uint256
  hashMerkleRoot : Uint256
  nTime : ℕ
  nBits : ℕ
  nNonce : ℕ
  deriving DecidableEq, Repr

def CBlockHeader.isNull (header : CBlockHeader) : Bool := header.nBits == 0

def readBlockHeader : Stream CBlockHeader := do
  let nVersion ← readInt 4
  let hashPrevBlock ← readUint256
  let hashMerkleRoot ← readUint256
  let nTime ← serReaddata 4
  let nBits ← serReaddata 4
  let nNonce ← serReaddata 4
  return ⟨nVersion, hashPrevBlock, hashMerkleRoot, nTime, nBits, nNonce⟩

def writeBlockHeader (header : CBlockHeader) : List UInt8 :=
  writeInt 4 header.nVersion ++ (writeUint256 header.hashPrevBlock ++ (writeUint256 header.hashMerkleRoot ++
    (serWritedata 4 header.nTime ++ (serWritedata 4 header.nBits ++ serWritedata 4 header.nNonce))))

/-- A block with all fields of its header. -/
structure FullBlock where
  header : CBlockHeader
  vtx : List CMutableTransaction
  deriving DecidableEq, Repr

/-- `CTransaction::IsNull`. -/
def CMutableTransaction.isNull (tx : CMutableTransaction) : Bool := tx.vin.isEmpty && tx.vout.isEmpty

/-- What is not in the model. -/
structure CompactEnv where
  /-- the hash function of `SerializeHash` -/
  hash : List UInt8 → Uint256
  /-- `SipHashUint256`, with the key that `FillShortTxIDSelector` takes from header and nonce -/
  sipHash : List UInt8 → Uint256 → ℕ
  /-- `bucket_size(bucket(id))`, with the ids in a map made for a number of elements -/
  bucketSize : ℕ → List ℕ → ℕ → ℕ
  block : BlockEnv

namespace CompactEnv

variable (E : CompactEnv)

def getWitnessHash (tx : CMutableTransaction) : Uint256 := E.hash (serializeTransaction tx.hasWitness tx)

/-- The constructor of `CTransaction` computes the hash. -/
def toTransaction (tx : CMutableTransaction) : CTransaction :=
  ⟨E.hash (serializeTransaction false tx), tx.nVersion, tx.vin, tx.vout, tx.nLockTime⟩

/-- The block, as the checks see it. -/
def toBlock (block : FullBlock) : CBlock :=
  ⟨E.hash (writeBlockHeader block.header), block.header.hashMerkleRoot, block.vtx.map E.toTransaction⟩

/-- `CheckBlock(block, state, Params().GetConsensus())`. -/
def checkBlock (block : FullBlock) : Except BlockError Unit := Soferox.checkBlock E.block (E.toBlock block) true true

def getShortID (header : CBlockHeader) (nonce : ℕ) (txhash : Uint256) : ℕ :=
  E.sipHash (writeBlockHeader header ++ serWritedata 8 nonce) txhash &&& 0xffffffffffff

end CompactEnv

/-! ## The message -/

structure PrefilledTransaction where
  index : ℕ
  tx : CMutableTransaction
  deriving DecidableEq, Repr

structure CBlockHeaderAndShortTxIDs where
  header : CBlockHeader
  nonce : ℕ
  shorttxids : List ℕ
  prefilledtxn : List PrefilledTransaction
  deriving DecidableEq, Repr

def CBlockHeaderAndShortTxIDs.blockTxCount (cmpctblock : CBlockHeaderAndShortTxIDs) : ℕ :=
  cmpctblock.shorttxids.length + cmpctblock.prefilledtxn.length

/-- The constructor `CBlockHeaderAndShortTxIDs(block, true)`; there is a first transaction. -/
def CompactEnv.compact (E : CompactEnv) (block : FullBlock) (nonce : ℕ) : Option CBlockHeaderAndShortTxIDs :=
  match block.vtx with
  | [] => none
  | tx :: vtx => some ⟨block.header, nonce, vtx.map fun tx => E.getShortID block.header nonce (E.getWitnessHash tx), [⟨0, tx⟩]⟩

def readPrefilled : Stream PrefilledTransaction := do
  let idx ← readCompactSize
  ensure (decide (idx ≤ 0xffff)) "index overflowed 16-bits"
  let tx ← unserializeTransaction true
  return ⟨idx, tx⟩

def writePrefilled (prefilled : PrefilledTransaction) : List UInt8 :=
  writeCompactSize prefilled.index ++ serializeTransaction true prefilled.tx

/-- A short id: the lower 32 bits, then the upper 16 bits. -/
def readShortID : Stream ℕ := do
  let lsb ← serReaddata 4
  let msb ← serReaddata 2
  return (msb <<< 32) ||| lsb

def writeShortID (id : ℕ) : List UInt8 := serWritedata 4 (id &&& 0xffffffff) ++ serWritedata 2 ((id >>> 32) &&& 0xffff)

def readCmpctBlock : Stream CBlockHeaderAndShortTxIDs := do
  let header ← readBlockHeader
  let nonce ← serReaddata 8
  let shorttxids ← readVector readShortID
  let prefilledtxn ← readVector readPrefilled
  return ⟨header, nonce, shorttxids, prefilledtxn⟩

def writeCmpctBlock (cmpctblock : CBlockHeaderAndShortTxIDs) : List UInt8 :=
  writeBlockHeader cmpctblock.header ++ (serWritedata 8 cmpctblock.nonce ++
    (writeVector writeShortID cmpctblock.shorttxids ++ writeVector writePrefilled cmpctblock.prefilledtxn))

/-! ## What was written is read back -/

/-- The fields of a header are in the ranges of their types. -/
structure CBlockHeader.Fits (header : CBlockHeader) : Prop where
  nVersion : IntRange 4 header.nVersion
  nTime : header.nTime < 2 ^ 32
  nBits : header.nBits < 2 ^ 32
  nNonce : header.nNonce < 2 ^ 32

lemma reads_blockHeader {header : CBlockHeader} (h : header.Fits) :
    Reads readBlockHeader (writeBlockHeader header) header := by
  refine ((codes_int 4).reads h.nVersion).bind ((codes_uint256.reads trivial).bind ((codes_uint256.reads trivial).bind
    (((codes_data 4).reads h.nTime).bind (((codes_data 4).reads h.nBits).bind ?_))))
  exact ((codes_data 4).reads h.nNonce).map _

lemma reads_shortID {id : ℕ} (h : id < 2 ^ 48) : Reads readShortID (writeShortID id) id := by
  have hlsb : id &&& 0xffffffff = id % 2 ^ 32 := and_two_pow_sub_one_eq_mod id 32
  have hmsb : (id >>> 32) &&& 0xffff = id / 2 ^ 32 := by
    rw [show (0xffff : ℕ) = 2 ^ 16 - 1 by rfl, and_two_pow_sub_one_eq_mod, shiftRight_eq_div_pow]
    exact mod_eq_of_lt (by omega)
  have hparts : ((id / 2 ^ 32) <<< 32) ||| id % 2 ^ 32 = id := by
    rw [shiftLeft_eq, mul_comm, ← two_pow_add_eq_or_of_lt (mod_lt _ (by positivity))]
    exact div_add_mod id (2 ^ 32)
  rw [writeShortID, hlsb, hmsb]
  refine ((codes_data 4).reads (mod_lt _ (by positivity))).bind ?_
  rw [← map_eq_pure_bind]
  nth_rewrite 3 [← hparts]
  exact ((codes_data 2).reads (by omega)).map _

lemma reads_prefilled {prefilled : PrefilledTransaction} (hindex : prefilled.index ≤ 0xffff) (hfits : prefilled.tx.Fits)
    (hvin : prefilled.tx.vin ≠ []) : Reads readPrefilled (writePrefilled prefilled) prefilled := by
  have hsize : prefilled.index ≤ MAX_SIZE := hindex.trans (by decide)
  refine (codes_compactSize.reads hsize).bind (Reads.ensure (decide_eq_true hindex) ?_)
  exact Reads.map (unserialize_serialize true prefilled.tx hfits hvin).1 _

lemma reads_vector {α : Type} {unserialize : Stream α} {serialize : α → List UInt8} {v : List α} (hsize : v.length ≤ MAX_SIZE)
    (h : ∀ a ∈ v, Reads unserialize (serialize a) a) : Reads (readVector unserialize) (writeVector serialize v) v := by
  refine (codes_compactSize.reads hsize).bind ?_
  have hreads := reads_readN (f := id) h
  rwa [List.map_id] at hreads

lemma reads_cmpctBlock {cmpctblock : CBlockHeaderAndShortTxIDs} (hheader : cmpctblock.header.Fits)
    (hnonce : cmpctblock.nonce < 2 ^ 64) (hids : cmpctblock.shorttxids.length ≤ MAX_SIZE)
    (hid : ∀ id ∈ cmpctblock.shorttxids, id < 2 ^ 48) (hprefilled : cmpctblock.prefilledtxn.length ≤ MAX_SIZE)
    (htx : ∀ prefilled ∈ cmpctblock.prefilledtxn,
      prefilled.index ≤ 0xffff ∧ prefilled.tx.Fits ∧ prefilled.tx.vin ≠ []) :
    Reads readCmpctBlock (writeCmpctBlock cmpctblock) cmpctblock := by
  refine (reads_blockHeader hheader).bind (((codes_data 8).reads hnonce).bind
    ((reads_vector hids fun id hmem => reads_shortID (hid id hmem)).bind ?_))
  refine (reads_vector hprefilled fun prefilled hmem => ?_).map _
  obtain ⟨hindex, hfits, hvin⟩ := htx prefilled hmem
  exact reads_prefilled hindex hfits hvin

/-! ## `InitData` -/

inductive ReadStatus
  | OK
  | INVALID
  | FAILED
  | CHECKBLOCK_FAILED
  deriving DecidableEq, Repr

inductive CompactError
  /-- an access to a vector that is out of range -/
  | outOfRange
  /-- an access through a null reference -/
  | nullReference
  /-- a failed `assert` -/
  | assertFailed
  /-- a loop takes more rounds than it is given -/
  | outOfRounds
  deriving DecidableEq, Repr

/-- The slots of the transactions of a block. -/
abbrev Slots := List (Option CMutableTransaction)

/-- The loop over the prefilled transactions, with its counter and `lastprefilledindex`; nothing comes back for
`READ_STATUS_INVALID`. -/
def placePrefilled (nShortIds : ℕ) : List PrefilledTransaction → ℕ → ℤ → Slots → Except CompactError (Option Slots)
  | [], _, _, txn_available => .ok (some txn_available)
  | prefilled :: rest, i, lastprefilledindex, txn_available =>
    if prefilled.tx.isNull then .ok none
    else
      let lastprefilledindex := lastprefilledindex + (prefilled.index + 1)
      if lastprefilledindex > 0xffff then .ok none
      else if lastprefilledindex > nShortIds + i then .ok none
      else if lastprefilledindex.toNat < txn_available.length then
        placePrefilled nShortIds rest (i + 1) lastprefilledindex (txn_available.set lastprefilledindex.toNat prefilled.tx)
      else .error .outOfRange

/-- `while (txn_available[i + index_offset]) index_offset++`, where `index_offset` has 16 bits. -/
def skipAvailable (txn_available : Slots) (i : ℕ) : ℕ → ℕ → Except CompactError ℕ
  | 0, _ => .error .outOfRounds
  | rounds + 1, index_offset =>
    match txn_available[i + index_offset]? with
    | none => .error .outOfRange
    | some none => .ok index_offset
    | some (some _) => skipAvailable txn_available i rounds ((index_offset + 1) % 2 ^ 16)

/-- The loop over the short ids, from `i` on, with the map `shorttxids`, of values of 16 bits; `none` is
`READ_STATUS_FAILED`. -/
def mapShortIds (E : CompactEnv) (shorttxids : List ℕ) (txn_available : Slots) (rounds : ℕ) :
    List ℕ → ℕ → ℕ → AList (fun _ : ℕ => ℕ) → Except CompactError (Option (AList fun _ : ℕ => ℕ))
  | [], _, _, slots => .ok (some slots)
  | id :: rest, i, index_offset, slots =>
    match skipAvailable txn_available i rounds index_offset with
    | .error e => .error e
    | .ok index_offset =>
      if E.bucketSize shorttxids.length (shorttxids.take (i + 1)) id > 12 then .ok none
      else mapShortIds E shorttxids txn_available rounds rest (i + 1) index_offset
        (slots.insert id ((i + index_offset) % 2 ^ 16))

/-- The part of `InitData` before the scan of the pool: a status, or the slots and the map of short ids. -/
def initSlots (E : CompactEnv) (cmpctblock : CBlockHeaderAndShortTxIDs) (rounds : ℕ) :
    Except CompactError (ReadStatus ⊕ Slots × AList fun _ : ℕ => ℕ) :=
  if cmpctblock.header.isNull || (cmpctblock.shorttxids.isEmpty && cmpctblock.prefilledtxn.isEmpty) then .ok (.inl .INVALID)
  else if cmpctblock.blockTxCount > MAX_BLOCK_WEIGHT / MIN_SERIALIZABLE_TRANSACTION_WEIGHT then .ok (.inl .INVALID)
  else
    match placePrefilled cmpctblock.shorttxids.length cmpctblock.prefilledtxn 0 (-1)
        (List.replicate cmpctblock.blockTxCount none) with
    | .error e => .error e
    | .ok none => .ok (.inl .INVALID)
    | .ok (some txn_available) =>
      match mapShortIds E cmpctblock.shorttxids txn_available rounds cmpctblock.shorttxids 0 0 ∅ with
      | .error e => .error e
      | .ok none => .ok (.inl .FAILED)
      | .ok (some slots) =>
        if slots.entries.length ≠ cmpctblock.shorttxids.length then .ok (.inl .FAILED)
        else .ok (.inr (txn_available, slots))

/-- The variables of the two scans. The counts are only logged; as a `size_t`, `extra_count` wraps where it is negative
here. -/
structure Scan where
  txn_available : Slots
  have_txn : List Bool
  mempool_count : ℤ
  extra_count : ℤ
  deriving DecidableEq, Repr

namespace Scan

/-- `have_txn[slot]`. -/
def haveTxn (scan : Scan) (slot : ℕ) : Except CompactError Bool :=
  match scan.have_txn[slot]? with
  | some b => .ok b
  | none => .error .outOfRange

/-- `txn_available[slot] = tx; have_txn[slot] = true`. -/
def put (scan : Scan) (slot : ℕ) (tx : Option CMutableTransaction) : Except CompactError Scan :=
  if slot < scan.txn_available.length then
    .ok { scan with
      txn_available := scan.txn_available.set slot tx
      have_txn := scan.have_txn.set slot true
      mempool_count := scan.mempool_count + 1 }
  else .error .outOfRange

/-- `txn_available[slot].reset()`, if there is a transaction that `differs`. -/
def resetIf (scan : Scan) (slot : ℕ) (differs : CMutableTransaction → Except CompactError Bool) :
    Except CompactError (Bool × Scan) :=
  match scan.txn_available[slot]? with
  | none => .error .outOfRange
  | some none => .ok (false, scan)
  | some (some tx) =>
    match differs tx with
    | .error e => .error e
    | .ok false => .ok (false, scan)
    | .ok true => .ok (true, { scan with
        txn_available := scan.txn_available.set slot none
        mempool_count := scan.mempool_count - 1 })

end Scan

/-- One transaction of the pool with a known short id. -/
def matchPool (scan : Scan) (slot : ℕ) (tx : CMutableTransaction) : Except CompactError Scan :=
  match scan.haveTxn slot with
  | .error e => .error e
  | .ok false => scan.put slot tx
  | .ok true => Prod.snd <$> scan.resetIf slot fun _ => .ok true

/-- One extra transaction with a known short id. -/
def matchExtra (E : CompactEnv) (scan : Scan) (slot : ℕ) (tx : Option CMutableTransaction) : Except CompactError Scan :=
  match scan.haveTxn slot with
  | .error e => .error e
  | .ok false => (fun scan => { scan with extra_count := scan.extra_count + 1 }) <$> scan.put slot tx
  | .ok true =>
    (fun r => if r.1 then { r.2 with extra_count := r.2.extra_count - 1 } else r.2) <$> scan.resetIf slot fun available =>
      match tx with
      | none => .error .nullReference
      | some tx => .ok (E.getWitnessHash available != E.getWitnessHash tx)

/-- One transaction of a scan; `found` is the slot of its short id. -/
def matchSlot (found : Option ℕ) (f : ℕ → Except CompactError Scan) (scan : Scan) : Except CompactError Scan :=
  match found with
  | some slot => f slot
  | none => .ok scan

/-- The scan of `vTxHashes`, which ends when all short ids have been found. -/
def scanPool (E : CompactEnv) (cmpctblock : CBlockHeaderAndShortTxIDs) (slots : AList fun _ : ℕ => ℕ) :
    List (Uint256 × CMutableTransaction) → Scan → Except CompactError Scan
  | [], scan => .ok scan
  | (hash, tx) :: rest, scan => do
    let scan ← matchSlot (slots.lookup (E.getShortID cmpctblock.header cmpctblock.nonce hash)) (fun slot => matchPool scan slot tx) scan
    if scan.mempool_count = slots.entries.length then return scan else scanPool E cmpctblock slots rest scan

def scanExtra (E : CompactEnv) (cmpctblock : CBlockHeaderAndShortTxIDs) (slots : AList fun _ : ℕ => ℕ) :
    List (Uint256 × Option CMutableTransaction) → Scan → Except CompactError Scan
  | [], scan => .ok scan
  | (hash, tx) :: rest, scan => do
    let scan ← matchSlot (slots.lookup (E.getShortID cmpctblock.header cmpctblock.nonce hash)) (fun slot => matchExtra E scan slot tx) scan
    if scan.mempool_count = slots.entries.length then return scan else scanExtra E cmpctblock slots rest scan

structure PartiallyDownloadedBlock where
  header : CBlockHeader
  txn_available : Slots
  prefilled_count : ℕ
  mempool_count : ℤ
  extra_count : ℤ
  deriving DecidableEq, Repr

/-- `InitData`, on an object that was just made; the block comes back with `READ_STATUS_OK`. -/
def initData (E : CompactEnv) (cmpctblock : CBlockHeaderAndShortTxIDs) (vTxHashes : List (Uint256 × CMutableTransaction))
    (extra_txn : List (Uint256 × Option CMutableTransaction)) (rounds : ℕ) :
    Except CompactError (ReadStatus × Option PartiallyDownloadedBlock) :=
  match initSlots E cmpctblock rounds with
  | .error e => .error e
  | .ok (.inl status) => .ok (status, none)
  | .ok (.inr (txn_available, slots)) => do
    let scan ← scanPool E cmpctblock slots vTxHashes
      ⟨txn_available, List.replicate txn_available.length false, 0, 0⟩
    let scan ← scanExtra E cmpctblock slots extra_txn scan
    return (.OK, some ⟨cmpctblock.header, scan.txn_available, cmpctblock.prefilledtxn.length, scan.mempool_count,
      scan.extra_count⟩)

/-! ## `FillBlock` -/

def PartiallyDownloadedBlock.isTxAvailable (block : PartiallyDownloadedBlock) (index : ℕ) : Except CompactError Bool :=
  if block.header.isNull then .error .assertFailed
  else
    match block.txn_available[index]? with
    | none => .error .assertFailed
    | some tx => .ok tx.isSome

/-- The loop of `FillBlock`: the transactions, and what is left of `vtx_missing`; nothing if there are too few. -/
def fillSlots : Slots → List CMutableTransaction → Option (List CMutableTransaction × List CMutableTransaction)
  | [], vtx_missing => some ([], vtx_missing)
  | some tx :: slots, vtx_missing => (fillSlots slots vtx_missing).map fun r => (tx :: r.1, r.2)
  | none :: _, [] => none
  | none :: slots, tx :: vtx_missing => (fillSlots slots vtx_missing).map fun r => (tx :: r.1, r.2)

/-- `state.CorruptionPossible()`. -/
def BlockError.corruptionPossible : BlockError → Bool
  | .reject _ reason => reason == "bad-txnmrklroot" || reason == "bad-txns-duplicate"
  | _ => false

/-- `FillBlock`; the block comes back if all its slots were filled. -/
def fillBlock (E : CompactEnv) (block : PartiallyDownloadedBlock) (vtx_missing : List CMutableTransaction) :
    Except CompactError (ReadStatus × Option FullBlock) :=
  if block.header.isNull then .error .assertFailed
  else
    match fillSlots block.txn_available vtx_missing with
    | none => .ok (.INVALID, none)
    | some (vtx, rest) =>
      if !rest.isEmpty then .ok (.INVALID, some ⟨block.header, vtx⟩)
      else
        match E.checkBlock ⟨block.header, vtx⟩ with
        | .ok _ => .ok (.OK, some ⟨block.header, vtx⟩)
        | .error e => .ok (if e.corruptionPossible then .FAILED else .CHECKBLOCK_FAILED, some ⟨block.header, vtx⟩)

end Soferox
