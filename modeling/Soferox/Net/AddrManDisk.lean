import Soferox.Net.AddrMan
import Soferox.Primitives.Serialize

/-!
# The address manager on disk

`CAddrMan::Serialize` and `CAddrMan::Unserialize` of `addrman.h`, with the formats of `protocol.h` and `netaddress.h`.

The loops of `Unserialize` that read are separated from those that build: `readFile` is all that is read, and `load`
is what is made of it.

* `CAddrMan.serialize`, `CAddrMan.unserialize`;
* `reads_info`, `reads_positions` — what is read from what was written.
-/

namespace Soferox

open Lib List

/-! ## Addresses -/

/-- The type and the version of a stream. -/
structure SerType where
  disk : Bool
  getHash : Bool
  nVersion : ℤ
  deriving DecidableEq, Repr

def CADDR_TIME_VERSION : ℤ := 31402

/-- Whether the stream has the time of an address. -/
def SerType.hasTime (T : SerType) : Bool := T.disk || (decide (CADDR_TIME_VERSION ≤ T.nVersion) && !T.getHash)

/-- The bytes of an address, the first one being the lowest of the number. -/
def writeNetAddr (net : CNetAddr) : List UInt8 := serWritedata 16 net.toNat
def readNetAddr : Stream CNetAddr := BitVec.ofNat 128 <$> serReaddata 16

/-- `CService::SerializationOp`; the port is in network order. -/
def writeService (service : CService) : List UInt8 := writeNetAddr service.net ++ (serWritedata 2 service.port).reverse

def readService : Stream CService := do
  let net ← readNetAddr
  let portN ← readBytes 2
  return ⟨net, CScriptNum.leNat portN.reverse⟩

/-- `CAddress::SerializationOp`. -/
def writeAddress (T : SerType) (addr : CAddress) : List UInt8 :=
  (if T.disk then writeInt 4 T.nVersion else []) ++ ((if T.hasTime then serWritedata 4 addr.nTime else []) ++
    (serWritedata 8 addr.nServices ++ writeService addr.service))

/-- `CAddress::SerializationOp`, after `CAddress::Init`. -/
def readAddress (T : SerType) : Stream CAddress := do
  let _ ← (if T.disk then readInt 4 else pure T.nVersion)
  let nTime ← (if T.hasTime then serReaddata 4 else pure 100000000)
  let nServices ← serReaddata 8
  let service ← readService
  return ⟨service, nServices, nTime⟩

/-- `CAddrInfo::SerializationOp`. -/
def writeInfo (T : SerType) (info : CAddrInfo) : List UInt8 :=
  writeAddress T info.addr ++ (writeNetAddr info.source ++ (writeInt 8 info.nLastSuccess ++ writeInt 4 info.nAttempts))

/-- `CAddrInfo::SerializationOp`, after `CAddrInfo::Init`; the position is set later. -/
def readInfo (T : SerType) : Stream CAddrInfo := do
  let addr ← readAddress T
  let source ← readNetAddr
  let nLastSuccess ← readInt 8
  let nAttempts ← readInt 4
  return { CAddrInfo.new addr source 0 with nLastSuccess := nLastSuccess, nAttempts := nAttempts }

namespace CAddrMan

/-! ## Writing -/

section Serialize

variable (T : SerType) (s : CAddrMan)

/-- The first loop of `Serialize`, once: `mapUnkIds`, `nIds` and what is written. -/
def writeNew (acc : (ℕ → ℕ) × ℕ × List UInt8) (entry : AddrEntry) :
    AddrManM ((ℕ → ℕ) × ℕ × List UInt8) :=
  let mapUnkIds := Function.update acc.1 entry.1 acc.2.1
  if entry.2.nRefCount ≠ 0 then do
    assertThat ((acc.2.1 : ℤ) != s.nNew)
    return (mapUnkIds, acc.2.1 + 1, acc.2.2 ++ writeInfo T entry.2)
  else return (mapUnkIds, acc.2.1, acc.2.2)

/-- The second loop of `Serialize`, once: `nIds` and what is written. -/
def writeTried (acc : ℕ × List UInt8) (entry : AddrEntry) : AddrManM (ℕ × List UInt8) :=
  if entry.2.fInTried then do
    assertThat ((acc.1 : ℤ) != s.nTried)
    return (acc.1 + 1, acc.2 ++ writeInfo T entry.2)
  else return acc

def bucketIds (bucket : NewBucket) : List ℕ := (List.finRange 64).filterMap fun i => s.vvNew (bucket, i)

/-- The last loop of `Serialize`, once. -/
def writeBucket (mapUnkIds : ℕ → ℕ) (bucket : NewBucket) : List UInt8 :=
  writeInt 4 (s.bucketIds bucket).length ++ (s.bucketIds bucket).flatMap fun nId => writeInt 4 (mapUnkIds nId)

/-- An `int` with the bit `1 << 30` turned over. -/
def flip30 (n : ℤ) : ℤ := (BitVec.ofInt 32 n ^^^ (1#32 <<< 30)).toInt

def serialize : AddrManM (List UInt8) := do
  let header := serWritedata 1 1 ++ (serWritedata 1 32 ++ (writeUint256 s.nKey ++ (writeInt 4 s.nNew ++
    (writeInt 4 s.nTried ++ writeInt 4 (flip30 1024)))))
  let (mapUnkIds, _, news) ← s.infos.foldlM (s.writeNew T) (fun _ => 0, 0, [])
  let (_, trieds) ← s.infos.foldlM (s.writeTried T) (0, [])
  return header ++ (news ++ (trieds ++ (List.finRange 1024).flatMap (s.writeBucket mapUnkIds)))

end Serialize

end CAddrMan

/-! ## Reading -/

/-- All that `Unserialize` reads; `positions` has the indices in the buckets, with the number of the bucket. -/
structure AddrManFile where
  nVersion : ℕ
  nKey : Uint256
  nNew : ℤ
  nTried : ℤ
  nUBuckets : ℤ
  news : List CAddrInfo
  trieds : List CAddrInfo
  positions : List (ℕ × ℤ)

/-- The indices in `left` buckets, from `bucket` on. -/
def readPositions : ℕ → ℕ → Stream (List (ℕ × ℤ))
  | 0, _ => pure []
  | left + 1, bucket => do
    let nSize ← readInt 4
    let indices ← readN (readInt 4) nSize.toNat
    let rest ← readPositions left (bucket + 1)
    return indices.map (bucket, ·) ++ rest

/-- The part of a stream that `Unserialize` takes. -/
def readFile (T : SerType) : Stream AddrManFile := do
  let nVersion ← serReaddata 1
  let nKeySize ← serReaddata 1
  ensure (nKeySize == 32) "Incorrect keysize in addrman deserialization"
  let nKey ← readUint256
  let nNew ← readInt 4
  let nTried ← readInt 4
  let nUBuckets ← readInt 4
  let nUBuckets := if nVersion ≠ 0 then CAddrMan.flip30 nUBuckets else nUBuckets
  ensure (nNew ≤ 1024 * 64) "Corrupt CAddrMan serialization, nNew exceeds limit."
  ensure (nTried ≤ 256 * 64) "Corrupt CAddrMan serialization, nTried exceeds limit."
  let news ← readN (readInfo T) nNew.toNat
  let trieds ← readN (readInfo T) nTried.toNat
  let positions ← readPositions nUBuckets.toNat 0
  return ⟨nVersion, nKey, nNew, nTried, nUBuckets, news, trieds, positions⟩

/-- The bucket lists of the file can be used. -/
def AddrManFile.hasBuckets (file : AddrManFile) : Bool := file.nVersion == 1 && file.nUBuckets == 1024

/-- Why `Unserialize` does not return. -/
inductive AddrManFileError
  /-- a `std::ios_base::failure` -/
  | failure (what : String)
  /-- in `Delete` -/
  | delete (error : AddrManError)
  deriving DecidableEq, Repr

namespace CAddrMan

section Unserialize

variable (P : AddrManParams)

/-- An entry comes into `mapInfo`, `mapAddr` and `vRandom`. -/
def register (s : CAddrMan) (n : ℕ) (info : CAddrInfo) : CAddrMan :=
  { s with
    mapInfo := s.mapInfo.insert n { info with nRandomPos := s.vRandom.length }
    mapAddr := s.mapAddr.insert info.net n
    vRandom := s.vRandom ++ [n] }

/-- A new entry that has no list of buckets gets a reference for its source, if there is room. -/
def reference (s : CAddrMan) (n : ℕ) (info : CAddrInfo) : CAddrMan :=
  let nUSlot := s.newSlot P info (P.getNewBucket s.nKey info.net info.source)
  if s.vvNew nUSlot = none then
    { s.setInfo n { info with nRandomPos := s.vRandom.length - 1, nRefCount := info.nRefCount + 1 } with
      vvNew := Function.update s.vvNew nUSlot (some n) }
  else s

/-- The loop of `Unserialize` over the new entries, from number `n` on. -/
def loadNews (file : AddrManFile) : ℕ → List CAddrInfo → CAddrMan → CAddrMan
  | _, [], s => s
  | n, info :: infos, s =>
    let s := s.register n info
    let s := if file.hasBuckets then s else s.reference P n info
    loadNews file (n + 1) infos s

/-- The loop of `Unserialize` over the tried entries, once, with `nLost`. -/
def loadTried (acc : CAddrMan × ℕ) (info : CAddrInfo) : CAddrMan × ℕ :=
  let s := acc.1
  let nKSlot := s.triedSlot P info
  match s.vvTried nKSlot with
  | none =>
    ({ s.register s.nIdCount { info with fInTried := true } with
      vvTried := Function.update s.vvTried nKSlot (some s.nIdCount)
      nIdCount := s.nIdCount + 1 }, acc.2)
  | some _ => (s, acc.2 + 1)

/-- The loop of `Unserialize` over the positions in the new table, once; an index below `nNew` has an entry. -/
def loadPosition (file : AddrManFile) (s : CAddrMan) (position : ℕ × ℤ) : CAddrMan :=
  if 0 ≤ position.2 ∧ position.2 < file.nNew then
    match s.mapInfo.lookup position.2.toNat with
    | none => s
    | some info =>
      let slot := s.newSlot P info (Fin.ofNat 1024 position.1)
      if file.hasBuckets ∧ s.vvNew slot = none ∧ info.nRefCount < ADDRMAN_NEW_BUCKETS_PER_ADDRESS then
        { s.setInfo position.2.toNat { info with nRefCount := info.nRefCount + 1 } with
          vvNew := Function.update s.vvNew slot (some position.2.toNat) }
      else s
  else s

/-- The tables that are built from a file, with `nLost`; `nKey` is the key that `Clear` draws. -/
def load (nKey : Uint256) (file : AddrManFile) : CAddrMan × ℕ :=
  let s := { clear nKey with nKey := file.nKey, nNew := file.nNew, nTried := file.nTried }
  let s := loadNews P file 0 file.news s
  let s := { s with nIdCount := file.nNew.toNat }
  let (s, nLost) := file.trieds.foldl (loadTried P) (s, 0)
  let s := { s with nTried := s.nTried - nLost }
  (file.positions.foldl (loadPosition P file) s, nLost)

/-- The last loop of `Unserialize`, once, with `nLostUnk`. -/
def prune (acc : CAddrMan × ℕ) (n : ℕ) : AddrManM (CAddrMan × ℕ) :=
  match acc.1.mapInfo.lookup n with
  | none => .ok acc
  | some info =>
    if info.fInTried = false ∧ info.nRefCount = 0 then do
      let s ← acc.1.delete n
      return (s, acc.2 + 1)
    else .ok acc

/-- `CAddrMan::Unserialize`: the tables, `nLost` and `nLostUnk`, and the rest of the stream. -/
def unserialize (T : SerType) (nKey : Uint256) (b : List UInt8) :
    Except AddrManFileError (CAddrMan × ℕ × ℕ × List UInt8) :=
  match readFile T b with
  | .error what => .error (.failure what)
  | .ok (file, rest) =>
    let (s, nLost) := load P nKey file
    match (s.infos.map Sigma.fst).foldlM prune (s, 0) with
    | .error e => .error (.delete e)
    | .ok (s, nLostUnk) => .ok (s, nLost, nLostUnk, rest)

end Unserialize

end CAddrMan

/-! ## What is read from what was written -/

/-- The numbers of an entry are in the ranges of their types. -/
structure CAddrInfo.Fits (info : CAddrInfo) : Prop where
  port : info.service.port < 2 ^ 16
  nServices : info.addr.nServices < 2 ^ 64
  nTime : info.addr.nTime < 2 ^ 32
  nLastSuccess : IntRange 8 info.nLastSuccess
  nAttempts : IntRange 4 info.nAttempts

/-- What is left of an entry on disk. -/
def CAddrInfo.stored (T : SerType) (info : CAddrInfo) : CAddrInfo :=
  { CAddrInfo.new { info.addr with nTime := if T.hasTime then info.addr.nTime else 100000000 } info.source 0 with
    nLastSuccess := info.nLastSuccess
    nAttempts := info.nAttempts }

lemma reads_netAddr (net : CNetAddr) : Reads readNetAddr (writeNetAddr net) net := by
  have h := ((codes_data 16).reads net.isLt).map (BitVec.ofNat 128)
  rwa [BitVec.ofNat_toNat] at h

lemma reads_service {service : CService} (h : service.port < 2 ^ 16) : Reads readService (writeService service) service := by
  refine (reads_netAddr service.net).bind ?_
  have hlen : (serWritedata 2 service.port).reverse.length = 2 := by rw [length_reverse, serWritedata, length_leBytes]
  have hread := ((codes_readBytes 2).reads hlen).map fun portN => (⟨service.net, CScriptNum.leNat portN.reverse⟩ : CService)
  rwa [reverse_reverse, serWritedata, leNat_leBytes h] at hread

lemma reads_address {T : SerType} {addr : CAddress} (hT : IntRange 4 T.nVersion) (hport : addr.service.port < 2 ^ 16)
    (hservices : addr.nServices < 2 ^ 64) (htime : addr.nTime < 2 ^ 32) :
    Reads (readAddress T) (writeAddress T addr) { addr with nTime := if T.hasTime then addr.nTime else 100000000 } := by
  have hversion : Reads (if T.disk then readInt 4 else pure T.nVersion) (if T.disk then writeInt 4 T.nVersion else [])
      T.nVersion := by
    split_ifs with hdisk
    · exact (codes_int 4).reads hT
    · exact Reads.pure T.nVersion
  have htimes : Reads (if T.hasTime then serReaddata 4 else pure 100000000)
      (if T.hasTime then serWritedata 4 addr.nTime else []) (if T.hasTime then addr.nTime else 100000000) := by
    split_ifs with htime
    · exact (codes_data 4).reads (by assumption)
    · exact Reads.pure 100000000
  refine hversion.bind (htimes.bind (((codes_data 8).reads hservices).bind ?_))
  rw [← map_eq_pure_bind]
  exact (reads_service hport).map _

lemma reads_info {T : SerType} {info : CAddrInfo} (hT : IntRange 4 T.nVersion) (h : info.Fits) :
    Reads (readInfo T) (writeInfo T info) (info.stored T) := by
  refine (reads_address hT h.port h.nServices h.nTime).bind ((reads_netAddr info.source).bind
    (((codes_int 8).reads h.nLastSuccess).bind ?_))
  rw [← map_eq_pure_bind]
  exact ((codes_int 4).reads h.nAttempts).map _

lemma intRange_four {n : ℤ} (h₀ : 0 ≤ n) (h : n < 2 ^ 31) : IntRange 4 n := by
  unfold IntRange Int.bmod
  dsimp only
  split_ifs <;> omega

lemma reads_positions {α : Type} (ids : α → List ℕ) (hids : ∀ a, (ids a).length ≤ 64) (f : ℕ → ℕ)
    (hf : ∀ a, ∀ nId ∈ ids a, f nId < 2 ^ 31) (buckets : List α) (first : ℕ) :
    Reads (readPositions buckets.length first)
      (buckets.flatMap fun a => writeInt 4 (ids a).length ++ (ids a).flatMap fun nId => writeInt 4 (f nId))
      ((buckets.zipIdx first).flatMap fun p => (ids p.1).map fun nId => (p.2, (f nId : ℤ))) := by
  induction buckets generalizing first with
  | nil => exact Reads.pure []
  | cons a buckets ih =>
    have hsize := hids a
    have hindices : Reads (readN (readInt 4) (ids a).length) ((ids a).flatMap fun nId => writeInt 4 (f nId))
        ((ids a).map fun nId => (f nId : ℤ)) := by
      refine reads_readN fun nId hmem => (codes_int 4).reads (intRange_four (Int.natCast_nonneg _) ?_)
      exact_mod_cast hf a nId hmem
    rw [flatMap_cons, append_assoc, zipIdx_cons, flatMap_cons]
    refine ((codes_int 4).reads (intRange_four (Int.natCast_nonneg _) (by omega))).bind (hindices.bind ?_)
    rw [← map_eq_pure_bind]
    have hrest := (ih (first + 1)).map (((ids a).map fun nId => (f nId : ℤ)).map (first, ·) ++ ·)
    simp only [map_map] at hrest ⊢
    exact hrest

end Soferox
