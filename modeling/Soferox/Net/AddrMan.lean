import Mathlib.Data.List.AList
import Mathlib.Data.Multiset.AddSub
import Soferox.Primitives.Transaction

/-!
# The address manager

`addrman.cpp` and `addrman.h`: `CAddrMan`, with its tables of new and tried addresses.

The routability of an address, its bucket and its position there are parameters (`AddrManParams`); so are random numbers
and the current time, which are arguments of the calls. An id is a natural number below `2 ^ 31`, an `int`. A failed
`assert`, a lookup that finds nothing where the source counts on an entry, and a counter `nIdCount` that overflows end the
run.

* `CAddrMan.add`, `CAddrMan.good`, `CAddrMan.attempt`, `CAddrMan.connected`, `CAddrMan.setServices`, `CAddrMan.getAddr` —
  the calls;
* `CAddrMan.check` — `Check_`, with its return codes.
-/

namespace Soferox

/-! ## Addresses -/

/-- `CNetAddr`: the 16 bytes of an address. -/
abbrev CNetAddr := BitVec 128

structure CService where
  net : CNetAddr
  port : ℕ
  deriving DecidableEq, Repr

structure CAddress where
  service : CService
  nServices : ℕ
  nTime : ℕ
  deriving DecidableEq, Repr

structure CAddrInfo where
  addr : CAddress
  source : CNetAddr
  nLastTry : ℤ
  nLastCountAttempt : ℤ
  nLastSuccess : ℤ
  nAttempts : ℤ
  nRefCount : ℤ
  fInTried : Bool
  nRandomPos : ℕ
  deriving DecidableEq, Repr

def ADDRMAN_NEW_BUCKETS_PER_ADDRESS : ℤ := 8
def ADDRMAN_HORIZON_DAYS : ℤ := 30
def ADDRMAN_RETRIES : ℤ := 3
def ADDRMAN_MAX_FAILURES : ℤ := 10
def ADDRMAN_MIN_FAIL_DAYS : ℤ := 7
def ADDRMAN_GETADDR_MAX_PCT : ℕ := 23
def ADDRMAN_GETADDR_MAX : ℕ := 2500

/-- `ADDRMAN_NEW_BUCKET_COUNT` is `1 << 10`. -/
abbrev NewBucket := Fin 1024

/-- `ADDRMAN_TRIED_BUCKET_COUNT` is `1 << 8`. -/
abbrev TriedBucket := Fin 256

/-- `ADDRMAN_BUCKET_SIZE` is `1 << 6`. -/
abbrev BucketPos := Fin 64

/-- What is computed from an address: whether it is routable and its place in the tables. -/
structure AddrManParams where
  isRoutable : CNetAddr → Bool
  getTriedBucket : Uint256 → CService → TriedBucket
  getNewBucket : Uint256 → CNetAddr → CNetAddr → NewBucket
  getBucketPosition : Uint256 → Bool → ℕ → CService → BucketPos

namespace CAddrInfo

/-- `CAddrInfo::CAddrInfo(addrIn, addrSource)`, at the position that `Create` gives it. -/
def new (addr : CAddress) (source : CNetAddr) (nRandomPos : ℕ) : CAddrInfo := ⟨addr, source, 0, 0, 0, 0, 0, false, nRandomPos⟩

abbrev service (info : CAddrInfo) : CService := info.addr.service
abbrev net (info : CAddrInfo) : CNetAddr := info.addr.service.net

def isTerrible (info : CAddrInfo) (nNow : ℤ) : Bool :=
  if info.nLastTry ≠ 0 ∧ info.nLastTry ≥ nNow - 60 then false
  else if (info.addr.nTime : ℤ) > nNow + 10 * 60 then true
  else if info.addr.nTime = 0 ∨ nNow - info.addr.nTime > ADDRMAN_HORIZON_DAYS * 24 * 60 * 60 then true
  else if info.nLastSuccess = 0 ∧ info.nAttempts ≥ ADDRMAN_RETRIES then true
  else if nNow - info.nLastSuccess > ADDRMAN_MIN_FAIL_DAYS * 24 * 60 * 60 ∧ info.nAttempts ≥ ADDRMAN_MAX_FAILURES then true
  else false

/-- The entry with another time. -/
def setTime (info : CAddrInfo) (nTime : ℕ) : CAddrInfo := { info with addr := { info.addr with nTime := nTime } }

/-- The entry with other services. -/
def setServices (info : CAddrInfo) (nServices : ℕ) : CAddrInfo :=
  { info with addr := { info.addr with nServices := nServices } }

end CAddrInfo

/-! ## The tables -/

/-- An entry of `mapInfo`, with its id. -/
abbrev AddrEntry := Sigma fun _ : ℕ => CAddrInfo

/-- `CAddrMan`; an empty slot, which the source marks with `-1`, is `none`. -/
structure CAddrMan where
  nIdCount : ℕ
  mapInfo : AList fun _ : ℕ => CAddrInfo
  mapAddr : AList fun _ : CNetAddr => ℕ
  vRandom : List ℕ
  nTried : ℤ
  vvTried : TriedBucket × BucketPos → Option ℕ
  nNew : ℤ
  vvNew : NewBucket × BucketPos → Option ℕ
  nLastGood : ℤ
  nKey : Uint256

inductive AddrManError
  /-- a failed `assert` -/
  | assertFailed
  /-- a lookup that finds nothing where the source counts on an entry -/
  | missing
  /-- an overflow of the `int` counter `nIdCount` -/
  | overflow
  deriving DecidableEq, Repr

abbrev AddrManM := Except AddrManError

def assertThat (b : Bool) : AddrManM Unit := if b then .ok () else .error .assertFailed

namespace CAddrMan

/-- There are new buckets. -/
scoped instance neZero_newBuckets : NeZero 1024 := ⟨by decide⟩

/-- `CAddrMan::Clear`, with the key that is drawn. -/
def clear (nKey : Uint256) : CAddrMan := ⟨0, ∅, ∅, [], 0, fun _ => none, 0, fun _ => none, 1, nKey⟩

section Calls

variable (P : AddrManParams) (s : CAddrMan)

/-- `info.GetBucketPosition(nKey, true, bucket)`, with the bucket. -/
def newSlot (info : CAddrInfo) (bucket : NewBucket) : NewBucket × BucketPos :=
  (bucket, P.getBucketPosition s.nKey true bucket info.service)

/-- `info.GetTriedBucket(nKey)`, with the position there. -/
def triedSlot (info : CAddrInfo) : TriedBucket × BucketPos :=
  (P.getTriedBucket s.nKey info.service,
    P.getBucketPosition s.nKey false (P.getTriedBucket s.nKey info.service) info.service)

/-- `CAddrMan::Find`, with the id. -/
def find (net : CNetAddr) : Option (ℕ × CAddrInfo) := do
  let nId ← s.mapAddr.lookup net
  let info ← s.mapInfo.lookup nId
  return (nId, info)

/-- `mapInfo[nId] = info`. -/
def setInfo (nId : ℕ) (info : CAddrInfo) : CAddrMan := { s with mapInfo := s.mapInfo.insert nId info }

/-- `mapInfo[nId]`. -/
def getInfo (nId : ℕ) : AddrManM CAddrInfo :=
  match s.mapInfo.lookup nId with
  | some info => .ok info
  | none => .error .missing

/-- An entry under the id `nIdCount`. -/
def created (addr : CAddress) (source : CNetAddr) : CAddrMan :=
  { s with
    nIdCount := s.nIdCount + 1
    mapInfo := s.mapInfo.insert s.nIdCount (.new addr source s.vRandom.length)
    mapAddr := s.mapAddr.insert addr.service.net s.nIdCount
    vRandom := s.vRandom ++ [s.nIdCount] }

/-- `CAddrMan::Create`; the id is `nIdCount` before the call. -/
def create (addr : CAddress) (source : CNetAddr) : AddrManM CAddrMan :=
  if s.nIdCount + 1 < 2 ^ 31 then .ok (s.created addr source) else .error .overflow

def swapRandom (nRndPos1 nRndPos2 : ℕ) : AddrManM CAddrMan :=
  if nRndPos1 = nRndPos2 then .ok s
  else
    match s.vRandom[nRndPos1]?, s.vRandom[nRndPos2]? with
    | some nId1, some nId2 =>
      match s.mapInfo.lookup nId1, s.mapInfo.lookup nId2 with
      | some info1, some info2 =>
        .ok { s with
          mapInfo := (s.mapInfo.insert nId1 { info1 with nRandomPos := nRndPos2 }).insert nId2
            { info2 with nRandomPos := nRndPos1 }
          vRandom := (s.vRandom.set nRndPos1 nId2).set nRndPos2 nId1 }
      | _, _ => .error .assertFailed
    | _, _ => .error .assertFailed

def delete (nId : ℕ) : AddrManM CAddrMan :=
  match s.mapInfo.lookup nId with
  | none => .error .assertFailed
  | some info => do
    assertThat !info.fInTried
    assertThat (info.nRefCount == 0)
    let s ← s.swapRandom info.nRandomPos (s.vRandom.length - 1)
    return { s with
      vRandom := s.vRandom.dropLast
      mapAddr := s.mapAddr.erase info.net
      mapInfo := s.mapInfo.erase nId
      nNew := s.nNew - 1 }

def clearNew (slot : NewBucket × BucketPos) : AddrManM CAddrMan :=
  match s.vvNew slot with
  | none => .ok s
  | some nIdDelete => do
    let infoDelete ← s.getInfo nIdDelete
    assertThat (infoDelete.nRefCount > 0)
    let infoDelete := { infoDelete with nRefCount := infoDelete.nRefCount - 1 }
    let s := { s.setInfo nIdDelete infoDelete with vvNew := Function.update s.vvNew slot none }
    if infoDelete.nRefCount = 0 then s.delete nIdDelete else return s

/-- The loop of `MakeTried` over the new buckets, once: the table and the reference count. -/
def unlink (nId : ℕ) (info : CAddrInfo) (t : (NewBucket × BucketPos → Option ℕ) × ℤ) (bucket : NewBucket) :
    (NewBucket × BucketPos → Option ℕ) × ℤ :=
  if t.1 (s.newSlot P info bucket) = some nId then (Function.update t.1 (s.newSlot P info bucket) none, t.2 - 1) else t

/-- The entry is removed from all new buckets. -/
def unlinkAll (nId : ℕ) (info : CAddrInfo) : CAddrMan :=
  let (vvNew, nRefCount) := (List.finRange 1024).foldl (s.unlink P nId info) (s.vvNew, info.nRefCount)
  { s.setInfo nId { info with nRefCount := nRefCount } with vvNew := vvNew, nNew := s.nNew - 1 }

/-- The part of `MakeTried` that makes space: the tried entry `nIdEvict` in `slot` is moved to new. -/
def evict (slot : TriedBucket × BucketPos) (nIdEvict : ℕ) : AddrManM CAddrMan :=
  match s.mapInfo.lookup nIdEvict with
  | none => .error .assertFailed
  | some infoOld => do
    let s := { s.setInfo nIdEvict { infoOld with fInTried := false } with
      vvTried := Function.update s.vvTried slot none
      nTried := s.nTried - 1 }
    let nUSlot := s.newSlot P infoOld (P.getNewBucket s.nKey infoOld.net infoOld.source)
    let s ← s.clearNew nUSlot
    assertThat (s.vvNew nUSlot == none)
    let infoOld ← s.getInfo nIdEvict
    return { s.setInfo nIdEvict { infoOld with nRefCount := 1 } with
      vvNew := Function.update s.vvNew nUSlot (some nIdEvict)
      nNew := s.nNew + 1 }

/-- `MakeTried` makes `slot` empty. -/
def makeSpace (slot : TriedBucket × BucketPos) : AddrManM CAddrMan :=
  match s.vvTried slot with
  | none => .ok s
  | some nIdEvict => s.evict P slot nIdEvict

def makeTried (nId : ℕ) (info : CAddrInfo) : AddrManM CAddrMan := do
  let s := s.unlinkAll P nId info
  let info ← s.getInfo nId
  assertThat (info.nRefCount == 0)
  let nKSlot := s.triedSlot P info
  let s ← s.makeSpace P nKSlot
  assertThat (s.vvTried nKSlot == none)
  let info ← s.getInfo nId
  return { s.setInfo nId { info with fInTried := true } with
    vvTried := Function.update s.vvTried nKSlot (some nId)
    nTried := s.nTried + 1 }

/-- The search of `Good_` for a bucket that the entry is in now, from bucket `nRnd` on. -/
def isInNew (nRnd : ℕ) (nId : ℕ) (info : CAddrInfo) : Bool :=
  (List.range 1024).any fun n => s.vvNew (s.newSlot P info (Fin.ofNat 1024 (n + nRnd))) == some nId

def good (addr : CService) (nTime : ℤ) (nRnd : ℕ) : AddrManM CAddrMan :=
  let s := { s with nLastGood := nTime }
  match s.find addr.net with
  | none => .ok s
  | some (nId, info) =>
    if info.service ≠ addr then .ok s
    else
      let info := { info with nLastSuccess := nTime, nLastTry := nTime, nAttempts := 0 }
      let s := s.setInfo nId info
      if info.fInTried then .ok s
      else if s.isInNew P nRnd nId info then s.makeTried P nId info
      else .ok s

/-- Whether `Add_` goes on with an entry that it has found and updated. -/
def addsReference (addr : CAddress) (info : CAddrInfo) (rnd : ℕ) : Bool :=
  if addr.nTime = 0 ∨ (info.addr.nTime ≠ 0 ∧ addr.nTime ≤ info.addr.nTime) then false
  else if info.fInTried then false
  else if info.nRefCount = ADDRMAN_NEW_BUCKETS_PER_ADDRESS then false
  else
    let nFactor := 2 ^ info.nRefCount.toNat
    if nFactor > 1 ∧ rnd % nFactor ≠ 0 then false else true

/-- The entry that `Add_` has found, with the time and the services updated. -/
def refresh (addr : CAddress) (info : CAddrInfo) (nTimePenalty nNow : ℤ) : CAddrInfo :=
  let fCurrentlyOnline := nNow - addr.nTime < 24 * 60 * 60
  let nUpdateInterval : ℤ := if fCurrentlyOnline then 60 * 60 else 24 * 60 * 60
  let info :=
    if addr.nTime ≠ 0 ∧ (info.addr.nTime = 0 ∨ (info.addr.nTime : ℤ) < addr.nTime - nUpdateInterval - nTimePenalty) then
      info.setTime ((max 0 (addr.nTime - nTimePenalty)) % 2 ^ 32).toNat
    else info
  info.setServices (info.addr.nServices ||| addr.nServices)

/-- `fInsert` of `Add_`: the slot is empty, or the entry in it is terrible, or it has other slots and ours has none. -/
def insertsAt (info : CAddrInfo) (slot : NewBucket × BucketPos) (nNow : ℤ) : AddrManM Bool :=
  match s.vvNew slot with
  | none => .ok true
  | some nIdExisting => do
    let infoExisting ← s.getInfo nIdExisting
    return infoExisting.isTerrible nNow || (infoExisting.nRefCount > 1 && info.nRefCount == 0)

/-- The end of `Add_`: the entry is put into the bucket for `source`, if there is room or the entry there has to go. -/
def placeNew (nId : ℕ) (source : CNetAddr) (nNow : ℤ) : AddrManM CAddrMan := do
  let info ← s.getInfo nId
  let nUSlot := s.newSlot P info (P.getNewBucket s.nKey info.net source)
  if s.vvNew nUSlot = some nId then return s
  else
    let fInsert ← s.insertsAt info nUSlot nNow
    if fInsert then
      let s ← s.clearNew nUSlot
      let info ← s.getInfo nId
      return { s.setInfo nId { info with nRefCount := info.nRefCount + 1 } with
        vvNew := Function.update s.vvNew nUSlot (some nId) }
    else if info.nRefCount = 0 then s.delete nId
    else return s

/-- `CAddrMan::Add_`, with what it returns; `rnd` is the number that is reduced by `RandomInt`, and `nNow` the adjusted
time. -/
def add (addr : CAddress) (source : CNetAddr) (nTimePenalty : ℤ) (rnd : ℕ) (nNow : ℤ) : AddrManM (CAddrMan × Bool) :=
  if !P.isRoutable addr.service.net then .ok (s, false)
  else
    let nTimePenalty := if addr.service.net = source then 0 else nTimePenalty
    match s.find addr.service.net with
    | some (nId, info) =>
      let info := refresh addr info nTimePenalty nNow
      let s := s.setInfo nId info
      if addsReference addr info rnd then do
        let s ← s.placeNew P nId source nNow
        return (s, false)
      else .ok (s, false)
    | none => do
      let nId := s.nIdCount
      let s ← s.create addr source
      let info ← s.getInfo nId
      let s := s.setInfo nId (info.setTime ((max 0 (info.addr.nTime - nTimePenalty)) % 2 ^ 32).toNat)
      let s := { s with nNew := s.nNew + 1 }
      let s ← s.placeNew P nId source nNow
      return (s, true)

/-- The calls that only change the data of one entry: `Attempt_`, `Connected_` and `SetServices_`. -/
def updateInfo (addr : CService) (f : CAddrInfo → CAddrInfo) : CAddrMan :=
  match s.find addr.net with
  | none => s
  | some (nId, info) => if info.service ≠ addr then s else s.setInfo nId (f info)

def attempt (addr : CService) (fCountFailure : Bool) (nTime : ℤ) : CAddrMan :=
  s.updateInfo addr fun info =>
    let info := { info with nLastTry := nTime }
    if fCountFailure ∧ info.nLastCountAttempt < s.nLastGood then
      { info with nLastCountAttempt := nTime, nAttempts := info.nAttempts + 1 }
    else info

def connected (addr : CService) (nTime : ℤ) : CAddrMan :=
  s.updateInfo addr fun info =>
    if nTime - info.addr.nTime > 20 * 60 then info.setTime (nTime % 2 ^ 32).toNat else info

def setServices (addr : CService) (nServices : ℕ) : CAddrMan := s.updateInfo addr (·.setServices nServices)

/-- The loop of `GetAddr_`, from position `n` on; `rnd` has the numbers that `RandomInt` reduces. -/
def getAddrLoop (nNodes : ℕ) (nNow : ℤ) (rnd : ℕ → ℕ) : ℕ → ℕ → CAddrMan → List CAddress → AddrManM (CAddrMan × List CAddress)
  | 0, _, s, vAddr => .ok (s, vAddr)
  | left + 1, n, s, vAddr =>
    if vAddr.length ≥ nNodes then .ok (s, vAddr)
    else do
      let nRndPos := rnd n % (s.vRandom.length - n) + n
      let s ← s.swapRandom n nRndPos
      match s.vRandom[n]?.bind s.mapInfo.lookup with
      | none => .error .assertFailed
      | some ai =>
        getAddrLoop nNodes nNow rnd left (n + 1) s (if ai.isTerrible nNow then vAddr else vAddr ++ [ai.addr])

def getAddr (nNow : ℤ) (rnd : ℕ → ℕ) : AddrManM (CAddrMan × List CAddress) :=
  let nNodes := min (ADDRMAN_GETADDR_MAX_PCT * s.vRandom.length / 100) ADDRMAN_GETADDR_MAX
  getAddrLoop nNodes nNow rnd s.vRandom.length 0 s []

end Calls

/-! ## `Check_` -/

section Check

variable (P : AddrManParams) (s : CAddrMan)

/-- The entries in the order of their ids, in which a loop over `mapInfo` meets them. -/
def infos : List AddrEntry := s.mapInfo.entries.mergeSort fun a b => a.1 ≤ b.1

/-- `if (!b) return code`. -/
def checkCode (b : Bool) (code : ℤ) : Except ℤ Unit := if b then .ok () else .error code

/-- The entry goes into `setTried` or, with its references, into `mapNew`. -/
def checkTable (sets : Multiset ℕ × Multiset ℕ) (n : ℕ) (info : CAddrInfo) : Except ℤ (Multiset ℕ × Multiset ℕ) :=
  if info.fInTried then do
    checkCode (info.nLastSuccess != 0) (-1)
    checkCode (info.nRefCount == 0) (-2)
    return (n ::ₘ sets.1, sets.2)
  else do
    checkCode (0 ≤ info.nRefCount && info.nRefCount ≤ ADDRMAN_NEW_BUCKETS_PER_ADDRESS) (-3)
    checkCode (info.nRefCount != 0) (-4)
    return (sets.1, sets.2 + Multiset.replicate info.nRefCount.toNat n)

/-- The loop of `Check_` over the entries, once: `setTried`, and `mapNew` as a multiset. -/
def checkEntry (sets : Multiset ℕ × Multiset ℕ) (entry : AddrEntry) :
    Except ℤ (Multiset ℕ × Multiset ℕ) := do
  let sets ← checkTable sets entry.1 entry.2
  checkCode ((s.mapAddr.lookup entry.2.net).getD 0 == entry.1) (-5)
  checkCode (s.vRandom[entry.2.nRandomPos]? == some entry.1) (-14)
  checkCode (0 ≤ entry.2.nLastTry) (-6)
  checkCode (0 ≤ entry.2.nLastSuccess) (-8)
  return sets

/-- The loop of `Check_` over a table, once: the slot holds an entry that is still in the set, and it is its own. -/
def checkSlot {B : Type} (t : B × BucketPos → Option ℕ) (code : ℤ) (check : B × BucketPos → ℕ → Except ℤ Unit)
    (set : Multiset ℕ) (slot : B × BucketPos) : Except ℤ (Multiset ℕ) :=
  match t slot with
  | none => .ok set
  | some n => do
    checkCode (decide (n ∈ set)) code
    check slot n
    return set.erase n

/-- A tried slot is the one of its entry. -/
def checkTriedSlot (slot : TriedBucket × BucketPos) (n : ℕ) : Except ℤ Unit := do
  checkCode ((s.mapInfo.lookup n).any fun info => (s.triedSlot P info).1 == slot.1) (-17)
  checkCode ((s.mapInfo.lookup n).any fun info => P.getBucketPosition s.nKey false slot.1 info.service == slot.2) (-18)

/-- A new slot is at the position of its entry. -/
def checkNewSlot (slot : NewBucket × BucketPos) (n : ℕ) : Except ℤ Unit :=
  checkCode ((s.mapInfo.lookup n).any fun info => s.newSlot P info slot.1 == slot) (-19)

/-- The slots of a table, bucket by bucket. -/
def slots (buckets : ℕ) : List (Fin buckets × BucketPos) := (List.finRange buckets).product (List.finRange 64)

/-- `CAddrMan::Check_`, where an error is the return code. -/
def check : Except ℤ Unit := do
  checkCode ((s.vRandom.length : ℤ) == s.nTried + s.nNew) (-7)
  let (setTried, mapNew) ← s.infos.foldlM s.checkEntry (0, 0)
  checkCode ((setTried.toFinset.card : ℤ) == s.nTried) (-9)
  checkCode ((mapNew.toFinset.card : ℤ) == s.nNew) (-10)
  let setTried ← (slots 256).foldlM (checkSlot s.vvTried (-11) (s.checkTriedSlot P)) setTried
  let mapNew ← (slots 1024).foldlM (checkSlot s.vvNew (-12) (s.checkNewSlot P)) mapNew
  checkCode (decide (setTried = 0)) (-13)
  checkCode (decide (mapNew = 0)) (-15)
  checkCode (s.nKey != 0) (-16)

end Check

end CAddrMan

/-! ## Runs -/

/-- A call, with the time and the random numbers of its run. -/
inductive AddrManOp
  | add (addr : CAddress) (source : CNetAddr) (nTimePenalty : ℤ) (rnd : ℕ) (nNow : ℤ)
  | good (addr : CService) (nTime : ℤ) (nRnd : ℕ)
  | attempt (addr : CService) (fCountFailure : Bool) (nTime : ℤ)
  | connected (addr : CService) (nTime : ℤ)
  | setServices (addr : CService) (nServices : ℕ)
  | getAddr (nNow : ℤ) (rnd : ℕ → ℕ)

/-- `Good_` and `Attempt_` are called with positive times. -/
def AddrManOp.Timely : AddrManOp → Prop
  | .good _ nTime _ => 0 < nTime
  | .attempt _ _ nTime => 0 < nTime
  | _ => True

def CAddrMan.step (P : AddrManParams) (s : CAddrMan) : AddrManOp → AddrManM CAddrMan
  | .add addr source nTimePenalty rnd nNow => Prod.fst <$> s.add P addr source nTimePenalty rnd nNow
  | .good addr nTime nRnd => s.good P addr nTime nRnd
  | .attempt addr fCountFailure nTime => .ok (s.attempt addr fCountFailure nTime)
  | .connected addr nTime => .ok (s.connected addr nTime)
  | .setServices addr nServices => .ok (s.setServices addr nServices)
  | .getAddr nNow rnd => Prod.fst <$> s.getAddr nNow rnd

/-- There is an id for the entry that a call creates. -/
def CAddrMan.HasId (P : AddrManParams) (s : CAddrMan) : AddrManOp → Prop
  | .add addr _ _ _ _ =>
    P.isRoutable addr.service.net = true → s.find addr.service.net = none → s.nIdCount + 1 < 2 ^ 31
  | _ => True

instance {P : AddrManParams} {s : CAddrMan} : ∀ op : AddrManOp, Decidable (s.HasId P op)
  | .add addr _ _ _ _ => inferInstanceAs (Decidable
      (P.isRoutable addr.service.net = true → s.find addr.service.net = none → s.nIdCount + 1 < 2 ^ 31))
  | .good .. | .attempt .. | .connected .. | .setServices .. | .getAddr .. => .isTrue trivial

end Soferox
