import Mathlib.Data.List.AList
import Soferox.Lib.OrdSet
import Soferox.Primitives.Transaction

/-!
# The memory pool

`txmempool.h` and `txmempool.cpp`. An iterator into `mapTx` is the transaction id of its entry. A failed assertion
ends the process and is an error here; an exceeded package limit is the other error, with which
`CalculateMemPoolAncestors` returns `false`. Counters and sums are kept exact.

Left out: the fee estimator, the notifications, the memory accounting (`cachedInnerUsage`; the memory in use is a
parameter of `trimToSize`) and the rolling minimum fee, none of which the functions below read; the list `vTxHashes` is
in `Soferox.Mempool.TxHashes`.
-/

namespace Soferox

open Lib

/-- Which package limit was exceeded; the `errString` of `CalculateMemPoolAncestors`. -/
inductive ChainLimit where
  /-- "too many unconfirmed parents [limit: %u]" -/
  | parents (limit : ℕ)
  /-- "exceeds descendant size limit for tx %s [limit: %u]" -/
  | descendantSize (hash : Uint256) (limit : ℕ)
  /-- "too many descendants for tx %s [limit: %u]" -/
  | descendantCount (hash : Uint256) (limit : ℕ)
  /-- "exceeds ancestor size limit [limit: %u]" -/
  | ancestorSize (limit : ℕ)
  /-- "too many unconfirmed ancestors [limit: %u]" -/
  | ancestorCount (limit : ℕ)
  deriving DecidableEq, Repr

/-- How a pool operation can stop early. -/
inductive PoolError where
  /-- A failed `assert`, or an iterator that points nowhere. -/
  | assertion
  /-- A walk over the links that did not end within one round per entry; `calculateDescendants_ok` and
  `calculateMemPoolAncestors_ok` show that it does. -/
  | endless
  /-- `CalculateMemPoolAncestors` returned `false`. -/
  | limit (which : ChainLimit)
  deriving DecidableEq, Repr

/-! ## Entries -/

def getVirtualTransactionSize (nWeight nSigOpCost nBytesPerSigOp : ℕ) : ℕ :=
  (max nWeight (nSigOpCost * nBytesPerSigOp) + WITNESS_SCALE_FACTOR - 1) / WITNESS_SCALE_FACTOR

/-- `CTxMemPoolEntry`, with the setting `nBytesPerSigOp` of the node, on which its size depends. -/
structure CTxMemPoolEntry where
  tx : CTransaction
  nFee : CAmount
  nTxWeight : ℕ
  nTxWeight_eq : nTxWeight = getTransactionWeight tx
  nTime : ℤ
  sigOpCost : ℕ
  nBytesPerSigOp : ℕ
  feeDelta : CAmount
  nCountWithDescendants : ℤ
  nSizeWithDescendants : ℤ
  nModFeesWithDescendants : CAmount
  nCountWithAncestors : ℤ
  nSizeWithAncestors : ℤ
  nModFeesWithAncestors : CAmount
  nSigOpCostWithAncestors : ℤ
  deriving DecidableEq

namespace CTxMemPoolEntry

def getTxSize (e : CTxMemPoolEntry) : ℤ := getVirtualTransactionSize e.nTxWeight e.sigOpCost e.nBytesPerSigOp
def getModifiedFee (e : CTxMemPoolEntry) : CAmount := e.nFee + e.feeDelta

/-- The constructor: an entry that knows of no relatives. -/
def new (tx : CTransaction) (nFee : CAmount) (nTime : ℤ) (sigOpCost nBytesPerSigOp : ℕ) : CTxMemPoolEntry where
  tx := tx
  nFee := nFee
  nTxWeight := getTransactionWeight tx
  nTxWeight_eq := rfl
  nTime := nTime
  sigOpCost := sigOpCost
  nBytesPerSigOp := nBytesPerSigOp
  feeDelta := 0
  nCountWithDescendants := 1
  nSizeWithDescendants := getVirtualTransactionSize (getTransactionWeight tx) sigOpCost nBytesPerSigOp
  nModFeesWithDescendants := nFee
  nCountWithAncestors := 1
  nSizeWithAncestors := getVirtualTransactionSize (getTransactionWeight tx) sigOpCost nBytesPerSigOp
  nModFeesWithAncestors := nFee
  nSigOpCostWithAncestors := sigOpCost

def updateFeeDelta (newFeeDelta : CAmount) (e : CTxMemPoolEntry) : CTxMemPoolEntry :=
  { e with
    nModFeesWithDescendants := e.nModFeesWithDescendants + (newFeeDelta - e.feeDelta)
    nModFeesWithAncestors := e.nModFeesWithAncestors + (newFeeDelta - e.feeDelta)
    feeDelta := newFeeDelta }

def updateDescendantState (modifySize : ℤ) (modifyFee : CAmount) (modifyCount : ℤ) (e : CTxMemPoolEntry) :
    Except PoolError CTxMemPoolEntry :=
  let e' := { e with
    nSizeWithDescendants := e.nSizeWithDescendants + modifySize
    nModFeesWithDescendants := e.nModFeesWithDescendants + modifyFee
    nCountWithDescendants := e.nCountWithDescendants + modifyCount }
  if 0 < e'.nSizeWithDescendants ∧ 0 < e'.nCountWithDescendants then .ok e' else .error .assertion

def updateAncestorState (modifySize : ℤ) (modifyFee : CAmount) (modifyCount modifySigOps : ℤ) (e : CTxMemPoolEntry) :
    Except PoolError CTxMemPoolEntry :=
  let e' := { e with
    nSizeWithAncestors := e.nSizeWithAncestors + modifySize
    nModFeesWithAncestors := e.nModFeesWithAncestors + modifyFee
    nCountWithAncestors := e.nCountWithAncestors + modifyCount
    nSigOpCostWithAncestors := e.nSigOpCostWithAncestors + modifySigOps }
  if 0 < e'.nSizeWithAncestors ∧ 0 < e'.nCountWithAncestors ∧ 0 ≤ e'.nSigOpCostWithAncestors then .ok e'
  else .error .assertion

end CTxMemPoolEntry

/-! ## The pool and its links -/

/-- `setEntries`, iterators ordered by transaction id. -/
abbrev SetEntries := OrdSet Uint256

structure TxLinks where
  parents : SetEntries
  children : SetEntries

def TxLinks.empty : TxLinks := ⟨∅, ∅⟩

structure CTxMemPool where
  mapTx : AList fun _ : Uint256 => CTxMemPoolEntry
  mapLinks : AList fun _ : Uint256 => TxLinks
  mapNextTx : AList fun _ : COutPoint => CTransaction
  mapDeltas : AList fun _ : Uint256 => CAmount
  totalTxSize : ℤ

namespace CTxMemPool

/-- For the tests of membership in lists of ids. -/
scoped instance lawfulBEq_hash : LawfulBEq Uint256 := inferInstance

/-- `_clear` on construction. -/
def empty : CTxMemPool := ⟨∅, ∅, ∅, ∅, 0⟩

/-- `*it`. -/
def deref (pool : CTxMemPool) (it : Uint256) : Except PoolError CTxMemPoolEntry :=
  match pool.mapTx.lookup it with
  | some e => .ok e
  | none => .error .assertion

/-- `mapTx.modify(it, f)`. -/
def modify (pool : CTxMemPool) (it : Uint256) (f : CTxMemPoolEntry → Except PoolError CTxMemPoolEntry) :
    Except PoolError CTxMemPool := do
  let e ← pool.deref it
  let e' ← f e
  pure { pool with mapTx := pool.mapTx.insert it e' }

/-- `mapLinks[it]`, which makes an entry when there is none. -/
def linksOf (pool : CTxMemPool) (it : Uint256) : TxLinks := (pool.mapLinks.lookup it).getD .empty

def getMemPoolParents (pool : CTxMemPool) (entry : Uint256) : Except PoolError SetEntries :=
  match pool.mapTx.lookup entry, pool.mapLinks.lookup entry with
  | some _, some links => .ok links.parents
  | _, _ => .error .assertion

def getMemPoolChildren (pool : CTxMemPool) (entry : Uint256) : Except PoolError SetEntries :=
  match pool.mapTx.lookup entry, pool.mapLinks.lookup entry with
  | some _, some links => .ok links.children
  | _, _ => .error .assertion

def updateChild (pool : CTxMemPool) (entry child : Uint256) (add : Bool) : CTxMemPool :=
  let links := pool.linksOf entry
  let children := if add then links.children.insert child else links.children.erase child
  { pool with mapLinks := pool.mapLinks.insert entry { links with children := children } }

def updateParent (pool : CTxMemPool) (entry parent : Uint256) (add : Bool) : CTxMemPool :=
  let links := pool.linksOf entry
  let parents := if add then links.parents.insert parent else links.parents.erase parent
  { pool with mapLinks := pool.mapLinks.insert entry { links with parents := parents } }

/-! ## Walks over the links -/

/-- Unsigned 64-bit arithmetic. -/
def uint64 (n : ℤ) : ℤ := n % 2 ^ 64

/-- The four limits of `CalculateMemPoolAncestors`. -/
structure PackageLimits where
  limitAncestorCount : ℕ
  limitAncestorSize : ℕ
  limitDescendantCount : ℕ
  limitDescendantSize : ℕ

/-- `nNoLimit` four times. -/
def PackageLimits.none : PackageLimits := ⟨2 ^ 64 - 1, 2 ^ 64 - 1, 2 ^ 64 - 1, 2 ^ 64 - 1⟩

/-- The search for the parents of a transaction among the pool's entries. -/
def searchParents (pool : CTxMemPool) (limits : PackageLimits) :
    List CTxIn → SetEntries → Except PoolError SetEntries
  | [], parentHashes => .ok parentHashes
  | txin :: vin, parentHashes =>
    if txin.prevout.hash ∈ pool.mapTx then
      let parentHashes := parentHashes.insert txin.prevout.hash
      if uint64 (parentHashes.size + 1) > limits.limitAncestorCount then
        .error (.limit (.parents limits.limitAncestorCount))
      else pool.searchParents limits vin parentHashes
    else pool.searchParents limits vin parentHashes

/-- The inner loop of `CalculateMemPoolAncestors`: new parents of an ancestor join the worklist. -/
def scheduleParents (limits : PackageLimits) (setAncestors : SetEntries) :
    List Uint256 → SetEntries → Except PoolError SetEntries
  | [], parentHashes => .ok parentHashes
  | phash :: rest, parentHashes =>
    let parentHashes := if phash ∈ setAncestors then parentHashes else parentHashes.insert phash
    if uint64 (parentHashes.size + setAncestors.size + 1) > limits.limitAncestorCount then
      .error (.limit (.ancestorCount limits.limitAncestorCount))
    else scheduleParents limits setAncestors rest parentHashes

/-- The limits that `CalculateMemPoolAncestors` checks at each ancestor. -/
def checkAncestor (limits : PackageLimits) (entry : CTxMemPoolEntry) (stageit : Uint256) (stage : CTxMemPoolEntry)
    (totalSizeWithAncestors : ℤ) : Except PoolError Unit :=
  if uint64 (stage.nSizeWithDescendants + entry.getTxSize) > limits.limitDescendantSize then
    .error (.limit (.descendantSize stageit limits.limitDescendantSize))
  else if uint64 (stage.nCountWithDescendants + 1) > limits.limitDescendantCount then
    .error (.limit (.descendantCount stageit limits.limitDescendantCount))
  else if totalSizeWithAncestors > limits.limitAncestorSize then
    .error (.limit (.ancestorSize limits.limitAncestorSize))
  else .ok ()

/-- The outer loop of `CalculateMemPoolAncestors`. -/
def walkAncestors (pool : CTxMemPool) (limits : PackageLimits) (entry : CTxMemPoolEntry) :
    ℕ → SetEntries → SetEntries → ℤ → Except PoolError SetEntries
  | fuel, parentHashes, setAncestors, totalSizeWithAncestors =>
    match parentHashes.toList, fuel with
    | [], _ => .ok setAncestors
    | _ :: _, 0 => .error .endless
    | stageit :: _, fuel + 1 => do
      let stage ← pool.deref stageit
      let setAncestors := setAncestors.insert stageit
      let parentHashes := parentHashes.erase stageit
      let totalSizeWithAncestors := uint64 (totalSizeWithAncestors + stage.getTxSize)
      checkAncestor limits entry stageit stage totalSizeWithAncestors
      let setMemPoolParents ← pool.getMemPoolParents stageit
      let parentHashes ← scheduleParents limits setAncestors setMemPoolParents.toList parentHashes
      pool.walkAncestors limits entry fuel parentHashes setAncestors totalSizeWithAncestors

/-- `CalculateMemPoolAncestors`, started with an empty set. -/
def calculateMemPoolAncestors (pool : CTxMemPool) (entry : CTxMemPoolEntry) (limits : PackageLimits)
    (fSearchForParents : Bool) : Except PoolError SetEntries := do
  let parentHashes ← (
    if fSearchForParents then pool.searchParents limits entry.tx.vin ∅
    else pool.getMemPoolParents entry.tx.hash)
  pool.walkAncestors limits entry pool.mapTx.entries.length parentHashes ∅ entry.getTxSize

/-- The loop of `CalculateDescendants`. -/
def walkDescendants (pool : CTxMemPool) : ℕ → SetEntries → SetEntries → Except PoolError SetEntries
  | fuel, stage, setDescendants =>
    match stage.toList, fuel with
    | [], _ => .ok setDescendants
    | _ :: _, 0 => .error .endless
    | it :: _, fuel + 1 => do
      let setDescendants := setDescendants.insert it
      let stage := stage.erase it
      let setChildren ← pool.getMemPoolChildren it
      let unseen := setChildren.toList.filter fun child => child ∉ setDescendants
      pool.walkDescendants fuel (stage.insertAll unseen) setDescendants

/-- `CalculateDescendants`: the descendants of an entry join `setDescendants`. -/
def calculateDescendants (pool : CTxMemPool) (entryit : Uint256) (setDescendants : SetEntries) :
    Except PoolError SetEntries :=
  let stage : SetEntries := if entryit ∈ setDescendants then ∅ else OrdSet.insert ∅ entryit
  pool.walkDescendants pool.mapTx.entries.length stage setDescendants

/-- A loop of `CalculateDescendants` over several entries. -/
def calculateAllDescendants (pool : CTxMemPool) (entries : List Uint256) : Except PoolError SetEntries :=
  entries.foldlM (fun setAllRemoves it => pool.calculateDescendants it setAllRemoves) ∅

/-! ## Keeping the statistics -/

def updateAncestorsOf (pool : CTxMemPool) (add : Bool) (it : Uint256) (setAncestors : SetEntries) :
    Except PoolError CTxMemPool := do
  let parentIters ← pool.getMemPoolParents it
  let pool := parentIters.toList.foldl (fun pool piter => pool.updateChild piter it add) pool
  let entry ← pool.deref it
  let updateCount : ℤ := if add then 1 else -1
  let updateSize := updateCount * entry.getTxSize
  let updateFee := updateCount * entry.getModifiedFee
  setAncestors.toList.foldlM
    (fun pool ancestorIt => pool.modify ancestorIt (·.updateDescendantState updateSize updateFee updateCount)) pool

def updateEntryForAncestors (pool : CTxMemPool) (it : Uint256) (setAncestors : SetEntries) :
    Except PoolError CTxMemPool := do
  let ancestors ← setAncestors.toList.mapM pool.deref
  let updateSize := (ancestors.map CTxMemPoolEntry.getTxSize).sum
  let updateFee := (ancestors.map CTxMemPoolEntry.getModifiedFee).sum
  let updateSigOpsCost := (ancestors.map fun e => (e.sigOpCost : ℤ)).sum
  pool.modify it (·.updateAncestorState updateSize updateFee setAncestors.size updateSigOpsCost)

def updateChildrenForRemoval (pool : CTxMemPool) (it : Uint256) : Except PoolError CTxMemPool := do
  let setMemPoolChildren ← pool.getMemPoolChildren it
  pure (setMemPoolChildren.toList.foldl (fun pool updateIt => pool.updateParent updateIt it false) pool)

/-- One round of the first loop of `UpdateForRemoveFromMempool`: the descendants of an entry lose it. -/
def updateDescendantsForRemoval (pool : CTxMemPool) (removeIt : Uint256) : Except PoolError CTxMemPool := do
  let setDescendants ← pool.calculateDescendants removeIt ∅
  let setDescendants := setDescendants.erase removeIt
  let entry ← pool.deref removeIt
  setDescendants.toList.foldlM (fun pool dit =>
    pool.modify dit (·.updateAncestorState (-entry.getTxSize) (-entry.getModifiedFee) (-1) (-entry.sigOpCost))) pool

/-- One round of the second loop of `UpdateForRemoveFromMempool`: the ancestors of an entry lose it. -/
def updateAncestorsForRemoval (pool : CTxMemPool) (removeIt : Uint256) : Except PoolError CTxMemPool := do
  let entry ← pool.deref removeIt
  let setAncestors ← pool.calculateMemPoolAncestors entry .none false
  pool.updateAncestorsOf false removeIt setAncestors

def updateForRemoveFromMempool (pool : CTxMemPool) (entriesToRemove : SetEntries) (updateDescendants : Bool) :
    Except PoolError CTxMemPool := do
  let pool ← (
    if updateDescendants then entriesToRemove.toList.foldlM updateDescendantsForRemoval pool
    else pure pool)
  let pool ← entriesToRemove.toList.foldlM updateAncestorsForRemoval pool
  entriesToRemove.toList.foldlM updateChildrenForRemoval pool

/-! ## Adding and removing transactions -/

/-- The first part of `addUnchecked`: the entry, its links and the fee delta left for it. `insert` leaves a map alone
that has the key already. -/
def insertEntry (pool : CTxMemPool) (hash : Uint256) (entry : CTxMemPoolEntry) : Except PoolError CTxMemPool :=
  let newit := entry.tx.hash
  let pool := if newit ∈ pool.mapTx then pool else { pool with mapTx := pool.mapTx.insert newit entry }
  let pool := if newit ∈ pool.mapLinks then pool else { pool with mapLinks := pool.mapLinks.insert newit .empty }
  match pool.mapDeltas.lookup hash with
  | some delta => if delta ≠ 0 then pool.modify newit (fun e => .ok (e.updateFeeDelta delta)) else .ok pool
  | none => .ok pool

/-- The second part of `addUnchecked`: the inputs of the new transaction and the entries they are outputs of. -/
def linkInputs (pool : CTxMemPool) (newit : Uint256) (tx : CTransaction) : CTxMemPool :=
  let mapNextTx := tx.prevouts.foldl (fun m o => if o ∈ m then m else m.insert o tx) pool.mapNextTx
  let setParentTransactions := (∅ : OrdSet Uint256).insertAll (tx.prevouts.map COutPoint.hash)
  setParentTransactions.toList.foldl
    (fun pool phash => if phash ∈ pool.mapTx then pool.updateParent newit phash true else pool)
    { pool with mapNextTx := mapNextTx }

def addUnchecked (pool : CTxMemPool) (hash : Uint256) (entry : CTxMemPoolEntry) (setAncestors : SetEntries) :
    Except PoolError CTxMemPool := do
  let newit := entry.tx.hash
  let pool ← pool.insertEntry hash entry
  let pool := pool.linkInputs newit (← pool.deref newit).tx
  let pool ← pool.updateAncestorsOf true newit setAncestors
  let pool ← pool.updateEntryForAncestors newit setAncestors
  pure { pool with totalTxSize := pool.totalTxSize + entry.getTxSize }

def removeUnchecked (pool : CTxMemPool) (it : Uint256) : Except PoolError CTxMemPool := do
  let entry ← pool.deref it
  pure { pool with
    mapNextTx := entry.tx.prevouts.foldl (fun m o => m.erase o) pool.mapNextTx
    totalTxSize := pool.totalTxSize - entry.getTxSize
    mapLinks := pool.mapLinks.erase it
    mapTx := pool.mapTx.erase it }

def removeStaged (pool : CTxMemPool) (stage : SetEntries) (updateDescendants : Bool) :
    Except PoolError CTxMemPool := do
  let pool ← pool.updateForRemoveFromMempool stage updateDescendants
  stage.toList.foldlM removeUnchecked pool

/-- The entries that spend the outputs `i`, `i + 1`, … of a transaction that is not in the pool. -/
def findSpenders (pool : CTxMemPool) (hash : Uint256) :
    ℕ → List CTxOut → SetEntries → Except PoolError SetEntries
  | _, [], txToRemove => .ok txToRemove
  | i, _ :: vout, txToRemove =>
    match pool.mapNextTx.lookup ⟨hash, i⟩ with
    | none => pool.findSpenders hash (i + 1) vout txToRemove
    | some tx =>
      if tx.hash ∈ pool.mapTx then pool.findSpenders hash (i + 1) vout (txToRemove.insert tx.hash)
      else .error .assertion

def removeRecursive (pool : CTxMemPool) (origTx : CTransaction) : Except PoolError CTxMemPool := do
  let txToRemove ← (
    if origTx.hash ∈ pool.mapTx then .ok (OrdSet.insert ∅ origTx.hash)
    else pool.findSpenders origTx.hash 0 origTx.vout ∅)
  let setAllRemoves ← pool.calculateAllDescendants txToRemove.toList
  pool.removeStaged setAllRemoves false

def clearPrioritisation (pool : CTxMemPool) (hash : Uint256) : CTxMemPool :=
  { pool with mapDeltas := pool.mapDeltas.erase hash }

/-- One round of `removeConflicts`. -/
def removeConflict (tx : CTransaction) (pool : CTxMemPool) (txin : CTxIn) : Except PoolError CTxMemPool :=
  match pool.mapNextTx.lookup txin.prevout with
  | none => .ok pool
  | some txConflict =>
    -- transactions are compared by their hash
    if txConflict.hash ≠ tx.hash then (pool.clearPrioritisation txConflict.hash).removeRecursive txConflict
    else .ok pool

def removeConflicts (pool : CTxMemPool) (tx : CTransaction) : Except PoolError CTxMemPool :=
  tx.vin.foldlM (removeConflict tx) pool

/-- One round of `removeForBlock`. -/
def removeBlockTx (pool : CTxMemPool) (tx : CTransaction) : Except PoolError CTxMemPool := do
  let pool ← (
    if tx.hash ∈ pool.mapTx then pool.removeStaged (OrdSet.insert ∅ tx.hash) true
    else pure pool)
  let pool ← pool.removeConflicts tx
  pure (pool.clearPrioritisation tx.hash)

def removeForBlock (pool : CTxMemPool) (vtx : List CTransaction) : Except PoolError CTxMemPool :=
  vtx.foldlM removeBlockTx pool

/-- `Expire`: the index by entry time is read up to the first entry that is young enough. -/
def expire (pool : CTxMemPool) (time : ℤ) : Except PoolError CTxMemPool := do
  let byTime := (pool.mapTx.entries.map Sigma.snd).insertionSort fun a b => a.nTime ≤ b.nTime
  let toremove := (byTime.takeWhile fun e => e.nTime < time).map fun e => e.tx.hash
  let stage ← pool.calculateAllDescendants ((∅ : SetEntries).insertAll toremove).toList
  pool.removeStaged stage false

/-- The first entry of the index by `descendantScore`. -/
def lowestScore (descendantScore : CTxMemPoolEntry → CTxMemPoolEntry → Bool) :
    List CTxMemPoolEntry → Option CTxMemPoolEntry
  | [] => none
  | e :: es =>
    match lowestScore descendantScore es with
    | none => some e
    | some b => if descendantScore b e then some b else some e

/-- The outputs of transactions outside the pool that evicted transactions had spent. -/
def noSpendsRemaining (pool : CTxMemPool) (txn : List CTransaction) : List COutPoint :=
  (txn.flatMap CTransaction.prevouts).filter fun o => o.hash ∉ pool.mapTx

/-- The loop of `TrimToSize`, which takes at most one round per entry. -/
def trimLoop (dynamicMemoryUsage : CTxMemPool → ℕ) (descendantScore : CTxMemPoolEntry → CTxMemPoolEntry → Bool)
    (sizelimit : ℕ) : ℕ → CTxMemPool → List COutPoint → Except PoolError (CTxMemPool × List COutPoint)
  | fuel, pool, vNoSpends =>
    match lowestScore descendantScore (pool.mapTx.entries.map Sigma.snd) with
    | none => .ok (pool, vNoSpends)
    | some it =>
      if dynamicMemoryUsage pool > sizelimit then
        match fuel with
        | 0 => .error .endless
        | fuel + 1 => do
          let stage ← pool.calculateDescendants it.tx.hash ∅
          let txn ← stage.toList.mapM pool.deref
          let pool ← pool.removeStaged stage false
          let vNoSpends := vNoSpends ++ pool.noSpendsRemaining (txn.map CTxMemPoolEntry.tx)
          trimLoop dynamicMemoryUsage descendantScore sizelimit fuel pool vNoSpends
      else .ok (pool, vNoSpends)

/-- `TrimToSize`, with `pvNoSpendsRemaining` as its second result, for a memory usage and an order by descendant score.
-/
def trimToSize (pool : CTxMemPool) (dynamicMemoryUsage : CTxMemPool → ℕ)
    (descendantScore : CTxMemPoolEntry → CTxMemPoolEntry → Bool) (sizelimit : ℕ) :
    Except PoolError (CTxMemPool × List COutPoint) :=
  trimLoop dynamicMemoryUsage descendantScore sizelimit pool.mapTx.entries.length pool []

def prioritiseTransaction (pool : CTxMemPool) (hash : Uint256) (nFeeDelta : CAmount) :
    Except PoolError CTxMemPool := do
  let delta := (pool.mapDeltas.lookup hash).getD 0 + nFeeDelta
  let pool := { pool with mapDeltas := pool.mapDeltas.insert hash delta }
  if hash ∈ pool.mapTx then do
    let pool ← pool.modify hash (fun e => .ok (e.updateFeeDelta delta))
    let setAncestors ← pool.calculateMemPoolAncestors (← pool.deref hash) .none false
    let pool ← setAncestors.toList.foldlM
      (fun pool ancestorIt => pool.modify ancestorIt (·.updateDescendantState 0 nFeeDelta 0)) pool
    let setDescendants ← pool.calculateDescendants hash ∅
    (setDescendants.erase hash).toList.foldlM
      (fun pool descendantIt => pool.modify descendantIt (·.updateAncestorState 0 nFeeDelta 0 0)) pool
  else pure pool

/-! ## Transactions that come back from a block -/

/-- `addUnchecked` without the ancestors, which are looked up without limits. -/
def addUncheckedNoLimit (pool : CTxMemPool) (entry : CTxMemPoolEntry) : Except PoolError CTxMemPool := do
  let setAncestors ← pool.calculateMemPoolAncestors entry .none true
  pool.addUnchecked entry.tx.hash entry setAncestors

/-- `cacheMap`: the descendants outside the block, by transaction. -/
abbrev CacheMap := AList fun _ : Uint256 => SetEntries

/-- The inner loop of `UpdateForDescendants`: a child with a cache is not walked to. -/
def scheduleChildren (cachedDescendants : CacheMap) :
    List Uint256 → SetEntries → SetEntries → SetEntries × SetEntries
  | [], setAllDescendants, stageEntries => (setAllDescendants, stageEntries)
  | childEntry :: setChildren, setAllDescendants, stageEntries =>
    match cachedDescendants.lookup childEntry with
    | some cached =>
      scheduleChildren cachedDescendants setChildren (setAllDescendants.insertAll cached.toList) stageEntries
    | none =>
      if childEntry ∈ setAllDescendants then
        scheduleChildren cachedDescendants setChildren setAllDescendants stageEntries
      else scheduleChildren cachedDescendants setChildren setAllDescendants (stageEntries.insert childEntry)

/-- The first loop of `UpdateForDescendants`. -/
def walkCached (pool : CTxMemPool) (cachedDescendants : CacheMap) :
    ℕ → SetEntries → SetEntries → Except PoolError SetEntries
  | fuel, stageEntries, setAllDescendants =>
    match stageEntries.toList, fuel with
    | [], _ => .ok setAllDescendants
    | _ :: _, 0 => .error .endless
    | cit :: _, fuel + 1 => do
      let setChildren ← pool.getMemPoolChildren cit
      let (setAllDescendants, stageEntries) := scheduleChildren cachedDescendants setChildren.toList
        (setAllDescendants.insert cit) (stageEntries.erase cit)
      pool.walkCached cachedDescendants fuel stageEntries setAllDescendants

/-- The second loop of `UpdateForDescendants`: each descendant outside the block gains the entry as an ancestor. The
result has their size, fee and number. -/
def updateDescendants (updateIt : Uint256) (entry : CTxMemPoolEntry) (setExclude : SetEntries) :
    List Uint256 → ℤ × CAmount × ℤ → CTxMemPool → CacheMap → Except PoolError ((ℤ × CAmount × ℤ) × CTxMemPool × CacheMap)
  | [], modify, pool, cachedDescendants => .ok (modify, pool, cachedDescendants)
  | cit :: rest, (modifySize, modifyFee, modifyCount), pool, cachedDescendants => do
    let e ← pool.deref cit
    if e.tx.hash ∈ setExclude then
      updateDescendants updateIt entry setExclude rest (modifySize, modifyFee, modifyCount) pool cachedDescendants
    else do
      let cached := (cachedDescendants.lookup updateIt).getD ∅
      let pool ← pool.modify cit
        (·.updateAncestorState entry.getTxSize entry.getModifiedFee 1 entry.sigOpCost)
      updateDescendants updateIt entry setExclude rest
        (modifySize + e.getTxSize, modifyFee + e.getModifiedFee, modifyCount + 1) pool
        (cachedDescendants.insert updateIt (cached.insert cit))

def updateForDescendants (pool : CTxMemPool) (updateIt : Uint256) (cachedDescendants : CacheMap)
    (setExclude : SetEntries) : Except PoolError (CTxMemPool × CacheMap) := do
  let stageEntries ← pool.getMemPoolChildren updateIt
  let setAllDescendants ← pool.walkCached cachedDescendants pool.mapTx.entries.length stageEntries ∅
  let entry ← pool.deref updateIt
  let ((modifySize, modifyFee, modifyCount), pool, cachedDescendants) ←
    updateDescendants updateIt entry setExclude setAllDescendants.toList (0, 0, 0) pool cachedDescendants
  let pool ← pool.modify updateIt (·.updateDescendantState modifySize modifyFee modifyCount)
  pure (pool, cachedDescendants)

/-- The transactions in `mapNextTx` from `lower_bound(COutPoint(hash, 0))` on, as long as they spend `hash`. -/
def spendersOf (pool : CTxMemPool) (hash : Uint256) : List CTransaction :=
  ((pool.mapNextTx.entries.filter fun next => next.1.hash = hash).insertionSort fun a b => a.1.n ≤ b.1.n).map Sigma.snd

/-- The inner loop of `UpdateTransactionsFromBlock`, which links the children outside the block. -/
def linkChildren (it : Uint256) (setAlreadyIncluded : SetEntries) :
    List CTransaction → SetEntries → CTxMemPool → Except PoolError CTxMemPool
  | [], _, pool => .ok pool
  | child :: rest, setChildren, pool =>
    if child.hash ∈ pool.mapTx then
      if child.hash ∉ setChildren ∧ child.hash ∉ setAlreadyIncluded then
        linkChildren it setAlreadyIncluded rest (setChildren.insert child.hash)
          ((pool.updateChild it child.hash true).updateParent child.hash it true)
      else linkChildren it setAlreadyIncluded rest (setChildren.insert child.hash) pool
    else .error .assertion

/-- One round of `UpdateTransactionsFromBlock`. -/
def updateTransactionFromBlock (setAlreadyIncluded : SetEntries) (state : CTxMemPool × CacheMap) (hash : Uint256) :
    Except PoolError (CTxMemPool × CacheMap) :=
  let (pool, mapMemPoolDescendantsToUpdate) := state
  if hash ∈ pool.mapTx then do
    let pool ← linkChildren hash setAlreadyIncluded (pool.spendersOf hash) ∅ pool
    pool.updateForDescendants hash mapMemPoolDescendantsToUpdate setAlreadyIncluded
  else .ok state

def updateTransactionsFromBlock (pool : CTxMemPool) (vHashesToUpdate : List Uint256) : Except PoolError CTxMemPool := do
  let setAlreadyIncluded := (∅ : SetEntries).insertAll vHashesToUpdate
  let state ← vHashesToUpdate.reverse.foldlM (updateTransactionFromBlock setAlreadyIncluded) (pool, ∅)
  pure state.1

end CTxMemPool

end Soferox
