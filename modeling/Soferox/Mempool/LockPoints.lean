import Soferox.Validation.Contextual
import Soferox.Validation.Recovery

/-!
# Lock points of the pool

`CheckSequenceLocks` and `TestLockPointValidity` of `validation.cpp`, with the lock points that the pool keeps for each of its
transactions (`txmempool.h`), while blocks are connected and disconnected.

A `ChainHistory` has all blocks that can be connected, on any branch. Of the pool, its transactions and their lock points are
in the model; whatever else makes a transaction leave the pool is a predicate that comes with an event.

* `ChainHistory` — blocks with their times and transactions, and what the rules for blocks say about them;
* `ChainHistory.checkSequenceLocks`, `ChainHistory.checkExisting`, `ChainHistory.testLockPointValidity`;
* `PoolEvent`, `ChainHistory.step`, `ChainHistory.run` — what happens to the tip and to the pool.
-/

namespace Soferox

/-- The height of the coins that `CCoinsViewMemPool` makes from the pool. -/
def MEMPOOL_HEIGHT : ℕ := 0x7FFFFFFF

/-! ## Blocks -/

namespace BlockStore

variable {ι : Type} (S : BlockStore ι)

/-- What `ConnectBlock` takes from the index when it decides whether to check BIP30. -/
structure ContextOf (BIP34Height : ℕ) (pindex : ι) (ctx : BlockContext) : Prop where
  phashBlock : ctx.phashBlock = some (S.hash pindex)
  nHeight : ctx.nHeight = S.tree.nHeight pindex
  hashBIP34height : ctx.hashBIP34height = ((S.tree.pprev pindex).bind (S.tree.getAncestor · BIP34Height)).map S.hash

end BlockStore

/-- Blocks that can be connected, each one to its parent. -/
structure ChainHistory (ι : Type) where
  store : BlockStore ι
  nTime : ι → ℕ
  params : ConsensusParams
  BIP34Height : ℕ
  env : BlockEnv
  hashers : Hashers
  /-- the states of `DEPLOYMENT_CSV` and `DEPLOYMENT_SEGWIT` -/
  deployments : ι → ThresholdState × ThresholdState
  /-- `time-too-old` -/
  not_too_old : ∀ pindex pindexPrev, store.tree.pprev pindex = some pindexPrev →
    store.tree.getMedianTimePast nTime pindexPrev < nTime pindex
  checkBlock : ∀ pindex, store.tree.nHeight pindex ≠ 0 → checkBlock env (store.readBlock pindex) true true = .ok ()
  contextualCheckBlock : ∀ pindex pindexPrev, store.tree.pprev pindex = some pindexPrev →
    contextualCheckBlock hashers ⟨some (store.tree.nHeight pindexPrev, store.tree.getMedianTimePast nTime pindexPrev),
      (deployments pindex).1, (deployments pindex).2, nTime pindex, BIP34Height⟩ (store.readBlock pindex) = .ok ()
  /-- `bad-txns-inputs-missingorspent` -/
  available : ∀ pindex, store.tree.nHeight pindex ≠ 0 → ∀ before tx after,
    (store.readBlock pindex).vtx = before ++ tx :: after → ∀ o ∈ UtxoMap.inputs tx,
    (UtxoMap.applyTxs (store.tree.nHeight pindex) (store.utxoOf (store.tree.path pindex).tail) before o).isSome
  /-- `bad-txns-BIP30` -/
  bip30 : ∀ pindex ctx, store.tree.nHeight pindex ≠ 0 → store.ContextOf BIP34Height pindex ctx →
    enforceBIP30 params ctx = true → store.Fresh pindex

/-! ## Lock points -/

structure LockPoints (ι : Type) where
  height : ℤ
  time : ℤ
  maxInputBlock : Option ι
  deriving DecidableEq, Repr

/-- A transaction of the pool with its lock points. -/
structure LockedTx (ι : Type) where
  tx : CTransaction
  lockPoints : LockPoints ι
  deriving DecidableEq, Repr

/-- `chainActive.Tip()` and the pool. -/
structure TipState (ι : Type) where
  tip : ι
  mapTx : List (LockedTx ι)
  deriving DecidableEq, Repr

/-- `CalculateSequenceLocks`: the locks, and `prevHeights` as it leaves them. -/
def calculateSequenceLocks (ctx : LockContext) (tx : CTransaction) (prevHeights : List ℕ) : (ℤ × ℤ) × List ℕ :=
  if tx.nVersion % 2 ^ 32 ≥ 2 && ctx.csvActive then
    (sequenceLockLoop ctx (-1, -1) (tx.vin.zip prevHeights),
      (tx.vin.zip prevHeights).map fun p => if p.1.nSequence &&& SEQUENCE_LOCKTIME_DISABLE_FLAG ≠ 0 then 0 else p.2)
  else ((-1, -1), prevHeights)

def evaluateSequenceLocks (ctx : LockContext) (lockPair : ℤ × ℤ) : Bool :=
  !(lockPair.1 ≥ ctx.nHeight || lockPair.2 ≥ ctx.prevMedianTimePast)

namespace ChainHistory

variable {ι : Type} (H : ChainHistory ι)

def timed : TimedTree ι := ⟨H.store.tree, H.nTime, H.not_too_old⟩

/-- The block `index` of `CheckSequenceLocks`, which would come next. -/
def nextContext (tip : ι) (fVerifySequence : Bool) : LockContext where
  csvActive := fVerifySequence
  nHeight := H.store.tree.nHeight tip + 1
  prevMedianTimePast := H.timed.getMedianTimePast tip
  ancestorMedianTimePast h := (((H.store.tree.getAncestor tip h).map H.timed.getMedianTimePast).getD 0 : ℕ)

/-- `CCoinsViewMemPool::GetCoin`, on top of `pcoinsTip`. -/
def getCoin (s : TipState ι) (o : COutPoint) : Option Coin :=
  match s.mapTx.find? fun e => e.tx.hash = o.hash with
  | some e => e.tx.vout[o.n]?.map fun out => ⟨out, false, MEMPOOL_HEIGHT⟩
  | none => H.store.utxo (some s.tip) o

/-- The height that `CheckSequenceLocks` takes for a coin. -/
def prevHeight (s : TipState ι) (o : COutPoint) : Option ℕ :=
  (H.getCoin s o).map fun coin =>
    if coin.nHeight = MEMPOOL_HEIGHT then H.store.tree.nHeight s.tip + 1 else coin.nHeight

def maxInputHeight (s : TipState ι) (prevHeights : List ℕ) : ℕ :=
  (prevHeights.filter fun height => height ≠ H.store.tree.nHeight s.tip + 1).foldl max 0

/-- `CheckSequenceLocks` when it computes the lock points: these and its result; nothing when an input is missing. -/
def checkSequenceLocks (s : TipState ι) (fVerifySequence : Bool) (tx : CTransaction) : Option (LockPoints ι × Bool) :=
  (tx.vin.mapM fun txin => H.prevHeight s txin.prevout).map fun prevHeights =>
    let locks := calculateSequenceLocks (H.nextContext s.tip fVerifySequence) tx prevHeights
    (⟨locks.1.1, locks.1.2, H.store.tree.getAncestor s.tip (H.maxInputHeight s locks.2)⟩,
      evaluateSequenceLocks (H.nextContext s.tip fVerifySequence) locks.1)

/-- `CheckSequenceLocks` with existing lock points. -/
def checkExisting (s : TipState ι) (fVerifySequence : Bool) (lp : LockPoints ι) : Bool :=
  evaluateSequenceLocks (H.nextContext s.tip fVerifySequence) (lp.height, lp.time)

def testLockPointValidity [DecidableEq ι] (s : TipState ι) (lp : LockPoints ι) : Bool :=
  match lp.maxInputBlock with
  | some pindex => H.store.tree.getAncestor s.tip (H.store.tree.nHeight pindex) = some pindex
  | none => true

end ChainHistory

/-! ## Events -/

/-- What happens to tip and pool. A transaction that `keep` does not keep is replaced, evicted or expired, or depends
on one that leaves. -/
inductive PoolEvent (ι : Type)
  /-- `AcceptToMemoryPool` -/
  | accept (tx : CTransaction) (keep : LockedTx ι → Bool)
  | remove (keep : LockedTx ι → Bool)
  /-- `ConnectTip` -/
  | connect (pindex : ι) (keep : LockedTx ι → Bool)
  /-- `DisconnectTip` -/
  | disconnect
  /-- `removeForReorg` -/
  | removeForReorg (keep : LockedTx ι → Bool)

namespace ChainHistory

variable {ι : Type} (H : ChainHistory ι) (fVerifySequence : Bool)

/-- The transaction is not in the block, and has no input that the block spends. -/
def survives (vtx : List CTransaction) (e : LockedTx ι) : Bool :=
  vtx.all fun tx => tx.hash != e.tx.hash && tx.prevouts.all fun o => !e.tx.prevouts.contains o

variable [DecidableEq ι]

/-- One round of `removeForReorg`: the entry with its lock points, unless it is removed. -/
def reorgEntry (s : TipState ι) (e : LockedTx ι) : Option (LockedTx ι) :=
  if H.testLockPointValidity s e.lockPoints then
    if H.checkExisting s fVerifySequence e.lockPoints then some e else none
  else
    match H.checkSequenceLocks s fVerifySequence e.tx with
    | some (lp, true) => some { e with lockPoints := lp }
    | _ => none

/-- The effect of an event; nothing comes back for one that is refused. -/
def step (s : TipState ι) : PoolEvent ι → Option (TipState ι)
  | .accept tx keep =>
    if tx.isCoinBase || tx.vin.isEmpty || s.mapTx.any fun e => e.tx.hash = tx.hash then none
    else
      match H.checkSequenceLocks s fVerifySequence tx with
      | some (lp, true) => some { s with mapTx := ⟨tx, lp⟩ :: s.mapTx.filter keep }
      | _ => none
  | .remove keep => some { s with mapTx := s.mapTx.filter keep }
  | .connect pindex keep =>
    if H.store.tree.pprev pindex = some s.tip then
      some ⟨pindex, s.mapTx.filter fun e => survives (H.store.readBlock pindex).vtx e && keep e⟩
    else none
  | .disconnect => (H.store.tree.pprev s.tip).map fun pprev => { s with tip := pprev }
  | .removeForReorg keep => some { s with mapTx := (s.mapTx.filterMap (H.reorgEntry fVerifySequence s)).filter keep }

/-- Events one after the other. -/
def run (s : TipState ι) (events : List (PoolEvent ι)) : Option (TipState ι) :=
  events.foldlM (H.step fVerifySequence) s

end ChainHistory

end Soferox
