import Soferox.Chain.BlockTree
import Soferox.Validation.Disconnect

/-!
# Replaying blocks after a crash

`ReplayBlocks` of `validation.cpp`, on a database that a flush (`CCoinsViewDB::BatchWrite`) left half written.

* `BlockStore` — the block index, the blocks and the undo data;
* `replayBlocks` — the model; `replayCache` is the cache that it flushes at the end;
* `FlushState`, `CrashState` — what a flush that stops after some batch can leave, and what replays make of it that stop so;
* `BlockStore.rollback`, `BlockStore.rollforward` — what the two loops do to the coins, as overwrites;
* `HoldsTip`, `InTransition`, `FlushState.cases` — the databases at a tip and between two of them;
* `rollbackBlocks_coherent`, `rollforwardBlocks_coherent` — the two loops, on any coins.
-/

namespace Soferox

open Lib CCoinsViewCache CCoinsViewDB UtxoMap List Option

/-! ## The model -/

/-- The block index and the block files, from which blocks and undo data can be read. -/
structure BlockStore (ι : Type) where
  tree : BlockTree ι
  /-- `pindex->GetBlockHash()` -/
  hash : ι → Uint256
  mapBlockIndex : Uint256 → Option ι
  /-- `ReadBlockFromDisk` -/
  readBlock : ι → CBlock
  /-- `UndoReadFromDisk` -/
  readUndo : ι → List (List Coin)
  hash_ne_zero : ∀ pindex, hash pindex ≠ 0
  mapBlockIndex_hash : ∀ pindex, mapBlockIndex (hash pindex) = some pindex

/-- How `ReplayBlocks` can fail. -/
inductive ReplayError where
  /-- `unknown inconsistent state` -/
  | unknownInconsistentState
  /-- `reorganization to unknown block requested` -/
  | toUnknownBlock
  /-- `reorganization from unknown block requested` -/
  | fromUnknownBlock
  /-- `assert(pindexFork != nullptr)` -/
  | noFork
  /-- `DisconnectBlock failed at nHeight, hash` -/
  | disconnectFailed (nHeight : ℕ) (hash : Uint256)
  /-- `pindexNew->GetAncestor(nHeight)` is null -/
  | noAncestor
  | view (e : BlockError)
  | flush (e : CoinsError)

/-- A program over a view that can fail in this way. -/
abbrev ReplayM := StateT CCoinsViewCache (Except ReplayError)

def ReplayM.lift {α : Type} (m : ViewM α) : ReplayM α := fun v =>
  match m v with
  | .ok r => .ok r
  | .error e => .error (.view e)

section

variable {ι : Type} [DecidableEq ι] (S : BlockStore ι)

/-- The loop of `ReplayBlocks` along the old branch; the list has `pindexOld`, its `pprev`, and so on. -/
def rollbackBlocks (pindexFork : Option ι) : List ι → ReplayM Unit
  | [] => pure ()
  | pindexOld :: rest =>
    if some pindexOld = pindexFork then pure ()
    else do
      -- the genesis block is never disconnected
      (if S.tree.nHeight pindexOld > 0 then do
        let res ← ReplayM.lift (disconnectBlock (S.tree.nHeight pindexOld) (((S.tree.pprev pindexOld).map S.hash).getD 0)
          (S.readBlock pindexOld) (S.readUndo pindexOld))
        ensure (res != .FAILED) (.disconnectFailed (S.tree.nHeight pindexOld) (S.hash pindexOld))
      else pure ())
      rollbackBlocks pindexFork rest

/-- The loop of `ReplayBlocks` to the new tip, over the heights to go. -/
def rollforwardBlocks (pindexNew : ι) : List ℕ → ReplayM Unit
  | [] => pure ()
  | nHeight :: rest => do
    match S.tree.getAncestor pindexNew nHeight with
    | none => throw .noAncestor
    | some pindex => do
      ReplayM.lift (rollforwardTxs (S.tree.nHeight pindex) (S.readBlock pindex).vtx)
      rollforwardBlocks pindexNew rest

/-- `pindexOld` and `pindexFork` of `ReplayBlocks`; both are null when there was no old tip. -/
def replayFork (pindexNew : ι) (hashOld : Uint256) : Except ReplayError (Option ι × Option ι) :=
  if hashOld = 0 then .ok (none, none)
  else
    match S.mapBlockIndex hashOld with
    | none => .error .fromUnknownBlock
    | some pindexOld =>
      match S.tree.lastCommonAncestor pindexOld pindexNew with
      | none => .error .noFork
      | some pindexFork => .ok (some pindexOld, some pindexFork)

/-- The two loops of `ReplayBlocks`, and `SetBestBlock`. -/
def replaySteps (pindexNew : ι) (pindexOld pindexFork : Option ι) : ReplayM Unit := do
  rollbackBlocks S pindexFork (pindexOld.elim [] S.tree.path)
  let nForkHeight := pindexFork.elim 0 S.tree.nHeight
  rollforwardBlocks S pindexNew (List.range' (nForkHeight + 1) (S.tree.nHeight pindexNew - nForkHeight))
  ReplayM.lift (ViewM.setBestBlock (S.hash pindexNew))

/-- The cache that `ReplayBlocks` flushes; `none` when the database is consistent. -/
def replayCache (d : CCoinsViewDB) : Except ReplayError (Option CCoinsViewCache) :=
  match d.headBlocks with
  | [] => .ok none
  | [hashNew, hashOld] =>
    match S.mapBlockIndex hashNew with
    | none => .error .toUnknownBlock
    | some pindexNew =>
      match replayFork S pindexNew hashOld with
      | .error e => .error e
      | .ok (pindexOld, pindexFork) =>
        match replaySteps S pindexNew pindexOld pindexFork ⟨⟨0, ∅, 0⟩, .db d⟩ with
        | .error e => .error e
        | .ok (_, cache) => .ok (some cache)
  | _ => .error .unknownInconsistentState

/-- `CChainState::ReplayBlocks`: the view when it returns true. -/
def replayBlocks (d : CCoinsViewDB) : Except ReplayError CCoinsView :=
  match replayCache S d with
  | .error e => .error e
  | .ok none => .ok (.db d)
  | .ok (some cache) =>
    match cache.flush with
    | .error e => .error (.flush e)
    | .ok v => .ok v.base

/-- A flush of `mapCoins` stopped between its first batch and its last: the head blocks are marked, and any of the
entries are written. -/
def InterruptedFlush (mapCoins : CCoinsMap) (hashBlock : Uint256) (d d' : CCoinsViewDB) : Prop :=
  d.writable hashBlock = true ∧ ∃ l : List (Sigma fun _ : COutPoint => CCoinsCacheEntry),
    l.Subperm mapCoins.entries ∧ d' = l.foldl CCoinsViewDB.writeEntry (d.beginBatch hashBlock)

/-- A flush of `mapCoins` stopped after its first batch or later, perhaps after the last one. -/
def FlushState (mapCoins : CCoinsMap) (hashBlock : Uint256) (d d' : CCoinsViewDB) : Prop :=
  InterruptedFlush mapCoins hashBlock d d' ∨ CCoinsView.batchWrite mapCoins hashBlock (.db d) = .ok (.db d')

/-- The databases that a flush of `mapCoins`, and then replays, can leave when they stop. -/
inductive CrashState (mapCoins : CCoinsMap) (hashBlock : Uint256) (d₀ : CCoinsViewDB) : CCoinsViewDB → Prop
  | flush {d : CCoinsViewDB} : FlushState mapCoins hashBlock d₀ d → CrashState mapCoins hashBlock d₀ d
  | replay {d d' : CCoinsViewDB} {cache : CCoinsViewCache} : CrashState mapCoins hashBlock d₀ d →
      replayCache S d = .ok (some cache) → FlushState cache.layer.cacheCoins cache.layer.hashBlock d d' →
      CrashState mapCoins hashBlock d₀ d'

end

/-! ## Rolling a block forward -/

section

variable {v : CCoinsViewCache} {vtx : List CTransaction} (os : List COutPoint) (nHeight : ℕ)

lemma rollforwardInputs_coherent (hv : v.Coherent) :
    ∃ v', rollforwardInputs os v = .ok ((), v') ∧ v'.Coherent ∧ v'.unspent = spend v.unspent os := by
  induction os generalizing v with
  | nil => exact ⟨v, rfl, hv, (spend_nil _).symm⟩
  | cons o os ih =>
    obtain ⟨v', hrun, hv', hun⟩ := ih (spendCoin_coherent hv o)
    refine ⟨v', run_bind_eq_ok.2 ⟨(v.spendCoin o).1, (v.spendCoin o).2, rfl, hrun⟩, hv', ?_⟩
    rw [hun, spendCoin_unspent hv, spend_cons]

lemma addOutputs_check (txid : Uint256) (fCoinbase : Bool) (nHeight i : ℕ) {vout : List CTxOut}
    (hv : v.Coherent) (hvals : ∀ out ∈ vout, 0 ≤ out.nValue) :
    ∃ v', addOutputs txid fCoinbase nHeight true i vout v = .ok ((), v') ∧ v'.Coherent ∧
      v'.unspent = fun o => (outputCoinFrom txid fCoinbase nHeight i vout o).or (v.unspent o) := by
  induction vout generalizing i v with
  | nil => exact ⟨v, rfl, hv, funext fun o => by rw [outputCoinFrom_nil, none_or]⟩
  | cons out vout ih =>
    rw [forall_mem_cons] at hvals
    have hs : (⟨out, fCoinbase, nHeight⟩ : Coin).isSpent = false := by
      simp only [Coin.isSpent, CTxOut.isNull, beq_eq_false_iff_ne]
      linarith
    obtain ⟨w, hadd, hw, hwun⟩ := addCoin_haveCoin hv hs
    obtain ⟨v', hrun, hv', hun⟩ := ih (i + 1) hw hvals.2
    refine ⟨v', ?_, hv', ?_⟩
    · refine run_bind_eq_ok.2 ⟨(v.haveCoin ⟨txid, i⟩).1, (v.haveCoin ⟨txid, i⟩).2, rfl, ?_⟩
      exact run_bind_eq_ok.2 ⟨(), w, ViewM.addCoin_eq_ok.2 hadd, hrun⟩
    · rw [hun, hwun, outputCoinFrom_or_update]

lemma rollforwardTxs_coherent (hv : v.Coherent) (hvals : ∀ tx ∈ vtx, ∀ out ∈ tx.vout, 0 ≤ out.nValue) :
    ∃ v', rollforwardTxs nHeight vtx v = .ok ((), v') ∧ v'.Coherent ∧
      v'.unspent = UtxoMap.applyTxs nHeight v.unspent vtx := by
  induction vtx generalizing v with
  | nil => exact ⟨v, rfl, hv, rfl⟩
  | cons tx vtx ih =>
    rw [forall_mem_cons] at hvals
    have hin : (if tx.isCoinBase then pure () else rollforwardInputs tx.prevouts : ViewM Unit) =
        rollforwardInputs (inputs tx) := by
      unfold inputs
      split <;> rfl
    obtain ⟨w, hspend, hw, hwun⟩ := rollforwardInputs_coherent (inputs tx) hv
    obtain ⟨w', hadd, hw', hwun'⟩ := addOutputs_check tx.hash tx.isCoinBase nHeight 0 hw hvals.1
    obtain ⟨v', hrest, hv', hun⟩ := ih hw' hvals.2
    refine ⟨v', ?_, hv', ?_⟩
    · rw [rollforwardTxs, hin]
      exact run_bind_eq_ok.2 ⟨(), w, hspend, run_bind_eq_ok.2 ⟨(), w', hadd, hrest⟩⟩
    · rw [hun, hwun', hwun]
      rfl

lemma db_writeStable : WriteStable fun v v' => ∀ d, v.base = .db d → v'.base = .db d :=
  .ofBase (R := fun v v' => ∀ d, v = .db d → v' = .db d) (fun _ _ => id) (fun _ _ _ h h' d hd => h' d (h d hd))
    fun v o d hd => by
      rw [hd]
      rfl

namespace WriteStable

variable {R : CCoinsViewCache → CCoinsViewCache → Prop} (hR : WriteStable R)

include hR

lemma rollforwardInputs : Preserves R (rollforwardInputs os) := by
  induction os with
  | nil => exact hR.pure _
  | cons o os ih => exact hR.bind (hR.spendCoin o) fun _ => ih

lemma rollforwardTxs (vtx : List CTransaction) : Preserves R (rollforwardTxs nHeight vtx) := by
  induction vtx with
  | nil => exact hR.pure _
  | cons tx vtx ih =>
    exact hR.bind (.ite (hR.pure _) (hR.rollforwardInputs _)) fun _ => hR.bind (hR.addOutputs _ _ _ _ _ _) fun _ => ih

end WriteStable

/-! ## The coins at a block -/

lemma UtxoMap.applyTxs_eq_some {nHeight : ℕ} {m : UtxoMap} {o : COutPoint} {coin : Coin}
    (h : applyTxs nHeight m vtx o = some coin) : (∃ tx ∈ vtx, tx.outputCoin nHeight o = some coin) ∨ m o = some coin := by
  induction vtx generalizing m with
  | nil => exact .inr h
  | cons tx vtx ih =>
    rcases ih h with ⟨tx', htx', hout⟩ | hm
    · exact .inl ⟨tx', mem_cons_of_mem _ htx', hout⟩
    · rcases applyTx_eq_some hm with hout | hm
      · exact .inl ⟨tx, mem_cons_self, hout⟩
      · exact .inr hm

end

/-- A coin of the undo data as it is read back. A spent coin has the amount -1, which `CompressAmount` takes for
`2 ^ 64 - 1`, and no height; it comes back as an unspent one. -/
def Coin.reread (coin : Coin) : Coin := if coin.isSpent then ⟨⟨2049638230412172324, []⟩, false, 0⟩ else coin

namespace BlockStore

variable {ι : Type} (S : BlockStore ι)

/-- The coins after the blocks of a path to the genesis block, whose outputs are not added. -/
def utxoOf : List ι → UtxoMap
  | [] => fun _ => none
  | pindex :: rest =>
    if S.tree.nHeight pindex = 0 then utxoOf rest
    else UtxoMap.applyTxs (S.tree.nHeight pindex) (utxoOf rest) (S.readBlock pindex).vtx

/-- The UTXO set at a tip; a null tip has none. -/
def utxo (tip : Option ι) : UtxoMap := S.utxoOf (tip.elim [] S.tree.path)

/-- The block was connected to the coins of its parent, and its undo data written. -/
def Connected (pindex : ι) : Prop :=
  ∃ env params ctx v v' vtxundo, v.Coherent ∧ v.unspent = S.utxoOf (S.tree.path pindex).tail ∧
    ctx.nHeight = S.tree.nHeight pindex ∧
    connectBlock env params ctx (S.readBlock pindex) false v = .ok (some vtxundo, v') ∧
    S.readUndo pindex = vtxundo.map (·.map Coin.reread)

/-- No output of the block is an unspent coin of the chain before it. -/
def Fresh (pindex : ι) : Prop :=
  ∀ tx ∈ (S.readBlock pindex).vtx, ∀ j < tx.vout.length, S.utxoOf (S.tree.path pindex).tail ⟨tx.hash, j⟩ = none

/-- The transactions of a block with their undo records; the coinbase has an empty one. -/
def undoData (pindex : ι) : List (CTransaction × List Coin) :=
  (S.readBlock pindex).vtx.zip ([] :: S.readUndo pindex)

/-- What rolling back blocks does to the coins. -/
def rollback (l : List ι) (m : UtxoMap) : UtxoMap :=
  l.foldl (fun m pindex => UtxoMap.undoTxs (S.tree.nHeight pindex) m (S.undoData pindex)) m

/-- What rolling blocks forward does to the coins. -/
def rollforward (l : List ι) (m : UtxoMap) : UtxoMap :=
  l.foldl (fun m pindex => UtxoMap.applyTxs (S.tree.nHeight pindex) m (S.readBlock pindex).vtx) m

variable {S} {pindex : ι} {l rest : List ι}

/-- Every coin of a UTXO set has a height, and a script that `AddCoin` does not drop. -/
theorem utxoOf_restorable (l : List ι) (vtx : List CTransaction) : UtxoMap.SpendsRestorable (S.utxoOf l) vtx := by
  intro tx _ o _ coin hcoin
  induction l with
  | nil => cases hcoin
  | cons pindex l ih =>
    rw [utxoOf] at hcoin
    split at hcoin
    · exact ih hcoin
    · rename_i hh
      rcases applyTxs_eq_some hcoin with ⟨tx', -, hout⟩ | hm
      · obtain ⟨hheight, hu⟩ := outputCoinFrom_eq_some hout
        exact ⟨hheight ▸ hh, hu⟩
      · exact ih hm

/-- The block has undo data that fits, so that it can be rolled back. -/
structure Rollable (S : BlockStore ι) (pindex : ι) : Prop where
  height : S.tree.nHeight pindex ≠ 0
  coinbase : ∃ cb vtx, (S.readBlock pindex).vtx = cb :: vtx ∧ cb.isCoinBase = true ∧ (∀ tx ∈ vtx, tx.isCoinBase = false) ∧
    (S.readUndo pindex).length = vtx.length
  fits : ∀ p ∈ S.undoData pindex, FitsUndo p

/-- The undo data of the block gives back the coins before it. -/
def UndoneBy (S : BlockStore ι) (pindex : ι) : Prop :=
  UtxoMap.Undoable (S.tree.nHeight pindex) (S.utxoOf (S.tree.path pindex).tail) (S.undoData pindex)

lemma Connected.rollable (h : S.Connected pindex) (hh : S.tree.nHeight pindex ≠ 0) (hfresh : S.Fresh pindex)
    (hnd : ∀ tx ∈ (S.readBlock pindex).vtx, tx.prevouts.Nodup) : S.Rollable pindex ∧ S.UndoneBy pindex := by
  obtain ⟨env, params, ctx, v, v', vtxundo, hv, hun, hheight, hconn, hread⟩ := h
  obtain ⟨hcheck, -, w, -, ⟨-, habs, -⟩ | ⟨-, _, ⟨⟩, hconn⟩⟩ := connectBlock_ok hconn
  · cases habs
  obtain ⟨cb, vtx, hvtx, hcb, hncb, -⟩ := checkBlock_ok hcheck
  have hbest := getBestBlock_sameCoins v
  rw [Fresh, ← hun, ← hbest.unspent] at hfresh
  have hcoins : UtxoMap.SpendsRestorable v.getBestBlock.2.unspent (S.readBlock pindex).vtx := by
    rw [hbest.unspent, hun]
    exact utxoOf_restorable _ _
  obtain ⟨-, -, hlen, hundoable, hfits⟩ := connectTransactions_undoable (by rw [hheight]; exact hh) (hbest.coherent hv)
    hfresh hvtx hcb hncb hnd hcoins hconn
  -- no coin of the undo data is spent, so that they are read back as they were
  have hsame : S.readUndo pindex = vtxundo := by
    have hsnd : ((S.readBlock pindex).vtx.zip ([] :: vtxundo)).map Prod.snd = [] :: vtxundo :=
      map_snd_zip (by rw [hvtx, length_cons, length_cons, hlen])
    rw [hread]
    refine (map_congr_left fun vprevout hmem => ?_).trans (map_id _)
    refine (map_congr_left fun coin hcoin => ?_).trans (map_id _)
    obtain ⟨p, hp, rfl⟩ := List.mem_map.1 (hsnd ▸ mem_cons_of_mem _ hmem)
    exact if_neg (by rw [((hfits p hp).2 coin hcoin).1]; decide)
  rw [hbest.unspent, hun, hheight, ← hsame] at hundoable
  rw [← hsame] at hlen hfits
  exact ⟨⟨hh, ⟨cb, vtx, hvtx, hcb, hncb, hlen⟩, hfits⟩, hundoable⟩

lemma Connected.nonneg (h : S.Connected pindex) : ∀ tx ∈ (S.readBlock pindex).vtx, ∀ out ∈ tx.vout, 0 ≤ out.nValue := by
  obtain ⟨env, params, ctx, v, v', _, -, -, -, hconn, -⟩ := h
  obtain ⟨_, _, -, -, -, hall⟩ := checkBlock_ok (connectBlock_ok hconn).1
  exact fun tx htx => (checkTransaction_ok (hall tx htx)).1

lemma isOverwrite_rollback (l : List ι) : IsOverwrite (S.rollback l) :=
  IsOverwrite.foldl (fun pindex => isOverwrite_undoTxs (S.tree.nHeight pindex) (S.undoData pindex)) l

lemma isOverwrite_rollforward (l : List ι) : IsOverwrite (S.rollforward l) :=
  IsOverwrite.foldl (fun pindex => isOverwrite_applyTxs (S.tree.nHeight pindex) (S.readBlock pindex).vtx) l

lemma rollback_utxoOf {tip : ι} (h : l ++ rest <:+ S.tree.path tip)
    (hl : ∀ pindex ∈ l, S.Rollable pindex ∧ S.UndoneBy pindex) :
    S.rollback l (S.utxoOf (l ++ rest)) = S.utxoOf rest := by
  induction l with
  | nil => rfl
  | cons pindex l ih =>
    rw [forall_mem_cons] at hl
    have hpath : S.tree.path pindex = pindex :: (l ++ rest) := S.tree.forest.path_eq_of_suffix h
    obtain ⟨cb, vtx, hvtx, -, -, hlen⟩ := hl.1.1.coinbase
    have hundo := undoTxs_applyTxs hl.1.2
    have hfst : (S.undoData pindex).map Prod.fst = (S.readBlock pindex).vtx :=
      map_fst_zip_undo hvtx hlen
    rw [hfst, hpath, tail_cons] at hundo
    rw [cons_append, utxoOf, if_neg hl.1.1.height, rollback, foldl_cons, hundo]
    exact ih ((suffix_cons _ _).trans h) hl.2

lemma rollforward_utxoOf (hl : ∀ pindex ∈ l, S.tree.nHeight pindex ≠ 0) :
    S.rollforward l.reverse (S.utxoOf rest) = S.utxoOf (l ++ rest) := by
  induction l with
  | nil => rfl
  | cons pindex l ih =>
    rw [forall_mem_cons] at hl
    unfold rollforward at ih ⊢
    rw [reverse_cons, foldl_append, ih hl.2, cons_append, utxoOf, if_neg hl.1]
    rfl

end BlockStore

open BlockStore

/-! ## Interrupted flushes -/

section

variable {ι : Type} {S : BlockStore ι} {d d' : CCoinsViewDB} {layer : CacheLayer}

/-- The hash that stands for a tip in the database. -/
def BlockStore.tipHash (S : BlockStore ι) (tip : Option ι) : Uint256 := (tip.map S.hash).getD 0

/-- The database holds the UTXO set of a tip. -/
structure HoldsTip (S : BlockStore ι) (tip : Option ι) (d : CCoinsViewDB) : Prop where
  bestBlock : d.bestBlock = S.tipHash tip
  headBlocks : d.headBlocks = []
  coins : (CCoinsView.db d).unspent = S.utxo tip

lemma HoldsTip.oldTip {tip : Option ι} (h : HoldsTip S tip d) : d.oldTip = S.tipHash tip := by
  rw [CCoinsViewDB.oldTip, if_neg (by rw [h.headBlocks]; exact fun h => absurd h.2 (by decide)), h.bestBlock]

lemma writable_of_headBlocks {hashBlock : Uint256} (h : d.headBlocks = []) (hne : hashBlock ≠ 0) :
    d.writable hashBlock = true := by
  rw [writable, h]
  simpa using hne

/-- A database that is in transition: every outpoint shows the coin of the old or of the new tip. -/
structure InTransition (S : BlockStore ι) (old : Option ι) (new : ι) (d : CCoinsViewDB) : Prop where
  bestBlock : d.bestBlock = 0
  headBlocks : d.headBlocks = [S.hash new, S.tipHash old]
  coins : ∀ o, (CCoinsView.db d).unspent o = S.utxo old o ∨ (CCoinsView.db d).unspent o = S.utxo (some new) o

/-- A flush that is interrupted writes some coins of the cache. -/
theorem InterruptedFlush.coins {hashBlock : Uint256}
    (h : InterruptedFlush layer.cacheCoins hashBlock d d') (o : COutPoint) :
    (CCoinsView.db d').unspent o = (CCoinsView.db d).unspent o ∨
      (CCoinsView.db d').unspent o = (CCoinsView.cache layer (.db d)).unspent o := by
  obtain ⟨-, l, hl, rfl⟩ := h
  let look : CCoinsViewDB → COutPoint → Option Coin := fun d o => d.coins.lookup o
  have hother : ∀ d it o, o ≠ it.1 → look (writeEntry d it) o = look d o := fun d it =>
    (db_writeEntry_cells d it).2
  have hself : ∀ d it, look (writeEntry d it) it.1 =
      if it.2.dirty then it.2.coin.unlessSpent else look d it.1 := fun d it => (db_writeEntry_cells d it).1
  have hnodup : (l.map Sigma.fst).Nodup := by
    obtain ⟨l', hperm, hsub⟩ := hl
    exact (hperm.map Sigma.fst).nodup_iff.1 (List.Nodup.sublist (hsub.map Sigma.fst) layer.cacheCoins.nodupKeys)
  have hshow : ∀ d : CCoinsViewDB, (CCoinsView.db d).unspent o = (look d o).bind Coin.unlessSpent := fun _ => rfl
  by_cases ho : o ∈ l.map Sigma.fst
  · obtain ⟨⟨o, e⟩, hmem, rfl⟩ := List.mem_map.1 ho
    have hlook : layer.cacheCoins.lookup o = some e := AList.mem_lookup_iff.2 (hl.subset hmem)
    have hcell := foldl_look_of_mem hother hself hnodup hmem (d.beginBatch hashBlock)
    cases hd : e.dirty with
    | true =>
      right
      rw [hshow, hcell, unspent_of_lookup_some hlook, hd, if_pos rfl, Coin.unlessSpent_bind]
    | false =>
      left
      rw [hshow, hcell, hd]
      rfl
  · left
    rw [hshow, foldl_look_of_not_mem hother ho]
    rfl

lemma foldl_writeEntry_heads (l : List (Sigma fun _ : COutPoint => CCoinsCacheEntry)) (d : CCoinsViewDB) :
    (l.foldl writeEntry d).bestBlock = d.bestBlock ∧ (l.foldl writeEntry d).headBlocks = d.headBlocks := by
  induction l generalizing d with
  | nil => exact ⟨rfl, rfl⟩
  | cons it l ih =>
    obtain ⟨hbest, hheads⟩ := ih (d.writeEntry it)
    rw [foldl_cons, hbest, hheads]
    unfold writeEntry
    split_ifs <;> exact ⟨rfl, rfl⟩

/-- **What a flush of the coins of the new tip can leave**, from the old tip or from a transition. -/
theorem FlushState.cases {old : Option ι} {new : ι} (hflush : FlushState layer.cacheCoins (S.hash new) d d')
    (htip : d.oldTip = S.tipHash old)
    (hd : ∀ o, (CCoinsView.db d).unspent o = S.utxo old o ∨ (CCoinsView.db d).unspent o = S.utxo (some new) o)
    (hlayer : layer.Coherent (.db d)) (hcache : (CCoinsView.cache layer (.db d)).unspent = S.utxo (some new)) :
    InTransition S old new d' ∨ HoldsTip S (some new) d' := by
  rcases hflush with hflush | hwrite
  · have hcoins := hflush.coins
    obtain ⟨-, l, -, rfl⟩ := hflush
    obtain ⟨hbest, hheads⟩ := foldl_writeEntry_heads l (d.beginBatch (S.hash new))
    refine .inl ⟨hbest, by rw [hheads, beginBatch, htip], fun o => ?_⟩
    rcases hcoins o with h | h
    · rw [h]
      exact hd o
    · rw [h, hcache]
      exact .inr rfl
  · cases hw : d.writable (S.hash new) with
    | true =>
      obtain ⟨_, hwrite', hun, hbest, hheads⟩ := batchWrite_db hlayer hw
      rw [hwrite] at hwrite'
      cases hwrite'
      exact .inr ⟨hbest, hheads, hun.trans hcache⟩
    | false =>
      rw [CCoinsView.batchWrite, hw] at hwrite
      cases hwrite

end

/-! ## The two loops -/

section

variable {ι : Type} {S : BlockStore ι} {d : CCoinsViewDB} {v : CCoinsViewCache} {l : List ι}

lemma ReplayM.lift_eq_ok {α : Type} {m : ViewM α} {v' : CCoinsViewCache} {a : α} (h : m v = .ok (a, v')) :
    ReplayM.lift m v = .ok (a, v') := by
  rw [ReplayM.lift, h]

lemma rollforwardBlocks_coherent {pindexNew : ι} {heights : List ℕ} (hv : v.Coherent) (hd : v.base = .db d)
    (hheights : heights.map (S.tree.getAncestor pindexNew) = l.map some)
    (hl : ∀ pindex ∈ l, ∀ tx ∈ (S.readBlock pindex).vtx, ∀ out ∈ tx.vout, 0 ≤ out.nValue) :
    ∃ v', rollforwardBlocks S pindexNew heights v = .ok ((), v') ∧ v'.Coherent ∧ v'.base = .db d ∧
      v'.unspent = S.rollforward l v.unspent := by
  induction heights generalizing l v with
  | nil =>
    obtain rfl : l = [] := map_eq_nil_iff.1 hheights.symm
    exact ⟨v, rfl, hv, hd, rfl⟩
  | cons nHeight heights ih =>
    obtain ⟨pindex, l, rfl⟩ : ∃ pindex l', l = pindex :: l' := by
      cases l with
      | nil => cases hheights
      | cons pindex l => exact ⟨pindex, l, rfl⟩
    rw [map_cons, map_cons, List.cons.injEq] at hheights
    rw [forall_mem_cons] at hl
    obtain ⟨w, hrun, hw, hwun⟩ := rollforwardTxs_coherent (S.tree.nHeight pindex) hv hl.1
    obtain ⟨v', hrest, hv', hd', hun⟩ := ih hw (db_writeStable.rollforwardTxs _ _ v _ w hrun d hd) hheights.2 hl.2
    refine ⟨v', ?_, hv', hd', ?_⟩
    · rw [rollforwardBlocks]
      simp only [hheights.1]
      exact run_bind_eq_ok.2 ⟨(), w, ReplayM.lift_eq_ok hrun, hrest⟩
    · rw [hun, hwun]
      rfl

variable [DecidableEq ι] {new : ι} {old : Option ι}

lemma rollbackBlocks_coherent {fork : Option ι} {rest : List ι} (hv : v.Coherent) (hd : v.base = .db d)
    (hl : ∀ pindex ∈ l, S.Rollable pindex ∧ some pindex ≠ fork)
    (hrest : ∀ w, rollbackBlocks S fork rest w = .ok ((), w)) :
    ∃ v', rollbackBlocks S fork (l ++ rest) v = .ok ((), v') ∧ v'.Coherent ∧ v'.base = .db d ∧
      v'.unspent = S.rollback l v.unspent := by
  induction l generalizing v with
  | nil => exact ⟨v, hrest v, hv, hd, rfl⟩
  | cons pindex l ih =>
    rw [forall_mem_cons] at hl
    obtain ⟨⟨hroll, hne⟩, hl⟩ := hl
    obtain ⟨cb, vtx, hvtx, hcb, hncb, hlen⟩ := hroll.coinbase
    obtain ⟨clean, u, hrun, hdisc, hu, hun, -⟩ := disconnectBlock_coherent (S.tree.nHeight pindex)
      (((S.tree.pprev pindex).map S.hash).getD 0) hvtx hcb hncb hlen hroll.fits hv
    have hset := setBestBlock_sameCoins u (((S.tree.pprev pindex).map S.hash).getD 0)
    obtain ⟨v', hrest', hv', hd', hun'⟩ := ih (v := u.setBestBlock (((S.tree.pprev pindex).map S.hash).getD 0))
      (hset.coherent hu) (db_writeStable.disconnectTxs _ _ v _ u hrun d hd) hl
    refine ⟨v', ?_, hv', hd', ?_⟩
    · rw [cons_append, rollbackBlocks, if_neg hne]
      refine run_bind_eq_ok.2 ⟨(), _, ?_, hrest'⟩
      rw [if_pos (Nat.pos_of_ne_zero hroll.height)]
      refine run_bind_eq_ok.2 ⟨_, _, ReplayM.lift_eq_ok hdisc, run_ensure_eq_ok.2 ⟨?_, rfl⟩⟩
      cases clean <;> rfl
    · rw [hun', hset.unspent, hun]
      rfl

lemma rollbackBlocks_failed {fork : Option ι} {pindex : ι} {rest : List ι} {v' : CCoinsViewCache}
    (hne : some pindex ≠ fork) (hh : S.tree.nHeight pindex > 0)
    (h : disconnectBlock (S.tree.nHeight pindex) (((S.tree.pprev pindex).map S.hash).getD 0) (S.readBlock pindex)
      (S.readUndo pindex) v = .ok (.FAILED, v')) :
    rollbackBlocks S fork (pindex :: rest) v = .error (.disconnectFailed (S.tree.nHeight pindex) (S.hash pindex)) := by
  rw [rollbackBlocks, if_neg hne, if_pos hh]
  simp only [bind, StateT.bind, ReplayM.lift_eq_ok h]
  rfl

lemma replayFork_eq {old c : ι} (hlca : S.tree.lastCommonAncestor old new = some c) :
    replayFork S new (S.hash old) = .ok (some old, some c) := by
  rw [replayFork, if_neg (S.hash_ne_zero old), S.mapBlockIndex_hash]
  simp [hlca]

lemma replayBlocks_failed {old c : ι} {e : ReplayError} (hheads : d.headBlocks = [S.hash new, S.hash old])
    (hlca : S.tree.lastCommonAncestor old new = some c)
    (hback : rollbackBlocks S (some c) (S.tree.path old) ⟨⟨0, ∅, 0⟩, .db d⟩ = .error e) : replayBlocks S d = .error e := by
  have hsteps : replaySteps S new (some old) (some c) ⟨⟨0, ∅, 0⟩, .db d⟩ = .error e := by
    simp only [replaySteps, elim_some, bind, StateT.bind, hback]
    rfl
  rw [replayBlocks, replayCache, hheads]
  simp only [S.mapBlockIndex_hash, replayFork_eq hlca, hsteps]

end

end Soferox
