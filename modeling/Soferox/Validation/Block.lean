import Soferox.Validation.Tx

/-!
# Connecting and disconnecting blocks

`validation.cpp`: `CheckBlock`, `CChainState::ConnectBlock`, `ApplyTxInUndo`, `CChainState::DisconnectBlock`,
`CChainState::RollforwardBlock`, and the block subsidy of `soferox.cpp`.

Proof of work, the merkle root and script verification are parameters (`BlockEnv`); what `ConnectBlock` reads from the
block index is gathered in `BlockContext`. `CBlock::fChecked` only skips a check that was made before and is left out,
and the undo data and the index entries are assumed to be written.
-/

namespace Soferox

open Lib

/-! ## Blocks and their context -/

/-- `CBlock`; the hash of the header is a field, like the hash of a transaction. -/
structure CBlock where
  hash : Uint256
  hashMerkleRoot : Uint256
  vtx : List CTransaction
  deriving DecidableEq, Repr

/-- `GetSerializeSize(block, SER_NETWORK, PROTOCOL_VERSION | SERIALIZE_TRANSACTION_NO_WITNESS)`. -/
def CBlock.strippedSize (block : CBlock) : ℕ :=
  80 + compactSizeSize block.vtx.length + (block.vtx.map CTransaction.strippedSize).sum

/-- The parts of validation that are not modelled. -/
structure BlockEnv where
  /-- `CheckProofOfWork(block.GetHash(), block.nBits, ..)` -/
  checkProofOfWork : CBlock → Bool
  /-- `BlockMerkleRoot(block, &mutated)` -/
  blockMerkleRoot : CBlock → Uint256 × Bool
  /-- `scriptExecutionCache` has the transaction under these flags -/
  scriptExecutionCache : CTransaction → ScriptFlags → Bool
  /-- the script checks of all inputs, given the coins they spend -/
  scriptChecks : CTransaction → List Coin → ScriptFlags → Bool

/-- The fields of `Consensus::Params` that are read. -/
structure ConsensusParams where
  hashGenesisBlock : Uint256
  BIP34Hash : Uint256

/-- What `ConnectBlock` reads from the block index. -/
structure BlockContext where
  /-- `pindex->phashBlock` -/
  phashBlock : Option Uint256
  /-- the hash of `pindex->pprev` -/
  hashPrevBlock : Option Uint256
  /-- the hash of `pindex->pprev->GetAncestor(BIP34Height)` -/
  hashBIP34height : Option Uint256
  /-- `GetBlockScriptFlags(pindex, ..)` -/
  flags : ScriptFlags
  /-- scripts are not assumed valid -/
  fScriptChecks : Bool
  /-- `pindex->nHeight`, the state of the CSV deployment, and the times of the chain -/
  lock : LockContext

/-- `pindex->nHeight`. -/
abbrev BlockContext.nHeight (ctx : BlockContext) : ℕ := ctx.lock.nHeight

/-! ## Subsidy -/

def minimumSubsidy : CAmount := 5 * COIN
def nGenesisBlockRewardCoin : CAmount := 1 * COIN
def nPremine : CAmount := 40000000 * COIN
def nDualChainReserve : CAmount := 20000000 * COIN

/-- The loop that takes 6% off, `exponent` times. -/
def decaySubsidy : ℕ → CAmount → CAmount
  | 0, nSubsidy => nSubsidy
  | exponent + 1, nSubsidy => decaySubsidy exponent (nSubsidy * 47 / 50)

/-- The subsidy schedule up to height 120410. -/
def getBlockSubsidyDecay (nHeight : ℕ) : CAmount :=
  if nHeight = 0 then nGenesisBlockRewardCoin
  else if nHeight = 1 then nPremine
  else if nHeight > 101937 then minimumSubsidy
  else max minimumSubsidy (decaySubsidy (nHeight / 10080) (512 * COIN))

def getBlockSubsidy135300 (nHeight : ℕ) : CAmount := if nHeight = 135350 then nDualChainReserve else minimumSubsidy

def getBlockSubsidy (nHeight : ℕ) : CAmount :=
  if nHeight ≥ 150000 then minimumSubsidy
  else if nHeight ≥ 135300 then getBlockSubsidy135300 nHeight
  else if nHeight ≥ 120411 then minimumSubsidy
  else getBlockSubsidyDecay nHeight

lemma getBlockSubsidy_nonneg (nHeight : ℕ) : 0 ≤ getBlockSubsidy nHeight := by
  have hmin : 0 ≤ minimumSubsidy := by decide
  rw [getBlockSubsidy, getBlockSubsidy135300, getBlockSubsidyDecay]
  split_ifs
  all_goals first | exact hmin | decide | exact le_max_of_le_left hmin

/-! ## `CheckBlock` -/

/-- `if (!b) return state.DoS(level, .., reason)`. -/
def rejectUnless (b : Bool) (level : ℕ) (reason : String) : Except BlockError Unit :=
  if b then .ok () else .error (.reject level reason)

/-- `CheckBlock` on a block not checked before; transactions are checked without the test for duplicate inputs. -/
def checkBlock (env : BlockEnv) (block : CBlock) (fCheckPOW fCheckMerkleRoot : Bool) : Except BlockError Unit := do
  rejectUnless (!fCheckPOW || env.checkProofOfWork block) 50 "high-hash"
  rejectUnless (!fCheckMerkleRoot || block.hashMerkleRoot == (env.blockMerkleRoot block).1) 100 "bad-txnmrklroot"
  rejectUnless (!fCheckMerkleRoot || !(env.blockMerkleRoot block).2) 100 "bad-txns-duplicate"
  rejectUnless (!block.vtx.isEmpty && block.vtx.length * WITNESS_SCALE_FACTOR ≤ MAX_BLOCK_WEIGHT &&
    block.strippedSize * WITNESS_SCALE_FACTOR ≤ MAX_BLOCK_WEIGHT) 100 "bad-blk-length"
  rejectUnless (block.vtx.head?.any CTransaction.isCoinBase) 100 "bad-cb-missing"
  rejectUnless (block.vtx.tail.all fun tx => !tx.isCoinBase) 100 "bad-cb-multiple"
  block.vtx.forM fun tx => checkTransaction tx false
  rejectUnless ((block.vtx.map getLegacySigOpCount).sum * WITNESS_SCALE_FACTOR ≤ MAX_BLOCK_SIGOPS_COST) 100
    "bad-blk-sigops"

/-! ## `ConnectBlock` -/

/-- `fEnforceBIP30` in `ConnectBlock`. -/
def enforceBIP30 (params : ConsensusParams) (ctx : BlockContext) : Bool :=
  (ctx.phashBlock.isNone ||
    !((ctx.nHeight == 91842 &&
        ctx.phashBlock == some 0x00000000000a4d0a398161ffc163c503763b1f4360639393e0e4c8e300e0caec) ||
      (ctx.nHeight == 91880 &&
        ctx.phashBlock == some 0x00000000000743f190a18c5577a3c2d2a1f610ae9601ac046a38084ccb7cd721))) &&
  ctx.hashBIP34height.all (· != params.BIP34Hash)

/-- The inner loop of the BIP30 check, from output `i` on. -/
def checkBIP30Outputs (txid : Uint256) : ℕ → List CTxOut → ViewM Unit
  | _, [] => pure ()
  | i, _ :: vout => do
    let have_ ← ViewM.haveCoin ⟨txid, i⟩
    ensure (!have_) (.reject 100 "bad-txns-BIP30")
    checkBIP30Outputs txid (i + 1) vout

/-- The BIP30 check: no transaction overwrites one that is not completely spent. -/
def checkBIP30 : List CTransaction → ViewM Unit
  | [] => pure ()
  | tx :: vtx => do
    checkBIP30Outputs tx.hash 0 tx.vout
    checkBIP30 vtx

/-- The fees after the input checks of a transaction of the block. -/
def connectInputs (ctx : BlockContext) (tx : CTransaction) (nFees : CAmount) : ViewM CAmount :=
  if tx.isCoinBase then pure nFees
  else do
    let txfee ← checkTxInputs tx ctx.nHeight
    ensure (MoneyRange (nFees + txfee)) (.reject 100 "bad-txns-accumulated-fee-outofrange")
    let prevheights ← prevHeights tx.prevouts
    ensure (sequenceLocks ctx.lock tx prevheights) (.reject 100 "bad-txns-nonfinal")
    pure (nFees + txfee)

/-- The coins `CheckInputs` hands to the script checks. -/
def inputCoins : List COutPoint → ViewM (List Coin)
  | [] => pure []
  | prevout :: prevouts => do
    let coin ← ViewM.accessCoin prevout
    ensure (!coin.isSpent) .assertFailed
    let coins ← inputCoins prevouts
    pure (coin :: coins)

def checkInputs (env : BlockEnv) (ctx : BlockContext) (tx : CTransaction) : ViewM Unit :=
  if tx.isCoinBase ∨ !ctx.fScriptChecks ∨ env.scriptExecutionCache tx ctx.flags then pure ()
  else do
    let coins ← inputCoins tx.prevouts
    ensure (env.scriptChecks tx coins ctx.flags) (.reject 100 "block-validation-failed")

/-- One round of the loop of `ConnectBlock`: the fees and signature operations so far, and the undo record. -/
def connectTx (env : BlockEnv) (ctx : BlockContext) (tx : CTransaction) (nFees : CAmount) (nSigOpsCost : ℕ) :
    ViewM (CAmount × ℕ × List Coin) := do
  let nFees ← connectInputs ctx tx nFees
  let cost ← getTransactionSigOpCost tx ctx.flags
  ensure (nSigOpsCost + cost ≤ MAX_BLOCK_SIGOPS_COST) (.reject 100 "bad-blk-sigops")
  checkInputs env ctx tx
  let vprevout ← updateCoins tx ctx.nHeight
  pure (nFees, nSigOpsCost + cost, vprevout)

/-- The loop of `ConnectBlock`: the fees and the undo records of all transactions. -/
def connectTxs (env : BlockEnv) (ctx : BlockContext) : CAmount → ℕ → List CTransaction →
    ViewM (CAmount × List (List Coin))
  | nFees, _, [] => pure (nFees, [])
  | nFees, nSigOpsCost, tx :: vtx => do
    let (nFees, nSigOpsCost, vprevout) ← connectTx env ctx tx nFees nSigOpsCost
    let (nFees, vtxundo) ← connectTxs env ctx nFees nSigOpsCost vtx
    pure (nFees, vprevout :: vtxundo)

/-- `ConnectBlock` past the genesis block: the undo data, for all but the coinbase. -/
def connectTransactions (env : BlockEnv) (params : ConsensusParams) (ctx : BlockContext) (block : CBlock) :
    ViewM (List (List Coin)) := do
  (if enforceBIP30 params ctx then checkBIP30 block.vtx else pure ())
  let (nFees, vtxundo) ← connectTxs env ctx 0 0 block.vtx
  let blockReward := nFees + getBlockSubsidy ctx.nHeight
  let coinbaseValue ← liftM ((block.vtx.head?.map CTransaction.getValueOut).getD (.error .assertFailed))
  ensure (coinbaseValue ≤ blockReward) (.reject 100 "bad-cb-amount")
  pure vtxundo.tail

/-- `CChainState::ConnectBlock`: the undo data it built, none for the genesis block. -/
def connectBlock (env : BlockEnv) (params : ConsensusParams) (ctx : BlockContext) (block : CBlock)
    (fJustCheck : Bool) : ViewM (Option (List (List Coin))) := do
  ensure (ctx.phashBlock.all (· == block.hash)) .assertFailed
  liftM (checkBlock env block (!fJustCheck) (!fJustCheck))
  let best ← ViewM.getBestBlock
  ensure (ctx.hashPrevBlock.getD 0 == best) .assertFailed
  if block.hash = params.hashGenesisBlock then do
    (if fJustCheck then pure () else ViewM.setBestBlock block.hash)
    pure none
  else do
    ensure ctx.hashPrevBlock.isSome .assertFailed
    let vtxundo ← connectTransactions env params ctx block
    ensure (fJustCheck || ctx.phashBlock.isSome) .assertFailed
    (if fJustCheck then pure () else ViewM.setBestBlock block.hash)
    pure (some vtxundo)

/-! ## `DisconnectBlock` -/

inductive DisconnectResult where
  | OK | UNCLEAN | FAILED
  deriving DecidableEq, Repr

/-- `fClean ? DISCONNECT_OK : DISCONNECT_UNCLEAN`. -/
def DisconnectResult.ofClean (fClean : Bool) : DisconnectResult := if fClean then .OK else .UNCLEAN

/-- `MAX_BLOCK_WEIGHT` over the weight of an empty output. -/
def MAX_OUTPUTS_PER_BLOCK : ℕ := MAX_BLOCK_WEIGHT / (WITNESS_SCALE_FACTOR * 9)

/-- The loop of `AccessByTxid`, with `fuel` outputs to go from output `n` on. -/
def accessByTxidFrom (txid : Uint256) : ℕ → ℕ → ViewM Coin
  | 0, _ => pure Coin.empty
  | fuel + 1, n => do
    let alternate ← ViewM.accessCoin ⟨txid, n⟩
    if !alternate.isSpent then pure alternate else accessByTxidFrom txid fuel (n + 1)

def accessByTxid (txid : Uint256) : ViewM Coin := accessByTxidFrom txid MAX_OUTPUTS_PER_BLOCK 0

def applyTxInUndo (undo : Coin) (out : COutPoint) : ViewM DisconnectResult := do
  let have_ ← ViewM.haveCoin out
  if undo.nHeight = 0 then do
    -- undo metadata is missing, and taken from another output of the transaction
    let alternate ← accessByTxid out.hash
    if !alternate.isSpent then do
      ViewM.addCoin out { undo with nHeight := alternate.nHeight, fCoinBase := alternate.fCoinBase } have_
      pure (.ofClean !have_)
    else pure .FAILED
  else do
    ViewM.addCoin out undo have_
    pure (.ofClean !have_)

/-- The loop of `DisconnectBlock` over the outputs of a transaction, from output `i` on: whether all were as the block
created them. -/
def disconnectOutputs (txid : Uint256) (is_coinbase : Bool) (nHeight : ℕ) : ℕ → List CTxOut → ViewM Bool
  | _, [] => pure true
  | i, txout :: vout => do
    let clean ← (if txout.scriptPubKey.isUnspendable then pure true else do
      let coin ← ViewM.spendCoin ⟨txid, i⟩
      pure (coin == some ⟨txout, is_coinbase, nHeight⟩))
    let rest ← disconnectOutputs txid is_coinbase nHeight (i + 1) vout
    pure (clean && rest)

/-- The loop of `DisconnectBlock` over the inputs, last one first; `none` when an undo fails. -/
def restoreInputs : List (COutPoint × Coin) → ViewM (Option Bool)
  | [] => pure (some true)
  | (out, undo) :: rest => do
    let res ← applyTxInUndo undo out
    if res = .FAILED then pure none
    else do
      let clean ← restoreInputs rest
      pure (clean.map (res == .OK && ·))

/-- One round of `DisconnectBlock`; the coinbase has no undo record. -/
def disconnectTx (nHeight : ℕ) (tx : CTransaction) (txundo : Option (List Coin)) : ViewM (Option Bool) := do
  let outputs ← disconnectOutputs tx.hash tx.isCoinBase nHeight 0 tx.vout
  match txundo with
  | none => pure (some outputs)
  | some vprevout =>
    if vprevout.length ≠ tx.vin.length then pure none
    else do
      let inputs ← restoreInputs (tx.prevouts.zip vprevout).reverse
      pure (inputs.map (outputs && ·))

/-- The loop of `DisconnectBlock`, last transaction first. -/
def disconnectTxs (nHeight : ℕ) : List (CTransaction × Option (List Coin)) → ViewM (Option Bool)
  | [] => pure (some true)
  | (tx, txundo) :: rest => do
    match ← disconnectTx nHeight tx txundo with
    | none => pure none
    | some clean => do
      let rest ← disconnectTxs nHeight rest
      pure (rest.map (clean && ·))

/-- `CChainState::DisconnectBlock`, with the undo data; `hashPrevBlock` is the hash of `pindex->pprev`. -/
def disconnectBlock (nHeight : ℕ) (hashPrevBlock : Uint256) (block : CBlock) (vtxundo : List (List Coin)) :
    ViewM DisconnectResult :=
  if vtxundo.length + 1 ≠ block.vtx.length then pure .FAILED
  else do
    match ← disconnectTxs nHeight (block.vtx.zip (none :: vtxundo.map some)).reverse with
    | none => pure .FAILED
    | some clean => do
      ViewM.setBestBlock hashPrevBlock
      pure (.ofClean clean)

/-! ## `RollforwardBlock` -/

/-- The loop of `RollforwardBlock` over the inputs of a transaction. -/
def rollforwardInputs : List COutPoint → ViewM Unit
  | [] => pure ()
  | prevout :: prevouts => do
    let _ ← ViewM.spendCoin prevout
    rollforwardInputs prevouts

/-- The loop of `RollforwardBlock`. -/
def rollforwardTxs (nHeight : ℕ) : List CTransaction → ViewM Unit
  | [] => pure ()
  | tx :: vtx => do
    (if tx.isCoinBase then pure () else rollforwardInputs tx.prevouts)
    addCoins tx nHeight true
    rollforwardTxs nHeight vtx

end Soferox
