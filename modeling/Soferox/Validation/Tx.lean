import Soferox.Coins.View
import Soferox.Lib.StateExcept
import Soferox.Script.Interpreter

/-!
# Transaction checks

`consensus/tx_verify.cpp`: `CheckTransaction`, `CheckTxInputs`, signature operation counts and relative lock times, and
`UpdateCoins` of `validation.cpp`. A function that reads or writes the coins view is a program over it (`ViewM`),
because reading fills the caches.
-/

namespace Soferox

open Lib CScript

/-! ## Programs over a view -/

/-- How the validation of a block ends without success. -/
inductive BlockError where
  /-- `state.DoS(level, .., REJECT_INVALID, reason)`, with level 0 for `state.Invalid` -/
  | reject (level : ℕ) (reason : String)
  /-- an exception of the coins view -/
  | coins (e : CoinsError)
  /-- `std::runtime_error` -/
  | runtimeError (what : String)
  /-- a failed `assert` -/
  | assertFailed
  deriving DecidableEq, Repr

/-- A program over a coins view. -/
abbrev ViewM := StateT CCoinsViewCache (Except BlockError)

namespace ViewM

/-- `view.HaveCoin(outpoint)`. -/
def haveCoin (outpoint : COutPoint) : ViewM Bool := fun v => .ok (v.haveCoin outpoint)

/-- `view.AccessCoin(outpoint)`. -/
def accessCoin (outpoint : COutPoint) : ViewM Coin := fun v => .ok (v.accessCoin outpoint)

/-- `view.SpendCoin(outpoint, &coin)`. -/
def spendCoin (outpoint : COutPoint) : ViewM (Option Coin) := fun v => .ok (v.spendCoin outpoint)

/-- `view.AddCoin(outpoint, coin, possible_overwrite)`. -/
def addCoin (outpoint : COutPoint) (coin : Coin) (possible_overwrite : Bool) : ViewM Unit := fun v =>
  match v.addCoin outpoint coin possible_overwrite with
  | .ok v => .ok ((), v)
  | .error e => .error (.coins e)

def getBestBlock : ViewM Uint256 := fun v => .ok v.getBestBlock

/-- `view.SetBestBlock(hash)`. -/
def setBestBlock (hash : Uint256) : ViewM Unit := fun v => .ok ((), v.setBestBlock hash)

end ViewM

/-! ## Consensus constants -/

def MAX_BLOCK_WEIGHT : ℕ := 4000000
def MAX_BLOCK_SIGOPS_COST : ℕ := 80000
def COINBASE_MATURITY : ℤ := 25

/-! ## `CheckTransaction` -/

/-- The loop of `CheckTransaction` over the outputs, from the sum so far. -/
def checkOutputs : CAmount → List CTxOut → Except BlockError Unit
  | _, [] => .ok ()
  | nValueOut, txout :: vout =>
    if txout.nValue < 0 then .error (.reject 100 "bad-txns-vout-negative")
    else if txout.nValue > MAX_MONEY then .error (.reject 100 "bad-txns-vout-toolarge")
    else if !MoneyRange (nValueOut + txout.nValue) then .error (.reject 100 "bad-txns-txouttotal-toolarge")
    else checkOutputs (nValueOut + txout.nValue) vout

def checkTransaction (tx : CTransaction) (fCheckDuplicateInputs : Bool) : Except BlockError Unit :=
  if tx.vin.isEmpty then .error (.reject 10 "bad-txns-vin-empty")
  else if tx.vout.isEmpty then .error (.reject 10 "bad-txns-vout-empty")
  else if tx.strippedSize * WITNESS_SCALE_FACTOR > MAX_BLOCK_WEIGHT then .error (.reject 100 "bad-txns-oversize")
  else
    match checkOutputs 0 tx.vout with
    | .error e => .error e
    | .ok _ =>
      if fCheckDuplicateInputs ∧ ¬ tx.prevouts.Nodup then .error (.reject 100 "bad-txns-inputs-duplicate")
      else if tx.isCoinBase then
        let scriptSig := (tx.vin.map CTxIn.scriptSig).headD []
        if scriptSig.length < 2 ∨ scriptSig.length > 100 then .error (.reject 100 "bad-cb-length") else .ok ()
      else if tx.vin.any fun txin => txin.prevout.isNull then .error (.reject 10 "bad-txns-prevout-null")
      else .ok ()

/-! ## `CheckTxInputs` -/

/-- The loop of `CTransaction::GetValueOut`, from the sum so far. -/
def getValueOutFrom : CAmount → List CTxOut → Except BlockError CAmount
  | nValueOut, [] => .ok nValueOut
  | nValueOut, txout :: vout =>
    if !MoneyRange txout.nValue ∨ !MoneyRange (nValueOut + txout.nValue) then
      .error (.runtimeError "GetValueOut: value out of range")
    else getValueOutFrom (nValueOut + txout.nValue) vout

def CTransaction.getValueOut (tx : CTransaction) : Except BlockError CAmount := getValueOutFrom 0 tx.vout

/-- The loop of `CCoinsViewCache::HaveInputs` for a transaction that is not a coinbase. -/
def haveInputs : List COutPoint → ViewM Bool
  | [] => pure true
  | prevout :: prevouts => do
    if ← ViewM.haveCoin prevout then haveInputs prevouts else pure false

/-- The loop of `CheckTxInputs`, from the sum so far. -/
def sumInputs (nSpendHeight : ℕ) : CAmount → List COutPoint → ViewM CAmount
  | nValueIn, [] => pure nValueIn
  | nValueIn, prevout :: prevouts => do
    let coin ← ViewM.accessCoin prevout
    ensure (!coin.isSpent) .assertFailed
    ensure (!(coin.fCoinBase && (nSpendHeight : ℤ) - coin.nHeight < COINBASE_MATURITY))
      (.reject 0 "bad-txns-premature-spend-of-coinbase")
    ensure (MoneyRange coin.out.nValue && MoneyRange (nValueIn + coin.out.nValue))
      (.reject 100 "bad-txns-inputvalues-outofrange")
    sumInputs nSpendHeight (nValueIn + coin.out.nValue) prevouts

/-- `Consensus::CheckTxInputs`, for a transaction that is not a coinbase: the fee. -/
def checkTxInputs (tx : CTransaction) (nSpendHeight : ℕ) : ViewM CAmount := do
  let have_ ← haveInputs tx.prevouts
  ensure have_ (.reject 100 "bad-txns-inputs-missingorspent")
  let nValueIn ← sumInputs nSpendHeight 0 tx.prevouts
  let value_out ← liftM tx.getValueOut
  ensure (value_out ≤ nValueIn) (.reject 100 "bad-txns-in-belowout")
  ensure (MoneyRange (nValueIn - value_out)) (.reject 100 "bad-txns-fee-outofrange")
  pure (nValueIn - value_out)

/-! ## Relative lock times -/

/-- `LOCKTIME_VERIFY_SEQUENCE` is on, and the times of the chain that `SequenceLocks` reads. -/
structure LockContext where
  csvActive : Bool
  nHeight : ℕ
  /-- `block.pprev->GetMedianTimePast()` -/
  prevMedianTimePast : ℤ
  /-- `block.GetAncestor(h)->GetMedianTimePast()` -/
  ancestorMedianTimePast : ℕ → ℤ

def SEQUENCE_LOCKTIME_TYPE_FLAG : ℕ := 2 ^ 22
def SEQUENCE_LOCKTIME_MASK : ℕ := 0xffff
def SEQUENCE_LOCKTIME_GRANULARITY : ℕ := 9

/-- The loop of `CalculateSequenceLocks` over the inputs and the heights of the coins they spend. -/
def sequenceLockLoop (ctx : LockContext) : ℤ × ℤ → List (CTxIn × ℕ) → ℤ × ℤ
  | lockPair, [] => lockPair
  | (nMinHeight, nMinTime), (txin, nCoinHeight) :: rest =>
    if txin.nSequence &&& SEQUENCE_LOCKTIME_DISABLE_FLAG ≠ 0 then sequenceLockLoop ctx (nMinHeight, nMinTime) rest
    else if txin.nSequence &&& SEQUENCE_LOCKTIME_TYPE_FLAG ≠ 0 then
      let nCoinTime := ctx.ancestorMedianTimePast (nCoinHeight - 1)
      let span := (txin.nSequence &&& SEQUENCE_LOCKTIME_MASK) <<< SEQUENCE_LOCKTIME_GRANULARITY
      sequenceLockLoop ctx (nMinHeight, max nMinTime (nCoinTime + span - 1)) rest
    else
      let span := txin.nSequence &&& SEQUENCE_LOCKTIME_MASK
      sequenceLockLoop ctx (max nMinHeight ((nCoinHeight : ℤ) + span - 1), nMinTime) rest

def sequenceLocks (ctx : LockContext) (tx : CTransaction) (prevHeights : List ℕ) : Bool :=
  let fEnforceBIP68 := tx.nVersion % 2 ^ 32 ≥ 2 && ctx.csvActive
  let lockPair := if fEnforceBIP68 then sequenceLockLoop ctx (-1, -1) (tx.vin.zip prevHeights) else (-1, -1)
  !(lockPair.1 ≥ ctx.nHeight || lockPair.2 ≥ ctx.prevMedianTimePast)

/-- The loop of `ConnectBlock` that fills `prevheights`. -/
def prevHeights : List COutPoint → ViewM (List ℕ)
  | [] => pure []
  | prevout :: prevouts => do
    let coin ← ViewM.accessCoin prevout
    let heights ← prevHeights prevouts
    pure (coin.nHeight :: heights)

/-! ## Signature operations -/

def getLegacySigOpCount (tx : CTransaction) : ℕ :=
  (tx.vin.map fun txin => txin.scriptSig.getSigOpCount false).sum +
    (tx.vout.map fun txout => txout.scriptPubKey.getSigOpCount false).sum

def witnessSigOps (witversion : ℕ) (witprogram : Valtype) (witness : List Valtype) : ℕ :=
  if witversion = 0 then
    if witprogram.length = 20 then 1
    else if witprogram.length = 32 then
      match witness with
      | subscript :: _ => getSigOpCount subscript true
      | [] => 0
    else 0
  else 0

def countWitnessSigOps (scriptSig scriptPubKey : CScript) (witness : List Valtype) (flags : ScriptFlags) :
    Except BlockError ℕ :=
  if !flags.has SCRIPT_VERIFY_WITNESS then .ok 0
  else if !flags.has SCRIPT_VERIFY_P2SH then .error .assertFailed
  else
    match scriptPubKey.isWitnessProgram with
    | some (witversion, witprogram) => .ok (witnessSigOps witversion witprogram witness)
    | none =>
      if scriptPubKey.isPayToScriptHash ∧ scriptSig.isPushOnly then
        let subscript := (scriptSig.instrs.1.getLast?.map Instr.data).getD []
        match isWitnessProgram subscript with
        | some (witversion, witprogram) => .ok (witnessSigOps witversion witprogram witness)
        | none => .ok 0
      else .ok 0

/-- The loop of `GetP2SHSigOpCount`. -/
def p2shSigOpCount : List CTxIn → ViewM ℕ
  | [] => pure 0
  | txin :: vin => do
    let coin ← ViewM.accessCoin txin.prevout
    ensure (!coin.isSpent) .assertFailed
    let n := if coin.out.scriptPubKey.isPayToScriptHash then
      getSigOpCountP2SH coin.out.scriptPubKey txin.scriptSig else 0
    let rest ← p2shSigOpCount vin
    pure (n + rest)

/-- The last loop of `GetTransactionSigOpCost`. -/
def witnessSigOpCost (flags : ScriptFlags) : List CTxIn → ViewM ℕ
  | [] => pure 0
  | txin :: vin => do
    let coin ← ViewM.accessCoin txin.prevout
    ensure (!coin.isSpent) .assertFailed
    let n ← liftM (countWitnessSigOps txin.scriptSig coin.out.scriptPubKey txin.scriptWitness flags)
    let rest ← witnessSigOpCost flags vin
    pure (n + rest)

def getTransactionSigOpCost (tx : CTransaction) (flags : ScriptFlags) : ViewM ℕ :=
  let legacy := getLegacySigOpCount tx * WITNESS_SCALE_FACTOR
  if tx.isCoinBase then pure legacy
  else do
    let p2sh ← (if flags.has SCRIPT_VERIFY_P2SH then p2shSigOpCount tx.vin else pure 0)
    let witness ← witnessSigOpCost flags tx.vin
    pure (legacy + p2sh * WITNESS_SCALE_FACTOR + witness)

/-! ## `UpdateCoins` -/

/-- The loop of `UpdateCoins` over the inputs: the coins it moves into `txundo.vprevout`. -/
def spendInputs : List COutPoint → ViewM (List Coin)
  | [] => pure []
  | prevout :: prevouts => do
    match ← ViewM.spendCoin prevout with
    | none => throw .assertFailed
    | some coin => do
      let coins ← spendInputs prevouts
      pure (coin :: coins)

/-- The loop of `AddCoins` from output `i` on; `check` makes it look whether a coin is there. -/
def addOutputs (txid : Uint256) (fCoinbase : Bool) (nHeight : ℕ) (check : Bool) : ℕ → List CTxOut → ViewM Unit
  | _, [] => pure ()
  | i, txout :: vout => do
    let overwrite ← (if check then ViewM.haveCoin ⟨txid, i⟩ else pure fCoinbase)
    ViewM.addCoin ⟨txid, i⟩ ⟨txout, fCoinbase, nHeight⟩ overwrite
    addOutputs txid fCoinbase nHeight check (i + 1) vout

def addCoins (tx : CTransaction) (nHeight : ℕ) (check : Bool) : ViewM Unit :=
  addOutputs tx.hash tx.isCoinBase nHeight check 0 tx.vout

/-- `UpdateCoins`: the undo record of the transaction. -/
def updateCoins (tx : CTransaction) (nHeight : ℕ) : ViewM (List Coin) := do
  let vprevout ← (if tx.isCoinBase then pure [] else spendInputs tx.prevouts)
  addCoins tx nHeight false
  pure vprevout

end Soferox
