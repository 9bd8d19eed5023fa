import Soferox.Script.CScript

/-!
# Transactions

`primitives/transaction.h` and `amount.h`. The transaction id is a field, as in the source (`CTransaction::hash` is
computed once and kept); no property of the hash function is used.
-/

namespace Soferox

abbrev Uint256 := BitVec 256

/-- `CAmount`, a signed 64-bit number of base units; sums are kept exact here. -/
abbrev CAmount := ℤ

def COIN : CAmount := 100000000

/-- No amount larger than this is valid. -/
def MAX_MONEY : CAmount := 100000000 * COIN
def MoneyRange (nValue : CAmount) : Bool := 0 ≤ nValue && nValue ≤ MAX_MONEY

structure COutPoint where
  hash : Uint256
  n : ℕ
  deriving DecidableEq, Repr

def COutPoint.isNull (o : COutPoint) : Bool := o.hash == 0 && o.n == 0xffffffff

/-- `CTxIn`; `scriptWitness` is the witness stack, its last element first. -/
structure CTxIn where
  prevout : COutPoint
  scriptSig : CScript
  nSequence : ℕ
  scriptWitness : List Valtype
  deriving DecidableEq, Repr

structure CTxOut where
  nValue : CAmount
  scriptPubKey : CScript
  deriving DecidableEq, Repr

/-- `CTxOut::SetNull`. -/
def CTxOut.null : CTxOut := ⟨-1, []⟩
def CTxOut.isNull (out : CTxOut) : Bool := out.nValue == -1

structure CTransaction where
  hash : Uint256
  nVersion : ℤ
  vin : List CTxIn
  vout : List CTxOut
  nLockTime : ℕ
  deriving DecidableEq, Repr

namespace CTransaction

def isCoinBase (tx : CTransaction) : Bool :=
  match tx.vin with
  | [txin] => txin.prevout.isNull
  | _ => false

/-- The outpoints a transaction lists as inputs. -/
def prevouts (tx : CTransaction) : List COutPoint := tx.vin.map CTxIn.prevout

end CTransaction

/-! ## Sizes -/

def WITNESS_SCALE_FACTOR : ℕ := 4

/-- `GetSizeOfCompactSize`. -/
def compactSizeSize (n : ℕ) : ℕ := if n < 253 then 1 else if n ≤ 0xffff then 3 else if n ≤ 0xffffffff then 5 else 9

/-- The serialized size of a byte vector. -/
def bytesSize (b : List UInt8) : ℕ := compactSizeSize b.length + b.length

/-- `GetSerializeSize(tx, SER_NETWORK, PROTOCOL_VERSION | SERIALIZE_TRANSACTION_NO_WITNESS)`. -/
def CTransaction.strippedSize (tx : CTransaction) : ℕ :=
  4 + compactSizeSize tx.vin.length + (tx.vin.map fun txin => 36 + bytesSize txin.scriptSig + 4).sum +
    compactSizeSize tx.vout.length + (tx.vout.map fun txout => 8 + bytesSize txout.scriptPubKey).sum + 4

def CTransaction.hasWitness (tx : CTransaction) : Bool := tx.vin.any fun txin => !txin.scriptWitness.isEmpty

/-- `GetSerializeSize(tx, SER_NETWORK, PROTOCOL_VERSION)`: marker, flag and witnesses are only there when one of the
witnesses is not empty. -/
def CTransaction.totalSize (tx : CTransaction) : ℕ :=
  if tx.hasWitness then
    tx.strippedSize + 2 +
      (tx.vin.map fun txin => compactSizeSize txin.scriptWitness.length + (txin.scriptWitness.map bytesSize).sum).sum
  else tx.strippedSize

def getTransactionWeight (tx : CTransaction) : ℕ := tx.strippedSize * (WITNESS_SCALE_FACTOR - 1) + tx.totalSize

end Soferox
