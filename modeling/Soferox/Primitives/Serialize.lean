import Soferox.Lib.Codec
import Soferox.Primitives.Transaction
import Soferox.Script.ScriptNum

/-!
# Serialization

`serialize.h` and the formats of `primitives/transaction.h`. A stream is the list of the bytes still to be read; the
loops that read a vector in chunks read its elements one after the other.

* `codes_compactSize`, `codes_vector` — lengths and vectors have one encoding each;
* `codes_txIn`, `codes_txOut`, `codes_witnesses` — so have the parts of a transaction;
* `unserializeTransaction_eq_ok` — all that `UnserializeTransaction` accepts: the basic format, and the extended one.
-/

namespace Soferox

open Lib CScriptNum CTxIn List UInt8 Int

/-- A stream that is read, with the texts of its exceptions. -/
abbrev Stream (α : Type) := Reader UInt8 String α

/-! ## Numbers -/

/-- `CDataStream::read`. -/
def readBytes (nSize : ℕ) : Stream (List UInt8) := readTake "CDataStream::read(): end of data" nSize

/-- The `k` bytes of a number, the lowest first. -/
def leBytes : ℕ → ℕ → List UInt8
  | 0, _ => []
  | k + 1, n => UInt8.ofNat n :: leBytes k (n / 2 ^ 8)

/-- `ser_readdata8`, `ser_readdata16`, `ser_readdata32` and `ser_readdata64`, by the number of bytes. -/
def serReaddata (k : ℕ) : Stream ℕ := CScriptNum.leNat <$> readBytes k

/-- `ser_writedata8`, `ser_writedata16`, `ser_writedata32` and `ser_writedata64`. -/
def serWritedata (k n : ℕ) : List UInt8 := leBytes k n

/-- A signed number of `k` bytes. -/
def readInt (k : ℕ) : Stream ℤ := (fun n : ℕ => Int.bmod n (2 ^ (8 * k))) <$> serReaddata k
def writeInt (k : ℕ) (n : ℤ) : List UInt8 := serWritedata k (n % 2 ^ (8 * k)).toNat

/-- `uint256::Unserialize`. -/
def readUint256 : Stream Uint256 := BitVec.ofNat 256 <$> serReaddata 32
def writeUint256 (hash : Uint256) : List UInt8 := serWritedata 32 hash.toNat

variable (w : List UInt8) (k : ℕ) (vin : List CTxIn)

lemma length_leBytes (n : ℕ) : (leBytes k n).length = k := by
  induction k generalizing n with
  | zero => rfl
  | succ k ih => rw [leBytes, length_cons, ih]

lemma leNat_leBytes {k n : ℕ} (h : n < 2 ^ (8 * k)) : leNat (leBytes k n) = n := by
  induction k generalizing n with
  | zero =>
    obtain rfl : n = 0 := by simpa using h
    rfl
  | succ k ih =>
    have hdiv : n / 2 ^ 8 < 2 ^ (8 * k) := by
      rw [Nat.div_lt_iff_lt_mul (by norm_num), ← pow_add]
      exact h
    rw [leBytes, leNat, ih hdiv, toNat_ofNat']
    omega

lemma leNat_lt : leNat w < 2 ^ (8 * w.length) := by
  induction w with
  | nil => simp [leNat]
  | cons b w ih =>
    have hb := b.toNat_lt
    have hpow : 2 ^ (8 * (b :: w).length) = 2 ^ 8 * 2 ^ (8 * w.length) := by
      rw [length_cons]
      ring_nf
    rw [leNat]
    omega

lemma leBytes_leNat : leBytes w.length (leNat w) = w := by
  induction w with
  | nil => rfl
  | cons b w ih =>
    have hb := b.toNat_lt
    have hlow : UInt8.ofNat (b.toNat + 2 ^ 8 * leNat w) = b := by
      apply UInt8.toNat_inj.1
      rw [toNat_ofNat']
      omega
    have hhigh : (b.toNat + 2 ^ 8 * leNat w) / 2 ^ 8 = leNat w := by omega
    rw [length_cons, leBytes, leNat, hlow, hhigh, ih]

lemma codes_readBytes (nSize : ℕ) : Codes (readBytes nSize) (fun w => w) (fun w => w.length = nSize) :=
  codes_readTake _ nSize

lemma codes_data : Codes (serReaddata k) (serWritedata k) (fun n => n < 2 ^ (8 * k)) := by
  refine (codes_readBytes k).map ?_ fun n => ?_
  · rintro w rfl
    exact leBytes_leNat w
  · constructor
    · intro hn
      exact ⟨length_leBytes k n, leNat_leBytes hn⟩
    · rintro ⟨hlen, hn⟩
      have hlt := leNat_lt (serWritedata k n)
      rwa [hn, hlen] at hlt

/-- The range of a signed number of `k` bytes. -/
def IntRange (k : ℕ) (n : ℤ) : Prop := Int.bmod n (2 ^ (8 * k)) = n

instance (k : ℕ) (n : ℤ) : Decidable (IntRange k n) := inferInstanceAs (Decidable (_ = _))

lemma codes_int : Codes (readInt k) (writeInt k) (IntRange k) := by
  have hpow : (0 : ℤ) < 2 ^ (8 * k) := by positivity
  refine (codes_data k).map (f := fun n : ℕ => bmod n (2 ^ (8 * k))) (g := fun n : ℤ => (n % 2 ^ (8 * k)).toNat) ?_ fun n => ?_
  · intro n hn
    have hmod : (bmod n (2 ^ (8 * k)) % (2 ^ (8 * k) : ℤ)) = n := by
      have := bmod_emod (x := (n : ℤ)) (m := 2 ^ (8 * k))
      push_cast at this
      rw [this]
      exact emod_eq_of_lt (by omega) (by exact_mod_cast hn)
    rw [hmod, toNat_natCast]
  · have hnonneg := emod_nonneg n hpow.ne'
    have hlt := emod_lt_of_pos n hpow
    have hmod : bmod ((n % 2 ^ (8 * k)).toNat : ℤ) (2 ^ (8 * k)) = bmod n (2 ^ (8 * k)) := by
      rw [toNat_of_nonneg hnonneg]
      have := emod_bmod (x := n) (n := 2 ^ (8 * k))
      exact this
    rw [hmod]
    refine ⟨fun h => ⟨?_, h⟩, And.right⟩
    rw [toNat_lt hnonneg]
    exact_mod_cast hlt

lemma codes_uint256 : Codes readUint256 writeUint256 (fun _ => True) := by
  refine (codes_data 32).map ?_ fun hash => ?_
  · intro n hn
    exact BitVec.toNat_ofNat n 256 ▸ Nat.mod_eq_of_lt hn
  · exact iff_of_true trivial ⟨hash.isLt, BitVec.ofNat_toNat 256 hash ▸ BitVec.setWidth_eq hash⟩

/-! ## Lengths and vectors -/

def MAX_SIZE : ℕ := 0x02000000

def writeCompactSize (nSize : ℕ) : List UInt8 :=
  if nSize < 253 then serWritedata 1 nSize
  else if nSize ≤ 0xffff then serWritedata 1 253 ++ serWritedata 2 nSize
  else if nSize ≤ 0xffffffff then serWritedata 1 254 ++ serWritedata 4 nSize
  else serWritedata 1 255 ++ serWritedata 8 nSize

/-- The long forms of a length: `k` bytes, for numbers from `lowest` on. -/
def readLongSize (k lowest : ℕ) : Stream ℕ := do
  let nSizeRet ← serReaddata k
  ensure (lowest ≤ nSizeRet) "non-canonical ReadCompactSize()"
  return nSizeRet

/-- What follows the first byte of a length. -/
def readSizeForm (chSize : ℕ) : Stream ℕ :=
  if chSize < 253 then pure chSize
  else if chSize = 253 then readLongSize 2 253
  else if chSize = 254 then readLongSize 4 0x10000
  else readLongSize 8 0x100000000

def readCompactSize : Stream ℕ := do
  let chSize ← serReaddata 1
  let nSizeRet ← readSizeForm chSize
  ensure (nSizeRet ≤ MAX_SIZE) "ReadCompactSize(): size too large"
  return nSizeRet

def readVector {α : Type} (unserialize : Stream α) : Stream (List α) := do
  let nSize ← readCompactSize
  readN unserialize nSize

def writeVector {α : Type} (serialize : α → List UInt8) (v : List α) : List UInt8 :=
  writeCompactSize v.length ++ v.flatMap serialize

/-- `Unserialize` of a vector of bytes, a script among them. -/
def readByteVector : Stream (List UInt8) := do
  let nSize ← readCompactSize
  readBytes nSize

def writeByteVector (v : List UInt8) : List UInt8 := writeCompactSize v.length ++ v

lemma codes_longSize (lowest : ℕ) :
    Codes (readLongSize k lowest) (serWritedata k) (fun n => lowest ≤ n ∧ n < 2 ^ (8 * k)) := (codes_data k).guard _

lemma codes_compactSize : Codes readCompactSize writeCompactSize (fun n => n ≤ MAX_SIZE) := by
  intro b n t
  simp only [readCompactSize, run_bind_eq_ok, run_ensure_eq_ok, run_pure_eq_ok, decide_eq_true_iff]
  constructor
  · rintro ⟨chSize, b₁, hch, n, b₂, hrest, u, b₃, ⟨hmax, rfl⟩, rfl, rfl⟩
    obtain ⟨hlt, rfl⟩ := (codes_data 1).of_get hch
    refine ⟨hmax, ?_⟩
    rw [writeCompactSize]
    rw [readSizeForm] at hrest
    split at hrest
    · rename_i hshort
      obtain ⟨rfl, rfl⟩ := run_pure_eq_ok.1 hrest
      rw [if_pos hshort]
    · split at hrest
      · rename_i h253
        obtain ⟨⟨hlow, hhigh⟩, rfl⟩ := (codes_longSize 2 253).of_get hrest
        rw [if_neg (by omega), if_pos (by omega), h253, append_assoc]
      · split at hrest
        · rename_i h254
          obtain ⟨⟨hlow, hhigh⟩, rfl⟩ := (codes_longSize 4 0x10000).of_get hrest
          rw [if_neg (by omega), if_neg (by omega), if_pos (by omega), h254, append_assoc]
        · obtain ⟨⟨hlow, hhigh⟩, rfl⟩ := (codes_longSize 8 0x100000000).of_get hrest
          obtain rfl : chSize = 255 := by omega
          rw [if_neg (by omega), if_neg (by omega), if_neg (by omega), append_assoc]
  · rintro ⟨hmax, rfl⟩
    have hbyte : ∀ m, m < 256 → ∀ u, serReaddata 1 (serWritedata 1 m ++ u) = .ok (m, u) := fun m hm u =>
      (codes_data 1).get_put hm u
    -- the length is small, so that the form of nine bytes is never needed
    rw [MAX_SIZE] at hmax
    rw [writeCompactSize]
    split_ifs with h253 h2 h4
    · exact ⟨n, t, hbyte n (by omega) t, n, t, by rw [readSizeForm, if_pos h253]; rfl, (), t, ⟨hmax, rfl⟩, rfl, rfl⟩
    · rw [append_assoc]
      exact ⟨253, _, hbyte 253 (by omega) _, n, t, (codes_longSize 2 253).get_put ⟨by omega, by omega⟩ t, (), t,
        ⟨hmax, rfl⟩, rfl, rfl⟩
    · exact ⟨254, _, hbyte 254 (by omega) _, n, t, (codes_longSize 4 0x10000).get_put ⟨by omega, by omega⟩ t, (), t,
        ⟨hmax, rfl⟩, rfl, rfl⟩
    · omega

lemma codes_vector {α : Type} {unserialize : Stream α} {serialize : α → List UInt8} {Dom : α → Prop}
    (h : Codes unserialize serialize Dom) :
    Codes (readVector unserialize) (writeVector serialize) (fun v => v.length ≤ MAX_SIZE ∧ ∀ a ∈ v, Dom a) := by
  intro b v t
  rw [readVector, run_bind_eq_ok]
  constructor
  · rintro ⟨n, b₁, hsize, hrest⟩
    obtain ⟨hmax, rfl⟩ := codes_compactSize.of_get hsize
    obtain ⟨⟨rfl, hall⟩, rfl⟩ := (codes_readN h n).of_get hrest
    exact ⟨⟨hmax, hall⟩, by rw [writeVector, append_assoc]⟩
  · rintro ⟨⟨hmax, hall⟩, rfl⟩
    rw [writeVector, append_assoc]
    exact ⟨v.length, _, codes_compactSize.get_put hmax _, (codes_readN h _).get_put ⟨rfl, hall⟩ t⟩

lemma codes_byteVector : Codes readByteVector writeByteVector (fun v => v.length ≤ MAX_SIZE) := by
  intro b v t
  rw [readByteVector, run_bind_eq_ok]
  constructor
  · rintro ⟨n, b₁, hsize, hrest⟩
    obtain ⟨hmax, rfl⟩ := codes_compactSize.of_get hsize
    obtain ⟨rfl, rfl⟩ := (codes_readBytes n).of_get hrest
    exact ⟨hmax, by rw [writeByteVector, append_assoc]⟩
  · rintro ⟨hmax, rfl⟩
    rw [writeByteVector, append_assoc]
    exact ⟨v.length, _, codes_compactSize.get_put hmax _, (codes_readBytes _).get_put rfl t⟩

/-! ## Inputs, outputs and witnesses -/

def readOutPoint : Stream COutPoint := do
  let hash ← readUint256
  let n ← serReaddata 4
  return ⟨hash, n⟩

def writeOutPoint (prevout : COutPoint) : List UInt8 := writeUint256 prevout.hash ++ serWritedata 4 prevout.n

/-- `CTxIn`, read; the witness is not part of it. -/
def readTxIn : Stream CTxIn := do
  let prevout ← readOutPoint
  let scriptSig ← readByteVector
  let nSequence ← serReaddata 4
  return ⟨prevout, scriptSig, nSequence, []⟩

def writeTxIn (txin : CTxIn) : List UInt8 :=
  writeOutPoint txin.prevout ++ writeByteVector txin.scriptSig ++ serWritedata 4 txin.nSequence

def readTxOut : Stream CTxOut := do
  let nValue ← readInt 8
  let scriptPubKey ← readByteVector
  return ⟨nValue, scriptPubKey⟩

def writeTxOut (txout : CTxOut) : List UInt8 := writeInt 8 txout.nValue ++ writeByteVector txout.scriptPubKey

/-- The witness stacks, one for each input that has been read. -/
def readWitnesses : List CTxIn → Stream (List CTxIn)
  | [] => pure []
  | txin :: vin => do
    let stack ← readVector readByteVector
    let vin ← readWitnesses vin
    return { txin with scriptWitness := stack.reverse } :: vin

/-- The witness stack of an input. -/
def writeWitness (txin : CTxIn) : List UInt8 := writeVector writeByteVector txin.scriptWitness.reverse

/-- The input without its witness. -/
def CTxIn.stripped (txin : CTxIn) : CTxIn := { txin with scriptWitness := [] }

/-- The fields have the values of their types, and the sizes are within the limit of the reader. -/
structure CTxIn.Fits (txin : CTxIn) : Prop where
  n : txin.prevout.n < 2 ^ 32
  scriptSig : txin.scriptSig.length ≤ MAX_SIZE
  nSequence : txin.nSequence < 2 ^ 32

/-- A witness stack is within the limits of the reader. -/
structure CTxIn.WitnessFits (txin : CTxIn) : Prop where
  stack : txin.scriptWitness.length ≤ MAX_SIZE
  elements : ∀ v ∈ txin.scriptWitness, v.length ≤ MAX_SIZE

/-- The fields have the values of their types, and the sizes are within the limit of the reader. -/
structure CTxOut.Fits (txout : CTxOut) : Prop where
  nValue : IntRange 8 txout.nValue
  scriptPubKey : txout.scriptPubKey.length ≤ MAX_SIZE

lemma codes_outPoint : Codes readOutPoint writeOutPoint (fun o => o.n < 2 ^ 32) := by
  intro b o t
  simp only [readOutPoint, run_bind_eq_ok, run_pure_eq_ok]
  constructor
  · rintro ⟨hash, b₁, hhash, n, b₂, hn, rfl, rfl⟩
    obtain ⟨-, rfl⟩ := codes_uint256.of_get hhash
    obtain ⟨hlt, rfl⟩ := (codes_data 4).of_get hn
    exact ⟨hlt, by rw [writeOutPoint, append_assoc]⟩
  · rintro ⟨hlt, rfl⟩
    exact ⟨o.hash, _, codes_uint256.get_put trivial _, o.n, t, (codes_data 4).get_put hlt t, rfl, rfl⟩

lemma codes_txIn : Codes readTxIn writeTxIn (fun txin => txin.Fits ∧ txin.scriptWitness = []) := by
  intro b txin t
  simp only [readTxIn, run_bind_eq_ok, run_pure_eq_ok]
  constructor
  · rintro ⟨prevout, b₁, hprevout, scriptSig, b₂, hscript, nSequence, b₃, hseq, rfl, rfl⟩
    obtain ⟨hn, rfl⟩ := codes_outPoint.of_get hprevout
    obtain ⟨hlen, rfl⟩ := codes_byteVector.of_get hscript
    obtain ⟨hlt, rfl⟩ := (codes_data 4).of_get hseq
    exact ⟨⟨⟨hn, hlen, hlt⟩, rfl⟩, by simp [writeTxIn]⟩
  · rintro ⟨⟨⟨hn, hlen, hlt⟩, hwit⟩, rfl⟩
    obtain ⟨prevout, scriptSig, nSequence, scriptWitness⟩ := txin
    cases hwit
    simp only [writeTxIn, append_assoc]
    exact ⟨prevout, _, codes_outPoint.get_put hn _, scriptSig, _, codes_byteVector.get_put hlen _, nSequence, t,
      (codes_data 4).get_put hlt t, rfl, rfl⟩

lemma codes_txOut : Codes readTxOut writeTxOut CTxOut.Fits := by
  intro b txout t
  simp only [readTxOut, run_bind_eq_ok, run_pure_eq_ok]
  constructor
  · rintro ⟨nValue, b₁, hvalue, scriptPubKey, b₂, hscript, rfl, rfl⟩
    obtain ⟨hrange, rfl⟩ := (codes_int 8).of_get hvalue
    obtain ⟨hlen, rfl⟩ := codes_byteVector.of_get hscript
    exact ⟨⟨hrange, hlen⟩, by rw [writeTxOut, append_assoc]⟩
  · rintro ⟨⟨hrange, hlen⟩, rfl⟩
    exact ⟨txout.nValue, _, (codes_int 8).get_put hrange _, txout.scriptPubKey, t, codes_byteVector.get_put hlen t, rfl,
      rfl⟩

lemma codes_witnesses : Codes (readWitnesses vin) (fun vin' => vin'.flatMap writeWitness)
    (fun vin' => vin'.map stripped = vin.map stripped ∧ ∀ txin ∈ vin', txin.WitnessFits) := by
  induction vin with
  | nil =>
    intro b vin' t
    rw [readWitnesses, run_pure_eq_ok]
    constructor
    · rintro ⟨rfl, rfl⟩
      exact ⟨⟨rfl, by simp⟩, rfl⟩
    · rintro ⟨⟨hmap, -⟩, rfl⟩
      obtain rfl := map_eq_nil_iff.1 hmap
      exact ⟨rfl, rfl⟩
  | cons txin vin ih =>
    intro b vin' t
    simp only [readWitnesses, run_bind_eq_ok, run_pure_eq_ok]
    constructor
    · rintro ⟨stack, b₁, hstack, rest, b₂, hrest, rfl, rfl⟩
      obtain ⟨⟨hlen, hall⟩, rfl⟩ := (codes_vector codes_byteVector).of_get hstack
      obtain ⟨⟨hmap, hfits⟩, rfl⟩ := ih.of_get hrest
      refine ⟨⟨?_, forall_mem_cons.2 ⟨⟨?_, ?_⟩, hfits⟩⟩, ?_⟩
      · rw [map_cons, map_cons, hmap]
        rfl
      · exact length_reverse.trans_le hlen
      · intro v hv
        exact hall v (mem_reverse.1 hv)
      · rw [flatMap_cons, append_assoc, writeWitness, reverse_reverse]
    · rintro ⟨⟨hmap, hfits⟩, rfl⟩
      cases vin' with
      | nil => cases hmap
      | cons txin' vin' =>
        obtain ⟨hhead, htail⟩ := List.cons.inj hmap
        obtain ⟨hfit, hfits⟩ := forall_mem_cons.1 hfits
        rw [flatMap_cons, append_assoc]
        refine ⟨txin'.scriptWitness.reverse, _, (codes_vector codes_byteVector).get_put ⟨?_, ?_⟩ _, vin', t,
          ih.get_put ⟨htail, hfits⟩ t, ?_, rfl⟩
        · exact length_reverse.trans_le hfit.stack
        · intro v hv
          exact hfit.elements v (mem_reverse.1 hv)
        · obtain ⟨prevout, scriptSig, nSequence, scriptWitness⟩ := txin
          obtain ⟨prevout', scriptSig', nSequence', scriptWitness'⟩ := txin'
          cases hhead
          simp

/-! ## Transactions -/

/-- `CMutableTransaction`: a transaction without the stored hash. -/
structure CMutableTransaction where
  vin : List CTxIn
  vout : List CTxOut
  nVersion : ℤ
  nLockTime : ℕ
  deriving DecidableEq, Repr

/-- The constructor `CMutableTransaction(const CTransaction&)`. -/
def CTransaction.toMutable (tx : CTransaction) : CMutableTransaction := ⟨tx.vin, tx.vout, tx.nVersion, tx.nLockTime⟩

namespace CMutableTransaction

def hasWitness (tx : CMutableTransaction) : Bool := tx.vin.any fun txin => !txin.scriptWitness.isEmpty

end CMutableTransaction

/-- `s >> flags`. -/
def readFlags : Stream UInt8 := UInt8.ofNat <$> serReaddata 1

/-- The part of `UnserializeTransaction` between the version and the witnesses. An empty list of inputs may be the
dummy of the extended format. -/
def readInsOuts (fAllowWitness : Bool) : Stream (UInt8 × List CTxIn × List CTxOut) := do
  let vin ← readVector readTxIn
  if vin.isEmpty && fAllowWitness then
    let flags ← readFlags
    if flags ≠ 0 then
      let vin ← readVector readTxIn
      let vout ← readVector readTxOut
      return (flags, vin, vout)
    else return (flags, [], [])
  else
    let vout ← readVector readTxOut
    return (0, vin, vout)

/-- The part of `UnserializeTransaction` that reads the witnesses, and the flags that are left. -/
def readFlagged (fAllowWitness : Bool) (flags : UInt8) (vin : List CTxIn) : Stream (UInt8 × List CTxIn) :=
  if flags &&& 1 ≠ 0 ∧ fAllowWitness then do
    let vin ← readWitnesses vin
    return (flags ^^^ 1, vin)
  else pure (flags, vin)

def unserializeTransaction (fAllowWitness : Bool) : Stream CMutableTransaction := do
  let nVersion ← readInt 4
  let (flags, vin, vout) ← readInsOuts fAllowWitness
  let (flags, vin) ← readFlagged fAllowWitness flags vin
  ensure (flags == 0) "Unknown transaction optional data"
  let nLockTime ← serReaddata 4
  return ⟨vin, vout, nVersion, nLockTime⟩

def serializeTransaction (fAllowWitness : Bool) (tx : CMutableTransaction) : List UInt8 :=
  let flags : UInt8 := if fAllowWitness && tx.hasWitness then 1 else 0
  writeInt 4 tx.nVersion ++
  (if flags ≠ 0 then writeVector writeTxIn [] ++ serWritedata 1 flags.toNat else []) ++
  writeVector writeTxIn tx.vin ++ writeVector writeTxOut tx.vout ++
  (if flags &&& 1 ≠ 0 then tx.vin.flatMap writeWitness else []) ++
  serWritedata 4 tx.nLockTime

/-- `CTransaction::GetWitnessHash`; `hash` is the hash function of `SerializeHash`. -/
def CTransaction.getWitnessHash (hash : List UInt8 → Uint256) (tx : CTransaction) : Uint256 :=
  if tx.hasWitness then hash (serializeTransaction true tx.toMutable) else tx.hash

/-! ### The two formats -/

def basicFormat (tx : CMutableTransaction) : List UInt8 :=
  writeInt 4 tx.nVersion ++ writeVector writeTxIn tx.vin ++ writeVector writeTxOut tx.vout ++ serWritedata 4 tx.nLockTime

/-- The extended format, with the flag for witnesses. -/
def extendedFormat (tx : CMutableTransaction) : List UInt8 :=
  writeInt 4 tx.nVersion ++ (writeVector writeTxIn [] ++ serWritedata 1 1) ++ writeVector writeTxIn tx.vin ++
    writeVector writeTxOut tx.vout ++ tx.vin.flatMap writeWitness ++ serWritedata 4 tx.nLockTime

/-- The fields have the values of their types, and the sizes are within the limit of the reader. -/
structure CMutableTransaction.Fits (tx : CMutableTransaction) : Prop where
  nVersion : IntRange 4 tx.nVersion
  nLockTime : tx.nLockTime < 2 ^ 32
  vin : tx.vin.length ≤ MAX_SIZE
  ins : ∀ txin ∈ tx.vin, txin.Fits ∧ txin.WitnessFits
  vout : tx.vout.length ≤ MAX_SIZE
  outs : ∀ txout ∈ tx.vout, txout.Fits

lemma serializeTransaction_eq (fAllowWitness : Bool) (tx : CMutableTransaction) :
    serializeTransaction fAllowWitness tx =
      if fAllowWitness && tx.hasWitness then extendedFormat tx else basicFormat tx := by
  rw [serializeTransaction]
  split
  · rfl
  · simp [basicFormat]

variable {tx : CMutableTransaction} {txin : CTxIn}

lemma hasWitness_eq_false : tx.hasWitness = false ↔ ∀ txin ∈ tx.vin, txin.scriptWitness = [] := by
  simp [CMutableTransaction.hasWitness]

lemma CTxIn.fits_stripped : txin.stripped.Fits ↔ txin.Fits :=
  ⟨fun h => ⟨h.n, h.scriptSig, h.nSequence⟩, fun h => ⟨h.n, h.scriptSig, h.nSequence⟩⟩

lemma map_stripped_stripped :
    (vin.map stripped).map stripped = vin.map stripped := map_map

lemma CTxIn.witnessFits_of_nil (h : txin.scriptWitness = []) : txin.WitnessFits := by
  constructor
  · rw [h]
    exact Nat.zero_le _
  · rw [h]
    simp

lemma writeVector_stripped {vin vin' : List CTxIn} (h : vin.map stripped = vin'.map stripped) :
    writeVector writeTxIn vin = writeVector writeTxIn vin' := by
  have hwrite : ∀ l : List CTxIn, l.flatMap writeTxIn = (l.map stripped).flatMap writeTxIn := by
    intro l
    rw [flatMap_map]
    rfl
  have hlen := congrArg List.length h
  rw [length_map, length_map] at hlen
  rw [writeVector, writeVector, hwrite vin, hwrite vin', h, hlen]

lemma codes_flags : Codes readFlags (fun flags => serWritedata 1 flags.toNat) (fun _ => True) := by
  refine (codes_data 1).map ?_ fun flags => ?_
  · intro n hn
    exact Nat.mod_eq_of_lt hn
  · exact iff_of_true trivial ⟨flags.toNat_lt, UInt8.ofNat_toNat⟩

variable {flags : UInt8}

lemma flags_eq_one (h : flags ^^^ 1 = 0) : flags = 1 := by
  have hcancel : flags ^^^ 1 ^^^ 1 = flags := by rw [UInt8.xor_assoc, UInt8.xor_self, UInt8.xor_zero]
  rw [← hcancel, h, UInt8.zero_xor]

/-- Inputs, without witnesses, and outputs that the reader gives back. -/
structure InsOutsFit (vin : List CTxIn) (vout : List CTxOut) : Prop where
  ins : vin.length ≤ MAX_SIZE ∧ ∀ txin ∈ vin, txin.Fits ∧ txin.scriptWitness = []
  outs : vout.length ≤ MAX_SIZE ∧ ∀ txout ∈ vout, txout.Fits

variable {b t : List UInt8} {fAllowWitness : Bool}

/-- Without flags the inputs and the outputs follow at once, and no inputs are only read with no outputs; with flags
they follow the dummy. -/
theorem readInsOuts_eq_ok {vin : List CTxIn}
    {vout : List CTxOut} :
    readInsOuts fAllowWitness b = .ok ((flags, vin, vout), t) ↔
      InsOutsFit vin vout ∧
      ((flags = 0 ∧ (fAllowWitness = true → vin = [] → vout = []) ∧
          b = writeVector writeTxIn vin ++ (writeVector writeTxOut vout ++ t)) ∨
        (flags ≠ 0 ∧ fAllowWitness = true ∧ b = writeVector writeTxIn [] ++ (serWritedata 1 flags.toNat ++
          (writeVector writeTxIn vin ++ (writeVector writeTxOut vout ++ t))))) := by
  have hin := codes_vector codes_txIn
  have hout := codes_vector codes_txOut
  rw [readInsOuts, run_bind_eq_ok]
  constructor
  · rintro ⟨vin₀, b₁, hvin, hrest⟩
    obtain ⟨hins, rfl⟩ := hin.of_get hvin
    split at hrest
    · rename_i hempty
      obtain ⟨hnil, hallow⟩ := Bool.and_eq_true_iff.1 hempty
      obtain rfl := List.isEmpty_iff.1 hnil
      obtain ⟨flags', b₂, hflags, hflagged⟩ := run_bind_eq_ok.1 hrest
      obtain ⟨-, rfl⟩ := codes_flags.of_get hflags
      split at hflagged
      · rename_i hne
        obtain ⟨vin', b₃, hvin', htail⟩ := run_bind_eq_ok.1 hflagged
        obtain ⟨hins', rfl⟩ := hin.of_get hvin'
        obtain ⟨vout', b₄, hvout, hpure⟩ := run_bind_eq_ok.1 htail
        obtain ⟨houts, rfl⟩ := hout.of_get hvout
        obtain ⟨heq, rfl⟩ := run_pure_eq_ok.1 hpure
        cases heq
        exact ⟨⟨hins', houts⟩, .inr ⟨hne, hallow, rfl⟩⟩
      · rename_i hzero
        obtain ⟨heq, rfl⟩ := run_pure_eq_ok.1 hflagged
        cases heq
        obtain rfl := not_not.1 hzero
        exact ⟨⟨hins, ⟨Nat.zero_le _, by simp⟩⟩, .inl ⟨rfl, fun _ _ => rfl, rfl⟩⟩
    · rename_i hbasic
      obtain ⟨vout', b₂, hvout, hpure⟩ := run_bind_eq_ok.1 hrest
      obtain ⟨houts, rfl⟩ := hout.of_get hvout
      obtain ⟨heq, rfl⟩ := run_pure_eq_ok.1 hpure
      cases heq
      refine ⟨⟨hins, houts⟩, .inl ⟨rfl, fun hallow hnil => ?_, rfl⟩⟩
      exact absurd (by rw [hnil, hallow]; rfl) hbasic
  · rintro ⟨⟨hins, houts⟩, ⟨rfl, himp, rfl⟩ | ⟨hne, hallow, rfl⟩⟩
    · refine ⟨vin, _, hin.get_put hins _, ?_⟩
      split_ifs with hempty
      · obtain ⟨hnil, hallow⟩ := Bool.and_eq_true_iff.1 hempty
        obtain rfl := List.isEmpty_iff.1 hnil
        obtain rfl := himp hallow rfl
        -- an empty vector of outputs is the same byte as no flags
        have hflags : readFlags (serWritedata 1 (0 : UInt8).toNat ++ t) = .ok (0, t) := codes_flags.get_put trivial t
        exact run_bind_eq_ok.2 ⟨0, t, hflags, rfl⟩
      · exact run_bind_eq_ok.2 ⟨vout, t, hout.get_put houts t, rfl⟩
    · refine ⟨[], _, hin.get_put ⟨Nat.zero_le _, by simp⟩ _, ?_⟩
      rw [if_pos (by rw [hallow]; rfl)]
      refine run_bind_eq_ok.2 ⟨flags, _, codes_flags.get_put trivial _, ?_⟩
      rw [if_pos hne]
      refine run_bind_eq_ok.2 ⟨vin, _, hin.get_put hins _, ?_⟩
      exact run_bind_eq_ok.2 ⟨vout, t, hout.get_put houts t, rfl⟩

/-- The bytes from which a transaction is read. -/
def IsFormat (fAllowWitness : Bool) (tx : CMutableTransaction) (w : List UInt8) : Prop :=
  (w = basicFormat tx ∧ tx.hasWitness = false ∧ (fAllowWitness = true → tx.vin = [] → tx.vout = [])) ∨
  (w = extendedFormat tx ∧ fAllowWitness = true)

lemma unserializeTransaction_parts :
    unserializeTransaction fAllowWitness b = .ok (tx, t) ↔
      IntRange 4 tx.nVersion ∧ tx.nLockTime < 2 ^ 32 ∧ ∃ b₁ flags vin b₂, b = writeInt 4 tx.nVersion ++ b₁ ∧
        readInsOuts fAllowWitness b₁ = .ok ((flags, vin, tx.vout), b₂) ∧
        readFlagged fAllowWitness flags vin b₂ = .ok ((0, tx.vin), serWritedata 4 tx.nLockTime ++ t) := by
  simp only [unserializeTransaction, run_bind_eq_ok, run_ensure_eq_ok, run_pure_eq_ok]
  constructor
  · rintro ⟨nVersion, b₁, hversion, ⟨flags, vin, vout⟩, b₂, hbody, ⟨flags', vin'⟩, b₃, hflagged, u, b₄, ⟨hzero, rfl⟩,
      nLockTime, b₅, hlock, rfl, rfl⟩
    obtain ⟨hrange, rfl⟩ := (codes_int 4).of_get hversion
    obtain ⟨hlocktime, rfl⟩ := (codes_data 4).of_get hlock
    obtain rfl : flags' = 0 := by simpa using hzero
    exact ⟨hrange, hlocktime, b₁, flags, vin, b₂, rfl, hbody, hflagged⟩
  · rintro ⟨hrange, hlocktime, b₁, flags, vin, b₂, rfl, hbody, hflagged⟩
    exact ⟨tx.nVersion, b₁, (codes_int 4).get_put hrange b₁, _, b₂, hbody, _, _, hflagged, (), _, ⟨rfl, rfl⟩,
      tx.nLockTime, t, (codes_data 4).get_put hlocktime t, rfl, rfl⟩

lemma readFlagged_eq_ok (hne : flags ≠ 0) {vin vin' : List CTxIn} :
    readFlagged true flags vin b = .ok ((0, vin'), t) ↔
      flags = 1 ∧ vin'.map stripped = vin.map stripped ∧ (∀ txin ∈ vin', txin.WitnessFits) ∧
        b = vin'.flatMap writeWitness ++ t := by
  constructor
  · intro h
    rw [readFlagged] at h
    split at h
    · obtain ⟨vin₁, b₁, hwit, hpure⟩ := run_bind_eq_ok.1 h
      obtain ⟨⟨hmap, hfits⟩, rfl⟩ := (codes_witnesses vin).of_get hwit
      obtain ⟨heq, rfl⟩ := run_pure_eq_ok.1 hpure
      obtain ⟨hxor, rfl⟩ := Prod.mk.inj heq
      exact ⟨flags_eq_one hxor, hmap, hfits, rfl⟩
    · obtain ⟨heq, -⟩ := run_pure_eq_ok.1 h
      exact absurd (Prod.mk.inj heq).1 hne
  · rintro ⟨rfl, hmap, hfits, rfl⟩
    rw [readFlagged, if_pos ⟨by decide, rfl⟩]
    exact run_bind_eq_ok.2 ⟨vin', t, (codes_witnesses vin).get_put ⟨hmap, hfits⟩ t, rfl⟩

/-- **What `UnserializeTransaction` accepts**: the basic format of a transaction without witnesses, unless it has
outputs and no inputs, and the extended format where witnesses are allowed. -/
theorem unserializeTransaction_eq_ok :
    unserializeTransaction fAllowWitness b = .ok (tx, t) ↔ tx.Fits ∧ ∃ w, IsFormat fAllowWitness tx w ∧ b = w ++ t := by
  rw [unserializeTransaction_parts]
  constructor
  · rintro ⟨hrange, hlocktime, b₁, flags, vin, b₂, rfl, hbody, hflagged⟩
    obtain ⟨hfit, ⟨rfl, himp, rfl⟩ | ⟨hne, rfl, rfl⟩⟩ := readInsOuts_eq_ok.1 hbody
    · obtain ⟨⟨-, rfl⟩, rfl⟩ := hflagged
      have hnil : ∀ txin ∈ tx.vin, txin.scriptWitness = [] := fun txin h => (hfit.ins.2 txin h).2
      refine ⟨⟨hrange, hlocktime, hfit.ins.1, fun txin h => ⟨(hfit.ins.2 txin h).1, ?_⟩, hfit.outs.1, hfit.outs.2⟩, _,
        .inl ⟨rfl, hasWitness_eq_false.2 hnil, himp⟩, ?_⟩
      · exact witnessFits_of_nil (hnil txin h)
      · simp [basicFormat]
    · obtain ⟨rfl, hmap, hwfits, rfl⟩ := (readFlagged_eq_ok hne).1 hflagged
      have hlen : tx.vin.length = vin.length := by simpa using congrArg List.length hmap
      refine ⟨⟨hrange, hlocktime, hlen.trans_le hfit.ins.1, fun txin h => ⟨?_, hwfits txin h⟩, hfit.outs.1,
        hfit.outs.2⟩, _, .inr ⟨rfl, rfl⟩, ?_⟩
      · have hmem : txin.stripped ∈ vin.map stripped := hmap ▸ mem_map_of_mem h
        obtain ⟨txin', hmem', heq⟩ := mem_map.1 hmem
        rw [← fits_stripped, ← heq, fits_stripped]
        exact (hfit.ins.2 txin' hmem').1
      · rw [writeVector_stripped hmap.symm]
        simp only [extendedFormat, append_assoc]
        rfl
  · rintro ⟨hfits, w, ⟨rfl, hno, himp⟩ | ⟨rfl, rfl⟩, rfl⟩
    · have hnil := hasWitness_eq_false.1 hno
      refine ⟨hfits.nVersion, hfits.nLockTime, _, 0, tx.vin, serWritedata 4 tx.nLockTime ++ t, ?_, readInsOuts_eq_ok.2
        ⟨⟨⟨hfits.vin, fun txin h => ⟨(hfits.ins txin h).1, hnil txin h⟩⟩, hfits.vout, hfits.outs⟩, .inl ⟨rfl, himp, rfl⟩⟩,
        ?_⟩
      · simp [basicFormat]
      · rfl
    · have hstripped := map_stripped_stripped tx.vin
      refine ⟨hfits.nVersion, hfits.nLockTime, _, 1, tx.vin.map stripped, _, ?_, readInsOuts_eq_ok.2
        ⟨⟨⟨by rw [length_map]; exact hfits.vin, ?_⟩, hfits.vout, hfits.outs⟩, .inr ⟨by decide, rfl, rfl⟩⟩,
        (readFlagged_eq_ok (by decide)).2 ⟨rfl, hstripped.symm, fun txin h => (hfits.ins txin h).2, rfl⟩⟩
      · rw [writeVector_stripped hstripped]
        simp only [extendedFormat, append_assoc]
        rfl
      · intro txin h
        obtain ⟨txin', hmem, rfl⟩ := mem_map.1 h
        exact ⟨fits_stripped.2 (hfits.ins txin' hmem).1, rfl⟩

end Soferox
