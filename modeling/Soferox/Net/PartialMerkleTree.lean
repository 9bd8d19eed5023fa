import Soferox.Consensus.MerkleMutation
import Soferox.Primitives.Serialize
import Soferox.Validation.Tx

/-!
# Partial merkle trees

`merkleblock.cpp` and `merkleblock.h`: `CPartialMerkleTree`, from which a part of the ids of a block can be extracted.

The two-to-one hash is a parameter. An access to a vector is checked, and one that is out of range ends the run. The sums
in `CalcTreeWidth` do not wrap, which is so for fewer than `2 ^ 31` transactions.

* `CPartialMerkleTree.build`, `CPartialMerkleTree.extractMatches`;
* `writePartialMerkleTree`, `readPartialMerkleTree` — the format, with flag bits packed in bytes.
-/

namespace Soferox

/-- `MIN_TRANSACTION_WEIGHT`: 60 is the lower bound for the size of a valid serialized transaction. -/
def MIN_TRANSACTION_WEIGHT : ℕ := WITNESS_SCALE_FACTOR * 60

structure CPartialMerkleTree where
  nTransactions : ℕ
  vBits : List Bool
  vHash : List Uint256
  fBad : Bool
  deriving DecidableEq

inductive MerkleError
  /-- an access to a vector that is out of range -/
  | outOfRange
  /-- a failed `assert` -/
  | assertFailed
  deriving DecidableEq, Repr

/-- `v[i]`. -/
def access {α : Type} (v : List α) (i : ℕ) : Except MerkleError α :=
  match v[i]? with
  | some a => .ok a
  | none => .error .outOfRange

namespace CPartialMerkleTree

/-! ## The shape of the tree -/

def calcTreeWidth (nTransactions height : ℕ) : ℕ := (nTransactions + 2 ^ height - 1) / 2 ^ height

lemma exists_calcTreeWidth_le_one (nTransactions : ℕ) : ∃ height, ¬ 1 < calcTreeWidth nTransactions height := by
  refine ⟨nTransactions, ?_⟩
  have hlt := Nat.lt_two_pow_self (n := nTransactions)
  rw [not_lt, calcTreeWidth, Nat.div_le_iff_le_mul_add_pred (by positivity)]
  omega

/-- `int nHeight = 0; while (CalcTreeWidth(nHeight) > 1) nHeight++;`. -/
def treeHeight (nTransactions : ℕ) : ℕ := Nat.find (exists_calcTreeWidth_le_one nTransactions)

/-! ## Building -/

section Build

variable (H : Uint256 → Uint256 → Uint256) (nTransactions : ℕ) (vTxid : List Uint256) (vMatch : List Bool)

def calcHash : ℕ → ℕ → Except MerkleError Uint256
  | 0, pos => if vTxid.length = 0 then .error .assertFailed else access vTxid pos
  | height + 1, pos =>
    if vTxid.length = 0 then .error .assertFailed
    else do
      let left ← calcHash height (pos * 2)
      if pos * 2 + 1 < calcTreeWidth nTransactions height then do
        let right ← calcHash height (pos * 2 + 1)
        return H left right
      else return H left left

/-- `fParentOfMatch` of `TraverseAndBuild`. -/
def parentOfMatch (height pos : ℕ) : Except MerkleError Bool :=
  (List.range' (pos * 2 ^ height) (min ((pos + 1) * 2 ^ height) nTransactions - pos * 2 ^ height)).foldlM
    (fun fParentOfMatch p => (fParentOfMatch || ·) <$> access vMatch p) false

def storeHash (height pos : ℕ) (acc : List Bool × List Uint256) : Except MerkleError (List Bool × List Uint256) := do
  let hash ← calcHash H nTransactions vTxid height pos
  return (acc.1, acc.2 ++ [hash])

/-- `TraverseAndBuild`, with `vBits` and `vHash`. -/
def traverseAndBuild : ℕ → ℕ → List Bool × List Uint256 → Except MerkleError (List Bool × List Uint256)
  | 0, pos, acc => do
    let fParentOfMatch ← parentOfMatch nTransactions vMatch 0 pos
    storeHash H nTransactions vTxid 0 pos (acc.1 ++ [fParentOfMatch], acc.2)
  | height + 1, pos, acc => do
    let fParentOfMatch ← parentOfMatch nTransactions vMatch (height + 1) pos
    if !fParentOfMatch then storeHash H nTransactions vTxid (height + 1) pos (acc.1 ++ [fParentOfMatch], acc.2)
    else do
      let acc ← traverseAndBuild height (pos * 2) (acc.1 ++ [fParentOfMatch], acc.2)
      if pos * 2 + 1 < calcTreeWidth nTransactions height then traverseAndBuild height (pos * 2 + 1) acc
      else return acc

end Build

/-- `CPartialMerkleTree::CPartialMerkleTree(vTxid, vMatch)`. -/
def build (H : Uint256 → Uint256 → Uint256) (vTxid : List Uint256) (vMatch : List Bool) :
    Except MerkleError CPartialMerkleTree := do
  let (vBits, vHash) ← traverseAndBuild H vTxid.length vTxid vMatch (treeHeight vTxid.length) 0 ([], [])
  return ⟨vTxid.length, vBits, vHash, false⟩

/-! ## Extracting -/

/-- The variables of `ExtractMatches`; `hashed` has the pairs that are hashed. -/
structure Extraction where
  nBitsUsed : ℕ
  nHashUsed : ℕ
  vMatch : List Uint256
  vnIndex : List ℕ
  fBad : Bool
  hashed : List (Uint256 × Uint256)
  deriving DecidableEq

section Extract

variable (H : Uint256 → Uint256 → Uint256) (tree : CPartialMerkleTree)

/-- A stored hash is used, for the node at `height` and `pos`. -/
def useHash (height pos : ℕ) (fParentOfMatch : Bool) (e : Extraction) : Except MerkleError (Uint256 × Extraction) :=
  if e.nHashUsed ≥ tree.vHash.length then .ok (0, { e with fBad := true })
  else do
    let hash ← access tree.vHash e.nHashUsed
    let e := { e with nHashUsed := e.nHashUsed + 1 }
    if height = 0 ∧ fParentOfMatch then return (hash, { e with vMatch := e.vMatch ++ [hash], vnIndex := e.vnIndex ++ [pos] })
    else return (hash, e)

/-- `Hash` of the two subtrees. -/
def combine (left right : Uint256) (e : Extraction) : Uint256 × Extraction :=
  (H left right, { e with hashed := e.hashed ++ [(left, right)] })

def traverseAndExtract : ℕ → ℕ → Extraction → Except MerkleError (Uint256 × Extraction)
  | 0, pos, e =>
    if e.nBitsUsed ≥ tree.vBits.length then .ok (0, { e with fBad := true })
    else do
      let fParentOfMatch ← access tree.vBits e.nBitsUsed
      useHash tree 0 pos fParentOfMatch { e with nBitsUsed := e.nBitsUsed + 1 }
  | height + 1, pos, e =>
    if e.nBitsUsed ≥ tree.vBits.length then .ok (0, { e with fBad := true })
    else do
      let fParentOfMatch ← access tree.vBits e.nBitsUsed
      if !fParentOfMatch then useHash tree (height + 1) pos fParentOfMatch { e with nBitsUsed := e.nBitsUsed + 1 }
      else do
        let (left, e) ← traverseAndExtract height (pos * 2) { e with nBitsUsed := e.nBitsUsed + 1 }
        if pos * 2 + 1 < calcTreeWidth tree.nTransactions height then do
          let (right, e) ← traverseAndExtract height (pos * 2 + 1) e
          return combine H left right { e with fBad := e.fBad || right == left }
        else return combine H left left e

/-- `ExtractMatches`, which clears `vMatch` and goes on with the `vnIndex` that it is given. -/
def extractMatches (vnIndex : List ℕ) : Except MerkleError (Uint256 × Extraction) :=
  let e : Extraction := ⟨0, 0, [], vnIndex, tree.fBad, []⟩
  if tree.nTransactions = 0 then .ok (0, e)
  else if tree.nTransactions > MAX_BLOCK_WEIGHT / MIN_TRANSACTION_WEIGHT then .ok (0, e)
  else if tree.vHash.length > tree.nTransactions then .ok (0, e)
  else if tree.vBits.length < tree.vHash.length then .ok (0, e)
  else do
    let (hashMerkleRoot, e) ← traverseAndExtract H tree (treeHeight tree.nTransactions) 0 e
    if e.fBad then return (0, e)
    else if (e.nBitsUsed + 7) / 8 ≠ (tree.vBits.length + 7) / 8 then return (0, e)
    else if e.nHashUsed ≠ tree.vHash.length then return (0, e)
    else return (hashMerkleRoot, e)

end Extract

end CPartialMerkleTree

/-! ## The format -/

/-- The loop that packs the flag bits: `vBytes[p / 8] |= vBits[p] << (p % 8)`. -/
def packBits (vBits : List Bool) : List UInt8 :=
  vBits.zipIdx.foldl (fun vBytes bit => vBytes.modify (bit.2 / 8) (· ||| UInt8.ofNat (bit.1.toNat <<< (bit.2 % 8))))
    (List.replicate ((vBits.length + 7) / 8) 0)

/-- The loop that unpacks them: `vBits[p] = (vBytes[p / 8] & (1 << (p % 8))) != 0`. -/
def unpackBits (vBytes : List UInt8) : List Bool :=
  (List.range (vBytes.length * 8)).map fun p => (vBytes.getD (p / 8) 0).toNat &&& (1 <<< (p % 8)) != 0

/-- `CPartialMerkleTree::SerializationOp`. -/
def writePartialMerkleTree (tree : CPartialMerkleTree) : List UInt8 :=
  serWritedata 4 tree.nTransactions ++ (writeVector writeUint256 tree.vHash ++ writeByteVector (packBits tree.vBits))

def readPartialMerkleTree : Stream CPartialMerkleTree := do
  let nTransactions ← serReaddata 4
  let vHash ← readVector readUint256
  let vBytes ← readByteVector
  return ⟨nTransactions, unpackBits vBytes, vHash, false⟩

end Soferox
