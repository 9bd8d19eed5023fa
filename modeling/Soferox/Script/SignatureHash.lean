import Soferox.Primitives.Serialize
import Soferox.Script.Interpreter

/-!
# Signature hashes

`SignatureHash` of `script/interpreter.cpp`, with the serializer that writes an edited view of the transaction, against
`SignatureHashOld` of `test/sighash_tests.cpp`, which edits a copy of it.

* `CTransactionSignatureSerializer.serialize`, `signatureHash` — the code;
* `signatureHashOld` — the reference;
* `serializeScriptCode_eq` — the serializer writes the script code without its `OP_CODESEPARATOR`s;
* `signatureHash_eq_old` — the two agree, for every hash type.
-/

namespace Soferox

open List Option CScript Nat

/-- `nHashType`, an `int`. -/
abbrev HashType := BitVec 32

def SIGHASH_NONE : HashType := 2
def SIGHASH_SINGLE : HashType := 3
def SIGHASH_ANYONECANPAY : HashType := 0x80

namespace HashType

/-- `(nHashType & 0x1f) == SIGHASH_NONE`. -/
def none (nHashType : HashType) : Bool := nHashType &&& 0x1f == SIGHASH_NONE

/-- `(nHashType & 0x1f) == SIGHASH_SINGLE`. -/
def single (nHashType : HashType) : Bool := nHashType &&& 0x1f == SIGHASH_SINGLE

/-- `nHashType & SIGHASH_ANYONECANPAY`. -/
def anyoneCanPay (nHashType : HashType) : Bool := nHashType &&& SIGHASH_ANYONECANPAY != 0

lemma single_of_none {nHashType : HashType} (h : none nHashType = true) : single nHashType = false := by
  rw [none, beq_iff_eq] at h
  rw [single, h]
  rfl

end HashType

/-- The constructor `CTxIn()`. -/
def CTxIn.null : CTxIn := ⟨⟨0, 0xffffffff⟩, [], 0xffffffff, []⟩

/-! ## The serializer -/

namespace CScript

/-- Where a call of `GetOp` leaves the iterator if it fails. -/
def failedAt : CScript → CScript
  | [] => []
  | opcode :: pc =>
    match pushSize opcode pc with
    | none => pc
    | some (_, pc) => pc

/-- Where the loop `while (GetOp(it, opcode))` leaves the iterator. -/
def scanEnd (script : CScript) : CScript :=
  let it := (script.instrs.1.getLast?.map Instr.rest).getD script
  if script.instrs.2 then it else failedAt it

end CScript

structure CTransactionSignatureSerializer where
  txTo : CTransaction
  scriptCode : CScript
  nIn : ℕ
  fAnyoneCanPay : Bool
  fHashSingle : Bool
  fHashNone : Bool

namespace CTransactionSignatureSerializer

def ofHashType (txTo : CTransaction) (scriptCode : CScript) (nIn : ℕ) (nHashType : HashType) :
    CTransactionSignatureSerializer where
  txTo := txTo
  scriptCode := scriptCode
  nIn := nIn
  fAnyoneCanPay := HashType.anyoneCanPay nHashType
  fHashSingle := HashType.single nHashType
  fHashNone := HashType.none nHashType

/-- The second loop of `SerializeScriptCode` and the write after it: the bytes from `itBegin` to before each
`OP_CODESEPARATOR`, and those up to `it`. -/
def writeSegments (it : CScript) : CScript → List CScript.Instr → List UInt8
  | itBegin, [] => if itBegin ≠ [] then itBegin.take (itBegin.length - it.length) else []
  | itBegin, i :: is =>
    if i.opcode = OP_CODESEPARATOR then
      itBegin.take (itBegin.length - i.rest.length - 1) ++ writeSegments it i.rest is
    else writeSegments it itBegin is

variable (s : CTransactionSignatureSerializer)

def serializeScriptCode : List UInt8 :=
  let nCodeSeparators := s.scriptCode.instrs.1.countP (·.opcode = OP_CODESEPARATOR)
  writeCompactSize (s.scriptCode.length - nCodeSeparators) ++
    writeSegments s.scriptCode.scanEnd s.scriptCode s.scriptCode.instrs.1

def serializeInput (nInput : ℕ) : List UInt8 :=
  let nInput := if s.fAnyoneCanPay then s.nIn else nInput
  let txin := s.txTo.vin.getD nInput CTxIn.null
  writeOutPoint txin.prevout ++
  (if nInput ≠ s.nIn then writeByteVector [] else s.serializeScriptCode) ++
  (if nInput ≠ s.nIn ∧ (s.fHashSingle ∨ s.fHashNone) then serWritedata 4 0 else serWritedata 4 txin.nSequence)

def serializeOutput (nOutput : ℕ) : List UInt8 :=
  if s.fHashSingle ∧ nOutput ≠ s.nIn then writeTxOut CTxOut.null
  else writeTxOut (s.txTo.vout.getD nOutput CTxOut.null)

def nInputs : ℕ := if s.fAnyoneCanPay then 1 else s.txTo.vin.length
def nOutputs : ℕ := if s.fHashNone then 0 else if s.fHashSingle then s.nIn + 1 else s.txTo.vout.length

def serialize : List UInt8 :=
  writeInt 4 s.txTo.nVersion ++
  writeCompactSize s.nInputs ++ (List.range s.nInputs).flatMap s.serializeInput ++
  writeCompactSize s.nOutputs ++ (List.range s.nOutputs).flatMap s.serializeOutput ++
  serWritedata 4 s.txTo.nLockTime

end CTransactionSignatureSerializer

open CTransactionSignatureSerializer

/-! ## `SignatureHash` -/

section Hash

-- `CHashWriter::GetHash`
variable (hash : List UInt8 → Uint256)

def getPrevoutHash (txTo : CTransaction) : Uint256 := hash (txTo.vin.flatMap fun txin => writeOutPoint txin.prevout)
def getSequenceHash (txTo : CTransaction) : Uint256 := hash (txTo.vin.flatMap fun txin => serWritedata 4 txin.nSequence)
def getOutputsHash (txTo : CTransaction) : Uint256 := hash (txTo.vout.flatMap writeTxOut)

structure PrecomputedTransactionData where
  hashPrevouts : Uint256
  hashSequence : Uint256
  hashOutputs : Uint256
  ready : Bool
  deriving DecidableEq, Repr

def PrecomputedTransactionData.ofTransaction (txTo : CTransaction) : PrecomputedTransactionData :=
  if txTo.hasWitness then ⟨getPrevoutHash hash txTo, getSequenceHash hash txTo, getOutputsHash hash txTo, true⟩
  else ⟨0, 0, 0, false⟩

/-- A hash from the cache, if that is ready. -/
def cachedHash (cache : Option PrecomputedTransactionData) (field : PrecomputedTransactionData → Uint256)
    (computed : Uint256) : Uint256 :=
  match cache with
  | none => computed
  | some cache => if cache.ready then field cache else computed

/-- The branch of `SignatureHash` for witness programs. -/
def witnessSignatureHash (scriptCode : CScript) (txTo : CTransaction) (nIn : ℕ) (nHashType : HashType) (amount : CAmount)
    (cache : Option PrecomputedTransactionData) : Uint256 :=
  let anyoneCanPay := HashType.anyoneCanPay nHashType
  let single := HashType.single nHashType
  let none := HashType.none nHashType
  let hashPrevouts :=
    if !anyoneCanPay then cachedHash cache (·.hashPrevouts) (getPrevoutHash hash txTo) else 0
  let hashSequence :=
    if !anyoneCanPay && !single && !none then cachedHash cache (·.hashSequence) (getSequenceHash hash txTo) else 0
  let hashOutputs :=
    if !single && !none then cachedHash cache (·.hashOutputs) (getOutputsHash hash txTo)
    else if single && nIn < txTo.vout.length then hash (writeTxOut (txTo.vout.getD nIn CTxOut.null))
    else 0
  let txin := txTo.vin.getD nIn CTxIn.null
  hash (writeInt 4 txTo.nVersion ++ writeUint256 hashPrevouts ++ writeUint256 hashSequence ++
    writeOutPoint txin.prevout ++ writeByteVector scriptCode ++ writeInt 8 amount ++ serWritedata 4 txin.nSequence ++
    writeUint256 hashOutputs ++ serWritedata 4 txTo.nLockTime ++ serWritedata 4 nHashType.toNat)

/-- `SignatureHash`; `none` where its assertion fails. -/
def signatureHash (scriptCode : CScript) (txTo : CTransaction) (nIn : ℕ) (nHashType : HashType) (amount : CAmount)
    (sigversion : SigVersion) (cache : Option PrecomputedTransactionData) : Option Uint256 :=
  if nIn < txTo.vin.length then
    match sigversion with
    | .WITNESS_V0 => some (witnessSignatureHash hash scriptCode txTo nIn nHashType amount cache)
    | .BASE =>
      if HashType.single nHashType ∧ nIn ≥ txTo.vout.length then some 1
      else
        let txTmp := CTransactionSignatureSerializer.ofHashType txTo scriptCode nIn nHashType
        some (hash (txTmp.serialize ++ serWritedata 4 nHashType.toNat))
  else none

/-! ## The reference -/

/-- The loop that lets the other inputs update at will. -/
def blankSequences (nIn : ℕ) (vin : List CTxIn) : List CTxIn :=
  vin.mapIdx fun i txin => if i ≠ nIn then { txin with nSequence := 0 } else txin

/-- The edits by `nHashType & 0x1f`; `none` where there is no output for the input. -/
def blankOutputs (nIn : ℕ) (nHashType : HashType) (vin : List CTxIn) (vout : List CTxOut) :
    Option (List CTxIn × List CTxOut) :=
  if HashType.none nHashType then some (blankSequences nIn vin, [])
  else if HashType.single nHashType then
    if nIn ≥ vout.length then none
    else
      some (blankSequences nIn vin, (vout.take (nIn + 1)).mapIdx fun i txout => if i < nIn then CTxOut.null else txout)
  else some (vin, vout)

/-- The inputs with the script code in place of all scripts. -/
def blankScripts (nIn : ℕ) (scriptCode : CScript) (vin : List CTxIn) : List CTxIn :=
  (vin.map fun txin => { txin with scriptSig := [] }).modify nIn fun txin => { txin with scriptSig := scriptCode }

def signatureHashOld (scriptCode : CScript) (txTo : CTransaction) (nIn : ℕ) (nHashType : HashType) : Uint256 :=
  if nIn ≥ txTo.vin.length then 1
  else
    let scriptCode := scriptCode.findAndDelete [OP_CODESEPARATOR]
    match blankOutputs nIn nHashType (blankScripts nIn scriptCode txTo.vin) txTo.vout with
    | none => 1
    | some (vin, vout) =>
      let vin := if HashType.anyoneCanPay nHashType then [vin.getD nIn CTxIn.null] else vin
      hash (serializeTransaction false ⟨vin, vout, txTo.nVersion, txTo.nLockTime⟩ ++ serWritedata 4 nHashType.toNat)

end Hash

/-! ## Script code -/

variable {pc : CScript} {i : Instr}

namespace CScript

/-- The bytes of the instructions that are not `OP_CODESEPARATOR`, from `pc` on. -/
def keep : List Instr → CScript → CScript
  | [], _ => []
  | i :: is, pc =>
    (if i.opcode = OP_CODESEPARATOR then [] else pc.take (pc.length - i.rest.length)) ++ keep is i.rest

lemma instrs_of_parses_nil (h : pc.instrs.2 = true) (hop : getOp pc = none) : pc = [] := by
  cases pc with
  | nil => rfl
  | cons b pc =>
    simp only [instrs, length_cons, instrsFrom, hop] at h
    cases h

lemma induction_of_parses {motive : (pc : CScript) → pc.instrs.2 = true → Prop} (nil : motive [] rfl)
    (step : ∀ pc i (h : pc.instrs.2 = true) (_ : getOp pc = some i) (hrest : i.rest.instrs.2 = true),
      motive i.rest hrest → motive pc h) (pc : CScript) (h : pc.instrs.2 = true) : motive pc h := by
  induction hn : pc.length using Nat.strong_induction_on generalizing pc with
  | _ n ih =>
    cases pc with
    | nil => exact nil
    | cons b pc =>
      cases hop : getOp (b :: pc) with
      | none =>
        exact absurd (instrs_of_parses_nil h hop) (cons_ne_nil b pc)
      | some i =>
        have hlt := getOp_rest_lt hop
        have hrest : i.rest.instrs.2 = true := by rwa [instrs_of_getOp hop] at h
        exact step _ i h hop hrest (ih _ (hn ▸ hlt) i.rest hrest rfl)

lemma getOp_codeSeparator (pc : CScript) : getOp (OP_CODESEPARATOR :: pc) = some ⟨OP_CODESEPARATOR, [], pc⟩ := by
  rw [getOp, if_neg (by decide)]

lemma getOp_suffix (h : getOp pc = some i) : i.rest <:+ pc := by
  cases pc with
  | nil => cases h
  | cons opcode pc => exact (getOp_cons h).2.trans (suffix_cons _ _)

lemma eq_cons_of_codeSeparator (h : getOp pc = some i) (hi : i.opcode = OP_CODESEPARATOR) :
    pc = OP_CODESEPARATOR :: i.rest := by
  cases pc with
  | nil => cases h
  | cons opcode pc =>
    obtain rfl : OP_CODESEPARATOR = opcode := hi.symm.trans (getOp_cons h).1
    cases h
    rfl

variable {script : CScript}

lemma scanEnd_of_parses (h : script.instrs.2 = true) : script.scanEnd = [] := by
  rw [scanEnd]
  induction script, h using induction_of_parses with
  | nil => rfl
  | step pc i h hop hrest ih =>
    rw [instrs_of_getOp hop]
    rw [getLast?_cons]
    cases hlast : i.rest.instrs.1.getLast? with
    | none =>
      rw [hlast] at ih
      exact ih
    | some j =>
      rw [hlast] at ih
      exact ih

lemma length_keep (h : script.instrs.2 = true) :
    (keep script.instrs.1 script).length + script.instrs.1.countP (·.opcode = OP_CODESEPARATOR) = script.length := by
  induction script, h using induction_of_parses with
  | nil => rfl
  | step pc i h hop hrest ih =>
    have hlt := getOp_rest_lt hop
    rw [instrs_of_getOp hop, keep, length_append, countP_cons]
    by_cases hi : i.opcode = OP_CODESEPARATOR
    · have hlen := congrArg List.length (eq_cons_of_codeSeparator hop hi)
      rw [length_cons] at hlen
      simp only [hi, if_true, length_nil, decide_true]
      omega
    · simp only [hi, if_false, length_take, decide_false, Bool.false_eq_true]
      omega

lemma keep_dropCopies (fuel : ℕ) (pc : CScript) :
    keep (dropCopies [OP_CODESEPARATOR] fuel pc).instrs.1 (dropCopies [OP_CODESEPARATOR] fuel pc) =
      keep pc.instrs.1 pc ∧ (dropCopies [OP_CODESEPARATOR] fuel pc).instrs.2 = pc.instrs.2 := by
  induction fuel generalizing pc with
  | zero => exact ⟨rfl, rfl⟩
  | succ fuel ih =>
    rw [dropCopies]
    split_ifs with hpre
    · obtain ⟨rest, rfl⟩ := isPrefixOf_iff_prefix.1 hpre
      have hop := getOp_codeSeparator rest
      rw [drop_left, singleton_append, instrs_of_getOp hop, keep, if_pos rfl, nil_append]
      exact ih rest
    · exact ⟨rfl, rfl⟩

lemma dropCopies_suffix (b : CScript) (fuel : ℕ) (pc : CScript) : dropCopies b fuel pc <:+ pc := by
  induction fuel generalizing pc with
  | zero => exact suffix_rfl
  | succ fuel ih =>
    rw [dropCopies]
    split
    · exact (ih _).trans (drop_suffix _ _)
    · exact suffix_rfl

/-- What is left has no `OP_CODESEPARATOR` at the front, with fuel for every byte. -/
theorem not_prefix_dropCopies {fuel : ℕ} (h : pc.length ≤ fuel) :
    ∀ rest, dropCopies [OP_CODESEPARATOR] fuel pc ≠ OP_CODESEPARATOR :: rest := by
  induction fuel generalizing pc with
  | zero =>
    intro rest hrest
    rw [dropCopies] at hrest
    rw [hrest] at h
    exact absurd h (by simp)
  | succ fuel ih =>
    rw [dropCopies]
    split_ifs with hpre
    · refine ih ?_
      rw [length_drop, length_singleton]
      omega
    · rintro rest rfl
      exact hpre <| isPrefixOf_iff_prefix.2 ⟨rest, rfl⟩

lemma findAndDelete_codeSeparator (h : script.instrs.2 = true) :
    script.findAndDelete [OP_CODESEPARATOR] = keep script.instrs.1 script := by
  have hall : ∀ fuel pc, pc.length < fuel → pc.instrs.2 = true →
      findAndDeleteFrom [OP_CODESEPARATOR] fuel pc = keep pc.instrs.1 pc := by
    intro fuel
    induction fuel with
    | zero => exact fun pc hlt => absurd hlt (not_lt_zero _)
    | succ fuel ih =>
      intro pc hlt hpc
      obtain ⟨hkeep, hparses⟩ := keep_dropCopies pc.length pc
      have hfirst := not_prefix_dropCopies (le_refl pc.length)
      have hle := (dropCopies_suffix [OP_CODESEPARATOR] pc.length pc).length_le
      rw [findAndDeleteFrom, ← hkeep]
      generalize dropCopies [OP_CODESEPARATOR] pc.length pc = pc2 at *
      rw [hpc] at hparses
      cases hop : getOp pc2 with
      | none =>
        obtain rfl := instrs_of_parses_nil hparses hop
        rfl
      | some i =>
        have hrest := getOp_rest_lt hop
        have hne : i.opcode ≠ OP_CODESEPARATOR := fun hi => hfirst i.rest (eq_cons_of_codeSeparator hop hi)
        rw [instrs_of_getOp hop] at hparses ⊢
        rw [keep, if_neg hne, ← ih i.rest (by omega) hparses]
  exact hall _ script (lt_succ_self _) h

end CScript

/-- What the loop of `SerializeScriptCode` writes, from an instruction boundary `pc` on. -/
theorem writeSegments_eq (h : pc.instrs.2 = true) (itBegin : CScript) (hsuffix : pc <:+ itBegin) :
    writeSegments [] itBegin pc.instrs.1 =
      itBegin.take (itBegin.length - pc.length) ++ keep pc.instrs.1 pc := by
  induction pc, h using induction_of_parses generalizing itBegin with
  | nil =>
    show (if itBegin ≠ [] then itBegin.take (itBegin.length - 0) else []) = itBegin.take (itBegin.length - 0) ++ []
    rw [Nat.sub_zero, take_length, append_nil]
    split_ifs with hnil
    · rfl
    · exact (not_not.1 hnil).symm
  | step pc i h hop hrest ih =>
    obtain ⟨front, rfl⟩ := hsuffix
    have hpc := getOp_suffix hop
    have hfront : (front ++ pc).take ((front ++ pc).length - pc.length) = front := by
      rw [length_append, Nat.add_sub_cancel, take_left]
    rw [instrs_of_getOp hop, writeSegments, keep, hfront]
    split_ifs with hi
    · have hcons := eq_cons_of_codeSeparator hop hi
      have htake : (front ++ pc).take ((front ++ pc).length - i.rest.length - 1) = front := by
        rw [show (front ++ pc).length - i.rest.length - 1 = (front ++ pc).length - pc.length by
          rw [congrArg List.length hcons, length_cons]; omega, hfront]
      rw [htake, ih i.rest suffix_rfl, Nat.sub_self, take_zero]
    · obtain ⟨piece, hpiece⟩ := hpc
      have htake : (front ++ pc).take ((front ++ pc).length - i.rest.length) =
          front ++ pc.take (pc.length - i.rest.length) := by
        rw [← hpiece, ← append_assoc, length_append, Nat.add_sub_cancel, take_left, length_append,
          Nat.add_sub_cancel, take_left]
      rw [ih (front ++ pc) (hpiece ▸ (suffix_append piece _).trans (suffix_append front _)), htake, append_assoc]

/-- **The script code** is written as the reference has it. -/
theorem serializeScriptCode_eq (s : CTransactionSignatureSerializer) (h : s.scriptCode.instrs.2 = true) :
    s.serializeScriptCode = writeByteVector (s.scriptCode.findAndDelete [OP_CODESEPARATOR]) := by
  have hlen := length_keep h
  rw [serializeScriptCode, scanEnd_of_parses h,
    writeSegments_eq h s.scriptCode suffix_rfl, Nat.sub_self,
    findAndDelete_codeSeparator h]
  congr 2
  omega

/-! ## Inputs and outputs -/

lemma flatMap_range_eq {α : Type} {l : List α} {n : ℕ} (hlen : l.length = n) {f : ℕ → List UInt8}
    {g : α → List UInt8} (h : ∀ i a, l[i]? = some a → f i = g a) : (range n).flatMap f = l.flatMap g := by
  subst hlen
  have hmap : (range l.length).map f = l.map g := by
    refine ext_getElem (by simp) fun i hi hi' => ?_
    rw [length_map] at hi'
    rw [getElem_map, getElem_map, getElem_range]
    exact h i _ (getElem?_eq_getElem hi')
  rw [flatMap_def, flatMap_def, hmap]

section Edit

variable (txTo : CTransaction) (scriptCode : CScript) (nIn : ℕ) (nHashType : HashType)

/-- An input as it is signed: with the script code in the input `nIn`, and no sequence numbers of the others for two
hash types. -/
def signedInput (code : CScript) (i : ℕ) (txin : CTxIn) : CTxIn :=
  { txin with
    scriptSig := if i = nIn then code else []
    nSequence :=
      if i ≠ nIn ∧ (HashType.single nHashType ∨ HashType.none nHashType) then 0 else txin.nSequence }

lemma blankScripts_getElem? (code : CScript) (vin : List CTxIn) (i : ℕ) : (blankScripts nIn code vin)[i]? =
    vin[i]?.map fun txin => { txin with scriptSig := if i = nIn then code else [] } := by
  rw [blankScripts, getElem?_modify, getElem?_map]
  by_cases hi : i = nIn
  · subst hi
    simp [Function.comp_def]
  · simp [hi, Ne.symm hi]

lemma blankSequences_getElem? (vin : List CTxIn) (i : ℕ) :
    (blankSequences nIn vin)[i]? = vin[i]?.map fun txin => if i ≠ nIn then { txin with nSequence := 0 } else txin := by
  rw [blankSequences, getElem?_mapIdx]

variable {nIn nHashType}

/-- The edited copy, by the hash type: the inputs, and the outputs that are left. -/
theorem blankOutputs_eq_some {code : CScript} {vin vin' : List CTxIn} {vout vout' : List CTxOut}
    (h : blankOutputs nIn nHashType (blankScripts nIn code vin) vout = some (vin', vout')) :
    vin' = vin.mapIdx (signedInput nIn nHashType code) ∧
    (HashType.none nHashType ∧ vout' = [] ∨
      HashType.single nHashType ∧ nIn < vout.length ∧
        vout' = (vout.take (nIn + 1)).mapIdx (fun i txout => if i < nIn then CTxOut.null else txout) ∨
      ¬HashType.none nHashType ∧ ¬HashType.single nHashType ∧ vout' = vout) := by
  have hsequences : (HashType.single nHashType ∨ HashType.none nHashType) →
      blankSequences nIn (blankScripts nIn code vin) = vin.mapIdx (signedInput nIn nHashType code) := by
    intro hblank
    refine ext_getElem? fun i => ?_
    rw [blankSequences_getElem?, blankScripts_getElem?, Option.map_map, getElem?_mapIdx]
    refine Option.map_congr fun txin _ => ?_
    by_cases hi : i = nIn
    · simp [signedInput, hi]
    · simp [signedInput, hi, hblank]
  rw [blankOutputs] at h
  split at h
  · rename_i hnone
    cases h
    exact ⟨hsequences (.inr hnone), .inl ⟨hnone, rfl⟩⟩
  · rename_i hnone
    split at h
    · rename_i hsingle
      split at h
      · cases h
      · rename_i hlt
        cases h
        exact ⟨hsequences (.inl hsingle), .inr (.inl ⟨hsingle, not_le.1 hlt, rfl⟩)⟩
    · rename_i hsingle
      cases h
      refine ⟨ext_getElem? fun i => ?_, .inr (.inr ⟨hnone, hsingle, rfl⟩)⟩
      rw [blankScripts_getElem?, getElem?_mapIdx]
      refine Option.map_congr fun txin _ => ?_
      simp [signedInput, hnone, hsingle]

variable {txTo scriptCode}

lemma serializeInput_eq (h : scriptCode.instrs.2 = true) {i j : ℕ} {txin : CTxIn}
    (hj : j = if HashType.anyoneCanPay nHashType then nIn else i) (htxin : txTo.vin[j]? = some txin) :
    (ofHashType txTo scriptCode nIn nHashType).serializeInput i =
      writeTxIn (signedInput nIn nHashType (scriptCode.findAndDelete [OP_CODESEPARATOR]) j txin) := by
  have hcode := serializeScriptCode_eq (ofHashType txTo scriptCode nIn nHashType) h
  have hindex : (if (ofHashType txTo scriptCode nIn nHashType).fAnyoneCanPay then nIn
      else i) = j := by
    rw [hj]
    rfl
  have hget : txTo.vin.getD j CTxIn.null = txin := by rw [getD_eq_getElem?_getD, htxin, getD_some]
  rw [serializeInput]
  simp only [show (ofHashType txTo scriptCode nIn nHashType).nIn = nIn from rfl,
    show (ofHashType txTo scriptCode nIn nHashType).txTo = txTo from rfl, hindex, hget,
    hcode, writeTxIn, signedInput]
  by_cases hin : j = nIn
  · simp [hin, ofHashType]
  · by_cases hblank : HashType.single nHashType ∨ HashType.none nHashType
    · simp [hin, hblank, ofHashType]
    · simp [hin, hblank, ofHashType]

variable {vin : List CTxIn}

lemma serializeInputs_eq (h : scriptCode.instrs.2 = true) (hnIn : nIn < txTo.vin.length)
    (hvin : vin = txTo.vin.mapIdx (signedInput nIn nHashType (scriptCode.findAndDelete [OP_CODESEPARATOR]))) :
    let s := ofHashType txTo scriptCode nIn nHashType
    writeCompactSize s.nInputs ++ (range s.nInputs).flatMap s.serializeInput =
      writeVector writeTxIn (if HashType.anyoneCanPay nHashType then [vin.getD nIn CTxIn.null] else vin) := by
  intro s
  have hlen : vin.length = txTo.vin.length := by rw [hvin, length_mapIdx]
  rw [writeVector, nInputs]
  by_cases hany : HashType.anyoneCanPay nHashType = true
  · -- only the input `nIn`
    have hget : vin.getD nIn CTxIn.null =
        signedInput nIn nHashType (scriptCode.findAndDelete [OP_CODESEPARATOR]) nIn txTo.vin[nIn] := by
      rw [getD_eq_getElem?_getD, hvin, getElem?_mapIdx, getElem?_eq_getElem hnIn]
      rfl
    have hinput : s.serializeInput 0 =
        writeTxIn (signedInput nIn nHashType (scriptCode.findAndDelete [OP_CODESEPARATOR]) nIn txTo.vin[nIn]) :=
      serializeInput_eq h (if_pos hany).symm (getElem?_eq_getElem hnIn)
    rw [if_pos hany, if_pos (show s.fAnyoneCanPay = true from hany), hget]
    simpa using hinput
  · rw [if_neg hany, if_neg (show ¬s.fAnyoneCanPay = true from hany), hlen]
    congr 1
    refine flatMap_range_eq hlen fun i txin hi => ?_
    rw [hvin, getElem?_mapIdx, map_eq_some_iff] at hi
    obtain ⟨txin, htxin, rfl⟩ := hi
    exact serializeInput_eq h (if_neg hany).symm htxin

variable {vout : List CTxOut}

variable (scriptCode) in
lemma serializeOutputs_eq
    (hvout : HashType.none nHashType ∧ vout = [] ∨
      HashType.single nHashType ∧ nIn < txTo.vout.length ∧
        vout = (txTo.vout.take (nIn + 1)).mapIdx (fun i txout => if i < nIn then CTxOut.null else txout) ∨
      ¬HashType.none nHashType ∧ ¬HashType.single nHashType ∧ vout = txTo.vout) :
    let s := ofHashType txTo scriptCode nIn nHashType
    writeCompactSize s.nOutputs ++ (range s.nOutputs).flatMap s.serializeOutput = writeVector writeTxOut vout := by
  intro s
  rw [writeVector, nOutputs]
  rcases hvout with ⟨hnone, rfl⟩ | ⟨hsingle, hlt, rfl⟩ | ⟨hnone, hsingle, rfl⟩
  · rw [if_pos (show s.fHashNone = true from hnone)]
    rfl
  · have hnone : ¬s.fHashNone = true := fun hnone => by
      rw [HashType.single_of_none hnone] at hsingle
      cases hsingle
    have hlen : ((txTo.vout.take (nIn + 1)).mapIdx (fun i txout => if i < nIn then CTxOut.null else txout)).length =
        nIn + 1 := by
      rw [length_mapIdx, length_take_of_le hlt]
    rw [if_neg hnone, if_pos (show s.fHashSingle = true from hsingle), hlen]
    congr 1
    refine flatMap_range_eq hlen fun i txout hi => ?_
    rw [getElem?_mapIdx, map_eq_some_iff] at hi
    obtain ⟨txout, htake, rfl⟩ := hi
    obtain ⟨hi, htxout⟩ : i < nIn + 1 ∧ txTo.vout[i]? = some txout := by
      rw [getElem?_take] at htake
      split at htake
      · exact ⟨‹_›, htake⟩
      · cases htake
    rw [serializeOutput]
    by_cases hi' : i < nIn
    · rw [if_pos ⟨hsingle, show i ≠ nIn by omega⟩, if_pos hi']
    · obtain rfl : i = nIn := by omega
      rw [if_neg (fun h => h.2 rfl), if_neg hi', getD_eq_getElem?_getD, show s.txTo = txTo from rfl, htxout, getD_some]
  · rw [if_neg (show ¬s.fHashNone = true from hnone), if_neg (show ¬s.fHashSingle = true from hsingle)]
    congr 1
    refine flatMap_range_eq rfl fun i txout htxout => ?_
    rw [serializeOutput, if_neg (fun h => hsingle h.1), getD_eq_getElem?_getD, htxout,
      getD_some]

lemma serialize_eq_old (h : scriptCode.instrs.2 = true) (hnIn : nIn < txTo.vin.length)
    (hedit : blankOutputs nIn nHashType (blankScripts nIn (scriptCode.findAndDelete [OP_CODESEPARATOR]) txTo.vin)
      txTo.vout = some (vin, vout)) :
    (ofHashType txTo scriptCode nIn nHashType).serialize =
      serializeTransaction false ⟨if HashType.anyoneCanPay nHashType then [vin.getD nIn CTxIn.null] else vin, vout,
        txTo.nVersion, txTo.nLockTime⟩ := by
  obtain ⟨hvin, hvout⟩ := blankOutputs_eq_some hedit
  have hins := serializeInputs_eq h hnIn hvin
  have houts := serializeOutputs_eq scriptCode hvout
  rw [serializeTransaction_eq, Bool.false_and, if_neg Bool.false_ne_true, basicFormat, ← hins, ← houts,
    serialize]
  simp only [append_assoc]
  rfl

lemma blankOutputs_eq_none :
    blankOutputs nIn nHashType vin vout = none ↔ HashType.single nHashType ∧ nIn ≥ vout.length := by
  rw [blankOutputs]
  constructor
  · intro h
    split at h
    · cases h
    · split at h
      · rename_i hsingle
        split at h
        · rename_i hge
          exact ⟨hsingle, hge⟩
        · cases h
      · cases h
  · rintro ⟨hsingle, hge⟩
    have hnone : ¬HashType.none nHashType = true := fun hnone => by
      rw [HashType.single_of_none hnone] at hsingle
      cases hsingle
    rw [if_neg hnone, if_pos hsingle, if_pos hge]

end Edit

lemma cachedHash_ofTransaction (hash : List UInt8 → Uint256) (txTo : CTransaction)
    (field : PrecomputedTransactionData → Uint256) {computed : Uint256}
    (h : field ⟨getPrevoutHash hash txTo, getSequenceHash hash txTo, getOutputsHash hash txTo, true⟩ = computed) :
    cachedHash (some (PrecomputedTransactionData.ofTransaction hash txTo)) field computed = computed := by
  rw [PrecomputedTransactionData.ofTransaction]
  split
  · exact h
  · rfl

/-- **Signature hashes**: without witness, the code hashes what the reference hashes, for every script code that
parses to its end; with witness, a cache makes no difference. -/
theorem signatureHash_eq_old (hash : List UInt8 → Uint256) (scriptCode : CScript) (txTo : CTransaction) (nIn : ℕ)
    (nHashType : HashType) (amount : CAmount) (cache : Option PrecomputedTransactionData) (hnIn : nIn < txTo.vin.length)
    (hparses : scriptCode.instrs.2 = true) :
    signatureHash hash scriptCode txTo nIn nHashType amount .BASE cache =
      some (signatureHashOld hash scriptCode txTo nIn nHashType) ∧
    signatureHash hash scriptCode txTo nIn nHashType amount .WITNESS_V0
        (some (PrecomputedTransactionData.ofTransaction hash txTo)) =
      signatureHash hash scriptCode txTo nIn nHashType amount .WITNESS_V0 none := by
  constructor
  · rw [signatureHash, if_pos hnIn, signatureHashOld, if_neg (not_le.2 hnIn)]
    dsimp only
    cases hedit : blankOutputs nIn nHashType
        (blankScripts nIn (scriptCode.findAndDelete [OP_CODESEPARATOR]) txTo.vin) txTo.vout with
    | none => rw [if_pos (blankOutputs_eq_none.1 hedit)]
    | some copy =>
      have hkept : ¬(HashType.single nHashType ∧ nIn ≥ txTo.vout.length) := by
        intro hgiven
        rw [blankOutputs_eq_none.2 hgiven] at hedit
        cases hedit
      rw [if_neg hkept, serialize_eq_old hparses hnIn hedit]
  · rw [signatureHash, signatureHash, if_pos hnIn, if_pos hnIn]
    rw [witnessSignatureHash, cachedHash_ofTransaction hash txTo _ rfl, cachedHash_ofTransaction hash txTo _ rfl,
      cachedHash_ofTransaction hash txTo _ rfl]
    rfl

def twoInOneOut : CTransaction := ⟨0, 1, [⟨⟨7, 0⟩, [], 1, []⟩, ⟨⟨8, 1⟩, [], 2, []⟩], [⟨5, []⟩], 0⟩

/-- The first input signed with `SIGHASH_SINGLE`, for a script code with two separators. -/
theorem signatureHash_eq_old_twoInOneOut :
    CScript.instrs [OP_CODESEPARATOR, OP_DUP, OP_CODESEPARATOR, OP_CHECKSIG] =
      ([⟨OP_CODESEPARATOR, [], [OP_DUP, OP_CODESEPARATOR, OP_CHECKSIG]⟩, ⟨OP_DUP, [], [OP_CODESEPARATOR, OP_CHECKSIG]⟩,
        ⟨OP_CODESEPARATOR, [], [OP_CHECKSIG]⟩, ⟨OP_CHECKSIG, [], []⟩], true) ∧
    signatureHash (fun b => BitVec.ofNat 256 (CScriptNum.leNat b)) [OP_CODESEPARATOR, OP_DUP, OP_CODESEPARATOR, OP_CHECKSIG]
        twoInOneOut 0 SIGHASH_SINGLE 5 .BASE none =
      some (signatureHashOld (fun b => BitVec.ofNat 256 (CScriptNum.leNat b))
        [OP_CODESEPARATOR, OP_DUP, OP_CODESEPARATOR, OP_CHECKSIG] twoInOneOut 0 SIGHASH_SINGLE) := by
  refine ⟨by decide, (signatureHash_eq_old _ _ twoInOneOut 0 SIGHASH_SINGLE 5 none (by decide) ?_).1⟩
  decide

end Soferox
