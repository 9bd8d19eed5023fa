import Mathlib.Tactic

/-!
# Scripts as bytes: opcodes, instruction parsing, script patterns

The byte layer of `script/script.h` and `script/script.cpp`.

* `CScript.getOp` — `CScript::GetOp2`, one instruction off the front of a script;
* `CScript.instrs` — all instructions that `GetOp` reads one after another, and whether it reached the end: every
  loop of the source of the form `while (pc < end()) { if (!GetOp(pc, ..)) ..; .. }` is a fold over it;
* `CScript.isPayToScriptHash`, `CScript.isWitnessProgram`, `CScript.isPushOnly`, `CScript.isUnspendable`,
  `CScript.getSigOpCount`, `CScript.findAndDelete`.

An iterator `pc` into a script is the list of the bytes from `pc` to `end()`.
-/

namespace Soferox

open List

/-- A byte vector (`valtype`). -/
abbrev Valtype := List UInt8

/-- A serialized script (`CScript`, a `prevector` of bytes). -/
abbrev CScript := List UInt8

/-- `opcodetype`: any byte can be cast to it, and the interpreter compares opcodes as numbers. -/
abbrev Opcodetype := UInt8

/-! ## Opcodes and limits -/

def OP_0 : Opcodetype := 0x00
def OP_PUSHDATA1 : Opcodetype := 0x4c
def OP_PUSHDATA2 : Opcodetype := 0x4d
def OP_PUSHDATA4 : Opcodetype := 0x4e
def OP_1NEGATE : Opcodetype := 0x4f
def OP_1 : Opcodetype := 0x51
def OP_16 : Opcodetype := 0x60
def OP_NOP : Opcodetype := 0x61
def OP_IF : Opcodetype := 0x63
def OP_NOTIF : Opcodetype := 0x64
def OP_ELSE : Opcodetype := 0x67
def OP_ENDIF : Opcodetype := 0x68
def OP_VERIFY : Opcodetype := 0x69
def OP_RETURN : Opcodetype := 0x6a
def OP_TOALTSTACK : Opcodetype := 0x6b
def OP_FROMALTSTACK : Opcodetype := 0x6c
def OP_2DROP : Opcodetype := 0x6d
def OP_2DUP : Opcodetype := 0x6e
def OP_3DUP : Opcodetype := 0x6f
def OP_2OVER : Opcodetype := 0x70
def OP_2ROT : Opcodetype := 0x71
def OP_2SWAP : Opcodetype := 0x72
def OP_IFDUP : Opcodetype := 0x73
def OP_DEPTH : Opcodetype := 0x74
def OP_DROP : Opcodetype := 0x75
def OP_DUP : Opcodetype := 0x76
def OP_NIP : Opcodetype := 0x77
def OP_OVER : Opcodetype := 0x78
def OP_PICK : Opcodetype := 0x79
def OP_ROLL : Opcodetype := 0x7a
def OP_ROT : Opcodetype := 0x7b
def OP_SWAP : Opcodetype := 0x7c
def OP_TUCK : Opcodetype := 0x7d
def OP_CAT : Opcodetype := 0x7e
def OP_SUBSTR : Opcodetype := 0x7f
def OP_LEFT : Opcodetype := 0x80
def OP_RIGHT : Opcodetype := 0x81
def OP_SIZE : Opcodetype := 0x82
def OP_INVERT : Opcodetype := 0x83
def OP_AND : Opcodetype := 0x84
def OP_OR : Opcodetype := 0x85
def OP_XOR : Opcodetype := 0x86
def OP_EQUAL : Opcodetype := 0x87
def OP_EQUALVERIFY : Opcodetype := 0x88
def OP_1ADD : Opcodetype := 0x8b
def OP_1SUB : Opcodetype := 0x8c
def OP_2MUL : Opcodetype := 0x8d
def OP_2DIV : Opcodetype := 0x8e
def OP_NEGATE : Opcodetype := 0x8f
def OP_ABS : Opcodetype := 0x90
def OP_NOT : Opcodetype := 0x91
def OP_0NOTEQUAL : Opcodetype := 0x92
def OP_ADD : Opcodetype := 0x93
def OP_SUB : Opcodetype := 0x94
def OP_MUL : Opcodetype := 0x95
def OP_DIV : Opcodetype := 0x96
def OP_MOD : Opcodetype := 0x97
def OP_LSHIFT : Opcodetype := 0x98
def OP_RSHIFT : Opcodetype := 0x99
def OP_BOOLAND : Opcodetype := 0x9a
def OP_BOOLOR : Opcodetype := 0x9b
def OP_NUMEQUAL : Opcodetype := 0x9c
def OP_NUMEQUALVERIFY : Opcodetype := 0x9d
def OP_NUMNOTEQUAL : Opcodetype := 0x9e
def OP_LESSTHAN : Opcodetype := 0x9f
def OP_GREATERTHAN : Opcodetype := 0xa0
def OP_LESSTHANOREQUAL : Opcodetype := 0xa1
def OP_GREATERTHANOREQUAL : Opcodetype := 0xa2
def OP_MIN : Opcodetype := 0xa3
def OP_MAX : Opcodetype := 0xa4
def OP_WITHIN : Opcodetype := 0xa5
def OP_RIPEMD160 : Opcodetype := 0xa6
def OP_SHA1 : Opcodetype := 0xa7
def OP_SHA256 : Opcodetype := 0xa8
def OP_HASH160 : Opcodetype := 0xa9
def OP_HASH256 : Opcodetype := 0xaa
def OP_CODESEPARATOR : Opcodetype := 0xab
def OP_CHECKSIG : Opcodetype := 0xac
def OP_CHECKSIGVERIFY : Opcodetype := 0xad
def OP_CHECKMULTISIG : Opcodetype := 0xae
def OP_CHECKMULTISIGVERIFY : Opcodetype := 0xaf
def OP_NOP1 : Opcodetype := 0xb0
def OP_CHECKLOCKTIMEVERIFY : Opcodetype := 0xb1
def OP_CHECKSEQUENCEVERIFY : Opcodetype := 0xb2
def OP_NOP4 : Opcodetype := 0xb3
def OP_NOP10 : Opcodetype := 0xb9
def OP_INVALIDOPCODE : Opcodetype := 0xff
def MAX_SCRIPT_ELEMENT_SIZE : ℕ := 520
def MAX_OPS_PER_SCRIPT : ℕ := 201
def MAX_PUBKEYS_PER_MULTISIG : ℕ := 20
def MAX_SCRIPT_SIZE : ℕ := 10000
def MAX_STACK_SIZE : ℕ := 1000

namespace CScript

/-! ## Reading instructions -/

/-- One instruction of a script: its opcode, the bytes it pushes and the script that follows it. -/
structure Instr where
  opcode : Opcodetype
  data : Valtype
  rest : CScript
  deriving DecidableEq, Repr

/-- The size of an immediate operand and the bytes after the size field (`ReadLE16`, `ReadLE32` for the longer forms);
`none` if the script ends in it. -/
def pushSize (opcode : Opcodetype) (pc : CScript) : Option (ℕ × CScript) :=
  if opcode < OP_PUSHDATA1 then some (opcode.toNat, pc)
  else if opcode = OP_PUSHDATA1 then
    match pc with
    | a :: pc => some (a.toNat, pc)
    | _ => none
  else if opcode = OP_PUSHDATA2 then
    match pc with
    | a :: b :: pc => some (a.toNat + 2 ^ 8 * b.toNat, pc)
    | _ => none
  else
    match pc with
    | a :: b :: c :: d :: pc => some (a.toNat + 2 ^ 8 * b.toNat + 2 ^ 16 * c.toNat + 2 ^ 24 * d.toNat, pc)
    | _ => none

/-- `CScript::GetOp2`. -/
def getOp : CScript → Option Instr
  | [] => none
  | opcode :: pc =>
    if opcode ≤ OP_PUSHDATA4 then
      match pushSize opcode pc with
      | none => none
      | some (nSize, pc) => if pc.length < nSize then none else some ⟨opcode, pc.take nSize, pc.drop nSize⟩
    else some ⟨opcode, [], pc⟩

/-- The instructions read from `pc` with at most `fuel` calls of `getOp`, and whether the end was reached. -/
def instrsFrom : ℕ → CScript → List Instr × Bool
  | _, [] => ([], true)
  | 0, _ :: _ => ([], false)
  | fuel + 1, pc =>
    match getOp pc with
    | none => ([], false)
    | some i => (i :: (instrsFrom fuel i.rest).1, (instrsFrom fuel i.rest).2)

/-- All instructions of a script up to the first one that does not parse, and whether all of it parsed; every call of
`getOp` consumes a byte. -/
def instrs (script : CScript) : List Instr × Bool := instrsFrom script.length script

variable {opcode : Opcodetype}

lemma pushSize_suffix {pc rest : CScript} {n : ℕ} (h : pushSize opcode pc = some (n, rest)) : rest <:+ pc := by
  unfold pushSize at h
  split at h
  · cases h
    exact suffix_rfl
  split at h
  · split at h
    · cases h
      exact suffix_cons _ _
    · cases h
  split at h
  · split at h
    · rename_i a b pc
      cases h
      exact suffix_append [a, b] _
    · cases h
  · split at h
    · rename_i a b c d pc
      cases h
      exact suffix_append [a, b, c, d] _
    · cases h

variable {i : Instr} {pc : CScript}

lemma getOp_cons (h : getOp (opcode :: pc) = some i) : i.opcode = opcode ∧ i.rest <:+ pc := by
  rw [getOp] at h
  split at h
  · split at h
    · cases h
    · rename_i n rest hsize
      split at h
      · cases h
      · cases h
        exact ⟨rfl, (drop_suffix n rest).trans (pushSize_suffix hsize)⟩
  · cases h
    exact ⟨rfl, suffix_rfl⟩

lemma getOp_rest_lt (h : getOp pc = some i) : i.rest.length < pc.length := by
  cases pc with
  | nil => cases h
  | cons opcode pc => exact Nat.lt_succ_of_le (getOp_cons h).2.length_le

lemma instrsFrom_mono {n m : ℕ} {pc : CScript} (hn : pc.length ≤ n) (hm : pc.length ≤ m) :
    instrsFrom n pc = instrsFrom m pc := by
  induction n generalizing m pc with
  | zero =>
    obtain rfl : pc = [] := by simpa using hn
    cases m <;> rfl
  | succ n ih =>
    cases pc with
    | nil => cases m <;> rfl
    | cons b pc =>
      cases m with
      | zero => simp at hm
      | succ m =>
        simp only [instrsFrom]
        cases h : getOp (b :: pc) with
        | none => rfl
        | some i =>
          have hlt := getOp_rest_lt h
          have := @ih m i.rest (by omega) (by omega)
          simp [this]

lemma instrs_of_getOp {pc : CScript} (h : getOp pc = some i) :
    instrs pc = (i :: (instrs i.rest).1, (instrs i.rest).2) := by
  have hlt := getOp_rest_lt h
  cases pc with
  | nil => simp at hlt
  | cons b pc =>
    have e : instrsFrom pc.length i.rest = instrsFrom i.rest.length i.rest :=
      instrsFrom_mono (by simp at hlt; omega) le_rfl
    unfold instrs
    simp [instrsFrom, h, e]

/-! ## Script patterns -/

/-- `CScript::IsPayToScriptHash`: `OP_HASH160 <20 bytes> OP_EQUAL`. -/
def isPayToScriptHash (script : CScript) : Bool :=
  script.length == 23 && script.getD 0 0 == OP_HASH160 && script.getD 1 0 == 0x14 && script.getD 22 0 == OP_EQUAL

/-- `CScript::DecodeOP_N` on `OP_0` and `OP_1 .. OP_16`. -/
def decodeOP_N (opcode : Opcodetype) : ℕ :=
  if opcode = OP_0 then 0 else opcode.toNat - (OP_1.toNat - 1)

/-- `CScript::IsWitnessProgram`: the version and the program, when the script is a one-byte push opcode and a push of 2
to 40 bytes. -/
def isWitnessProgram (script : CScript) : Option (ℕ × Valtype) :=
  if script.length < 4 ∨ script.length > 42 then none
  else if script.getD 0 0 ≠ OP_0 ∧ (script.getD 0 0 < OP_1 ∨ script.getD 0 0 > OP_16) then none
  else if (script.getD 1 0).toNat + 2 = script.length then some (decodeOP_N (script.getD 0 0), script.drop 2)
  else none

def isPushOnly (script : CScript) : Bool :=
  script.instrs.2 && script.instrs.1.all fun i => i.opcode ≤ OP_16

def isUnspendable (script : CScript) : Bool :=
  (script.length > 0 && script.getD 0 0 == OP_RETURN) || script.length > MAX_SCRIPT_SIZE

/-! ## Signature operations -/

/-- The loop of `CScript::GetSigOpCount(bool)`, from the opcode read before. -/
def sigOpLoop (fAccurate : Bool) : Opcodetype → List Instr → ℕ
  | _, [] => 0
  | lastOpcode, i :: is =>
    (if i.opcode = OP_CHECKSIG ∨ i.opcode = OP_CHECKSIGVERIFY then 1
      else if i.opcode = OP_CHECKMULTISIG ∨ i.opcode = OP_CHECKMULTISIGVERIFY then
        if fAccurate ∧ OP_1 ≤ lastOpcode ∧ lastOpcode ≤ OP_16 then decodeOP_N lastOpcode else MAX_PUBKEYS_PER_MULTISIG
      else 0) + sigOpLoop fAccurate i.opcode is

/-- `CScript::GetSigOpCount(bool fAccurate)`. -/
def getSigOpCount (script : CScript) (fAccurate : Bool) : ℕ :=
  sigOpLoop fAccurate OP_INVALIDOPCODE script.instrs.1

/-- `CScript::GetSigOpCount(const CScript& scriptSig)`: the signature operations of the redeem script when the
script is P2SH and `scriptSig` only pushes. -/
def getSigOpCountP2SH (script scriptSig : CScript) : ℕ :=
  if script.isPayToScriptHash then
    if scriptSig.isPushOnly then
      getSigOpCount ((scriptSig.instrs.1.getLast?.map Instr.data).getD []) true
    else 0
  else script.getSigOpCount true

/-! ## Building and editing scripts -/

/-- `CScript::operator<<(const std::vector<unsigned char>&)`: the push of `b`. -/
def push (b : Valtype) : CScript :=
  if b.length < OP_PUSHDATA1.toNat then UInt8.ofNat b.length :: b
  else if b.length ≤ 0xff then OP_PUSHDATA1 :: UInt8.ofNat b.length :: b
  else if b.length ≤ 0xffff then OP_PUSHDATA2 :: UInt8.ofNat b.length :: UInt8.ofNat (b.length / 2 ^ 8) :: b
  else OP_PUSHDATA4 :: UInt8.ofNat b.length :: UInt8.ofNat (b.length / 2 ^ 8) :: UInt8.ofNat (b.length / 2 ^ 16) ::
    UInt8.ofNat (b.length / 2 ^ 24) :: b

/-- Drop every copy of `b` at the front (the inner `while` of `FindAndDelete`). -/
def dropCopies (b : CScript) : ℕ → CScript → CScript
  | 0, pc => pc
  | fuel + 1, pc => if b.isPrefixOf pc then dropCopies b fuel (pc.drop b.length) else pc

/-- The outer loop of `FindAndDelete`: the kept bytes, from an instruction boundary `pc` on. -/
def findAndDeleteFrom (b : CScript) : ℕ → CScript → CScript
  | 0, pc => pc
  | fuel + 1, pc =>
    let pc2 := dropCopies b pc.length pc
    match getOp pc2 with
    | none => pc2
    | some i => pc2.take (pc2.length - i.rest.length) ++ findAndDeleteFrom b fuel i.rest

/-- `CScript::FindAndDelete`: the script without the copies of `b` that start at an instruction boundary. -/
def findAndDelete (script b : CScript) : CScript :=
  if b = [] then script else findAndDeleteFrom b (script.length + 1) script

end CScript

end Soferox
