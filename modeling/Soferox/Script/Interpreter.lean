import Soferox.Lib.Restrict
import Soferox.Script.ScriptNum

/-!
# The script interpreter

`script/interpreter.cpp`: the signature and key encoding checks, `EvalScript`, `VerifyWitnessProgram` and
`VerifyScript`. The conventions:

* a stack is a list, **top first** (`stacktop(-1)` is the head, `stack.back()` too); `vfExec` is innermost first;
* `pbegincodehash` is the list of the bytes from it to the end of the script;
* a `return set_error(serror, e)` is `fail e`, a thrown exception is caught by `EvalScript` and is
  `fail .UNKNOWN_ERROR`, a failed `assert` is `.error .assertFailed`;
* the hash functions, `CPubKey::CheckLowS` and the signature checker are parameters.
-/

namespace Soferox

open Lib CScript

/-! ## Flags, errors and parameters -/

/-- A set of script verification flags (`unsigned int flags`). -/
abbrev ScriptFlags := BitVec 32

def SCRIPT_VERIFY_P2SH : ScriptFlags := 1 <<< 0
def SCRIPT_VERIFY_STRICTENC : ScriptFlags := 1 <<< 1
def SCRIPT_VERIFY_DERSIG : ScriptFlags := 1 <<< 2
def SCRIPT_VERIFY_LOW_S : ScriptFlags := 1 <<< 3
def SCRIPT_VERIFY_NULLDUMMY : ScriptFlags := 1 <<< 4
def SCRIPT_VERIFY_SIGPUSHONLY : ScriptFlags := 1 <<< 5
def SCRIPT_VERIFY_MINIMALDATA : ScriptFlags := 1 <<< 6
def SCRIPT_VERIFY_DISCOURAGE_UPGRADABLE_NOPS : ScriptFlags := 1 <<< 7
def SCRIPT_VERIFY_CLEANSTACK : ScriptFlags := 1 <<< 8
def SCRIPT_VERIFY_CHECKLOCKTIMEVERIFY : ScriptFlags := 1 <<< 9
def SCRIPT_VERIFY_CHECKSEQUENCEVERIFY : ScriptFlags := 1 <<< 10
def SCRIPT_VERIFY_WITNESS : ScriptFlags := 1 <<< 11
def SCRIPT_VERIFY_DISCOURAGE_UPGRADABLE_WITNESS_PROGRAM : ScriptFlags := 1 <<< 12
def SCRIPT_VERIFY_MINIMALIF : ScriptFlags := 1 <<< 13
def SCRIPT_VERIFY_NULLFAIL : ScriptFlags := 1 <<< 14
def SCRIPT_VERIFY_WITNESS_PUBKEYTYPE : ScriptFlags := 1 <<< 15

/-- `(flags & mask) != 0`. -/
def ScriptFlags.has (flags mask : ScriptFlags) : Bool := flags &&& mask != 0

/-- `ScriptError`, without `SCRIPT_ERR_OK`. -/
inductive ScriptError where
  | UNKNOWN_ERROR | EVAL_FALSE | OP_RETURN
  | SCRIPT_SIZE | PUSH_SIZE | OP_COUNT | STACK_SIZE | SIG_COUNT | PUBKEY_COUNT
  | VERIFY | EQUALVERIFY | CHECKMULTISIGVERIFY | CHECKSIGVERIFY | NUMEQUALVERIFY
  | BAD_OPCODE | DISABLED_OPCODE | INVALID_STACK_OPERATION | INVALID_ALTSTACK_OPERATION | UNBALANCED_CONDITIONAL
  | NEGATIVE_LOCKTIME | UNSATISFIED_LOCKTIME
  | SIG_HASHTYPE | SIG_DER | MINIMALDATA | SIG_PUSHONLY | SIG_HIGH_S | SIG_NULLDUMMY | PUBKEYTYPE | CLEANSTACK
  | MINIMALIF | SIG_NULLFAIL
  | DISCOURAGE_UPGRADABLE_NOPS | DISCOURAGE_UPGRADABLE_WITNESS_PROGRAM
  | WITNESS_PROGRAM_WRONG_LENGTH | WITNESS_PROGRAM_WITNESS_EMPTY | WITNESS_PROGRAM_MISMATCH | WITNESS_MALLEATED
  | WITNESS_MALLEATED_P2SH | WITNESS_UNEXPECTED | WITNESS_PUBKEYTYPE
  deriving DecidableEq, Repr

/-- How an evaluation ends without success: an error is reported, or an assertion stops the process. -/
inductive Failure where
  | scriptError (e : ScriptError)
  | assertFailed
  deriving DecidableEq, Repr

/-- `return set_error(serror, e)`. -/
def fail {α : Type} (e : ScriptError) : Except Failure α := .error (.scriptError e)

/-- `if (!b) return set_error(serror, e)`. -/
abbrev check (b : Bool) (e : ScriptError) : Except Failure Unit := require b (Failure.scriptError e)

inductive SigVersion where
  | BASE | WITNESS_V0
  deriving DecidableEq, Repr

/-- The hash functions of the crypto opcodes (`OP_HASH256` is `XCoin::HashSofero` here) and `CPubKey::CheckLowS`. -/
structure Crypto where
  ripemd160 : Valtype → Valtype
  sha1 : Valtype → Valtype
  sha256 : Valtype → Valtype
  hash160 : Valtype → Valtype
  hash256 : Valtype → Valtype
  checkLowS : Valtype → Bool

structure BaseSignatureChecker where
  checkSig : Valtype → Valtype → CScript → SigVersion → Bool
  checkLockTime : ℤ → Bool
  checkSequence : ℤ → Bool

/-- `CastToBool`: zero and negative zero are false. -/
def castToBool : Valtype → Bool
  | [] => false
  | b :: vch => if b ≠ 0 then !(vch = [] ∧ b = 0x80) else castToBool vch

/-! ## Encodings -/

def isCompressedOrUncompressedPubKey (vchPubKey : Valtype) : Bool :=
  if vchPubKey.length < 33 then false
  else if vchPubKey.getD 0 0 = 0x04 then vchPubKey.length = 65
  else if vchPubKey.getD 0 0 = 0x02 ∨ vchPubKey.getD 0 0 = 0x03 then vchPubKey.length = 33
  else false

def isCompressedPubKey (vchPubKey : Valtype) : Bool :=
  if vchPubKey.length ≠ 33 then false
  else vchPubKey.getD 0 0 = 0x02 ∨ vchPubKey.getD 0 0 = 0x03

/-- `IsValidSignatureEncoding`: strict DER, followed by one hash type byte. -/
def isValidSignatureEncoding (sig : Valtype) : Bool :=
  if sig.length < 9 then false
  else if sig.length > 73 then false
  else if sig.getD 0 0 ≠ 0x30 then false
  else if (sig.getD 1 0).toNat ≠ sig.length - 3 then false
  else
    let lenR := (sig.getD 3 0).toNat
    if 5 + lenR ≥ sig.length then false
    else
      let lenS := (sig.getD (5 + lenR) 0).toNat
      if lenR + lenS + 7 ≠ sig.length then false
      else if sig.getD 2 0 ≠ 0x02 then false
      else if lenR = 0 then false
      else if sig.getD 4 0 &&& 0x80 ≠ 0 then false
      else if lenR > 1 ∧ sig.getD 4 0 = 0x00 ∧ ¬ sig.getD 5 0 &&& 0x80 ≠ 0 then false
      else if sig.getD (lenR + 4) 0 ≠ 0x02 then false
      else if lenS = 0 then false
      else if sig.getD (lenR + 6) 0 &&& 0x80 ≠ 0 then false
      else if lenS > 1 ∧ sig.getD (lenR + 6) 0 = 0x00 ∧ ¬ sig.getD (lenR + 7) 0 &&& 0x80 ≠ 0 then false
      else true

/-- `IsDefinedHashtypeSignature`: `SIGHASH_ALL`, `SIGHASH_NONE` or `SIGHASH_SINGLE`, up to `SIGHASH_ANYONECANPAY`. -/
def isDefinedHashtypeSignature (vchSig : Valtype) : Bool :=
  match vchSig.getLast? with
  | none => false
  | some back => 1 ≤ back &&& ~~~0x80 && back &&& ~~~0x80 ≤ 3

def isLowDERSignature (crypto : Crypto) (vchSig : Valtype) : Except Failure Unit := do
  check (isValidSignatureEncoding vchSig) .SIG_DER
  check (crypto.checkLowS vchSig.dropLast) .SIG_HIGH_S

def checkSignatureEncoding (crypto : Crypto) (vchSig : Valtype) (flags : ScriptFlags) : Except Failure Unit :=
  if vchSig.length = 0 then .ok ()
  else do
    check (!flags.has (SCRIPT_VERIFY_DERSIG ||| SCRIPT_VERIFY_LOW_S ||| SCRIPT_VERIFY_STRICTENC) ||
      isValidSignatureEncoding vchSig) .SIG_DER
    (if flags.has SCRIPT_VERIFY_LOW_S then isLowDERSignature crypto vchSig else .ok ())
    check (!flags.has SCRIPT_VERIFY_STRICTENC || isDefinedHashtypeSignature vchSig) .SIG_HASHTYPE

def checkPubKeyEncoding (vchPubKey : Valtype) (flags : ScriptFlags) (sigversion : SigVersion) :
    Except Failure Unit := do
  check (!flags.has SCRIPT_VERIFY_STRICTENC || isCompressedOrUncompressedPubKey vchPubKey) .PUBKEYTYPE
  check (!(flags.has SCRIPT_VERIFY_WITNESS_PUBKEYTYPE && sigversion == .WITNESS_V0) ||
    isCompressedPubKey vchPubKey) .WITNESS_PUBKEYTYPE

def checkMinimalPush (data : Valtype) (opcode : Opcodetype) : Bool :=
  if data.length = 0 then opcode = OP_0
  else if data.length = 1 ∧ 1 ≤ data.getD 0 0 ∧ data.getD 0 0 ≤ 16 then
    opcode.toNat = OP_1.toNat + ((data.getD 0 0).toNat - 1)
  else if data.length = 1 ∧ data.getD 0 0 = 0x81 then opcode = OP_1NEGATE
  else if data.length ≤ 75 then opcode.toNat = data.length
  else if data.length ≤ 255 then opcode = OP_PUSHDATA1
  else if data.length ≤ 65535 then opcode = OP_PUSHDATA2
  else true

/-! ## Opcodes -/

/-- The state of `EvalScript`'s loop. -/
structure ScriptState where
  stack : List Valtype
  altstack : List Valtype
  vfExec : List Bool
  nOpCount : ℕ
  codehash : CScript
  deriving DecidableEq, Repr

def vchFalse : Valtype := []
def vchTrue : Valtype := [1]
def vchBool (b : Bool) : Valtype := if b then vchTrue else vchFalse

/-- An opcode that only rearranges the main stack; `none` when the stack is too short. -/
def stackOp (f : List Valtype → Option (List Valtype)) (s : ScriptState) : Except Failure ScriptState :=
  match f s.stack with
  | some stack => .ok { s with stack := stack }
  | none => fail .INVALID_STACK_OPERATION

/-- `CScriptNum(vch, fRequireMinimal, nMaxNumSize)` inside `EvalScript`: the exception becomes an error. -/
def scriptNum (flags : ScriptFlags) (nMaxNumSize : ℕ) (vch : Valtype) : Except Failure ℤ :=
  match CScriptNum.ofVch vch (flags.has SCRIPT_VERIFY_MINIMALDATA) nMaxNumSize with
  | some n => .ok n
  | none => fail .UNKNOWN_ERROR

/-- `CScriptNum(vch, fRequireMinimal)`. -/
abbrev operand (flags : ScriptFlags) (vch : Valtype) : Except Failure ℤ :=
  scriptNum flags CScriptNum.nDefaultMaxNumSize vch

/-- `(in -- out)` on numbers. -/
def unaryOp (f : ℤ → ℤ) (flags : ScriptFlags) (s : ScriptState) : Except Failure ScriptState :=
  match s.stack with
  | x :: stack => do
    let bn ← operand flags x
    .ok { s with stack := CScriptNum.serialize (f bn) :: stack }
  | _ => fail .INVALID_STACK_OPERATION

/-- `(x1 x2 -- out)` on numbers. -/
def binaryOp (f : ℤ → ℤ → ℤ) (flags : ScriptFlags) (s : ScriptState) : Except Failure ScriptState :=
  match s.stack with
  | x2 :: x1 :: stack => do
    let bn1 ← operand flags x1
    let bn2 ← operand flags x2
    .ok { s with stack := CScriptNum.serialize (f bn1 bn2) :: stack }
  | _ => fail .INVALID_STACK_OPERATION

/-- A Boolean as the number `bn = (condition)`. -/
def ofBool (b : Bool) : ℤ := if b then 1 else 0

/-- The `..VERIFY` forms: drop a true result, fail on a false one. -/
def verifyTop (e : ScriptError) (s : ScriptState) : Except Failure ScriptState :=
  match s.stack with
  | x :: stack => if castToBool x then .ok { s with stack := stack } else fail e
  | _ => fail .UNKNOWN_ERROR

/-- `OP_1NEGATE`, `OP_1 .. OP_16`. -/
def opSmallInt (opcode : Opcodetype) (s : ScriptState) : Except Failure ScriptState :=
  .ok { s with stack := CScriptNum.serialize ((opcode.toNat : ℤ) - (OP_1.toNat - 1)) :: s.stack }

/-- `OP_IF`, `OP_NOTIF`: `fExec` says whether this branch is executed. -/
def opIf (opcode : Opcodetype) (fExec : Bool) (sigversion : SigVersion) (flags : ScriptFlags) (s : ScriptState) :
    Except Failure ScriptState :=
  if fExec then
    match s.stack with
    | vch :: stack => do
      check (!(sigversion == .WITNESS_V0 && flags.has SCRIPT_VERIFY_MINIMALIF) ||
        (vch.length ≤ 1 && !(vch.length == 1 && vch.getD 0 0 != 1))) .MINIMALIF
      .ok { s with stack := stack, vfExec := (castToBool vch != (opcode == OP_NOTIF)) :: s.vfExec }
    | _ => fail .UNBALANCED_CONDITIONAL
  else .ok { s with vfExec := false :: s.vfExec }

def opElse (s : ScriptState) : Except Failure ScriptState :=
  match s.vfExec with
  | b :: vfExec => .ok { s with vfExec := (!b) :: vfExec }
  | _ => fail .UNBALANCED_CONDITIONAL

def opEndIf (s : ScriptState) : Except Failure ScriptState :=
  match s.vfExec with
  | _ :: vfExec => .ok { s with vfExec := vfExec }
  | _ => fail .UNBALANCED_CONDITIONAL

def opVerify (s : ScriptState) : Except Failure ScriptState :=
  if s.stack.length < 1 then fail .INVALID_STACK_OPERATION else verifyTop .VERIFY s

/-- The two opcodes that check a lock of the spending transaction, when they are enabled. -/
def opCheckLock (satisfied : ℤ → Bool) (flags : ScriptFlags) (s : ScriptState) : Except Failure ScriptState :=
  match s.stack with
  | x :: _ => do
    let n ← scriptNum flags 5 x
    check (0 ≤ n) .NEGATIVE_LOCKTIME
    check (satisfied n) .UNSATISFIED_LOCKTIME
    .ok s
  | _ => fail .INVALID_STACK_OPERATION

def opCheckLockTime (checker : BaseSignatureChecker) (flags : ScriptFlags) (s : ScriptState) :
    Except Failure ScriptState :=
  opCheckLock checker.checkLockTime flags s

def SEQUENCE_LOCKTIME_DISABLE_FLAG : ℕ := 2 ^ 31

def opCheckSequence (checker : BaseSignatureChecker) (flags : ScriptFlags) (s : ScriptState) :
    Except Failure ScriptState :=
  -- an operand with the disable flag set makes the opcode a no-op
  opCheckLock (fun nSequence =>
    nSequence.toNat &&& SEQUENCE_LOCKTIME_DISABLE_FLAG != 0 || checker.checkSequence nSequence) flags s

def opToAltStack (s : ScriptState) : Except Failure ScriptState :=
  match s.stack with
  | x :: stack => .ok { s with stack := stack, altstack := x :: s.altstack }
  | _ => fail .INVALID_STACK_OPERATION

def opFromAltStack (s : ScriptState) : Except Failure ScriptState :=
  match s.altstack with
  | x :: altstack => .ok { s with stack := x :: s.stack, altstack := altstack }
  | _ => fail .INVALID_ALTSTACK_OPERATION

def opPickRoll (opcode : Opcodetype) (flags : ScriptFlags) (s : ScriptState) : Except Failure ScriptState :=
  match s.stack with
  | x :: y :: stack => do
    let bn ← operand flags x
    let n := CScriptNum.getint bn
    check (0 ≤ n && n < (y :: stack).length) .INVALID_STACK_OPERATION
    let vch := (y :: stack).getD n.toNat []
    .ok { s with stack := vch :: if opcode = OP_ROLL then (y :: stack).eraseIdx n.toNat else y :: stack }
  | _ => fail .INVALID_STACK_OPERATION

def opEqual : List Valtype → Option (List Valtype)
  | x2 :: x1 :: stack => some (vchBool (x1 == x2) :: stack)
  | _ => none

def opWithin (flags : ScriptFlags) (s : ScriptState) : Except Failure ScriptState :=
  match s.stack with
  | x3 :: x2 :: x1 :: stack => do
    let bn1 ← operand flags x1
    let bn2 ← operand flags x2
    let bn3 ← operand flags x3
    .ok { s with stack := vchBool (bn2 ≤ bn1 && bn1 < bn3) :: stack }
  | _ => fail .INVALID_STACK_OPERATION

def opHash (hash : Valtype → Valtype) : List Valtype → Option (List Valtype)
  | x :: stack => some (hash x :: stack)
  | _ => none

/-! ## Signature opcodes -/

/-- What a signature commits to: the script from the last code separator on, without the signatures in pre-segwit
scripts. -/
def scriptCode (sigversion : SigVersion) (sigs : List Valtype) (codehash : CScript) : CScript :=
  if sigversion = .BASE then sigs.foldl (fun code sig => findAndDelete code (push sig)) codehash else codehash

/-- What scripts run in. It can fail, and it is told the answers of `CheckSig`. -/
class ScriptMonad (m : Type → Type) extends Monad m, MonadLift (Except Failure) m where
  answer : Bool → m Bool

@[default_instance] instance : ScriptMonad (Except Failure) where
  monadLift x := x
  answer := .ok

@[simp] lemma liftM_except {α : Type} (x : Except Failure α) : (liftM x : Except Failure α) = x := rfl
@[simp] lemma answer_except (b : Bool) : (ScriptMonad.answer b : Except Failure Bool) = .ok b := rfl

section

variable {m : Type → Type} [ScriptMonad m] (crypto : Crypto) (checker : BaseSignatureChecker) (sigversion : SigVersion)
  (flags : ScriptFlags)

def opCheckSig (s : ScriptState) : m ScriptState :=
  match s.stack with
  | vchPubKey :: vchSig :: stack => do
    checkSignatureEncoding crypto vchSig flags
    checkPubKeyEncoding vchPubKey flags sigversion
    let fSuccess ← ScriptMonad.answer
      (checker.checkSig vchSig vchPubKey (scriptCode sigversion [vchSig] s.codehash) sigversion)
    check (!(!fSuccess && flags.has SCRIPT_VERIFY_NULLFAIL && vchSig.length != 0)) .SIG_NULLFAIL
    pure { s with stack := vchBool fSuccess :: stack }
  | _ => liftM (fail .INVALID_STACK_OPERATION)

/-- The `while (fSuccess && nSigsCount > 0)` loop of `OP_CHECKMULTISIG` over the keys and signatures left, next one
first. -/
def multisigLoop (code : CScript) : List Valtype → List Valtype → m Bool
  | _, [] => pure true
  | [], _ :: _ => pure false
  | vchPubKey :: keys, vchSig :: sigs => do
    checkSignatureEncoding crypto vchSig flags
    checkPubKeyEncoding vchPubKey flags sigversion
    let fOk ← ScriptMonad.answer (checker.checkSig vchSig vchPubKey code sigversion)
    let sigs' := if fOk then sigs else vchSig :: sigs
    -- more signatures left than keys: too many signatures have failed
    if sigs'.length > keys.length then pure false
    else multisigLoop code keys sigs'

/-- The clean-up loop of `OP_CHECKMULTISIG`: pop `n` arguments, the first `ikey2` of which are not signatures. -/
def multisigCleanup (fSuccess : Bool) (flags : ScriptFlags) :
    ℕ → ℕ → List Valtype → Except Failure (List Valtype)
  | 0, _, stack => .ok stack
  | n + 1, ikey2, top :: stack => do
    check (!(!fSuccess && flags.has SCRIPT_VERIFY_NULLFAIL && ikey2 == 0 && top.length != 0)) .SIG_NULLFAIL
    multisigCleanup fSuccess flags n (ikey2 - 1) stack
  | _ + 1, _, [] => fail .UNKNOWN_ERROR

/-- What `OP_CHECKMULTISIG` reads off the stack: the keys, the signatures and the new operation count. -/
def multisigArguments (flags : ScriptFlags) (s : ScriptState) :
    Except Failure (List Valtype × List Valtype × ℕ) := do
  check (1 ≤ s.stack.length) .INVALID_STACK_OPERATION
  let bnKeys ← operand flags (s.stack.getD 0 [])
  let nKeysCount := CScriptNum.getint bnKeys
  check (0 ≤ nKeysCount && nKeysCount ≤ MAX_PUBKEYS_PER_MULTISIG) .PUBKEY_COUNT
  let nKeys := nKeysCount.toNat
  let nOpCount := s.nOpCount + nKeys
  check (nOpCount ≤ MAX_OPS_PER_SCRIPT) .OP_COUNT
  check (2 + nKeys ≤ s.stack.length) .INVALID_STACK_OPERATION
  let bnSigs ← operand flags (s.stack.getD (1 + nKeys) [])
  let nSigsCount := CScriptNum.getint bnSigs
  check (0 ≤ nSigsCount && nSigsCount ≤ nKeys) .SIG_COUNT
  let nSigs := nSigsCount.toNat
  check (3 + nKeys + nSigs ≤ s.stack.length) .INVALID_STACK_OPERATION
  .ok ((s.stack.drop 1).take nKeys, (s.stack.drop (2 + nKeys)).take nSigs, nOpCount)

/-- What `OP_CHECKMULTISIG` does after its loop. -/
def multisigResult (flags : ScriptFlags) (s : ScriptState) (keys sigs : List Valtype) (nOpCount : ℕ)
    (fSuccess : Bool) : Except Failure ScriptState := do
  let stack ← multisigCleanup fSuccess flags (2 + keys.length + sigs.length) (keys.length + 2) s.stack
  -- a bug makes CHECKMULTISIG consume one extra argument
  match stack with
  | dummy :: stack => do
    check (!(flags.has SCRIPT_VERIFY_NULLDUMMY && dummy.length != 0)) .SIG_NULLDUMMY
    .ok { s with stack := vchBool fSuccess :: stack, nOpCount := nOpCount }
  | [] => fail .INVALID_STACK_OPERATION

def opCheckMultisig (s : ScriptState) : m ScriptState := do
  let (keys, sigs, nOpCount) ← multisigArguments flags s
  let fSuccess ← multisigLoop crypto checker sigversion flags (scriptCode sigversion sigs s.codehash) keys sigs
  multisigResult flags s keys sigs nOpCount fSuccess

end

/-! ## `EvalScript` -/

/-- The opcodes that only rearrange the main stack and fail on a short one. -/
def stackOpcode (opcode : Opcodetype) : Option (List Valtype → Option (List Valtype)) :=
  if opcode = OP_2DROP then some fun
    | _ :: _ :: st => some st
    | _ => none
  else if opcode = OP_2DUP then some fun
    | x2 :: x1 :: st => some (x2 :: x1 :: x2 :: x1 :: st)
    | _ => none
  else if opcode = OP_3DUP then some fun
    | x3 :: x2 :: x1 :: st => some (x3 :: x2 :: x1 :: x3 :: x2 :: x1 :: st)
    | _ => none
  else if opcode = OP_2OVER then some fun
    | x4 :: x3 :: x2 :: x1 :: st => some (x2 :: x1 :: x4 :: x3 :: x2 :: x1 :: st)
    | _ => none
  else if opcode = OP_2ROT then some fun
    | x6 :: x5 :: x4 :: x3 :: x2 :: x1 :: st => some (x2 :: x1 :: x6 :: x5 :: x4 :: x3 :: st)
    | _ => none
  else if opcode = OP_2SWAP then some fun
    | x4 :: x3 :: x2 :: x1 :: st => some (x2 :: x1 :: x4 :: x3 :: st)
    | _ => none
  else if opcode = OP_IFDUP then some fun
    | x :: st => some (if castToBool x then x :: x :: st else x :: st)
    | _ => none
  else if opcode = OP_DEPTH then some fun st => some (CScriptNum.serialize st.length :: st)
  else if opcode = OP_DROP then some fun
    | _ :: st => some st
    | _ => none
  else if opcode = OP_DUP then some fun
    | x :: st => some (x :: x :: st)
    | _ => none
  else if opcode = OP_NIP then some fun
    | x2 :: _ :: st => some (x2 :: st)
    | _ => none
  else if opcode = OP_OVER then some fun
    | x2 :: x1 :: st => some (x1 :: x2 :: x1 :: st)
    | _ => none
  else if opcode = OP_ROT then some fun
    | x3 :: x2 :: x1 :: st => some (x1 :: x3 :: x2 :: st)
    | _ => none
  else if opcode = OP_SWAP then some fun
    | x2 :: x1 :: st => some (x1 :: x2 :: st)
    | _ => none
  else if opcode = OP_TUCK then some fun
    | x2 :: x1 :: st => some (x2 :: x1 :: x2 :: st)
    | _ => none
  else if opcode = OP_SIZE then some fun
    | x :: st => some (CScriptNum.serialize x.length :: x :: st)
    | _ => none
  else if opcode = OP_EQUAL then some opEqual
  else none

/-- The numeric opcodes with one operand. -/
def unaryOpcode (opcode : Opcodetype) : Option (ℤ → ℤ) :=
  if opcode = OP_1ADD then some fun bn => bn + 1
  else if opcode = OP_1SUB then some fun bn => bn - 1
  else if opcode = OP_NEGATE then some fun bn => -bn
  else if opcode = OP_ABS then some fun bn => if bn < 0 then -bn else bn
  else if opcode = OP_NOT then some fun bn => ofBool (bn == 0)
  else if opcode = OP_0NOTEQUAL then some fun bn => ofBool (bn != 0)
  else none

/-- The numeric opcodes with two operands. -/
def binaryOpcode (opcode : Opcodetype) : Option (ℤ → ℤ → ℤ) :=
  if opcode = OP_ADD then some fun bn1 bn2 => bn1 + bn2
  else if opcode = OP_SUB then some fun bn1 bn2 => bn1 - bn2
  else if opcode = OP_BOOLAND then some fun bn1 bn2 => ofBool (bn1 != 0 && bn2 != 0)
  else if opcode = OP_BOOLOR then some fun bn1 bn2 => ofBool (bn1 != 0 || bn2 != 0)
  else if opcode = OP_NUMEQUAL then some fun bn1 bn2 => ofBool (bn1 == bn2)
  else if opcode = OP_NUMNOTEQUAL then some fun bn1 bn2 => ofBool (bn1 != bn2)
  else if opcode = OP_LESSTHAN then some fun bn1 bn2 => ofBool (bn1 < bn2)
  else if opcode = OP_GREATERTHAN then some fun bn1 bn2 => ofBool (bn1 > bn2)
  else if opcode = OP_LESSTHANOREQUAL then some fun bn1 bn2 => ofBool (bn1 ≤ bn2)
  else if opcode = OP_GREATERTHANOREQUAL then some fun bn1 bn2 => ofBool (bn1 ≥ bn2)
  else if opcode = OP_MIN then some fun bn1 bn2 => if bn1 < bn2 then bn1 else bn2
  else if opcode = OP_MAX then some fun bn1 bn2 => if bn1 > bn2 then bn1 else bn2
  else none

def hashOpcode (crypto : Crypto) (opcode : Opcodetype) : Option (Valtype → Valtype) :=
  if opcode = OP_RIPEMD160 then some crypto.ripemd160
  else if opcode = OP_SHA1 then some crypto.sha1
  else if opcode = OP_SHA256 then some crypto.sha256
  else if opcode = OP_HASH160 then some crypto.hash160
  else if opcode = OP_HASH256 then some crypto.hash256
  else none

/-- The opcodes that are disabled wherever they stand. -/
def isDisabledOpcode (opcode : Opcodetype) : Bool :=
  opcode ∈ [OP_CAT, OP_SUBSTR, OP_LEFT, OP_RIGHT, OP_INVERT, OP_AND, OP_OR, OP_XOR, OP_2MUL, OP_2DIV, OP_MUL, OP_DIV,
    OP_MOD, OP_LSHIFT, OP_RSHIFT]

section

variable (crypto : Crypto) (checker : BaseSignatureChecker) (sigversion : SigVersion) (flags : ScriptFlags)

/-- The `switch (opcode)` of `EvalScript` without the signature opcodes; `pc` is the script after the opcode. -/
def plainOpcode (opcode : Opcodetype) (pc : CScript) (fExec : Bool) (s : ScriptState) : Except Failure ScriptState :=
  if opcode = OP_1NEGATE ∨ (OP_1 ≤ opcode ∧ opcode ≤ OP_16) then opSmallInt opcode s
  else if opcode = OP_NOP then .ok s
  else if opcode = OP_CHECKLOCKTIMEVERIFY then
    -- not enabled: treated as a NOP2
    if flags.has SCRIPT_VERIFY_CHECKLOCKTIMEVERIFY then opCheckLockTime checker flags s else .ok s
  else if opcode = OP_CHECKSEQUENCEVERIFY then
    -- not enabled: treated as a NOP3
    if flags.has SCRIPT_VERIFY_CHECKSEQUENCEVERIFY then opCheckSequence checker flags s else .ok s
  else if opcode = OP_NOP1 ∨ (OP_NOP4 ≤ opcode ∧ opcode ≤ OP_NOP10) then do
    check (!flags.has SCRIPT_VERIFY_DISCOURAGE_UPGRADABLE_NOPS) .DISCOURAGE_UPGRADABLE_NOPS
    .ok s
  else if opcode = OP_IF ∨ opcode = OP_NOTIF then opIf opcode fExec sigversion flags s
  else if opcode = OP_ELSE then opElse s
  else if opcode = OP_ENDIF then opEndIf s
  else if opcode = OP_VERIFY then opVerify s
  else if opcode = OP_RETURN then fail .OP_RETURN
  else if opcode = OP_TOALTSTACK then opToAltStack s
  else if opcode = OP_FROMALTSTACK then opFromAltStack s
  else if opcode = OP_PICK ∨ opcode = OP_ROLL then opPickRoll opcode flags s
  else if opcode = OP_EQUALVERIFY then stackOp opEqual s >>= verifyTop .EQUALVERIFY
  else if opcode = OP_NUMEQUALVERIFY then
    binaryOp (fun bn1 bn2 => ofBool (bn1 == bn2)) flags s >>= verifyTop .NUMEQUALVERIFY
  else if opcode = OP_WITHIN then opWithin flags s
  else if opcode = OP_CODESEPARATOR then .ok { s with codehash := pc }
  else match stackOpcode opcode with
  | some f => stackOp f s
  | none => match unaryOpcode opcode with
  | some f => unaryOp f flags s
  | none => match binaryOpcode opcode with
  | some f => binaryOp f flags s
  | none => match hashOpcode crypto opcode with
  | some hash => stackOp (opHash hash) s
  | none => fail .BAD_OPCODE

variable {m : Type → Type} [ScriptMonad m]

def execOpcode (opcode : Opcodetype) (pc : CScript) (fExec : Bool) (s : ScriptState) : m ScriptState :=
  if opcode = OP_CHECKSIG then opCheckSig crypto checker sigversion flags s
  else if opcode = OP_CHECKSIGVERIFY then do
    verifyTop .CHECKSIGVERIFY (← opCheckSig crypto checker sigversion flags s)
  else if opcode = OP_CHECKMULTISIG then opCheckMultisig crypto checker sigversion flags s
  else if opcode = OP_CHECKMULTISIGVERIFY then do
    verifyTop .CHECKMULTISIGVERIFY (← opCheckMultisig crypto checker sigversion flags s)
  else liftM (plainOpcode crypto checker sigversion flags opcode pc fExec s)

lemma execOpcode_of_lt {opcode : Opcodetype} (h : opcode < OP_CHECKSIG) (pc : CScript) (fExec : Bool) (s : ScriptState) :
    (execOpcode crypto checker sigversion flags opcode pc fExec s : m ScriptState) =
      liftM (plainOpcode crypto checker sigversion flags opcode pc fExec s) := by
  have hne : ∀ op, OP_CHECKSIG ≤ op → opcode ≠ op := by
    rintro op hle rfl
    exact UInt8.not_lt.2 hle h
  rw [execOpcode, if_neg (hne _ (by decide)), if_neg (hne _ (by decide)), if_neg (hne _ (by decide)),
    if_neg (hne _ (by decide))]

/-- What `EvalScript` does with an instruction that passed the first checks: push, execute, or skip it in a branch not
taken. -/
def execInstr (i : Instr) (s : ScriptState) : m ScriptState :=
  let fExec := s.vfExec.all id
  if fExec ∧ i.opcode ≤ OP_PUSHDATA4 then do
    check (!flags.has SCRIPT_VERIFY_MINIMALDATA || checkMinimalPush i.data i.opcode) .MINIMALDATA
    pure { s with stack := i.data :: s.stack }
  else if fExec ∨ (OP_IF ≤ i.opcode ∧ i.opcode ≤ OP_ENDIF) then
    execOpcode crypto checker sigversion flags i.opcode i.rest fExec s
  else pure s

/-- One round of `EvalScript`'s loop, on the instruction that `GetOp` read. -/
def evalInstr (s : ScriptState) (i : Instr) : m ScriptState := do
  check (i.data.length ≤ MAX_SCRIPT_ELEMENT_SIZE) .PUSH_SIZE
  let nOpCount := if i.opcode > OP_16 then s.nOpCount + 1 else s.nOpCount
  check (!(i.opcode > OP_16 && nOpCount > MAX_OPS_PER_SCRIPT)) .OP_COUNT
  check (!isDisabledOpcode i.opcode) .DISABLED_OPCODE
  let s ← execInstr crypto checker sigversion flags i { s with nOpCount := nOpCount }
  check (s.stack.length + s.altstack.length ≤ MAX_STACK_SIZE) .STACK_SIZE
  pure s

/-- `EvalScript`: the stack it leaves behind. -/
def evalScript (stack : List Valtype) (script : CScript) : m (List Valtype) := do
  check (script.length ≤ MAX_SCRIPT_SIZE) .SCRIPT_SIZE
  let s ← script.instrs.1.foldlM (evalInstr crypto checker sigversion flags) ⟨stack, [], [], 0, script⟩
  -- `GetOp` failed after the last instruction
  check script.instrs.2 .BAD_OPCODE
  check s.vfExec.isEmpty .UNBALANCED_CONDITIONAL
  pure s.stack

end

/-! ## `VerifyScript` -/

/-- `stack.back()` is there and true. -/
def topIsTrue (stack : List Valtype) : Bool :=
  match stack with
  | [] => false
  | top :: _ => castToBool top

/-- `stack.resize(1)` on a non-empty stack: the oldest element stays. -/
def resizeOne (stack : List Valtype) : List Valtype := stack.drop (stack.length - 1)

section

variable (crypto : Crypto) (checker : BaseSignatureChecker)

/-- What a witness program stands for: the stack and the script to run, or nothing when an upgradable version is
accepted. The last element of `witness` comes first. -/
def witnessScript (witness : List Valtype) (witversion : ℕ) (program : Valtype) (flags : ScriptFlags) :
    Except Failure (Option (List Valtype × CScript)) :=
  if witversion = 0 then
    if program.length = 32 then
      match witness with
      | [] => fail .WITNESS_PROGRAM_WITNESS_EMPTY
      | scriptPubKey :: stack => do
        check (crypto.sha256 scriptPubKey == program) .WITNESS_PROGRAM_MISMATCH
        .ok (some (stack, scriptPubKey))
    else if program.length = 20 then do
      check (witness.length == 2) .WITNESS_PROGRAM_MISMATCH
      .ok (some (witness, [OP_DUP, OP_HASH160] ++ push program ++ [OP_EQUALVERIFY, OP_CHECKSIG]))
    else fail .WITNESS_PROGRAM_WRONG_LENGTH
  else do
    check (!flags.has SCRIPT_VERIFY_DISCOURAGE_UPGRADABLE_WITNESS_PROGRAM) .DISCOURAGE_UPGRADABLE_WITNESS_PROGRAM
    .ok none

variable {m : Type → Type} [ScriptMonad m]

def verifyWitnessProgram (witness : List Valtype) (witversion : ℕ) (program : Valtype) (flags : ScriptFlags) :
    m Unit := do
  match ← witnessScript crypto witness witversion program flags with
  -- higher versions are true for future soft forks
  | none => pure ()
  | some (stack, scriptPubKey) => do
    check (stack.all fun item => item.length ≤ MAX_SCRIPT_ELEMENT_SIZE) .PUSH_SIZE
    let stack ← evalScript crypto checker .WITNESS_V0 flags stack scriptPubKey
    check (stack.length == 1) .EVAL_FALSE
    check (topIsTrue stack) .EVAL_FALSE

/-- The two places where `VerifyScript` looks for a witness program: `script` is `scriptPubKey` or the redeem script, and
`fClean` says that `scriptSig` holds nothing beside it. -/
def witnessPhase (fClean : Bool) (e : ScriptError) (script : CScript) (witness : List Valtype) (flags : ScriptFlags)
    (stack : List Valtype) : m (List Valtype) :=
  if flags.has SCRIPT_VERIFY_WITNESS then
    match script.isWitnessProgram with
    | none => pure stack
    | some (witversion, program) => do
      check fClean e
      verifyWitnessProgram crypto checker witness witversion program flags
      pure (resizeOne stack)
  else pure stack

/-- The P2SH phase of `VerifyScript`; `stackCopy` is the stack that `scriptSig` left behind. -/
def p2sh (scriptSig scriptPubKey : CScript) (witness : List Valtype) (flags : ScriptFlags)
    (stackCopy stack : List Valtype) : m (List Valtype) :=
  if flags.has SCRIPT_VERIFY_P2SH ∧ scriptPubKey.isPayToScriptHash then do
    check scriptSig.isPushOnly .SIG_PUSHONLY
    match stackCopy with
    | [] => liftM (Except.error Failure.assertFailed)
    | pubKey2 :: stack => do
      let stack ← evalScript crypto checker .BASE flags stack pubKey2
      check (topIsTrue stack) .EVAL_FALSE
      witnessPhase crypto checker (scriptSig == push pubKey2) .WITNESS_MALLEATED_P2SH pubKey2 witness flags stack
  else pure stack

/-- The final `CLEANSTACK` check of `VerifyScript`, with its two assertions. -/
def cleanStack (flags : ScriptFlags) (stack : List Valtype) : Except Failure Unit :=
  if flags.has SCRIPT_VERIFY_CLEANSTACK then do
    require (flags.has SCRIPT_VERIFY_P2SH) .assertFailed
    require (flags.has SCRIPT_VERIFY_WITNESS) .assertFailed
    check (stack.length == 1) .CLEANSTACK
  else .ok ()

/-- `VerifyScript`. (Its local `hadWitness` is set and never read.) -/
def verifyScript (scriptSig scriptPubKey : CScript) (witness : List Valtype) (flags : ScriptFlags) : m Unit := do
  check (!flags.has SCRIPT_VERIFY_SIGPUSHONLY || scriptSig.isPushOnly) .SIG_PUSHONLY
  let stackCopy ← evalScript crypto checker .BASE flags [] scriptSig
  let stack ← evalScript crypto checker .BASE flags stackCopy scriptPubKey
  check (topIsTrue stack) .EVAL_FALSE
  let stack ← witnessPhase crypto checker (scriptSig.length == 0) .WITNESS_MALLEATED scriptPubKey witness flags stack
  let stack ← p2sh crypto checker scriptSig scriptPubKey witness flags stackCopy stack
  cleanStack flags stack

end

end Soferox
