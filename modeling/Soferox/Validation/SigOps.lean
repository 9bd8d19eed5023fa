import Soferox.Lib.Counted
import Soferox.Script.WitnessRule
import Soferox.Validation.Tx

/-!
# Signature checks and signature operations

The calls of `CheckSig` that `VerifyScript` makes, accepting or rejecting, against the signature operations that
`GetSigOpCount` and `CountWitnessSigOps` read off the scripts.

* `countedVerifyScript` — `VerifyScript` with the number of its calls; `result_countedVerifyScript` says that it is
  `VerifyScript`;
* `AfterOpcode` — the link between the opcode before a `CHECKMULTISIG` and the number of keys it will find;
* `count_evalScript` — the calls of a script are among its signature operations, however they are counted;
* `verifyScript_checkSig_le` — the bound for `VerifyScript`;
* `checkMultisig_iff_assigned` — which signatures `OP_CHECKMULTISIG` accepts.
-/

namespace Soferox

open Lib CScript CScriptNum Counted List Nat UInt8 Bool

/-! ## Counting the calls -/

/-- What runs a script and counts the answers of `CheckSig`. -/
abbrev Calls := Counted Failure

instance : ScriptMonad Calls where
  monadLift := .lift
  answer := .call

def countedCheckMultisig (crypto : Crypto) (checker : BaseSignatureChecker) (sigversion : SigVersion)
    (flags : ScriptFlags) (s : ScriptState) : Calls ScriptState := opCheckMultisig crypto checker sigversion flags s

/-- `VerifyScript`, with the number of its calls of `CheckSig`. -/
def countedVerifyScript (crypto : Crypto) (checker : BaseSignatureChecker) (scriptSig scriptPubKey : CScript)
    (witness : List Valtype) (flags : ScriptFlags) : Calls Unit :=
  verifyScript crypto checker scriptSig scriptPubKey witness flags

/-! ## The count does not change the result -/

section

@[simp] lemma result_liftM {α : Type} (x : Except Failure α) : (liftM x : Calls α).result = x := rfl
@[simp] lemma count_liftM {α : Type} (x : Except Failure α) : (liftM x : Calls α).count = 0 := rfl
@[simp] lemma result_answer (b : Bool) : (ScriptMonad.answer b : Calls Bool).result = .ok b := rfl

variable {crypto : Crypto} {checker : BaseSignatureChecker} {sigversion : SigVersion} {flags : ScriptFlags}

lemma result_opCheckSig (s : ScriptState) : (opCheckSig crypto checker sigversion flags s : Calls ScriptState).result =
    opCheckSig crypto checker sigversion flags s := by
  rcases hstack : s.stack with _ | ⟨vchPubKey, _ | ⟨vchSig, stack⟩⟩
  all_goals simp [opCheckSig, hstack]

variable (code : CScript) (fAccurate : Bool) (scriptSig scriptPubKey : CScript) (witness : List Valtype)
  (witversion : ℕ) (program : Valtype) (stack : List Valtype) (script : CScript) (keys sigs : List Valtype)

lemma result_multisigLoop : (multisigLoop crypto checker sigversion flags code keys sigs : Calls Bool).result =
    multisigLoop crypto checker sigversion flags code keys sigs := by
  induction keys generalizing sigs with
  | nil => cases sigs <;> rfl
  | cons vchPubKey keys ih =>
    cases sigs with
    | nil => rfl
    | cons vchSig sigs =>
      simp [multisigLoop, ih]

variable {s : ScriptState}

lemma multisigArguments_ok {keys sigs : List Valtype} {nOpCount : ℕ}
    (h : multisigArguments flags s = .ok (keys, sigs, nOpCount)) :
    ∃ bnKeys, operand flags (s.stack.getD 0 []) = .ok bnKeys ∧ keys.length = (getint bnKeys).toNat ∧
      getint bnKeys ≤ MAX_PUBKEYS_PER_MULTISIG := by
  obtain ⟨_, -, h⟩ := bind_eq_ok.1 h
  obtain ⟨bnKeys, hkeys, h⟩ := bind_eq_ok.1 h
  obtain ⟨_, hcount, h⟩ := bind_eq_ok.1 h
  obtain ⟨_, -, h⟩ := bind_eq_ok.1 h
  obtain ⟨_, hstack, h⟩ := bind_eq_ok.1 h
  obtain ⟨_, -, h⟩ := bind_eq_ok.1 h
  obtain ⟨_, -, h⟩ := bind_eq_ok.1 h
  obtain ⟨_, -, h⟩ := bind_eq_ok.1 h
  have hlong := of_decide_eq_true (require_eq_ok.1 hstack)
  have hrange := require_eq_ok.1 hcount
  rw [and_eq_true, decide_eq_true_iff, decide_eq_true_iff] at hrange
  obtain ⟨rfl, -⟩ := Prod.mk.inj (Except.ok.inj h)
  refine ⟨bnKeys, hkeys, ?_, hrange.2⟩
  rw [length_take, length_drop]
  omega

lemma result_countedCheckMultisig (s : ScriptState) : (countedCheckMultisig crypto checker sigversion flags s).result =
    opCheckMultisig crypto checker sigversion flags s := by
  simp [countedCheckMultisig, opCheckMultisig, result_multisigLoop]

lemma result_execOpcode (opcode : Opcodetype) (pc : CScript) (fExec : Bool) (s : ScriptState) :
    (execOpcode crypto checker sigversion flags opcode pc fExec s : Calls ScriptState).result =
      execOpcode crypto checker sigversion flags opcode pc fExec s := by
  have hmulti := @result_countedCheckMultisig crypto checker sigversion flags s
  rw [countedCheckMultisig] at hmulti
  simp [execOpcode, result_opCheckSig, hmulti]

lemma result_execInstr (i : Instr) (s : ScriptState) :
    (execInstr crypto checker sigversion flags i s : Calls ScriptState).result =
      execInstr crypto checker sigversion flags i s := by
  simp [execInstr, result_execOpcode]

lemma result_evalInstr (s : ScriptState) (i : Instr) :
    (evalInstr crypto checker sigversion flags s i : Calls ScriptState).result =
      evalInstr crypto checker sigversion flags s i := by
  simp [evalInstr, result_execInstr]

lemma result_evalScript : (evalScript crypto checker sigversion flags stack script : Calls (List Valtype)).result =
    evalScript crypto checker sigversion flags stack script := by
  simp [evalScript, result_foldlM result_evalInstr]

lemma result_verifyWitnessProgram :
    (verifyWitnessProgram crypto checker witness witversion program flags : Calls Unit).result =
      verifyWitnessProgram crypto checker witness witversion program flags := by
  rw [verifyWitnessProgram, verifyWitnessProgram, result_bind, result_liftM]
  refine bind_congr_ok fun script _ => ?_
  cases script with
  | none => rfl
  | some script => simp [result_evalScript]

lemma result_witnessPhase (fClean : Bool) (e : ScriptError) :
    (witnessPhase crypto checker fClean e script witness flags stack : Calls (List Valtype)).result =
      witnessPhase crypto checker fClean e script witness flags stack := by
  rw [witnessPhase, witnessPhase, result_ite]
  cases script.isWitnessProgram with
  | none => rfl
  | some program =>
    simp [result_verifyWitnessProgram]

lemma result_p2sh (stackCopy stack : List Valtype) :
    (p2sh crypto checker scriptSig scriptPubKey witness flags stackCopy stack : Calls (List Valtype)).result =
      p2sh crypto checker scriptSig scriptPubKey witness flags stackCopy stack := by
  cases stackCopy with
  | nil =>
    simp [p2sh]
  | cons pubKey2 rest =>
    simp [p2sh, result_evalScript, result_witnessPhase]

lemma result_countedVerifyScript : (countedVerifyScript crypto checker scriptSig scriptPubKey witness flags).result =
    verifyScript crypto checker scriptSig scriptPubKey witness flags := by
  simp [countedVerifyScript, verifyScript, result_evalScript, result_witnessPhase, result_p2sh]

/-! ## The calls of a script -/

lemma count_opCheckSig (s : ScriptState) : (opCheckSig crypto checker sigversion flags s : Calls ScriptState).count ≤ 1 := by
  rw [opCheckSig]
  split
  · refine count_lift_bind_le fun _ _ => count_lift_bind_le fun _ _ => ?_
    refine (count_bind_le (le_refl 1) fun _ _ => ?_).trans (add_zero 1).le
    exact count_lift_bind_le fun _ _ => le_refl 0
  · exact zero_le 1

lemma count_multisigLoop :
    (multisigLoop crypto checker sigversion flags code keys sigs : Calls Bool).count ≤ keys.length := by
  induction keys generalizing sigs with
  | nil => cases sigs <;> exact le_refl 0
  | cons vchPubKey keys ih =>
    cases sigs with
    | nil => exact zero_le _
    | cons vchSig sigs =>
      rw [length_cons, add_comm]
      refine count_lift_bind_le fun _ _ => count_lift_bind_le fun _ _ => ?_
      refine count_bind_le (le_refl 1) fun fOk _ => ?_
      dsimp only
      generalize (if fOk = true then sigs else vchSig :: sigs) = sigs'
      split
      · exact zero_le _
      · exact ih sigs'

/-- `OP_CHECKMULTISIG` calls `CheckSig` at most as often as the number on top of the stack says, and the limit for keys
allows. -/
theorem count_countedCheckMultisig {n : ℕ}
    (h : ∀ bnKeys, operand flags (s.stack.getD 0 []) = .ok bnKeys →
      getint bnKeys ≤ MAX_PUBKEYS_PER_MULTISIG → (getint bnKeys).toNat ≤ n) :
    (countedCheckMultisig crypto checker sigversion flags s).count ≤ n := by
  refine count_lift_bind_le fun arguments hargs => ?_
  obtain ⟨keys, sigs, nOpCount⟩ := arguments
  obtain ⟨bnKeys, hoperand, hlen, hmax⟩ := multisigArguments_ok hargs
  refine count_bind_lift_le ((count_multisigLoop _ keys sigs).trans ?_)
  rw [hlen]
  exact h bnKeys hoperand hmax

/-- After one of `OP_1 .. OP_16` in a branch that is executed, its number is on top of the stack. -/
def AfterOpcode (lastOpcode : Opcodetype) (s : ScriptState) : Prop :=
  OP_1 ≤ lastOpcode → lastOpcode ≤ OP_16 → s.vfExec.all id = true →
    ∃ rest, s.stack = CScriptNum.serialize ((lastOpcode.toNat : ℤ) - (OP_1.toNat - 1)) :: rest

variable {lastOpcode : Opcodetype} {i : Instr}

lemma afterOpcode_execInstr {s t : ScriptState}
    (h : execInstr crypto checker sigversion flags i s = .ok t) : AfterOpcode i.opcode t := by
  intro h₁ h₁₆ hall
  have hpush : ¬i.opcode ≤ OP_PUSHDATA4 := UInt8.not_le.2 (UInt8.lt_of_lt_of_le (by decide) h₁)
  rw [execInstr, if_neg (fun h => hpush h.2)] at h
  split at h
  · rw [execOpcode_of_lt _ _ _ _ (UInt8.lt_of_le_of_lt h₁₆ (by decide)), plainOpcode, if_pos (.inr ⟨h₁, h₁₆⟩)] at h
    cases h
    exact ⟨_, rfl⟩
  · rename_i hskip
    cases h
    exact absurd (.inl hall) hskip

lemma afterOpcode_evalInstr {s t : ScriptState}
    (h : evalInstr crypto checker sigversion flags s i = .ok t) : AfterOpcode i.opcode t := by
  obtain ⟨_, -, h⟩ := bind_eq_ok.1 h
  obtain ⟨_, -, h⟩ := bind_eq_ok.1 h
  obtain ⟨_, -, h⟩ := bind_eq_ok.1 h
  obtain ⟨s', hexec, h⟩ := bind_eq_ok.1 h
  obtain ⟨_, -, h⟩ := bind_eq_ok.1 h
  cases h
  exact afterOpcode_execInstr hexec

lemma operand_smallInt {n : ℤ} (h₁ : 1 ≤ n) (h₁₆ : n ≤ 16) : operand flags (serialize n) = .ok n := by
  rw [operand, scriptNum]
  cases flags.has SCRIPT_VERIFY_MINIMALDATA <;> interval_cases n <;> rfl

section

variable (hs : AfterOpcode lastOpcode s)
include hs

lemma count_multisig_afterOpcode (hexec : s.vfExec.all id = true) (h₁ : OP_1 ≤ lastOpcode) (h₁₆ : lastOpcode ≤ OP_16) :
    (countedCheckMultisig crypto checker sigversion flags s).count ≤ decodeOP_N lastOpcode := by
  obtain ⟨rest, hstack⟩ := hs h₁ h₁₆ hexec
  have e51 : OP_1.toNat = 0x51 := rfl
  have e60 : OP_16.toNat = 0x60 := rfl
  have hne : ¬lastOpcode = OP_0 := by
    rintro rfl
    exact absurd h₁ (by decide)
  rw [le_iff_toNat_le] at h₁ h₁₆
  refine count_countedCheckMultisig fun bnKeys hoperand _ => ?_
  rw [hstack, getD_cons_zero, operand_smallInt (by omega) (by omega)] at hoperand
  cases hoperand
  rw [decodeOP_N, if_neg hne, getint]
  omega

/-- **One instruction** calls `CheckSig` at most as often as it is counted. -/
theorem count_execOpcode (hexec : s.vfExec.all id = true) (fAccurate fExec : Bool) (i : Instr) :
    (execOpcode crypto checker sigversion flags i.opcode i.rest fExec s : Calls ScriptState).count ≤
      sigOpLoop fAccurate lastOpcode [i] := by
  have hmulti : (countedCheckMultisig crypto checker sigversion flags s).count ≤
      if fAccurate ∧ OP_1 ≤ lastOpcode ∧ lastOpcode ≤ OP_16 then decodeOP_N lastOpcode else MAX_PUBKEYS_PER_MULTISIG := by
    split_ifs with hlast
    · exact count_multisig_afterOpcode hs hexec hlast.2.1 hlast.2.2
    · exact count_countedCheckMultisig fun bnKeys _ hmax => Int.toNat_le.2 hmax
  rw [sigOpLoop, sigOpLoop, add_zero]
  by_cases hsig : i.opcode = OP_CHECKSIG
  · rw [execOpcode, if_pos hsig, if_pos (.inl hsig)]
    exact count_opCheckSig s
  by_cases hsigv : i.opcode = OP_CHECKSIGVERIFY
  · rw [execOpcode, if_neg hsig, if_pos hsigv, if_pos (.inr hsigv)]
    exact count_bind_lift_le (count_opCheckSig s)
  rw [if_neg (not_or.2 ⟨hsig, hsigv⟩), execOpcode, if_neg hsig, if_neg hsigv]
  by_cases hmult : i.opcode = OP_CHECKMULTISIG
  · rw [if_pos hmult, if_pos (.inl hmult)]
    exact hmulti
  by_cases hmultv : i.opcode = OP_CHECKMULTISIGVERIFY
  · rw [if_neg hmult, if_pos hmultv, if_pos (.inr hmultv)]
    exact count_bind_lift_le hmulti
  · rw [if_neg hmult, if_neg hmultv, count_liftM]
    exact zero_le _

lemma count_execInstr (fAccurate : Bool) (i : Instr) :
    (execInstr crypto checker sigversion flags i s : Calls ScriptState).count ≤ sigOpLoop fAccurate lastOpcode [i] := by
  rw [execInstr]
  split_ifs with hpush hexec
  · exact count_lift_bind_le fun _ _ => zero_le _
  · by_cases hall : s.vfExec.all id = true
    · exact count_execOpcode hs hall fAccurate _ i
    · -- a conditional in a branch that is not executed
      obtain ⟨-, hendif⟩ := hexec.resolve_left hall
      rw [execOpcode_of_lt _ _ _ _ (UInt8.lt_of_le_of_lt hendif (by decide))]
      exact zero_le _
  · exact zero_le _

lemma withOpCount (nOpCount : ℕ) : AfterOpcode lastOpcode { s with nOpCount := nOpCount } := hs

lemma count_evalInstr (fAccurate : Bool) (i : Instr) :
    (evalInstr crypto checker sigversion flags s i : Calls ScriptState).count ≤ sigOpLoop fAccurate lastOpcode [i] := by
  refine count_lift_bind_le fun _ _ => count_lift_bind_le fun _ _ =>
    count_lift_bind_le fun _ _ => ?_
  exact count_bind_le_left (count_execInstr (withOpCount hs _) fAccurate i) fun _ _ =>
    count_lift_bind_le fun _ _ => le_refl 0

end

lemma count_foldlM (hs : AfterOpcode lastOpcode s) (fAccurate : Bool) (is : List Instr) :
    (is.foldlM (evalInstr crypto checker sigversion flags) s : Calls ScriptState).count ≤ sigOpLoop fAccurate lastOpcode is := by
  induction is generalizing lastOpcode s with
  | nil => exact zero_le _
  | cons i is ih =>
    refine count_bind_le (count_evalInstr hs fAccurate i) fun t ht => ?_
    rw [result_evalInstr] at ht
    exact ih (afterOpcode_evalInstr ht)

/-- **The calls of a script** are among its signature operations, however they are counted. -/
theorem count_evalScript :
    (evalScript crypto checker sigversion flags stack script : Calls (List Valtype)).count ≤ getSigOpCount script fAccurate := by
  refine count_lift_bind_le fun _ _ => ?_
  refine count_bind_le_left (count_foldlM ?_ fAccurate _) fun _ _ => ?_
  · intro h₁ h₁₆
    exact absurd h₁₆ (by decide)
  · exact count_lift_bind_le fun _ _ => count_lift_bind_le fun _ _ => le_refl 0

/-! ## The calls of `VerifyScript` -/

/-- The numbers that `OP_1NEGATE` and `OP_1 .. OP_16` push have no signature operations as a script. -/
theorem IsSmallInt.getSigOpCount {v : Valtype} (h : IsSmallInt v) : CScript.getSigOpCount v true = 0 := by
  obtain ⟨n, h₁, h₂, rfl⟩ := h
  interval_cases n <;> rfl

lemma getOp_direct {opcode : Opcodetype} (h : opcode < OP_PUSHDATA1) {data : Valtype}
    (hlen : data.length = opcode.toNat) (rest : CScript) :
    getOp (opcode :: (data ++ rest)) = some ⟨opcode, data, rest⟩ := by
  have hpush : opcode ≤ OP_PUSHDATA4 := UInt8.le_of_lt (UInt8.lt_of_lt_of_le h (by decide))
  have hsize : pushSize opcode (data ++ rest) = some (opcode.toNat, data ++ rest) := by
    unfold pushSize
    rw [if_pos h]
  rw [getOp, if_pos hpush, hsize]
  dsimp only
  rw [if_neg (by rw [length_append]; omega), take_left' hlen, drop_left' hlen]

lemma getSigOpCount_keyHash {program : Valtype} (h : program.length = 20) :
    CScript.getSigOpCount ([OP_DUP, OP_HASH160] ++ push program ++ [OP_EQUALVERIFY, OP_CHECKSIG]) true = 1 := by
  have hpush : push program = 0x14 :: program := by
    rw [push, h]
    rfl
  have hscript : [OP_DUP, OP_HASH160] ++ push program ++ [OP_EQUALVERIFY, OP_CHECKSIG] =
      OP_DUP :: OP_HASH160 :: 0x14 :: (program ++ [OP_EQUALVERIFY, OP_CHECKSIG]) := by
    rw [hpush]
    rfl
  have hhash := getOp_direct (by decide : (0x14 : Opcodetype) < OP_PUSHDATA1) h [OP_EQUALVERIFY, OP_CHECKSIG]
  rw [CScript.getSigOpCount, hscript, instrs_of_getOp rfl, instrs_of_getOp rfl, instrs_of_getOp hhash]
  rfl

lemma getSigOpCount_witnessScript {witness stack : List Valtype} {witversion : ℕ} {program : Valtype}
    {script : CScript} (h : witnessScript crypto witness witversion program flags = .ok (some (stack, script))) :
    script.getSigOpCount true ≤ witnessSigOps witversion program witness := by
  unfold witnessScript at h
  unfold witnessSigOps
  split at h
  · rename_i hversion
    rw [if_pos hversion]
    split at h
    · -- the last item of the witness stack is the script
      rename_i hlen
      rw [if_neg (by omega), if_pos hlen]
      cases witness with
      | nil => cases h
      | cons subscript rest =>
        obtain ⟨_, -, h⟩ := bind_eq_ok.1 h
        cases h
        exact le_rfl
    · split at h
      · rename_i hlen
        obtain ⟨_, -, h⟩ := bind_eq_ok.1 h
        cases h
        rw [if_pos hlen, getSigOpCount_keyHash hlen]
      · cases h
  · obtain ⟨_, -, h⟩ := bind_eq_ok.1 h
    cases h

lemma count_verifyWitnessProgram :
    (verifyWitnessProgram crypto checker witness witversion program flags : Calls Unit).count ≤
      witnessSigOps witversion program witness := by
  rw [verifyWitnessProgram]
  refine count_lift_bind_le fun script hscript => ?_
  cases script with
  | none => exact zero_le _
  | some script =>
    refine count_lift_bind_le fun _ _ => ?_
    refine count_bind_le_left ?_ fun _ _ => count_lift_bind_le fun _ _ => le_rfl
    exact (count_evalScript true script.1 script.2).trans (getSigOpCount_witnessScript hscript)

/-- The signature operations of a script that may be a witness program. -/
def programSigOps (script : CScript) (witness : List Valtype) : ℕ :=
  match script.isWitnessProgram with
  | none => 0
  | some (witversion, program) => witnessSigOps witversion program witness

lemma count_witnessPhase (fClean : Bool) (e : ScriptError) :
    (witnessPhase crypto checker fClean e script witness flags stack : Calls (List Valtype)).count ≤ programSigOps script witness := by
  rw [witnessPhase, programSigOps]
  split
  · cases script.isWitnessProgram with
    | none => exact le_rfl
    | some program =>
      refine count_lift_bind_le fun _ _ => ?_
      exact count_bind_lift_le (count_verifyWitnessProgram witness program.1 program.2)
  · exact zero_le _

/-- The calls of the P2SH phase: those of the redeem script, and of the witness program it may be. -/
theorem count_p2sh {scriptSig scriptPubKey : CScript} {stackCopy : List Valtype}
    (hsig : evalScript crypto checker .BASE flags [] scriptSig = .ok stackCopy) (witness stack : List Valtype) :
    (p2sh crypto checker scriptSig scriptPubKey witness flags stackCopy stack : Calls (List Valtype)).count ≤
      (if scriptPubKey.isPayToScriptHash then getSigOpCountP2SH scriptPubKey scriptSig else 0) +
        if scriptPubKey.isPayToScriptHash ∧ scriptSig.isPushOnly then programSigOps (redeemScript scriptSig) witness
        else 0 := by
  unfold p2sh
  split
  · rename_i hp2sh
    refine count_lift_bind_le fun _ hcheck => ?_
    have hpush : scriptSig.isPushOnly := require_eq_ok.1 hcheck
    rw [if_pos hp2sh.2, if_pos ⟨hp2sh.2, hpush⟩, getSigOpCountP2SH, if_pos hp2sh.2, if_pos hpush]
    cases stackCopy with
    | nil => exact zero_le _
    | cons pubKey2 rest =>
      -- the redeem script that is counted is the one that is run, or has no signature operations
      have hredeem : CScript.getSigOpCount pubKey2 true ≤ CScript.getSigOpCount (redeemScript scriptSig) true := by
        rcases evalScript_pushOnly hpush hsig with rfl | ⟨hsmall, -⟩
        · exact le_rfl
        · rw [hsmall.getSigOpCount]
          exact zero_le _
      have hprogram : programSigOps pubKey2 witness = programSigOps (redeemScript scriptSig) witness := by
        rw [programSigOps, programSigOps, evalScript_pushOnly_top hpush hsig]
      refine count_bind_le ((count_evalScript true rest pubKey2).trans hredeem) fun _ _ => ?_
      refine count_lift_bind_le fun _ _ => ?_
      exact (count_witnessPhase witness _ pubKey2 _ _).trans hprogram.le
  · exact zero_le _

lemma isWitnessProgram_of_isPayToScriptHash {script : CScript} (h : script.isPayToScriptHash) :
    script.isWitnessProgram = none := by
  rw [isPayToScriptHash, Bool.and_eq_true, and_eq_true, and_eq_true] at h
  have hfirst : script.getD 0 0 = OP_HASH160 := eq_of_beq h.1.1.2
  unfold isWitnessProgram
  rw [hfirst]
  exact ite_self none

lemma countWitnessSigOps_eq (hP : flags.has SCRIPT_VERIFY_P2SH) (hW : flags.has SCRIPT_VERIFY_WITNESS)
    (scriptSig scriptPubKey : CScript) (witness : List Valtype) :
    countWitnessSigOps scriptSig scriptPubKey witness flags =
      .ok (programSigOps scriptPubKey witness +
        if scriptPubKey.isPayToScriptHash ∧ scriptSig.isPushOnly then programSigOps (redeemScript scriptSig) witness
        else 0) := by
  simp only [countWitnessSigOps, hW, hP, Bool.not_true, false_eq_true, if_false]
  rw [programSigOps]
  cases hspk : scriptPubKey.isWitnessProgram with
  | some program =>
    have hp2sh : ¬scriptPubKey.isPayToScriptHash := by
      intro h
      rw [isWitnessProgram_of_isPayToScriptHash h] at hspk
      cases hspk
    dsimp only
    rw [if_neg fun h => hp2sh h.1, add_zero]
  | none =>
    dsimp only
    rw [zero_add]
    split
    · rw [programSigOps, redeemScript]
      cases isWitnessProgram ((scriptSig.instrs.1.getLast?.map Instr.data).getD []) <;> rfl
    · rfl

lemma count_countedVerifyScript :
    (countedVerifyScript crypto checker scriptSig scriptPubKey witness flags).count ≤
      scriptSig.getSigOpCount false + (scriptPubKey.getSigOpCount false + (programSigOps scriptPubKey witness +
        ((if scriptPubKey.isPayToScriptHash then getSigOpCountP2SH scriptPubKey scriptSig else 0) +
          if scriptPubKey.isPayToScriptHash ∧ scriptSig.isPushOnly then programSigOps (redeemScript scriptSig) witness
          else 0))) := by
  rw [countedVerifyScript, verifyScript]
  refine count_lift_bind_le fun _ _ => ?_
  refine count_bind_le (count_evalScript false [] scriptSig) fun stackCopy hsig => ?_
  refine count_bind_le (count_evalScript false stackCopy scriptPubKey) fun stack _ => ?_
  refine count_lift_bind_le fun _ _ => ?_
  refine count_bind_le (count_witnessPhase witness stack scriptPubKey _ _) fun stack _ => ?_
  rw [result_evalScript] at hsig
  exact count_bind_lift_le (count_p2sh hsig witness stack)

end

/-- **Signature operations bound the signature checks.** With `P2SH` and `WITNESS` on, `VerifyScript` calls
`CheckSig` at most as often as they are counted, whatever it answers. -/
theorem verifyScript_checkSig_le (crypto : Crypto) (checker : BaseSignatureChecker) (scriptSig scriptPubKey : CScript)
    (witness : List Valtype) (flags : ScriptFlags) (hP : flags.has SCRIPT_VERIFY_P2SH)
    (hW : flags.has SCRIPT_VERIFY_WITNESS) :
    ∃ nCalls nWitness,
      countedVerifyScript crypto checker scriptSig scriptPubKey witness flags =
        ⟨verifyScript crypto checker scriptSig scriptPubKey witness flags, nCalls⟩ ∧
      countWitnessSigOps scriptSig scriptPubKey witness flags = .ok nWitness ∧
      nCalls ≤ scriptSig.getSigOpCount false + scriptPubKey.getSigOpCount false +
        (if scriptPubKey.isPayToScriptHash then getSigOpCountP2SH scriptPubKey scriptSig else 0) + nWitness := by
  refine ⟨(countedVerifyScript crypto checker scriptSig scriptPubKey witness flags).count, _, ?_,
    countWitnessSigOps_eq hP hW scriptSig scriptPubKey witness, ?_⟩
  · rw [← result_countedVerifyScript]
  · exact (count_countedVerifyScript scriptSig scriptPubKey witness).trans (by omega)

/-- A bare key: one call, and one signature operation. -/
theorem verifyScript_checkSig_le_bareKey :
    (SCRIPT_VERIFY_P2SH ||| SCRIPT_VERIFY_WITNESS).has SCRIPT_VERIFY_P2SH ∧
    (SCRIPT_VERIFY_P2SH ||| SCRIPT_VERIFY_WITNESS).has SCRIPT_VERIFY_WITNESS ∧
    ∃ nCalls nWitness,
      countedVerifyScript ⟨id, id, id, id, id, fun _ => true⟩ ⟨fun _ _ _ _ => true, fun _ => true, fun _ => true⟩
          (push [0x30]) (push [0x02] ++ [OP_CHECKSIG]) [] (SCRIPT_VERIFY_P2SH ||| SCRIPT_VERIFY_WITNESS) =
        ⟨verifyScript ⟨id, id, id, id, id, fun _ => true⟩ ⟨fun _ _ _ _ => true, fun _ => true, fun _ => true⟩
          (push [0x30]) (push [0x02] ++ [OP_CHECKSIG]) [] (SCRIPT_VERIFY_P2SH ||| SCRIPT_VERIFY_WITNESS), nCalls⟩ ∧
      countWitnessSigOps (push [0x30]) (push [0x02] ++ [OP_CHECKSIG]) []
        (SCRIPT_VERIFY_P2SH ||| SCRIPT_VERIFY_WITNESS) = .ok nWitness ∧
      nCalls ≤ (push [0x30]).getSigOpCount false + (push [0x02] ++ [OP_CHECKSIG]).getSigOpCount false +
        (if (push [0x02] ++ [OP_CHECKSIG]).isPayToScriptHash then
          getSigOpCountP2SH (push [0x02] ++ [OP_CHECKSIG]) (push [0x30]) else 0) + nWitness :=
  ⟨by decide, by decide, verifyScript_checkSig_le _ _ _ _ _ _ (by decide) (by decide)⟩

/-! ## The keys that `OP_CHECKMULTISIG` finds -/

/-- A strictly increasing assignment of the signatures to keys that accept them: the positions of the keys, one for each
signature. -/
def Assigned (checker : BaseSignatureChecker) (sigversion : SigVersion) (code : CScript) (keys sigs : List Valtype) : Prop :=
  ∃ is : List (Fin keys.length), is.Pairwise (· < ·) ∧
    List.Forall₂ (fun sig i => checker.checkSig sig (keys.get i) code sigversion = true) sigs is

section

variable {crypto : Crypto} {checker : BaseSignatureChecker} {sigversion : SigVersion} {flags : ScriptFlags}
  {code : CScript} {keys sigs : List Valtype}

lemma assigned_iff : Assigned checker sigversion code keys sigs ↔
    ∃ l, l.Sublist keys ∧ List.Forall₂ (fun sig key => checker.checkSig sig key code sigversion = true) sigs l := by
  constructor
  · rintro ⟨is, hlt, hsigs⟩
    exact ⟨is.map keys.get, map_getElem_sublist hlt, forall₂_map_right_iff.2 hsigs⟩
  · rintro ⟨l, hl, hsigs⟩
    obtain ⟨is, rfl, hlt⟩ := sublist_eq_map_getElem hl
    exact ⟨is, hlt, forall₂_map_right_iff.1 hsigs⟩

/-- A key that accepts the next signature may as well be taken for it. -/
theorem assigned_cons {key sig : Valtype} : Assigned checker sigversion code (key :: keys) (sig :: sigs) ↔
    Assigned checker sigversion code keys (if checker.checkSig sig key code sigversion then sigs else sig :: sigs) := by
  simp only [assigned_iff]
  constructor
  · rintro ⟨l, hl, hsigs⟩
    obtain _ | @⟨_, key', _, l, haccept, hrest⟩ := hsigs
    split_ifs with hreject
    · exact ⟨l, hl.tail, hrest⟩
    · rcases sublist_cons_iff.1 hl with hl | ⟨r, heq, -⟩
      · exact ⟨_, hl, .cons haccept hrest⟩
      · cases heq
        exact absurd haccept hreject
  · rintro ⟨l, hl, hsigs⟩
    split at hsigs
    · rename_i haccept
      exact ⟨key :: l, hl.cons_cons key, .cons haccept hsigs⟩
    · exact ⟨l, hl.cons key, hsigs⟩

variable (checker code) in
lemma multisigLoop_eq (hkeys : ∀ key ∈ keys, checkPubKeyEncoding key flags sigversion = .ok ())
    (hsigs : ∀ sig ∈ sigs, checkSignatureEncoding crypto sig flags = .ok ()) :
    ∃ fSuccess, multisigLoop crypto checker sigversion flags code keys sigs = .ok fSuccess ∧
      (fSuccess = true ↔ Assigned checker sigversion code keys sigs) := by
  induction keys generalizing sigs with
  | nil =>
    cases sigs with
    | nil => exact ⟨true, rfl, iff_of_true rfl ⟨[], .nil, .nil⟩⟩
    | cons sig sigs => exact ⟨false, rfl, by simp [assigned_iff]⟩
  | cons key keys ih =>
    cases sigs with
    | nil => exact ⟨true, rfl, iff_of_true rfl ⟨[], .nil, .nil⟩⟩
    | cons sig sigs =>
      rw [forall_mem_cons] at hkeys
      rw [multisigLoop, hsigs sig mem_cons_self, hkeys.1, assigned_cons]
      have hsub : ∀ sig' ∈ if checker.checkSig sig key code sigversion then sigs else sig :: sigs,
          checkSignatureEncoding crypto sig' flags = .ok () := by
        split
        · exact (forall_mem_cons.1 hsigs).2
        · exact hsigs
      simp only [liftM_except, answer_except, ok_bind]
      generalize (if checker.checkSig sig key code sigversion then sigs else sig :: sigs) = sigs' at hsub ⊢
      split_ifs with hlong
      · refine ⟨false, rfl, iff_of_false (by simp) fun hassigned => ?_⟩
        obtain ⟨l, hl, hl'⟩ := assigned_iff.1 hassigned
        exact absurd (hl'.length_eq ▸ hl.length_le) (by omega)
      · exact ih hkeys.2 hsub

lemma multisigCleanup_cases (fSuccess : Bool) (flags : ScriptFlags) (ikey2 : ℕ) (l rest : List Valtype) :
    multisigCleanup fSuccess flags l.length ikey2 (l ++ rest) = .ok rest ∨
      fSuccess = false ∧ multisigCleanup fSuccess flags l.length ikey2 (l ++ rest) = fail .SIG_NULLFAIL := by
  induction l generalizing ikey2 with
  | nil => exact .inl rfl
  | cons top l ih =>
    rw [length_cons, cons_append, multisigCleanup]
    generalize hcheck : (!(!fSuccess && flags.has SCRIPT_VERIFY_NULLFAIL && ikey2 == 0 && top.length != 0)) = passed
    cases passed with
    | true => exact ih (ikey2 - 1)
    | false => exact .inr ⟨by simp_all, rfl⟩

lemma getint_of_le {n : ℕ} (h : n ≤ 20) : getint n = n := by
  rw [getint]
  omega

variable {s : ScriptState} {nKeys nSigs : Valtype} {rest : List Valtype}
  (hstack : s.stack = nKeys :: (keys ++ nSigs :: (sigs ++ [] :: rest)))
  (hnKeys : operand flags nKeys = .ok keys.length) (hnSigs : operand flags nSigs = .ok sigs.length)
  (hle : sigs.length ≤ keys.length) (hmax : keys.length ≤ 20) (hops : s.nOpCount + keys.length ≤ MAX_OPS_PER_SCRIPT)
include hstack hnKeys hnSigs hle hmax hops

lemma multisigArguments_eq : multisigArguments flags s = .ok (keys, sigs, s.nOpCount + keys.length) := by
  have hlen : 3 + keys.length + sigs.length ≤ s.stack.length := by
    rw [hstack]
    simp
    omega
  have hitem : s.stack.getD 0 [] = nKeys := by rw [hstack]; rfl
  have hitem' : s.stack.getD (1 + keys.length) [] = nSigs := by
    rw [hstack, add_comm]
    simp
  have htake : (s.stack.drop 1).take keys.length = keys := by rw [hstack]; simp
  have htake' : (s.stack.drop (2 + keys.length)).take sigs.length = sigs := by
    rw [hstack, show 2 + keys.length = keys.length + 1 + 1 by omega]
    simp
  simp only [multisigArguments, hitem, hitem', hnKeys, hnSigs, ok_bind, getint_of_le hmax, getint_of_le (hle.trans hmax),
    Int.toNat_natCast, htake, htake']
  simp [MAX_PUBKEYS_PER_MULTISIG, hops, hle, hmax, hlen, show 1 ≤ s.stack.length by omega,
    show 2 + keys.length ≤ s.stack.length by omega, ok_bind]

/-- **`OP_CHECKMULTISIG` is sound and complete**: it succeeds exactly when there is a strictly increasing assignment,
and calls `CheckSig` at most once for each key. -/
theorem checkMultisig_iff_assigned (hkeys : ∀ key ∈ keys, checkPubKeyEncoding key flags sigversion = .ok ())
    (hsigs : ∀ sig ∈ sigs, checkSignatureEncoding crypto sig flags = .ok ()) :
    ∃ nCalls fSuccess, countedCheckMultisig crypto checker sigversion flags s =
        ⟨opCheckMultisig crypto checker sigversion flags s, nCalls⟩ ∧ nCalls ≤ keys.length ∧
      (fSuccess = true ↔ Assigned checker sigversion (scriptCode sigversion sigs s.codehash) keys sigs) ∧
      (opCheckMultisig crypto checker sigversion flags s =
          .ok { s with stack := vchBool fSuccess :: rest, nOpCount := s.nOpCount + keys.length } ∨
        fSuccess = false ∧ opCheckMultisig crypto checker sigversion flags s = fail .SIG_NULLFAIL) := by
  obtain ⟨fSuccess, hloop, hassigned⟩ := multisigLoop_eq checker
    (scriptCode sigversion sigs s.codehash) hkeys hsigs
  have hcount : (countedCheckMultisig crypto checker sigversion flags s).count ≤ keys.length := by
    refine count_countedCheckMultisig fun bnKeys hbn _ => ?_
    rw [hstack] at hbn
    obtain rfl := Except.ok.inj (hnKeys.symm.trans hbn)
    rw [getint_of_le hmax, Int.toNat_natCast]
  refine ⟨_, fSuccess, by rw [← result_countedCheckMultisig], hcount, hassigned, ?_⟩
  simp only [opCheckMultisig, multisigArguments_eq hstack hnKeys hnSigs hle hmax hops, liftM_except, ok_bind, hloop,
    multisigResult]
  have hlen : 2 + keys.length + sigs.length = (nKeys :: (keys ++ nSigs :: sigs)).length := by
    simp
    omega
  have happend : s.stack = nKeys :: (keys ++ nSigs :: sigs) ++ [] :: rest := by simp [hstack]
  rw [hlen, happend]
  rcases multisigCleanup_cases fSuccess flags (keys.length + 2) (nKeys :: (keys ++ nSigs :: sigs)) ([] :: rest) with
    hok | ⟨hfalse, hfail⟩
  · rw [hok]
    exact .inl (by simp [ok_bind])
  · rw [hfail]
    exact .inr ⟨hfalse, rfl⟩

end

/-- One of two: the second key accepts the signature. -/
theorem checkMultisig_second_key :
    opCheckMultisig ⟨id, id, id, id, id, fun _ => true⟩ ⟨fun _ key _ _ => key == [3], fun _ => true, fun _ => true⟩ .BASE 0
      ⟨[[2], [2], [3], [1], [0x30], []], [], [], 0, []⟩ = .ok ⟨[vchBool true], [], [], 2, []⟩ := by
  obtain ⟨-, fSuccess, -, -, hassigned, hresult⟩ := @checkMultisig_iff_assigned ⟨id, id, id, id, id, fun _ => true⟩
    ⟨fun _ key _ _ => key == [3], fun _ => true, fun _ => true⟩ .BASE 0 [[2], [3]] [[0x30]]
    ⟨[[2], [2], [3], [1], [0x30], []], [], [], 0, []⟩ [2] [1] [] rfl rfl rfl (by decide) (by decide) (by decide) (by decide)
    (by decide)
  obtain rfl := hassigned.2 ⟨[1], pairwise_singleton _ _, .cons (by decide) .nil⟩
  simpa using hresult

end Soferox
