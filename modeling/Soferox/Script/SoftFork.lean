import Soferox.Script.Interpreter

/-!
# Script flags are soft forks

Adding flags can only turn an accepted script into a rejected one.

* `evalScript_restricts` — every opcode, and hence `EvalScript`, either fails or behaves as with fewer flags;
* `verifyWitnessProgram_restricts` — the same for witness programs;
* `witnessPhase_mono`, `p2sh_mono` — the phases of `VerifyScript` that a flag switches on: with fewer flags they still
  succeed, and with the same stack as long as the flag is there;
* `verifyScript_mono` — **`VerifyScript` is a soft fork in its flags**.
-/

namespace Soferox

open Lib CScript

/-! ## Flag sets -/

def ScriptFlags.Subset (F G : ScriptFlags) : Prop := F &&& G = F

instance (F G : ScriptFlags) : Decidable (F.Subset G) := inferInstanceAs (Decidable (F &&& G = F))

/-- What `VerifyScript` asserts about its flags: `CLEANSTACK` comes with `P2SH` and `WITNESS`. -/
def ScriptFlags.Wellformed (flags : ScriptFlags) : Prop :=
  flags.has SCRIPT_VERIFY_CLEANSTACK → flags.has SCRIPT_VERIFY_P2SH ∧ flags.has SCRIPT_VERIFY_WITNESS

instance (flags : ScriptFlags) : Decidable flags.Wellformed :=
  inferInstanceAs (Decidable (flags.has SCRIPT_VERIFY_CLEANSTACK = true →
    flags.has SCRIPT_VERIFY_P2SH = true ∧ flags.has SCRIPT_VERIFY_WITNESS = true))

lemma ScriptFlags.Subset.has {F G : ScriptFlags} (h : F.Subset G) {mask : ScriptFlags} (hF : F.has mask = true) :
    G.has mask = true := by
  simp only [ScriptFlags.has, bne_iff_ne] at hF ⊢
  intro hG
  apply hF
  calc F &&& mask = F &&& G &&& mask := by rw [h]
    _ = F &&& (G &&& mask) := BitVec.and_assoc ..
    _ = 0 := by rw [hG]; simp

variable (mask : ScriptFlags)

lemma has_laxer : Laxer ScriptFlags.Subset fun flags => flags.has mask := fun _ _ h => h.has

lemma not_has_stricter : Stricter ScriptFlags.Subset fun flags => !flags.has mask :=
  (has_laxer mask).not

lemma check_if_has (b : Bool) (e : ScriptError) :
    Restricts ScriptFlags.Subset fun flags => check (!flags.has mask || b) e :=
  .require ((not_has_stricter mask).or (.const b)) _

/-! ## Encodings and operands -/

section

variable (crypto : Crypto) (checker : BaseSignatureChecker) (sigversion : SigVersion)

lemma checkSignatureEncoding_restricts (vchSig : Valtype) :
    Restricts ScriptFlags.Subset (checkSignatureEncoding crypto vchSig) := by
  refine .ite (.const _) (.bind (check_if_has _ _ _) fun _ => .bind (.switch (has_laxer _) (.const _) ?_) fun _ =>
    check_if_has _ _ _)
  exact fun _ _ _ => rfl

lemma checkPubKeyEncoding_restricts (vchPubKey : Valtype) :
    Restricts ScriptFlags.Subset fun flags => checkPubKeyEncoding vchPubKey flags sigversion := by
  refine .bind (check_if_has _ _ _) fun _ => .require (.or ?_ (.const _)) _
  exact ((has_laxer _).and (.const _)).not

lemma scriptNum_restricts (nMaxNumSize : ℕ) (vch : Valtype) :
    Restricts ScriptFlags.Subset fun flags => scriptNum flags nMaxNumSize vch := by
  intro F G h n hG
  simp only [scriptNum] at hG ⊢
  cases hF : F.has SCRIPT_VERIFY_MINIMALDATA with
  | true => rwa [h.has hF] at hG
  | false =>
    cases hG' : G.has SCRIPT_VERIFY_MINIMALDATA with
    | false => rwa [hG'] at hG
    | true =>
      rw [hG'] at hG
      cases hv : CScriptNum.ofVch vch true nMaxNumSize with
      | none => rw [hv] at hG; cases hG
      | some m =>
        -- a minimally encoded number is the same number when minimality is not asked for
        rw [hv] at hG
        rw [CScriptNum.ofVch_of_minimal hv]
        exact hG

/-! ## Opcodes -/

lemma unaryOp_restricts (f : ℤ → ℤ) (s : ScriptState) :
    Restricts ScriptFlags.Subset fun flags => unaryOp f flags s := by
  unfold unaryOp
  split
  · exact .bind (scriptNum_restricts _ _) fun _ => .const _
  · exact .const _

lemma binaryOp_restricts (f : ℤ → ℤ → ℤ) (s : ScriptState) :
    Restricts ScriptFlags.Subset fun flags => binaryOp f flags s := by
  unfold binaryOp
  split
  · exact .bind (scriptNum_restricts _ _) fun _ => .bind (scriptNum_restricts _ _) fun _ => .const _
  · exact .const _

variable (i : Instr) (opcode : Opcodetype) (fExec : Bool) (s : ScriptState) {flags : ScriptFlags}

lemma opIf_restricts : Restricts ScriptFlags.Subset fun flags => opIf opcode fExec sigversion flags s := by
  refine .ite ?_ (.const _)
  split
  · refine .bind (.require (.or ?_ (.const _)) _) fun _ => .const _
    exact ((Laxer.const _).and (has_laxer _)).not
  · exact .const _

lemma opCheckLock_restricts (satisfied : ℤ → Bool) :
    Restricts ScriptFlags.Subset fun flags => opCheckLock satisfied flags s := by
  unfold opCheckLock
  split
  · exact .bind (scriptNum_restricts _ _) fun _ => .const _
  · exact .const _

lemma opCheckLock_state {satisfied : ℤ → Bool} {s t : ScriptState} (h : opCheckLock satisfied flags s = .ok t) :
    t = s := by
  unfold opCheckLock at h
  split at h
  · obtain ⟨n, -, h⟩ := bind_eq_ok.1 h
    obtain ⟨_, -, h⟩ := bind_eq_ok.1 h
    obtain ⟨_, -, h⟩ := bind_eq_ok.1 h
    exact (Except.ok.inj h).symm
  · cases h

lemma opPickRoll_restricts : Restricts ScriptFlags.Subset fun flags => opPickRoll opcode flags s := by
  unfold opPickRoll
  split
  · exact .bind (scriptNum_restricts _ _) fun _ => .const _
  · exact .const _

lemma opWithin_restricts : Restricts ScriptFlags.Subset fun flags => opWithin flags s := by
  unfold opWithin
  split
  · exact .bind (scriptNum_restricts _ _) fun _ => .bind (scriptNum_restricts _ _) fun _ =>
      .bind (scriptNum_restricts _ _) fun _ => .const _
  · exact .const _

lemma opCheckSig_restricts :
    Restricts ScriptFlags.Subset fun flags => opCheckSig crypto checker sigversion flags s := by
  unfold opCheckSig
  split
  · refine .bind (checkSignatureEncoding_restricts crypto _) fun _ =>
      .bind (checkPubKeyEncoding_restricts sigversion _) fun _ => .bind (.const _) fun _ =>
      .bind (.require ?_ _) fun _ => .const _
    exact (((Laxer.const _).and (has_laxer _)).and (.const _)).not
  · exact .const _

lemma multisigLoop_restricts (code : CScript) (keys sigs : List Valtype) :
    Restricts ScriptFlags.Subset fun flags => multisigLoop crypto checker sigversion flags code keys sigs := by
  induction keys generalizing sigs with
  | nil =>
    cases sigs with
    | nil => exact .const _
    | cons sig sigs => exact .const _
  | cons key keys ih =>
    cases sigs with
    | nil => exact .const _
    | cons sig sigs =>
      exact .bind (checkSignatureEncoding_restricts crypto sig) fun _ =>
        .bind (checkPubKeyEncoding_restricts sigversion key) fun _ => .ite (.const _) (ih _)

lemma multisigCleanup_restricts (fSuccess : Bool) (n ikey2 : ℕ) (stack : List Valtype) :
    Restricts ScriptFlags.Subset fun flags => multisigCleanup fSuccess flags n ikey2 stack := by
  induction n generalizing ikey2 stack with
  | zero => cases stack <;> exact .const _
  | succ n ih =>
    cases stack with
    | nil => exact .const _
    | cons top stack =>
      refine .bind (.require ?_ _) fun _ => ih _ _
      exact ((((Laxer.const _).and (has_laxer _)).and (.const _)).and (.const _)).not

lemma opCheckMultisig_restricts :
    Restricts ScriptFlags.Subset fun flags => opCheckMultisig crypto checker sigversion flags s := by
  refine .bind ?_ fun arguments => .bind (multisigLoop_restricts ..) fun _ =>
    .bind (multisigCleanup_restricts ..) fun stack => ?_
  · exact .bind (.const _) fun _ => .bind (scriptNum_restricts _ _) fun _ => .bind (.const _) fun _ =>
      .bind (.const _) fun _ => .bind (.const _) fun _ => .bind (scriptNum_restricts _ _) fun _ => .const _
  cases stack with
  | nil => exact .const _
  | cons dummy stack =>
    refine .bind (.require ?_ _) fun _ => .const _
    exact ((has_laxer _).and (.const _)).not

lemma plainOpcode_restricts (pc : CScript) (fExec : Bool) (s : ScriptState) :
    Restricts ScriptFlags.Subset fun flags => plainOpcode crypto checker sigversion flags opcode pc fExec s := by
  refine .ite (.const _) (.ite (.const _) (.ite ?cltv (.ite ?csv (.ite ?nops (.ite (opIf_restricts ..)
    (.ite (.const _) (.ite (.const _) (.ite (.const _) (.ite (.const _) (.ite (.const _) (.ite (.const _)
    (.ite (opPickRoll_restricts ..) (.ite (.const _) (.ite (.bind (binaryOp_restricts ..) fun _ => .const _)
    (.ite (opWithin_restricts ..) (.ite (.const _) ?rest))))))))))))))))
  case cltv => exact .switch (has_laxer _) (opCheckLock_restricts s _) fun _ _ => opCheckLock_state
  case csv => exact .switch (has_laxer _) (opCheckLock_restricts s _) fun _ _ => opCheckLock_state
  case nops => exact .bind (.require (not_has_stricter _) _) fun _ => .const _
  case rest =>
    cases stackOpcode opcode with
    | some f => exact .const _
    | none =>
    cases unaryOpcode opcode with
    | some f => exact unaryOp_restricts f s
    | none =>
    cases binaryOpcode opcode with
    | some f => exact binaryOp_restricts f s
    | none => exact .const _

/-- **Every opcode, under more flags, fails or does what it does under fewer.** -/
theorem execOpcode_restricts (pc : CScript) (fExec : Bool) (s : ScriptState) :
    Restricts ScriptFlags.Subset fun flags => execOpcode crypto checker sigversion flags opcode pc fExec s := by
  have hsig := opCheckSig_restricts crypto checker sigversion s
  have hmulti := opCheckMultisig_restricts crypto checker sigversion s
  exact .ite hsig (.ite (.bind hsig fun _ => .const _) (.ite hmulti (.ite (.bind hmulti fun _ => .const _)
    (plainOpcode_restricts ..))))

/-! ## `EvalScript` and witness programs -/

lemma execInstr_restricts :
    Restricts ScriptFlags.Subset fun flags => execInstr crypto checker sigversion flags i s := by
  refine .ite ?_ (.ite ?_ (.const _))
  · exact .bind (check_if_has _ _ _) fun _ => .const _
  · exact execOpcode_restricts ..

lemma evalInstr_restricts (i : Instr) :
    Restricts ScriptFlags.Subset fun flags => evalInstr crypto checker sigversion flags s i := by
  exact .bind (.const _) fun _ => .bind (.const _) fun _ => .bind (.const _) fun _ =>
    .bind (execInstr_restricts crypto checker sigversion i _) fun _ => .const _

lemma evalScript_restricts (stack : List Valtype) (script : CScript) :
    Restricts ScriptFlags.Subset fun flags => evalScript crypto checker sigversion flags stack script := by
  exact .bind (.const _) fun _ => .bind (.foldlM (evalInstr_restricts crypto checker sigversion) _ _) fun _ => .const _

lemma verifyWitnessProgram_restricts (witness : List Valtype) (witversion : ℕ) (program : Valtype) :
    Restricts ScriptFlags.Subset fun flags => verifyWitnessProgram crypto checker witness witversion program flags := by
  refine .bind ?_ fun w => ?_
  · exact .ite (.const _) (.bind (.require (not_has_stricter _) _) fun _ => .const _)
  · rcases w with _ | ⟨stack, script⟩
    · exact .const _
    · exact .bind (.const _) fun _ => .bind (evalScript_restricts ..) fun _ => .const _

/-! ## `VerifyScript` -/

variable {F G : ScriptFlags} {scriptSig : CScript} {stack stack' witness : List Valtype} {scriptPubKey : CScript}

variable (hFG : F.Subset G)
include hFG

/-- A witness phase with fewer flags succeeds, and with the same stack if the phase is still on. -/
theorem witnessPhase_mono {fClean : Bool} {e : ScriptError} {script : CScript}
    (h : witnessPhase crypto checker fClean e script witness G stack = .ok stack') :
    ∃ t, witnessPhase crypto checker fClean e script witness F stack = .ok t ∧
      (F.has SCRIPT_VERIFY_WITNESS → t = stack') := by
  unfold witnessPhase at h ⊢
  cases hF : F.has SCRIPT_VERIFY_WITNESS with
  | false => exact ⟨stack, rfl, by simp⟩
  | true =>
    rw [hFG.has hF] at h
    refine ⟨stack', ?_, fun _ => rfl⟩
    rcases hw : script.isWitnessProgram with _ | ⟨witversion, program⟩
    · rw [hw] at h
      exact h
    · rw [hw] at h
      exact Restricts.bind (.const _) (fun _ => .bind (verifyWitnessProgram_restricts crypto checker _ _ _)
        fun _ => .const _) hFG h

lemma p2sh_mono {stackCopy t : List Valtype}
    (h : p2sh crypto checker scriptSig scriptPubKey witness G stackCopy stack = .ok stack') :
    ∃ t', p2sh crypto checker scriptSig scriptPubKey witness F stackCopy t = .ok t' ∧
      (F.has SCRIPT_VERIFY_P2SH → F.has SCRIPT_VERIFY_WITNESS → t = stack → t' = stack') := by
  unfold p2sh at h ⊢
  by_cases hF : F.has SCRIPT_VERIFY_P2SH ∧ scriptPubKey.isPayToScriptHash
  · rw [if_pos ⟨hFG.has hF.1, hF.2⟩] at h
    rw [if_pos hF]
    obtain ⟨_, hpush, h⟩ := bind_eq_ok.1 h
    rw [hpush]
    cases stackCopy with
    | nil => cases h
    | cons pubKey2 rest =>
      obtain ⟨stack₂, heval, h⟩ := bind_eq_ok.1 h
      obtain ⟨_, htop, h⟩ := bind_eq_ok.1 h
      obtain ⟨t', ht', heq⟩ := witnessPhase_mono crypto checker hFG h
      refine ⟨t', ?_, fun _ hw _ => heq hw⟩
      exact bind_eq_ok.2 ⟨_, rfl, bind_eq_ok.2 ⟨stack₂, evalScript_restricts _ _ _ _ _ hFG heval,
        bind_eq_ok.2 ⟨_, htop, ht'⟩⟩⟩
  · rw [if_neg hF]
    refine ⟨t, rfl, fun hP _ ht => ?_⟩
    have hspk : ¬ scriptPubKey.isPayToScriptHash = true := fun hs => hF ⟨hP, hs⟩
    rw [if_neg fun hG => hspk hG.2] at h
    rw [ht, Except.ok.inj h]

end

/-- **Script flags are soft forks**: what `VerifyScript` accepts under `G` it accepts under every subset `F` of `G`.
-/
theorem verifyScript_mono (crypto : Crypto) (checker : BaseSignatureChecker) (scriptSig scriptPubKey : CScript)
    (witness : List Valtype) (F G : ScriptFlags) (hFG : F.Subset G) (hF : F.Wellformed)
    (h : verifyScript crypto checker scriptSig scriptPubKey witness G = .ok ()) :
    verifyScript crypto checker scriptSig scriptPubKey witness F = .ok () := by
  obtain ⟨_, hpush, h⟩ := bind_eq_ok.1 h
  obtain ⟨stackCopy, hsig, h⟩ := bind_eq_ok.1 h
  obtain ⟨stack, hspk, h⟩ := bind_eq_ok.1 h
  obtain ⟨_, htop, h⟩ := bind_eq_ok.1 h
  obtain ⟨stack₁, hbare, h⟩ := bind_eq_ok.1 h
  obtain ⟨stack₂, hp2sh, hclean⟩ := bind_eq_ok.1 h
  obtain ⟨t₁, hbare', heq₁⟩ := witnessPhase_mono crypto checker hFG hbare
  obtain ⟨t₂, hp2sh', heq₂⟩ := p2sh_mono crypto checker hFG hp2sh
  refine bind_eq_ok.2 ⟨_, check_if_has _ _ _ hFG hpush, bind_eq_ok.2 ⟨stackCopy,
    evalScript_restricts _ _ _ _ _ hFG hsig, bind_eq_ok.2 ⟨stack, evalScript_restricts _ _ _ _ _ hFG hspk,
    bind_eq_ok.2 ⟨_, htop, bind_eq_ok.2 ⟨t₁, hbare', bind_eq_ok.2 ⟨t₂, hp2sh', ?_⟩⟩⟩⟩⟩⟩
  -- `CLEANSTACK` brings `P2SH` and `WITNESS` with it, so both runs end with the same stack
  unfold cleanStack at hclean ⊢
  cases hc : F.has SCRIPT_VERIFY_CLEANSTACK with
  | false => rfl
  | true =>
    obtain ⟨hP, hW⟩ := hF hc
    rw [hFG.has hc, hFG.has hP, hFG.has hW] at hclean
    rw [hP, hW, heq₂ hP hW (heq₁ hW)]
    exact hclean

/-- A P2SH output with the redeem script `OP_1`, spent with `CLEANSTACK` and `MINIMALDATA`, and without. -/
theorem verifyScript_mono_p2sh :
    let crypto : Crypto := ⟨id, id, id, fun _ => List.replicate 20 0, id, fun _ => true⟩
    let checker : BaseSignatureChecker := ⟨fun _ _ _ _ => false, fun _ => false, fun _ => false⟩
    let scriptPubKey := [OP_HASH160] ++ push (List.replicate 20 0) ++ [OP_EQUAL]
    let F := SCRIPT_VERIFY_P2SH
    let G := SCRIPT_VERIFY_P2SH ||| SCRIPT_VERIFY_WITNESS ||| SCRIPT_VERIFY_CLEANSTACK ||| SCRIPT_VERIFY_MINIMALDATA
    verifyScript crypto checker (push [OP_1]) scriptPubKey [] G = .ok () ∧
      verifyScript crypto checker (push [OP_1]) scriptPubKey [] F = .ok () :=
  ⟨by decide, verifyScript_mono _ _ _ _ _ _
    (SCRIPT_VERIFY_P2SH ||| SCRIPT_VERIFY_WITNESS ||| SCRIPT_VERIFY_CLEANSTACK ||| SCRIPT_VERIFY_MINIMALDATA)
    (by decide) (by decide) (by decide)⟩

end Soferox
