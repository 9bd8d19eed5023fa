import Soferox.Script.Interpreter

/-!
# Witnesses on inputs that do not ask for one

`VerifyScript` computes `hadWitness` and never reads it, so a witness attached to an input that spends no witness
program is not looked at.

* `isWitnessSpend` — the output is a witness program, or P2SH with a witness program as redeem script;
* `verifyScriptP2SH` — the evaluation that knows P2SH and no witness;
* `evalScript_pushOnly` — a push-only `scriptSig` leaves the data of its last push on top of the stack;
* `verifyScript_of_not_witnessSpend` — on any other input `VerifyScript` is that evaluation, whatever the witness;
* `verifyScript_unexpected_witness_iff` — **when a non-empty witness is only accepted where it is asked for**.
-/

namespace Soferox

open Lib CScript List UInt8

/-- The data of the last push of `scriptSig`, which is the redeem script of a P2SH output. -/
def redeemScript (scriptSig : CScript) : CScript := (scriptSig.instrs.1.getLast?.map Instr.data).getD []

/-- The spent output is a witness program, directly or under P2SH. -/
def isWitnessSpend (scriptSig scriptPubKey : CScript) : Bool :=
  scriptPubKey.isWitnessProgram.isSome ||
    (scriptPubKey.isPayToScriptHash && (redeemScript scriptSig).isWitnessProgram.isSome)

/-- The P2SH phase without segregated witness: run the redeem script. -/
def redeemP2SH (crypto : Crypto) (checker : BaseSignatureChecker) (scriptSig scriptPubKey : CScript)
    (flags : ScriptFlags) (stackCopy stack : List Valtype) : Except Failure (List Valtype) :=
  if scriptPubKey.isPayToScriptHash then do
    check scriptSig.isPushOnly .SIG_PUSHONLY
    match stackCopy with
    | [] => .error .assertFailed
    | pubKey2 :: stack => do
      let stack ← evalScript crypto checker .BASE flags stack pubKey2
      check (topIsTrue stack) .EVAL_FALSE
      .ok stack
  else .ok stack

/-- Script verification without segregated witness: `scriptSig`, `scriptPubKey` and, for P2SH, the redeem script are
run. -/
def verifyScriptP2SH (crypto : Crypto) (checker : BaseSignatureChecker) (scriptSig scriptPubKey : CScript)
    (flags : ScriptFlags) : Except Failure Unit := do
  check (!flags.has SCRIPT_VERIFY_SIGPUSHONLY || scriptSig.isPushOnly) .SIG_PUSHONLY
  let stackCopy ← evalScript crypto checker .BASE flags [] scriptSig
  let stack ← evalScript crypto checker .BASE flags stackCopy scriptPubKey
  check (topIsTrue stack) .EVAL_FALSE
  let stack ← redeemP2SH crypto checker scriptSig scriptPubKey flags stackCopy stack
  cleanStack flags stack

/-! ## What a push-only script leaves on the stack -/

lemma getOp_data {pc : CScript} {i : Instr} (h : getOp pc = some i) (hi : OP_PUSHDATA4 < i.opcode) : i.data = [] := by
  cases pc with
  | nil => cases h
  | cons opcode pc =>
    simp only [getOp] at h
    split at h
    · rename_i hle
      split at h
      · cases h
      · split at h
        · cases h
        · cases h
          exact absurd hi (UInt8.not_lt.2 hle)
    · cases h
      rfl

lemma instrsFrom_data (fuel : ℕ) (pc : CScript) :
    ∀ i ∈ (instrsFrom fuel pc).1, OP_PUSHDATA4 < i.opcode → i.data = [] := by
  induction fuel generalizing pc with
  | zero => cases pc <;> simp [instrsFrom]
  | succ fuel ih =>
    cases pc with
    | nil => simp [instrsFrom]
    | cons b pc =>
      simp only [instrsFrom]
      cases h : getOp (b :: pc) with
      | none => simp
      | some j =>
        exact forall_mem_cons.2 ⟨getOp_data h, ih j.rest⟩

lemma isWitnessProgram_short {v : Valtype} (h : v.length ≤ 1) : isWitnessProgram v = none := by
  unfold isWitnessProgram
  rw [if_pos (Or.inl (by omega))]

section

variable {crypto : Crypto} {checker : BaseSignatureChecker} {flags : ScriptFlags} {s t : ScriptState} {i : Instr}

/-- The numbers that `OP_1NEGATE` and `OP_1 .. OP_16` push. -/
def IsSmallInt (v : Valtype) : Prop := ∃ n : ℤ, -1 ≤ n ∧ n ≤ 16 ∧ v = CScriptNum.serialize n

lemma isSmallInt_of_opcode {opcode : Opcodetype} (h : opcode = OP_1NEGATE ∨ (OP_1 ≤ opcode ∧ opcode ≤ OP_16)) :
    IsSmallInt (CScriptNum.serialize ((opcode.toNat : ℤ) - (OP_1.toNat - 1))) := by
  have h51 : OP_1.toNat = 0x51 := rfl
  have h60 : OP_16.toNat = 0x60 := rfl
  refine ⟨_, ?_, ?_, rfl⟩
  all_goals
    rcases h with rfl | ⟨h₁, h₂⟩
    · decide
    · rw [le_iff_toNat_le] at h₁ h₂
      omega

lemma IsSmallInt.length_le {v : Valtype} (h : IsSmallInt v) : v.length ≤ 1 := by
  obtain ⟨n, h₁, h₂, rfl⟩ := h
  interval_cases n <;> decide

lemma execInstr_push (hop : i.opcode ≤ OP_16) (hv : s.vfExec = [])
    (h : execInstr crypto checker .BASE flags i s = .ok t) : t.vfExec = [] ∧ ∃ v, t.stack = v :: s.stack ∧
      (i.opcode ≤ OP_PUSHDATA4 → v = i.data) ∧ (OP_PUSHDATA4 < i.opcode → IsSmallInt v) := by
  have hexec : s.vfExec.all id = true := by rw [hv]; rfl
  unfold execInstr at h
  simp only [hexec, true_and, true_or, if_true] at h
  split at h
  · rename_i hle
    obtain ⟨_, -, h⟩ := bind_eq_ok.1 h
    cases h
    exact ⟨hv, i.data, rfl, fun _ => rfl, fun hlt => absurd hlt (UInt8.not_lt.2 hle)⟩
  · rename_i hle
    rw [execOpcode_of_lt _ _ _ _ (UInt8.lt_of_le_of_lt hop (by decide))] at h
    by_cases hsmall : i.opcode = OP_1NEGATE ∨ (OP_1 ≤ i.opcode ∧ i.opcode ≤ OP_16)
    · rw [plainOpcode, if_pos hsmall] at h
      cases h
      exact ⟨hv, _, rfl, fun hle' => absurd hle' hle, fun _ => isSmallInt_of_opcode hsmall⟩
    · have hres : i.opcode = 0x50 := by
        obtain ⟨h4f, h51⟩ := not_or.1 hsmall
        have h51 : i.opcode < OP_1 := UInt8.not_le.1 fun h51' => h51 ⟨h51', hop⟩
        have e4e : OP_PUSHDATA4.toNat = 0x4e := rfl
        have e4f : OP_1NEGATE.toNat = 0x4f := rfl
        have e51 : OP_1.toNat = 0x51 := rfl
        have e50 : (0x50 : UInt8).toNat = 0x50 := rfl
        rw [le_iff_toNat_le] at hle
        rw [lt_iff_toNat_lt] at h51
        rw [← UInt8.toNat_inj] at h4f ⊢
        omega
      rw [hres] at h
      cases h

lemma evalInstr_push (hop : i.opcode ≤ OP_16) (hv : s.vfExec = [])
    (h : evalInstr crypto checker .BASE flags s i = .ok t) : t.vfExec = [] ∧ ∃ v, t.stack = v :: s.stack ∧
      (i.opcode ≤ OP_PUSHDATA4 → v = i.data) ∧ (OP_PUSHDATA4 < i.opcode → IsSmallInt v) := by
  unfold evalInstr at h
  obtain ⟨_, -, h⟩ := bind_eq_ok.1 h
  obtain ⟨_, -, h⟩ := bind_eq_ok.1 h
  obtain ⟨_, -, h⟩ := bind_eq_ok.1 h
  obtain ⟨s', hs', h⟩ := bind_eq_ok.1 h
  obtain ⟨_, -, h⟩ := bind_eq_ok.1 h
  cases h
  have hpush := execInstr_push hop (by exact hv) hs'
  exact hpush

lemma foldlM_push_vfExec {l : List Instr} (hl : ∀ i ∈ l, i.opcode ≤ OP_16) (hv : s.vfExec = [])
    (h : l.foldlM (evalInstr crypto checker .BASE flags) s = .ok t) : t.vfExec = [] := by
  induction l generalizing s with
  | nil =>
    cases h
    exact hv
  | cons i l ih =>
    obtain ⟨s', hs', h⟩ := bind_eq_ok.1 h
    have hs'v := (evalInstr_push (hl i mem_cons_self) hv hs').1
    exact ih (fun j hj => hl j (mem_cons_of_mem _ hj)) hs'v h

section

variable {scriptSig : CScript} (hpush : scriptSig.isPushOnly) {top : Valtype} {rest : List Valtype}
  (h : evalScript crypto checker .BASE flags [] scriptSig = .ok (top :: rest))
include hpush h

/-- **A push-only script leaves its last push on top**; what the last instruction carries is empty if it pushes a number.
-/
theorem evalScript_pushOnly : top = redeemScript scriptSig ∨ IsSmallInt top ∧ redeemScript scriptSig = [] := by
  obtain ⟨_, -, h⟩ := bind_eq_ok.1 h
  obtain ⟨s, hs, h⟩ := bind_eq_ok.1 h
  obtain ⟨_, -, h⟩ := bind_eq_ok.1 h
  obtain ⟨_, -, h⟩ := bind_eq_ok.1 h
  have hstack : s.stack = top :: rest := Except.ok.inj h
  have hops : ∀ i ∈ scriptSig.instrs.1, i.opcode ≤ OP_16 := by
    simpa using (Bool.and_eq_true_iff.1 hpush).2
  unfold redeemScript
  rcases eq_nil_or_concat scriptSig.instrs.1 with hnil | ⟨l, i, hl⟩
  · rw [hnil] at hs
    cases hs
    cases hstack
  · rw [hl, concat_eq_append] at hs hops
    rw [foldlM_append] at hs
    obtain ⟨s', hs', hs⟩ := bind_eq_ok.1 hs
    obtain ⟨s'', hs'', hs⟩ := bind_eq_ok.1 hs
    cases hs
    have hv := foldlM_push_vfExec (fun j hj => hops j (mem_append_left _ hj)) rfl hs'
    obtain ⟨-, v, hv, hdata, hnum⟩ := evalInstr_push (hops i (by simp)) hv hs''
    obtain rfl : v = top := by rw [hv] at hstack; exact (List.cons.inj hstack).1
    rw [hl, concat_eq_append, getLast?_concat]
    rcases UInt8.le_or_lt i.opcode OP_PUSHDATA4 with hle | hlt
    · exact .inl (hdata hle)
    · have hi : i ∈ scriptSig.instrs.1 := by rw [hl]; simp
      exact .inr ⟨hnum hlt, instrsFrom_data _ _ i hi hlt⟩

lemma evalScript_pushOnly_top : isWitnessProgram top = isWitnessProgram (redeemScript scriptSig) := by
  rcases evalScript_pushOnly hpush h with rfl | ⟨hsmall, hempty⟩
  · rfl
  · rw [hempty, isWitnessProgram_short hsmall.length_le]
    rfl

end

/-! ## Inputs that spend no witness program -/

variable {scriptSig scriptPubKey : CScript}

lemma witnessPhase_of_not_witnessProgram {script : CScript} (h : script.isWitnessProgram = none) (fClean : Bool)
    (e : ScriptError) (witness stack : List Valtype) :
    witnessPhase crypto checker fClean e script witness flags stack = .ok stack := by
  unfold witnessPhase
  rw [h]
  exact ite_self _

lemma p2sh_of_not_witnessSpend (hP : flags.has SCRIPT_VERIFY_P2SH)
    (hredeem : scriptPubKey.isPayToScriptHash → (redeemScript scriptSig).isWitnessProgram = none)
    {stackCopy : List Valtype} (hsig : evalScript crypto checker .BASE flags [] scriptSig = .ok stackCopy)
    (witness stack : List Valtype) :
    p2sh crypto checker scriptSig scriptPubKey witness flags stackCopy stack =
      redeemP2SH crypto checker scriptSig scriptPubKey flags stackCopy stack := by
  unfold p2sh redeemP2SH
  by_cases hspk : scriptPubKey.isPayToScriptHash
  · rw [if_pos ⟨hP, hspk⟩, if_pos hspk]
    refine bind_congr_ok fun _ hpush => ?_
    cases stackCopy with
    | nil => rfl
    | cons pubKey2 rest =>
      have htop : isWitnessProgram pubKey2 = none := by
        rw [evalScript_pushOnly_top (require_eq_ok.1 hpush) hsig]
        exact hredeem hspk
      simp [witnessPhase_of_not_witnessProgram htop]
  · rw [if_neg fun h => hspk h.2, if_neg hspk]
    rfl

/-- **On an input that spends no witness program, `VerifyScript` does not look at the witness.** -/
theorem verifyScript_of_not_witnessSpend (hP : flags.has SCRIPT_VERIFY_P2SH)
    (hnw : isWitnessSpend scriptSig scriptPubKey = false) (witness : List Valtype) :
    verifyScript crypto checker scriptSig scriptPubKey witness flags =
      verifyScriptP2SH crypto checker scriptSig scriptPubKey flags := by
  obtain ⟨hspk, hredeem⟩ := Bool.or_eq_false_iff.1 hnw
  have hspk : scriptPubKey.isWitnessProgram = none := by simpa using hspk
  have hredeem : scriptPubKey.isPayToScriptHash → (redeemScript scriptSig).isWitnessProgram = none := by
    simpa using hredeem
  refine bind_congr_ok fun _ _ => bind_congr_ok fun stackCopy hsig => bind_congr_ok fun stack _ =>
    bind_congr_ok fun _ _ => ?_
  rw [witnessPhase_of_not_witnessProgram hspk, ok_bind, p2sh_of_not_witnessSpend hP hredeem hsig witness stack]
  rfl

end

/-- **When a witness is accepted only where it is asked for.** With `P2SH` on, and `WITNESS` on or off, "an accepted input with a
non-empty witness spends a witness program" holds of an input exactly when the witness is empty, the input does spend
a witness program, or its scripts fail on their own. -/
theorem verifyScript_unexpected_witness_iff (crypto : Crypto) (checker : BaseSignatureChecker)
    (scriptSig scriptPubKey : CScript) (witness : List Valtype) (flags : ScriptFlags)
    (hP : flags.has SCRIPT_VERIFY_P2SH) :
    (verifyScript crypto checker scriptSig scriptPubKey witness flags = .ok () → witness ≠ [] →
        isWitnessSpend scriptSig scriptPubKey) ↔
      (witness = [] ∨ isWitnessSpend scriptSig scriptPubKey ∨
        verifyScriptP2SH crypto checker scriptSig scriptPubKey flags ≠ .ok ()) := by
  cases hnw : isWitnessSpend scriptSig scriptPubKey with
  | true => simp
  | false =>
    rw [verifyScript_of_not_witnessSpend hP hnw]
    by_cases hw : witness = []
    · simp [hw]
    · simp [hw]

/-- A witness program of version 0 is spent with the script `OP_1` as its witness. -/
theorem verifyScript_unexpected_witness_program :
    let crypto : Crypto := ⟨id, id, fun _ => List.replicate 32 1, id, id, fun _ => true⟩
    let checker : BaseSignatureChecker := ⟨fun _ _ _ _ => true, fun _ => true, fun _ => true⟩
    let program : CScript := [OP_0, 32] ++ List.replicate 32 1
    verifyScript crypto checker [] program [[OP_1]] (SCRIPT_VERIFY_P2SH ||| SCRIPT_VERIFY_WITNESS) = .ok () ∧
      isWitnessSpend [] program := by
  intro crypto checker program
  have haccepted : verifyScript crypto checker [] program [[OP_1]] (SCRIPT_VERIFY_P2SH ||| SCRIPT_VERIFY_WITNESS) = .ok () := by
    decide
  refine ⟨haccepted, (verifyScript_unexpected_witness_iff crypto checker [] program [[OP_1]] _ ?_).2 ?_ haccepted ?_⟩
  · decide
  · exact .inr (.inl (by decide))
  · decide

/-- The output `OP_1` is no witness program; it is spent with a witness attached. -/
theorem verifyScript_accepts_unexpected_witness :
    (SCRIPT_VERIFY_P2SH ||| SCRIPT_VERIFY_WITNESS).has SCRIPT_VERIFY_P2SH ∧
    (SCRIPT_VERIFY_P2SH ||| SCRIPT_VERIFY_WITNESS).has SCRIPT_VERIFY_WITNESS ∧
    verifyScript ⟨id, id, id, id, id, fun _ => true⟩ ⟨fun _ _ _ _ => true, fun _ => true, fun _ => true⟩
      [] [OP_1] [[0x2a]] (SCRIPT_VERIFY_P2SH ||| SCRIPT_VERIFY_WITNESS) = .ok () ∧
    isWitnessSpend [] [OP_1] = false := by
  decide

end Soferox
