import Mathlib.Data.Nat.Bitwise
import Soferox.Chain.MedianTime
import Soferox.Validation.Tx

/-!
# Time locks of scripts and of blocks

`script/interpreter.cpp`: `TransactionSignatureChecker::CheckLockTime` and `CheckSequence`, which a script asks for.
`consensus/tx_verify.cpp`: `IsFinalTx` and `SequenceLocks`, which a block has to pass.

* `TransactionSignatureChecker` — a transaction and one of its inputs;
* `BlockTree.sequenceLocks` — `SequenceLocks` on a block of the tree, with the pointers it follows;
* `exists_le_sequenceLockLoop` — an input can only raise the locks of the others;
* `timeLocks_enforced` — what a script has checked, the rules of the block enforce.
-/

namespace Soferox

open List Nat CScriptNum

/-! ## What a script asks for -/

/-- Below it a lock time is a height, from it on it is a time. -/
def LOCKTIME_THRESHOLD : ℕ := 500000000
def SEQUENCE_FINAL : ℕ := 0xffffffff

/-- `CScriptNum::operator&` with a mask of 32 bits, on a number of 64 bits. -/
def CScriptNum.and (n : ℤ) (mask : ℕ) : ℕ := (n % 2 ^ 64).toNat &&& mask

/-- `TransactionSignatureChecker`: a transaction and one of its inputs. -/
structure TransactionSignatureChecker where
  txTo : CTransaction
  nIn : Fin txTo.vin.length

namespace TransactionSignatureChecker

variable (checker : TransactionSignatureChecker)

/-- `txTo->vin[nIn]`. -/
def txin : CTxIn := checker.txTo.vin.get checker.nIn

def checkLockTime (nLockTime : ℤ) : Bool :=
  let txLockTime := checker.txTo.nLockTime
  -- a height is compared with a height, a time with a time
  if ¬((txLockTime < LOCKTIME_THRESHOLD ∧ nLockTime < LOCKTIME_THRESHOLD) ∨
      (txLockTime ≥ LOCKTIME_THRESHOLD ∧ nLockTime ≥ LOCKTIME_THRESHOLD)) then false
  else if nLockTime > txLockTime then false
  else if SEQUENCE_FINAL = checker.txin.nSequence then false
  else true

def checkSequence (nSequence : ℤ) : Bool :=
  let txToSequence := checker.txin.nSequence
  if checker.txTo.nVersion % 2 ^ 32 < 2 then false
  else if txToSequence &&& SEQUENCE_LOCKTIME_DISABLE_FLAG ≠ 0 then false
  else
    let nLockTimeMask := SEQUENCE_LOCKTIME_TYPE_FLAG ||| SEQUENCE_LOCKTIME_MASK
    let txToSequenceMasked := txToSequence &&& nLockTimeMask
    let nSequenceMasked := CScriptNum.and nSequence nLockTimeMask
    if ¬((txToSequenceMasked < SEQUENCE_LOCKTIME_TYPE_FLAG ∧ nSequenceMasked < SEQUENCE_LOCKTIME_TYPE_FLAG) ∨
        (txToSequenceMasked ≥ SEQUENCE_LOCKTIME_TYPE_FLAG ∧ nSequenceMasked ≥ SEQUENCE_LOCKTIME_TYPE_FLAG)) then false
    else if nSequenceMasked > txToSequenceMasked then false
    else true

end TransactionSignatureChecker

/-! ## What a block has to pass -/

def isFinalTx (tx : CTransaction) (nBlockHeight nBlockTime : ℤ) : Bool :=
  if tx.nLockTime = 0 then true
  else if (tx.nLockTime : ℤ) < if (tx.nLockTime : ℤ) < LOCKTIME_THRESHOLD then nBlockHeight else nBlockTime then true
  else tx.vin.all fun txin => txin.nSequence == SEQUENCE_FINAL

namespace BlockTree

variable {ι : Type} (T : BlockTree ι) (nTime : ι → ℕ)

/-- What `SequenceLocks` reads of the chain of `block`. -/
def lockContext (fVerifySequence : Bool) (block : ι) : LockContext where
  csvActive := fVerifySequence
  nHeight := T.nHeight block
  prevMedianTimePast := (((T.pprev block).map (T.getMedianTimePast nTime)).getD 0 : ℕ)
  ancestorMedianTimePast h := (((T.getAncestor block h).map (T.getMedianTimePast nTime)).getD 0 : ℕ)

/-- The input makes `CalculateSequenceLocks` look up an ancestor of the block. -/
def IsTimeLock (txin : CTxIn) : Prop :=
  txin.nSequence &&& SEQUENCE_LOCKTIME_DISABLE_FLAG = 0 ∧ txin.nSequence &&& SEQUENCE_LOCKTIME_TYPE_FLAG ≠ 0

instance (txin : CTxIn) : Decidable (IsTimeLock txin) := inferInstanceAs (Decidable (_ ∧ _))

/-- `SequenceLocks` on a block of the tree; `none` where an assertion fails or a null pointer is followed. -/
def sequenceLocks (tx : CTransaction) (fVerifySequence : Bool) (prevHeights : List ℕ) (block : ι) : Option Bool :=
  if prevHeights.length = tx.vin.length ∧ (T.pprev block).isSome ∧
      (tx.nVersion % 2 ^ 32 ≥ 2 ∧ fVerifySequence → ∀ p ∈ tx.vin.zip prevHeights,
        IsTimeLock p.1 → (T.getAncestor block (p.2 - 1)).isSome) then
    some (Soferox.sequenceLocks (T.lockContext nTime fVerifySequence block) tx prevHeights)
  else none

/-- The coins that `tx` spends are in the chain up to `block`; `prevHeights` has their heights. -/
structure SpendsAt (tx : CTransaction) (prevHeights : List ℕ) (block : ι) : Prop where
  length_eq : prevHeights.length = tx.vin.length
  has_pprev : (T.pprev block).isSome
  le_nHeight : ∀ h ∈ prevHeights, h ≤ T.nHeight block

variable {T nTime}

lemma SpendsAt.sequenceLocks_eq {tx : CTransaction} {prevHeights : List ℕ} {block : ι}
    (h : T.SpendsAt tx prevHeights block) (fVerifySequence : Bool) :
    T.sequenceLocks nTime tx fVerifySequence prevHeights block =
      some (Soferox.sequenceLocks (T.lockContext nTime fVerifySequence block) tx prevHeights) := by
  refine if_pos ⟨h.length_eq, h.has_pprev, ?_⟩
  intro _ p hp _
  have hle := h.le_nHeight p.2 (of_mem_zip hp).2
  exact Option.isSome_iff_exists.2 (T.forest.exists_ancestorAt ((sub_le p.2 1).trans hle))

end BlockTree

/-! ## Masks -/

variable (a : ℕ)

lemma and_type_flag :
    a &&& SEQUENCE_LOCKTIME_TYPE_FLAG = 0 ∨ a &&& SEQUENCE_LOCKTIME_TYPE_FLAG = SEQUENCE_LOCKTIME_TYPE_FLAG := by
  rw [SEQUENCE_LOCKTIME_TYPE_FLAG, and_two_pow]
  cases a.testBit 22
  · exact .inl (zero_mul _)
  · exact .inr (one_mul _)

lemma and_mask_lt : a &&& SEQUENCE_LOCKTIME_MASK < SEQUENCE_LOCKTIME_TYPE_FLAG :=
  lt_of_le_of_lt and_le_right (by decide)

lemma and_lockTimeMask : a &&& (SEQUENCE_LOCKTIME_TYPE_FLAG ||| SEQUENCE_LOCKTIME_MASK) =
    (a &&& SEQUENCE_LOCKTIME_TYPE_FLAG) + (a &&& SEQUENCE_LOCKTIME_MASK) := by
  rw [and_or_distrib_left]
  rcases and_type_flag a with h | h
  · rw [h, zero_or, zero_add]
  · have hor := two_pow_add_eq_or_of_lt (and_mask_lt a) 1
    rw [mul_one] at hor
    rw [h]
    exact hor.symm

/-! ## The loop over the inputs -/

section

variable (ctx : LockContext) (lockPair : ℤ × ℤ)
include ctx lockPair

lemma sequenceLockLoop_cons (p : CTxIn × ℕ) (l : List (CTxIn × ℕ)) :
    sequenceLockLoop ctx lockPair (p :: l) = sequenceLockLoop ctx (sequenceLockLoop ctx lockPair [p]) l := by
  simp only [sequenceLockLoop]
  split_ifs <;> rfl

lemma le_sequenceLockLoop (l : List (CTxIn × ℕ)) : lockPair ≤ sequenceLockLoop ctx lockPair l := by
  induction l generalizing lockPair with
  | nil => exact le_rfl
  | cons p l ih =>
    rw [sequenceLockLoop_cons]
    refine le_trans ?_ (ih _)
    simp only [sequenceLockLoop]
    split_ifs
    · exact le_rfl
    · exact ⟨le_rfl, le_max_left _ _⟩
    · exact ⟨le_max_left _ _, le_rfl⟩

lemma exists_le_sequenceLockLoop {p : CTxIn × ℕ} {l : List (CTxIn × ℕ)}
    (hp : p ∈ l) : ∃ pair, sequenceLockLoop ctx pair [p] ≤ sequenceLockLoop ctx lockPair l := by
  induction l generalizing lockPair with
  | nil => cases hp
  | cons q l ih =>
    rw [sequenceLockLoop_cons]
    rcases mem_cons.1 hp with rfl | hp
    · exact ⟨lockPair, le_sequenceLockLoop ctx _ l⟩
    · exact ih _ hp

end

section

variable {ctx : LockContext} {tx : CTransaction} {prevHeights : List ℕ} {txin : CTxIn} {nCoinHeight : ℕ}

lemma sequenceLocks_eq_false (hctx : ctx.csvActive) (hversion : tx.nVersion % 2 ^ 32 ≥ 2)
    (h : (ctx.nHeight : ℤ) ≤ (sequenceLockLoop ctx (-1, -1) (tx.vin.zip prevHeights)).1 ∨
      ctx.prevMedianTimePast ≤ (sequenceLockLoop ctx (-1, -1) (tx.vin.zip prevHeights)).2) :
    sequenceLocks ctx tx prevHeights = false := by
  have henforce : (decide (tx.nVersion % 2 ^ 32 ≥ 2) && ctx.csvActive) = true := by
    rw [hctx, decide_eq_true hversion]
    rfl
  simp only [sequenceLocks, henforce, if_true]
  rcases h with h | h
  · rw [decide_eq_true h, Bool.true_or, Bool.not_true]
  · rw [decide_eq_true h, Bool.or_true, Bool.not_true]

variable (hctx : ctx.csvActive) (hversion : tx.nVersion % 2 ^ 32 ≥ 2) (hmem : (txin, nCoinHeight) ∈ tx.vin.zip prevHeights)
  (henabled : txin.nSequence &&& SEQUENCE_LOCKTIME_DISABLE_FLAG = 0)
include hctx hversion hmem henabled

lemma sequenceLocks_height (htype : txin.nSequence &&& SEQUENCE_LOCKTIME_TYPE_FLAG = 0)
    (hlock : ctx.nHeight < nCoinHeight + (txin.nSequence &&& SEQUENCE_LOCKTIME_MASK)) :
    sequenceLocks ctx tx prevHeights = false := by
  obtain ⟨pair, hpair⟩ := exists_le_sequenceLockLoop ctx (-1, -1) hmem
  simp only [sequenceLockLoop, henabled, htype] at hpair
  have hheight := (le_max_right _ _).trans hpair.1
  exact sequenceLocks_eq_false hctx hversion (.inl (by omega))

lemma sequenceLocks_time (htype : txin.nSequence &&& SEQUENCE_LOCKTIME_TYPE_FLAG ≠ 0)
    (hlock : ctx.prevMedianTimePast <
      ctx.ancestorMedianTimePast (nCoinHeight - 1) + 512 * (txin.nSequence &&& SEQUENCE_LOCKTIME_MASK : ℕ)) :
    sequenceLocks ctx tx prevHeights = false := by
  obtain ⟨pair, hpair⟩ := exists_le_sequenceLockLoop ctx (-1, -1) hmem
  simp only [sequenceLockLoop, henabled, htype, ne_eq, SEQUENCE_LOCKTIME_GRANULARITY] at hpair
  have htime := (le_max_right _ _).trans hpair.2
  exact sequenceLocks_eq_false hctx hversion (.inr (by omega))

end

/-! ## The checks of scripts and the rules of blocks -/

namespace TransactionSignatureChecker

variable {checker : TransactionSignatureChecker} {nBlockHeight nBlockTime : ℤ} {n : ℤ}

lemma checkLockTime_eq_true (h : checker.checkLockTime n) :
    (checker.txTo.nLockTime < LOCKTIME_THRESHOLD ↔ n < LOCKTIME_THRESHOLD) ∧ n ≤ checker.txTo.nLockTime ∧
      checker.txin.nSequence ≠ SEQUENCE_FINAL := by
  rw [checkLockTime] at h
  split_ifs at h with hkind hlock hfinal
  refine ⟨?_, not_lt.1 hlock, Ne.symm hfinal⟩
  omega

lemma isFinalTx_eq_false (hne : checker.txTo.nLockTime ≠ 0)
    (hlock : (if (checker.txTo.nLockTime : ℤ) < LOCKTIME_THRESHOLD then nBlockHeight else nBlockTime) ≤
      checker.txTo.nLockTime) (hseq : checker.txin.nSequence ≠ SEQUENCE_FINAL) :
    isFinalTx checker.txTo nBlockHeight nBlockTime = false := by
  rw [isFinalTx, if_neg hne, if_neg (not_lt.2 hlock)]
  refine all_eq_false.2 ⟨checker.txin, get_mem _ _, ?_⟩
  rw [beq_iff_eq]
  exact hseq

lemma isFinalTx_of_checkLockTime (h : checker.checkLockTime n) (hn : 0 < n)
    (hblock : (if n < LOCKTIME_THRESHOLD then nBlockHeight else nBlockTime) ≤ n) :
    isFinalTx checker.txTo nBlockHeight nBlockTime = false := by
  obtain ⟨hkind, hle, hseq⟩ := checkLockTime_eq_true h
  refine isFinalTx_eq_false (by omega) ?_ hseq
  simp only [← hkind, cast_lt] at hblock ⊢
  exact hblock.trans hle

lemma checkSequence_eq_true {s : ℤ} (h : checker.checkSequence s) :
    checker.txTo.nVersion % 2 ^ 32 ≥ 2 ∧ checker.txin.nSequence &&& SEQUENCE_LOCKTIME_DISABLE_FLAG = 0 ∧
      checker.txin.nSequence &&& SEQUENCE_LOCKTIME_TYPE_FLAG = CScriptNum.and s SEQUENCE_LOCKTIME_TYPE_FLAG ∧
      CScriptNum.and s SEQUENCE_LOCKTIME_MASK ≤ checker.txin.nSequence &&& SEQUENCE_LOCKTIME_MASK := by
  unfold checkSequence CScriptNum.and at h
  dsimp only at h
  rw [and_lockTimeMask, and_lockTimeMask] at h
  split_ifs at h with hversion henabled hkind hlock
  rw [CScriptNum.and, CScriptNum.and]
  have hseq := and_mask_lt checker.txin.nSequence
  have hs := and_mask_lt (s % 2 ^ 64).toNat
  refine ⟨not_lt.1 hversion, not_not.1 henabled, ?_⟩
  rcases and_type_flag checker.txin.nSequence with e | e <;> rcases and_type_flag (s % 2 ^ 64).toNat with e' | e' <;>
    rw [e, e'] at hkind hlock ⊢ <;> omega

lemma mem_zip {prevHeights : List ℕ} {nCoinHeight : ℕ} (h : prevHeights[checker.nIn.val]? = some nCoinHeight) :
    (checker.txin, nCoinHeight) ∈ checker.txTo.vin.zip prevHeights := by
  refine mem_of_getElem? (i := checker.nIn) ?_
  rw [getElem?_zip_eq_some]
  exact ⟨getElem?_eq_getElem checker.nIn.isLt, h⟩

end TransactionSignatureChecker

open TransactionSignatureChecker in
/-- **The time locks that a script has checked are enforced by the rules of the block**: a transaction whose input
passes `CheckLockTime` or `CheckSequence` is refused in every block that is too low, or too early, for it. -/
theorem timeLocks_enforced {ι : Type} (checker : TransactionSignatureChecker) :
    (∀ n : ℤ, checker.checkLockTime n → 0 < n → ∀ nBlockHeight nBlockTime : ℤ,
      (n < LOCKTIME_THRESHOLD → nBlockHeight ≤ n → isFinalTx checker.txTo nBlockHeight nBlockTime = false) ∧
      (LOCKTIME_THRESHOLD ≤ n → nBlockTime ≤ n → isFinalTx checker.txTo nBlockHeight nBlockTime = false)) ∧
    (∀ s : ℤ, checker.checkSequence s →
      ∀ (T : BlockTree ι) (nTime : ι → ℕ) (block : ι) (prevHeights : List ℕ) (nCoinHeight : ℕ),
        T.SpendsAt checker.txTo prevHeights block → prevHeights[checker.nIn.val]? = some nCoinHeight →
        (CScriptNum.and s SEQUENCE_LOCKTIME_TYPE_FLAG = 0 →
          T.nHeight block < nCoinHeight + CScriptNum.and s SEQUENCE_LOCKTIME_MASK →
          T.sequenceLocks nTime checker.txTo true prevHeights block = some false) ∧
        (CScriptNum.and s SEQUENCE_LOCKTIME_TYPE_FLAG ≠ 0 → ∀ pprev before : ι, T.pprev block = some pprev →
          T.getAncestor block (nCoinHeight - 1) = some before →
          T.getMedianTimePast nTime pprev <
            T.getMedianTimePast nTime before + 512 * CScriptNum.and s SEQUENCE_LOCKTIME_MASK →
          T.sequenceLocks nTime checker.txTo true prevHeights block = some false)) := by
  constructor
  · intro n hcheck hpos nBlockHeight nBlockTime
    refine ⟨fun hkind hblock => isFinalTx_of_checkLockTime hcheck hpos ?_,
      fun hkind hblock => isFinalTx_of_checkLockTime hcheck hpos ?_⟩
    · rwa [if_pos hkind]
    · rwa [if_neg (not_lt.2 hkind)]
  · intro s hcheck T nTime block prevHeights nCoinHeight hspends hcoin
    obtain ⟨hversion, henabled, htype, hmask⟩ := checkSequence_eq_true hcheck
    rw [hspends.sequenceLocks_eq]
    refine ⟨fun hheight hlow => ?_, fun htime pprev before hpprev hbefore hearly => ?_⟩
    · rw [sequenceLocks_height rfl hversion (mem_zip hcoin) henabled (htype.trans hheight)]
      exact Nat.lt_of_lt_of_le hlow (Nat.add_le_add_left hmask _)
    · rw [sequenceLocks_time rfl hversion (mem_zip hcoin) henabled (fun h => htime (htype.symm.trans h))]
      simp only [BlockTree.lockContext, hpprev, hbefore, Option.map_some, Option.getD_some]
      omega

/-- The only input of a transaction, with its sequence number and the transaction's lock time. -/
def onlyInput (nLockTime nSequence : ℕ) : TransactionSignatureChecker where
  txTo := ⟨1, 2, [⟨⟨0, 0⟩, [], nSequence, []⟩], [], nLockTime⟩
  nIn := ⟨0, Nat.one_pos⟩

theorem timeLocks_enforced_onlyInput :
    (onlyInput 100 5).checkLockTime 100 ∧ isFinalTx (onlyInput 100 5).txTo 100 1000 = false ∧
    (onlyInput 600000000 5).checkLockTime 500000000 ∧ isFinalTx (onlyInput 600000000 5).txTo 7 500000000 = false ∧
    (onlyInput 100 5).checkSequence 4 ∧
    twoBlocks.sequenceLocks (fun _ => 10) (onlyInput 100 5).txTo true [1] true = some false ∧
    (onlyInput 100 0x400002).checkSequence 0x400001 ∧
    twoBlocks.sequenceLocks (fun _ => 10) (onlyInput 100 0x400002).txTo true [1] true = some false := by
  have hspends : ∀ nLockTime nSequence, twoBlocks.SpendsAt (onlyInput nLockTime nSequence).txTo [1] true :=
    fun _ _ => ⟨rfl, rfl, by decide⟩
  refine ⟨by decide, ?_, by decide, ?_, by decide, ?_, by decide, ?_⟩
  · exact ((timeLocks_enforced (ι := Bool) (onlyInput 100 5)).1 100 (by decide) (by decide) 100 1000).1
      (by decide) le_rfl
  · exact ((timeLocks_enforced (ι := Bool) (onlyInput 600000000 5)).1 500000000 (by decide) (by decide) 7
      500000000).2 (by decide) le_rfl
  · exact ((timeLocks_enforced (onlyInput 100 5)).2 4 (by decide) twoBlocks (fun _ => 10) true [1] 1
      (hspends 100 5) rfl).1 (by decide) (by decide)
  · exact ((timeLocks_enforced (onlyInput 100 0x400002)).2 0x400001 (by decide) twoBlocks (fun _ => 10) true [1] 1
      (hspends 100 0x400002) rfl).2 (by decide) false false rfl rfl (by decide)

end Soferox
