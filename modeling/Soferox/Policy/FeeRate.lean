import Soferox.Consensus.DarkGravityWave
import Soferox.Validation.Tx

/-!
# Fee rates

`CFeeRate` (`policy/feerate.cpp`) in `int64_t`; `returned_iff` says for which fees of the money range a rate gives the
fee back.
-/

namespace Soferox

open DarkGravityWave

/-- Satoshis for 1000 bytes. -/
structure CFeeRate where
  nSatoshisPerK : CAmount

namespace CFeeRate

/-- The constructor from a fee and a size. -/
def ofFee (nFeePaid : CAmount) (nBytes_ : ℕ) : Except Fault CFeeRate := do
  if nBytes_ ≥ 2 ^ 63 then throw .assertFailed
  if nBytes_ > 0 then return ⟨(← int64 (nFeePaid * 1000)).tdiv nBytes_⟩
  return ⟨0⟩

def getFee (rate : CFeeRate) (nBytes_ : ℕ) : Except Fault CAmount := do
  if nBytes_ ≥ 2 ^ 63 then throw .assertFailed
  let nFee := (← int64 (rate.nSatoshisPerK * nBytes_)).tdiv 1000
  if nFee = 0 ∧ nBytes_ ≠ 0 then
    if rate.nSatoshisPerK > 0 then return 1
    if rate.nSatoshisPerK < 0 then return -1
  return nFee

/-- No product overflows, and the fee comes back but for the rounding. -/
def Returned (f : ℤ) (n : ℕ) : Prop :=
  ∃ rate, ∃ fee : ℤ, ofFee f n = .ok rate ∧ rate.getFee n = .ok fee ∧ f - n / 1000 - 1 ≤ fee ∧ fee ≤ f

section

variable {f : ℤ} {n : ℕ} (hn : 0 < n) (hmax : n ≤ MAX_BLOCK_WEIGHT)
include hn hmax

lemma ofFee_eq : ofFee f n = (int64 (f * 1000)).map fun product => ⟨product.tdiv n⟩ := by
  unfold ofFee
  rw [if_neg (by unfold MAX_BLOCK_WEIGHT at hmax; omega), if_pos hn]
  rfl

lemma getFee_eq {q : ℤ} (hq : 0 ≤ q) (hfit : q * n < 2 ^ 63) :
    getFee ⟨q⟩ n = .ok (if q * n / 1000 = 0 ∧ 0 < q then 1 else q * n / 1000) := by
  have hp : 0 ≤ q * n := mul_nonneg hq (by omega)
  have hok : int64 (q * n) = .ok (q * n) := int64_ok (abs_lt.2 ⟨by omega, hfit⟩)
  unfold getFee
  rw [if_neg (by unfold MAX_BLOCK_WEIGHT at hmax; omega)]
  simp only [bind, Except.bind, pure, Except.pure, if_neg (Int.not_lt.2 hq)]
  split_ifs <;> grind

lemma returned_of_lt (hf : 0 ≤ f) (hfit : f * 1000 < 2 ^ 63) : Returned f n := by
  have hok : int64 (f * 1000) = .ok (f * 1000) := int64_ok (abs_lt.2 ⟨by omega, hfit⟩)
  have hn' : (0 : ℤ) < n := by omega
  have hq : 0 ≤ f * 1000 / n := Int.ediv_nonneg (by omega) hn'.le
  -- what the first division loses
  have hle : f * 1000 / n * n ≤ f * 1000 := Int.ediv_mul_le _ hn'.ne'
  have hlt : f * 1000 < (f * 1000 / n + 1) * n := Int.lt_ediv_add_one_mul_self _ hn'
  refine ⟨⟨f * 1000 / n⟩, _, ?_, getFee_eq hn hmax hq (by omega), ?_⟩
  · rw [ofFee_eq hn hmax, hok, Except.map, Int.tdiv_eq_ediv_of_nonneg (by omega)]
  · rw [Int.add_mul] at hlt
    split_ifs with hmin
    · have := mul_pos hmin.2 hn'
      omega
    · omega

/-- Of the fees in the money range, those up to 2^63 / 1000 come back: the product with 1000 overflows above. -/
theorem returned_iff (hf : MoneyRange f = true) : Returned f n ↔ f ≤ 9223372036854775 := by
  simp only [MoneyRange, Bool.and_eq_true, decide_eq_true_iff] at hf
  constructor
  · rintro ⟨rate, -, hrate, -⟩
    rw [ofFee_eq hn hmax] at hrate
    by_contra hgt
    have hover : int64 (f * 1000) = .error .int64Overflow := if_neg (by omega)
    rw [hover] at hrate
    cases hrate
  · exact fun hle => returned_of_lt hn hmax hf.1 (by omega)

end

theorem returned_coin : Returned COIN 250 := (returned_iff (by decide) (by decide) (by decide)).2 (by decide)

/-- All the money as the fee of 1000 bytes. -/
theorem ofFee_maxMoney : MoneyRange MAX_MONEY = true ∧ ofFee MAX_MONEY 1000 = .error .int64Overflow := ⟨rfl, rfl⟩

end CFeeRate

end Soferox
