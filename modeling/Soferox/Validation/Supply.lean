import Mathlib.Algebra.BigOperators.Intervals
import Soferox.Validation.Block

/-!
# The coins issued by the subsidy

The running total of `GetBlockSubsidy` (`soferox.cpp`) against `MAX_MONEY`. The decaying schedule is constant on weeks
of 10080 blocks, so its total is computed week by week; it comes to 80 million coins, the reserve adds 20 million, and
what the minimum subsidy has paid in between is too much.

* `issued_decay`, `issued_before_reserve` — the totals at the ends of the parts of the schedule;
* `issued_le_iff` — the total is at most `MAX_MONEY` up to the block before the reserve and never after it.
-/

namespace Soferox

open Finset

/-- The sum of the subsidies of the blocks below a height. -/
def issuedBelow (n : ℕ) : CAmount := ∑ i ∈ range n, getBlockSubsidy i

/-- The sum of `GetBlockSubsidy` up to a height. -/
def issued (nHeight : ℕ) : CAmount := issuedBelow (nHeight + 1)

lemma sum_range_div (n : ℕ) (g : ℕ → ℤ) (q r : ℕ) (hr : r ≤ n) :
    ∑ i ∈ range (n * q + r), g (i / n) = n * ∑ k ∈ range q, g k + r * g q := by
  have hblock : ∀ q r, r ≤ n → ∑ i ∈ range r, g ((n * q + i) / n) = r * g q := by
    intro q r hr
    rw [sum_congr rfl, sum_const, card_range, nsmul_eq_mul]
    intro i hi
    have hin : i < n := (mem_range.1 hi).trans_le hr
    rw [Nat.mul_add_div (by omega), Nat.div_eq_of_lt hin, add_zero]
  have hwhole : ∑ i ∈ range (n * q), g (i / n) = n * ∑ k ∈ range q, g k := by
    induction q with
    | zero => simp
    | succ q ih => rw [Nat.mul_succ, sum_range_add, ih, hblock q n le_rfl, sum_range_succ, mul_add]
  rw [sum_range_add, hwhole, hblock q r hr]

lemma issuedBelow_mono {m n : ℕ} (h : m ≤ n) : issuedBelow m ≤ issuedBelow n :=
  sum_le_sum_of_subset_of_nonneg (range_subset_range.2 h) fun i _ _ => getBlockSubsidy_nonneg i

lemma issuedBelow_add {m k : ℕ} {v : CAmount} (h : ∀ i, m ≤ i → i < m + k → getBlockSubsidy i = v) :
    issuedBelow (m + k) = issuedBelow m + k * v := by
  rw [issuedBelow, sum_range_add, ← issuedBelow, sum_congr rfl, sum_const, card_range, nsmul_eq_mul]
  intro i hi
  have hik := mem_range.1 hi
  exact h (m + i) (by omega) (by omega)

/-! ## The parts of the schedule -/

/-- The subsidy in a week of the decaying schedule. -/
def weekSubsidy (k : ℕ) : CAmount := max minimumSubsidy (decaySubsidy k (512 * COIN))

variable {nHeight : ℕ}

lemma getBlockSubsidy_decay (h2 : 2 ≤ nHeight) (h : nHeight ≤ 101937) :
    getBlockSubsidy nHeight = weekSubsidy (nHeight / 10080) := by
  rw [getBlockSubsidy, if_neg (by omega), if_neg (by omega), if_neg (by omega), getBlockSubsidyDecay, if_neg (by omega),
    if_neg (by omega), if_neg (by omega), weekSubsidy]

lemma getBlockSubsidy_minimum (h : 101938 ≤ nHeight) (hne : nHeight ≠ 135350) :
    getBlockSubsidy nHeight = minimumSubsidy := by
  rw [getBlockSubsidy, getBlockSubsidy135300, getBlockSubsidyDecay, if_neg (by omega : ¬nHeight = 0),
    if_neg (by omega : ¬nHeight = 1), if_pos (by omega : nHeight > 101937)]
  split_ifs <;> rfl

lemma issued_decay : issuedBelow 101938 = 7999928667298044 := by
  -- the first two blocks do not follow the schedule, the others do
  have hsplit : ∑ i ∈ range 101938, (getBlockSubsidy i - weekSubsidy (i / 10080)) =
      ∑ i ∈ range 2, (getBlockSubsidy i - weekSubsidy (i / 10080)) := by
    refine (sum_subset (range_subset_range.2 (by omega)) fun i hi hi2 => ?_).symm
    rw [mem_range] at hi hi2
    rw [getBlockSubsidy_decay (by omega) (by omega), sub_self]
  have hfirst : ∑ i ∈ range 2, (getBlockSubsidy i - weekSubsidy (i / 10080)) = 3999897700000000 := by decide +kernel
  have hweeks : 10080 * ∑ k ∈ range 10, weekSubsidy k + 1138 * weekSubsidy 10 = 4000030967298044 := by decide +kernel
  have hdecay := sum_range_div 10080 weekSubsidy 10 1138 (by omega)
  rw [hfirst] at hsplit
  rw [issuedBelow]
  norm_num at hdecay hsplit
  linarith

lemma issued_before_reserve : issuedBelow 135350 = 8016634667298044 := by
  have h := issuedBelow_add (k := 33412) fun i hlo hhi =>
    getBlockSubsidy_minimum hlo (by omega)
  rw [issued_decay] at h
  exact h.trans (by decide)

lemma issued_with_reserve : issuedBelow 135351 = 10016634667298044 := by
  rw [issuedBelow, sum_range_succ, ← issuedBelow, issued_before_reserve]
  decide

/-- **The supply cap** holds up to the block before the reserve, and is broken from the reserve on. -/
theorem issued_le_iff (nHeight : ℕ) : issued nHeight ≤ MAX_MONEY ↔ nHeight < 135350 := by
  constructor
  · intro hle
    by_contra hge
    have hmono : issuedBelow 135351 ≤ issued nHeight := issuedBelow_mono (by omega)
    rw [issued_with_reserve] at hmono
    exact absurd (hmono.trans hle) (by decide)
  · intro hlt
    have hmono : issued nHeight ≤ issuedBelow 135350 := issuedBelow_mono (by omega)
    rw [issued_before_reserve] at hmono
    exact hmono.trans (by decide)

/-- With the reserve the total is above `MAX_MONEY`. -/
theorem issued_exceeds : MAX_MONEY < issued 135350 := by
  rw [issued, issued_with_reserve]
  decide

end Soferox
