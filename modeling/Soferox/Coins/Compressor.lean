import Soferox.Primitives.Transaction

/-!
# Compressed amounts

`CompressAmount` and `DecompressAmount` of `compressor.cpp`; `none` is the overflow of an operation on 64 bits.
`amount_bijection` — they are inverse to each other.
-/

namespace Soferox

def fit64 (n : ℕ) : Option ℕ := if n < 2 ^ 64 then some n else none

/-- The loop of `CompressAmount`, for at most `k` rounds: the number left, and `e`. -/
def divideOut : ℕ → ℕ → ℕ × ℕ
  | 0, n => (n, 0)
  | k + 1, n => if n % 10 = 0 then Prod.map id (· + 1) (divideOut k (n / 10)) else (n, 0)

def compressAmount (n : ℕ) : Option ℕ :=
  if n = 0 then some 0
  else
    let (n, e) := divideOut 9 n
    if e < 9 then do
      let d := n % 10
      let n ← fit64 (n / 10 * 9)
      let n ← fit64 (n + d)
      let n ← fit64 ((n - 1) * 10)
      fit64 (1 + n + e)
    else do
      let n ← fit64 ((n - 1) * 10)
      fit64 (1 + n + 9)

/-- The loop of `DecompressAmount`. -/
def scale : ℕ → ℕ → Option ℕ
  | 0, n => some n
  | e + 1, n => fit64 (n * 10) >>= scale e

def decompressAmount (x : ℕ) : Option ℕ :=
  if x = 0 then some 0
  else
    let e := (x - 1) % 10
    let x := (x - 1) / 10
    if e < 9 then do
      let d := x % 9 + 1
      let n ← fit64 (x / 9 * 10)
      let n ← fit64 (n + d)
      scale e n
    else fit64 (x + 1) >>= scale e

variable {n : ℕ}

lemma fit64_of_lt (h : n < 2 ^ 64) : fit64 n = some n := if_pos h

lemma fit64_bind (f : ℕ → ℕ) (h : n ≤ f n) (k : ℕ → Option ℕ) :
    (fit64 n >>= fun n => fit64 (f n) >>= k) = fit64 (f n) >>= k := by
  by_cases hn : n < 2 ^ 64
  · rw [fit64_of_lt hn]
    rfl
  · rw [fit64, if_neg hn, fit64, if_neg (by omega)]
    rfl

lemma fit64_bind_scale (e n : ℕ) : fit64 n >>= scale e = fit64 (n * 10 ^ e) := by
  induction e generalizing n with
  | zero => simp [show scale 0 = some from rfl]
  | succ e ih =>
    rw [pow_succ', ← mul_assoc, ← ih]
    exact fit64_bind (· * 10) (by omega) (scale e)

lemma divideOut_mul_pow {k e m : ℕ} (he : e ≤ k) (hm : e < k → m % 10 ≠ 0) : divideOut k (m * 10 ^ e) = (m, e) := by
  induction k generalizing e with
  | zero =>
    obtain rfl : e = 0 := by omega
    simp [divideOut]
  | succ k ih =>
    cases e with
    | zero => simp [divideOut, hm]
    | succ e =>
      rw [divideOut, pow_succ, ← mul_assoc, Nat.mul_div_cancel _ (by norm_num), ih (by omega) (by omega), if_pos (by omega)]
      rfl

/-- The number `x` packs the amount `m * 10 ^ e`. -/
def Packs (m e x : ℕ) : Prop :=
  e < 9 ∧ m % 10 ≠ 0 ∧ x = 1 + (m / 10 * 9 + m % 10 - 1) * 10 + e ∨ e = 9 ∧ 0 < m ∧ x = 1 + (m - 1) * 10 + 9

namespace Packs

variable {m e x : ℕ}

variable (h : Packs m e x)
include h

lemma pos : 0 < m ∧ 0 < x := by
  unfold Packs at h
  omega

lemma compressAmount (hx : x < 2 ^ 64) : compressAmount (m * 10 ^ e) = some x := by
  have hpos := h.pos.1
  have hne : m * 10 ^ e ≠ 0 := by positivity
  simp only [Soferox.compressAmount, if_neg hne]
  obtain ⟨he, hm, rfl⟩ | ⟨rfl, -, rfl⟩ := h
  · simp only [divideOut_mul_pow he.le fun _ => hm, if_pos he]
    simp [fit64_of_lt (show m / 10 * 9 < 2 ^ 64 by omega), fit64_of_lt (show m / 10 * 9 + m % 10 < 2 ^ 64 by omega),
      fit64_of_lt (show (m / 10 * 9 + m % 10 - 1) * 10 < 2 ^ 64 by omega), fit64_of_lt hx]
  · simp only [divideOut_mul_pow (le_refl 9) fun h => absurd h (lt_irrefl 9)]
    simp [fit64_of_lt (show (m - 1) * 10 < 2 ^ 64 by omega), fit64_of_lt hx]

lemma decompressAmount : decompressAmount x = fit64 (m * 10 ^ e) := by
  rw [← fit64_bind_scale, Soferox.decompressAmount, if_neg h.pos.2.ne']
  obtain ⟨he, hm, rfl⟩ | ⟨rfl, hm, rfl⟩ := h
  · rw [show (1 + (m / 10 * 9 + m % 10 - 1) * 10 + e - 1) % 10 = e by omega,
      show (1 + (m / 10 * 9 + m % 10 - 1) * 10 + e - 1) / 10 = m / 10 * 9 + m % 10 - 1 by omega]
    simp only [if_pos he]
    rw [show (m / 10 * 9 + m % 10 - 1) / 9 = m / 10 by omega, show (m / 10 * 9 + m % 10 - 1) % 9 + 1 = m % 10 by omega,
      fit64_bind (· + m % 10) (Nat.le_add_right _ _), Nat.div_add_mod']
  · rw [show (1 + (m - 1) * 10 + 9 - 1) % 10 = 9 by omega, show (1 + (m - 1) * 10 + 9 - 1) / 10 = m - 1 by omega]
    simp only [lt_irrefl, if_false, Nat.sub_add_cancel hm]

end Packs

lemma exists_packs {x : ℕ} (h : x ≠ 0) : ∃ m e, Packs m e x := by
  by_cases he : (x - 1) % 10 < 9
  · refine ⟨(x - 1) / 10 / 9 * 10 + ((x - 1) / 10 % 9 + 1), (x - 1) % 10, .inl ⟨he, ?_, ?_⟩⟩ <;> omega
  · exact ⟨(x - 1) / 10 + 1, 9, .inr ⟨rfl, by omega, by omega⟩⟩

lemma exists_packs_amount (h : n ≠ 0) : ∃ m e x, n = m * 10 ^ e ∧ Packs m e x ∧ x ≤ 10 * n := by
  obtain ⟨e, m, hm, rfl⟩ := Nat.exists_eq_pow_mul_and_not_dvd h 10 (by norm_num)
  have hle := Nat.le_mul_of_pos_left m (show 0 < 10 ^ e by positivity)
  rcases lt_or_ge e 9 with he | he
  · exact ⟨m, e, _, mul_comm .., .inl ⟨he, by omega, rfl⟩, by omega⟩
  · obtain ⟨k, rfl⟩ := Nat.exists_eq_add_of_le' he
    have hk : 10 ^ (k + 9) * m = 10 ^ k * m * 10 ^ 9 := by ring
    exact ⟨10 ^ k * m, 9, _, hk, .inr ⟨rfl, by omega, rfl⟩, by omega⟩

/-- **Amount compression is a bijection**, as far as nothing overflows. -/
theorem amount_bijection :
    (∀ n : ℕ, (n : CAmount) ≤ MAX_MONEY → ∃ x, compressAmount n = some x ∧ decompressAmount x = some n) ∧
      ∀ x < 2 ^ 64, ∀ n, decompressAmount x = some n → compressAmount n = some x := by
  constructor
  · intro n hn
    have hmax : n ≤ 10 ^ 16 := by
      norm_num [MAX_MONEY, COIN] at hn
      omega
    rcases eq_or_ne n 0 with rfl | h0
    · exact ⟨0, rfl, rfl⟩
    · obtain ⟨m, e, x, rfl, hpacks, hx⟩ := exists_packs_amount h0
      exact ⟨x, hpacks.compressAmount (by omega), by rw [hpacks.decompressAmount, fit64_of_lt (by omega)]⟩
  · intro x hx n hn
    rcases eq_or_ne x 0 with rfl | h0
    · cases hn
      rfl
    · obtain ⟨m, e, hpacks⟩ := exists_packs h0
      rw [hpacks.decompressAmount, fit64] at hn
      split_ifs at hn
      cases hn
      exact hpacks.compressAmount hx

end Soferox
