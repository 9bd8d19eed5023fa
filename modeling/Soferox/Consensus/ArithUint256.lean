import Mathlib

/-!
# `base_uint`: 32-bit limbs

`base_uint<BITS>` keeps a number in limbs of 32 bits. The operations are translated limb by limb, and each has one
lemma that says which operation on numbers it is.
-/

namespace Soferox

open List Nat

/-- A `base_uint`: `pn`, the lowest limb first. The width is the length. -/
abbrev BaseUint := List UInt32

namespace BaseUint

/-- The number that the limbs stand for. -/
def value : BaseUint → ℕ
  | [] => 0
  | x :: a => x.toNat + 2 ^ 32 * value a

@[simp]
lemma value_nil : value [] = 0 := rfl

@[simp]
lemma value_cons (x : UInt32) (a : BaseUint) : value (x :: a) = x.toNat + 2 ^ 32 * value a := rfl

variable (a : BaseUint) (j n : ℕ) {i : ℕ}

lemma pow_width_succ : 2 ^ (32 * (n + 1)) = 2 ^ 32 * 2 ^ (32 * n) := by ring

lemma value_append (b : BaseUint) : value (a ++ b) = value a + 2 ^ (32 * a.length) * value b := by
  induction a with
  | nil => simp
  | cons x a ih =>
    simp only [cons_append, value_cons, ih, length_cons]
    ring

lemma value_lt : value a < 2 ^ (32 * a.length) := by
  induction a with
  | nil => simp
  | cons x a ih =>
    have := x.toNat_lt
    rw [value_cons, length_cons, pow_width_succ]
    omega

/-- `pn[i]`, as a number. -/
def limb (a : BaseUint) (i : ℕ) : ℕ := (a.getD i 0).toNat

/-- The limbs `pn[i] = f i`, of which the low 32 bits are stored. -/
def ofLimbs (width : ℕ) (f : ℕ → ℕ) : BaseUint := (List.range width).map fun i => .ofNat (f i)

@[simp]
lemma length_ofLimbs (f : ℕ → ℕ) : (ofLimbs n f).length = n := by simp [ofLimbs]

lemma testBit_value (hi : i < 32) : (value a).testBit (32 * j + i) = (limb a j).testBit i := by
  induction a generalizing j with
  | nil => simp [limb]
  | cons x a ih =>
    rw [value_cons, add_comm, testBit_two_pow_mul_add _ x.toNat_lt]
    cases j with
    | zero => simp [hi, limb]
    | succ j =>
      rw [if_neg (by omega), show 32 * (j + 1) + i - 32 = 32 * j + i by omega, ih]
      rfl

/-- Limbs that hold the bits of a number hold the number, as far as they go. -/
theorem value_ofLimbs {f : ℕ → ℕ} {v : ℕ} (h : ∀ j i, i < 32 → (f j).testBit i = v.testBit (32 * j + i)) (n : ℕ) :
    value (ofLimbs n f) = v % 2 ^ (32 * n) := by
  refine eq_of_testBit_eq fun i => ?_
  have hi : i % 32 < 32 := mod_lt _ (by norm_num)
  rw [← div_add_mod i 32, testBit_value _ _ hi, testBit_mod_two_pow, ← h _ _ hi, limb, ofLimbs]
  by_cases hn : i / 32 < n
  · have hlt : 32 * (i / 32) + i % 32 < 32 * n := by omega
    rw [getD_eq_getElem?_getD, getElem?_map, getElem?_range hn, Option.map_some, Option.getD_some,
      UInt32.toNat_ofNat', testBit_mod_two_pow]
    simp [hi, hlt]
  · have hge : ¬ 32 * (i / 32) + i % 32 < 32 * n := by omega
    simp [hn, hge]

@[simp]
lemma value_zero : value (ofLimbs n fun _ => 0) = 0 := by
  rw [value_ofLimbs (v := 0) (by simp), zero_mod]

/-! ### Shifts -/

lemma testBit_limb_of_le (hi : 32 ≤ i) : (limb a j).testBit i = false :=
  testBit_lt_two_pow ((UInt32.toNat_lt _).trans_le (Nat.pow_le_pow_right (by norm_num) hi))

lemma testBit_ite_zero (c : Prop) [Decidable c] (x i : ℕ) :
    (if c then x else 0).testBit i = (decide c && x.testBit i) := by
  split <;> simp_all

/-- `operator<<=`: each limb gives its low bits to the limb `k` places up and its high bits to the next. -/
def shl (a : BaseUint) (shift : ℕ) : BaseUint :=
  let k := shift / 32
  let shift := shift % 32
  ofLimbs a.length fun j =>
    (if k + 1 ≤ j ∧ shift ≠ 0 then limb a (j - k - 1) >>> (32 - shift) else 0) |||
      if k ≤ j then limb a (j - k) <<< shift else 0

@[simp]
lemma length_shl : (shl a n).length = a.length := length_ofLimbs _ _

lemma value_shl : value (shl a n) = value a * 2 ^ n % 2 ^ (32 * a.length) := by
  refine value_ofLimbs (fun j i hi => ?_) _
  rw [testBit_mul_two_pow, testBit_or, testBit_ite_zero, testBit_ite_zero, testBit_shiftRight,
    testBit_shiftLeft]
  obtain hlow | hhigh := le_or_gt (n % 32) i
  · rw [testBit_limb_of_le _ _ (show 32 ≤ 32 - n % 32 + i by omega)]
    by_cases hj : n / 32 ≤ j
    · rw [show 32 * j + i - n = 32 * (j - n / 32) + (i - n % 32) by omega, testBit_value _ _ (by omega)]
      simp [hj, hlow, show n ≤ 32 * j + i by omega]
    · simp [hj, show ¬ n ≤ 32 * j + i by omega]
  · by_cases hj : n / 32 + 1 ≤ j
    · rw [show 32 * j + i - n = 32 * (j - n / 32 - 1) + (32 - n % 32 + i) by omega, testBit_value _ _ (by omega)]
      simp [hj, hhigh, show n ≤ 32 * j + i by omega, show n % 32 ≠ 0 by omega]
    · simp [hj, hhigh, show ¬ n ≤ 32 * j + i by omega]

/-- `operator>>=`. -/
def shr (a : BaseUint) (shift : ℕ) : BaseUint :=
  let k := shift / 32
  let shift := shift % 32
  ofLimbs a.length fun j =>
    (if shift ≠ 0 then limb a (j + k + 1) <<< (32 - shift) else 0) ||| limb a (j + k) >>> shift

@[simp]
lemma length_shr : (shr a n).length = a.length := length_ofLimbs _ _

lemma value_shr : value (shr a n) = value a / 2 ^ n := by
  rw [← mod_eq_of_lt ((div_le_self (value a) (2 ^ n)).trans_lt (value_lt a))]
  refine value_ofLimbs (fun j i hi => ?_) _
  rw [testBit_div_two_pow, testBit_or, testBit_ite_zero, testBit_shiftRight]
  obtain hlt | hge := lt_or_ge (i + n % 32) 32
  · rw [show 32 * j + i + n = 32 * (j + n / 32) + (n % 32 + i) by omega, testBit_value _ _ (by omega)]
    simp [show ¬ 32 - n % 32 ≤ i by omega]
  · rw [show 32 * j + i + n = 32 * (j + n / 32 + 1) + (i - (32 - n % 32)) by omega, testBit_value _ _ (by omega),
      testBit_limb_of_le a (j + n / 32) (by omega)]
    simp [show 32 - n % 32 ≤ i by omega, show n % 32 ≠ 0 by omega]

/-! ### The number of bits -/

/-- The inner loop of `bits`, for a limb that is not zero. -/
def limbBits (x : ℕ) : ℕ → ℕ
  | 0 => 1
  | nbits + 1 => if x.testBit (nbits + 1) then nbits + 2 else limbBits x nbits

/-- The outer loop of `bits`: the limbs from the highest down. -/
def bitsLoop : List UInt32 → ℕ
  | [] => 0
  | x :: rest => if x ≠ 0 then 32 * rest.length + limbBits x.toNat 31 else bitsLoop rest

def bits (a : BaseUint) : ℕ := bitsLoop a.reverse

lemma limbBits_eq {x n : ℕ} (hx : 0 < x) (h : x < 2 ^ (n + 1)) : limbBits x n = x.size := by
  induction n with
  | zero => rw [show x = 1 by omega]; rfl
  | succ n ih =>
    rw [limbBits]
    by_cases hlt : x < 2 ^ (n + 1)
    · rw [testBit_lt_two_pow hlt, if_neg (by simp), ih hlt]
    · have hdiv : x / 2 ^ (n + 1) = 1 :=
        Nat.div_eq_of_lt_le (by omega) (by rw [pow_succ] at h; omega)
      rw [testBit_eq_decide_div_mod_eq, hdiv]
      exact le_antisymm (lt_size.2 (by omega)) (size_le.2 h)

lemma bits_eq : bits a = (value a).size := by
  induction a using reverseRecOn with
  | nil => rfl
  | append_singleton l x ih =>
    have hl := value_lt l
    rw [bits, reverse_append, reverse_singleton, singleton_append, bitsLoop,
      length_reverse, value_append, value_cons, value_nil, mul_zero, add_zero]
    split
    · next hx =>
      have hpos : 0 < x.toNat := pos_of_ne_zero fun h => hx (UInt32.toNat_inj.1 h)
      rw [limbBits_eq hpos x.toNat_lt]
      obtain ⟨k, hk⟩ := exists_eq_succ_of_ne_zero (size_pos.2 hpos).ne'
      have hlow : 2 ^ k ≤ x.toNat := lt_size.1 (by omega)
      have hhigh := lt_size_self x.toNat
      rw [hk] at hhigh
      refine le_antisymm ?_ (size_le.2 ?_)
      · rw [hk, add_succ, succ_le_iff, lt_size, pow_add]
        exact (mul_le_mul_left _ hlow).trans (le_add_left _ _)
      · rw [hk, pow_add]
        exact (by rw [mul_add]; omega : _ < 2 ^ (32 * l.length) * (x.toNat + 1)).trans_le (mul_le_mul_left _ hhigh)
    · next hx =>
      rw [show x = 0 by simpa using hx]
      exact ih

end BaseUint

open BaseUint

/-- `arith_uint256`: eight limbs. -/
structure ArithUint256 where
  pn : BaseUint
  width : pn.length = 8

namespace ArithUint256

/-- The number that the limbs stand for. -/
def value (x : ArithUint256) : ℕ := x.pn.value

variable (x : ArithUint256) (n : ℕ)

lemma value_lt : x.value < 2 ^ 256 := by
  have h := x.pn.value_lt
  rwa [x.width] at h

/-- Assignment from a `uint64_t`. -/
def ofUint64 (b : ℕ) : ArithUint256 := 
  ⟨.ofNat b :: .ofNat (b / 2 ^ 32) :: BaseUint.ofLimbs 6 fun _ => 0, rfl⟩

lemma value_ofUint64 {b : ℕ} (hb : b < 2 ^ 64) : (ofUint64 b).value = b := by
  simp only [value, ofUint64, value_cons, value_zero, UInt32.toNat_ofNat']
  omega

/-- `operator<<`. -/
def shl (x : ArithUint256) (shift : ℕ) : ArithUint256 :=
  ⟨x.pn.shl shift, by rw [BaseUint.length_shl, x.width]⟩

/-- `operator>>`. -/
def shr (x : ArithUint256) (shift : ℕ) : ArithUint256 :=
  ⟨x.pn.shr shift, by rw [BaseUint.length_shr, x.width]⟩

lemma value_shl : (x.shl n).value = x.value * 2 ^ n % 2 ^ 256 := by
  rw [value, shl, BaseUint.value_shl, x.width]
  rfl

lemma value_shr : (x.shr n).value = x.value / 2 ^ n :=
  BaseUint.value_shr x.pn n

def getLow64 (x : ArithUint256) : ℕ := x.pn.limb 0 + 2 ^ 32 * x.pn.limb 1

lemma getLow64_eq : x.getLow64 = x.value % 2 ^ 64 := by
  obtain ⟨_ | ⟨y, _ | ⟨z, a⟩⟩, hw⟩ := x
  · simp at hw
  · simp at hw
  · have := y.toNat_lt
    have := z.toNat_lt
    simp only [getLow64, limb, value, getD_cons_zero, getD_cons_succ, value_cons]
    omega

end ArithUint256

end Soferox
