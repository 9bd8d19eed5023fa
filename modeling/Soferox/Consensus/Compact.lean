import Soferox.Consensus.ArithUint256

/-!
# The compact encoding of targets

`arith_uint256` and `CBigNum` each have a `SetCompact` and a `GetCompact`. Required difficulty is
computed with the second pair and checked with the first. The two are translated apart; that they
agree is a theorem, and the laws of the encoding are proved once, on numbers.
-/

namespace Soferox

/-- The `0x00800000` bit denotes the sign: where it is set, the mantissa is divided by 256 and the exponent increased.
-/
def clearSignBit (nCompact nSize : ℕ) : ℕ × ℕ :=
  if nCompact.testBit 23 then (nCompact >>> 8, nSize + 1) else (nCompact, nSize)

/-- What `SetCompact` sets. -/
structure CompactTarget where
  target : ArithUint256
  fNegative : Bool
  fOverflow : Bool

/-- Neither flag is raised. -/
def CompactTarget.Unflagged (t : CompactTarget) : Prop := t.fNegative = false ∧ t.fOverflow = false

instance (t : CompactTarget) : Decidable t.Unflagged := inferInstanceAs (Decidable (_ ∧ _))

namespace ArithUint256

/-- `arith_uint256::SetCompact`; `nCompact & 0x007fffff` is the remainder by `2 ^ 23`. -/
def setCompact (nCompact : ℕ) : CompactTarget :=
  let nSize := nCompact >>> 24
  let nWord := if nSize ≤ 3 then (nCompact % 2 ^ 23) >>> (8 * (3 - nSize)) else nCompact % 2 ^ 23
  { target := if nSize ≤ 3 then ofUint64 nWord else (ofUint64 nWord).shl (8 * (nSize - 3))
    fNegative := nWord ≠ 0 && nCompact.testBit 23
    fOverflow := nWord ≠ 0 && (nSize > 34 || nWord > 0xff && nSize > 33 ||
      nWord > 0xffff && nSize > 32) }

/-- `arith_uint256::GetCompact`; `none` when one of its two assertions fails. -/
def getCompact (x : ArithUint256) (fNegative : Bool) : Option ℕ :=
  let nSize := (x.pn.bits + 7) / 8
  let nCompact := if nSize ≤ 3 then x.getLow64 <<< (8 * (3 - nSize)) % 2 ^ 32
    else (x.shr (8 * (nSize - 3))).getLow64 % 2 ^ 32
  let (nCompact, nSize) := clearSignBit nCompact nSize
  if nCompact >>> 23 ≠ 0 then none
  else if nSize ≥ 256 then none
  else
    let nCompact := nCompact ||| nSize <<< 24
    some (nCompact ||| if fNegative && nCompact % 2 ^ 23 ≠ 0 then 0x00800000 else 0)

end ArithUint256

namespace CBigNum

/-- `CBigNum::SetCompact`; `BN_set_negative` leaves a zero as it is. -/
def setCompact (nCompact : ℕ) : ℤ :=
  let nSize := nCompact >>> 24
  let nWord := nCompact % 2 ^ 23
  let bn : ℕ := if nSize ≤ 3 then nWord >>> (8 * (3 - nSize)) else nWord <<< (8 * (nSize - 3))
  if nCompact.testBit 23 then -bn else bn

/-- `CBigNum::GetCompact`, in `unsigned int`. -/
def getCompact (bn : ℤ) : ℕ :=
  let nSize := (bn.natAbs.size + 7) / 8
  let nCompact := if nSize ≤ 3 then bn.natAbs <<< (8 * (3 - nSize)) % 2 ^ 32
    else bn.natAbs >>> (8 * (nSize - 3)) % 2 ^ 32
  let (nCompact, nSize) := clearSignBit nCompact nSize
  nCompact ||| nSize <<< 24 % 2 ^ 32 ||| if bn < 0 then 0x00800000 else 0

end CBigNum

/-! ### The encoding on numbers -/

namespace CompactForm

variable {v w L t : ℕ}

/-- The top three bytes of `v` when it is written in `L` bytes. -/
def mantissa (v L : ℕ) : ℕ := v * 2 ^ (8 * (3 - L)) / 2 ^ (8 * (L - 3))

/-- The length that leaves the sign bit clear. -/
def size (v : ℕ) : ℕ := v.size / 8 + 1

/-- What is left of `v` when the low bytes of its encoding are cut off. -/
def truncate (v : ℕ) : ℕ := v / 2 ^ (8 * (size v - 3)) * 2 ^ (8 * (size v - 3))

lemma two_pow_le_of_size (hv : 0 < v) : 2 ^ (v.size - 1) ≤ v :=
  Nat.lt_size.1 (Nat.sub_lt (Nat.size_pos.2 hv) one_pos)

lemma mantissa_lt (h : v.size + 24 ≤ 8 * L + t) : mantissa v L < 2 ^ t := by
  rw [mantissa, Nat.div_lt_iff_lt_mul (by positivity), ← pow_add]
  calc v * 2 ^ (8 * (3 - L)) < 2 ^ v.size * 2 ^ (8 * (3 - L)) := by
        gcongr; exact Nat.lt_size_self v
    _ ≤ 2 ^ (t + 8 * (L - 3)) := by
        rw [← pow_add]; exact Nat.pow_le_pow_right (by norm_num) (by omega)

lemma le_mantissa (hv : 0 < v) (h : 8 * L + t < v.size + 24) : 2 ^ t ≤ mantissa v L := by
  rw [mantissa, Nat.le_div_iff_mul_le (by positivity), ← pow_add]
  calc 2 ^ (t + 8 * (L - 3)) ≤ 2 ^ (v.size - 1) * 2 ^ (8 * (3 - L)) := by
        rw [← pow_add]; exact Nat.pow_le_pow_right (by norm_num) (by omega)
    _ ≤ v * 2 ^ (8 * (3 - L)) := by gcongr; exact two_pow_le_of_size hv

lemma mantissa_succ (v L : ℕ) : mantissa v L / 2 ^ 8 = mantissa v (L + 1) := by
  obtain h | h := lt_or_ge L 3
  · rw [mantissa, mantissa, show 3 - L = 3 - (L + 1) + 1 by omega, mul_add, pow_add, ← mul_assoc]
    simp [show L - 3 = 0 by omega, show L + 1 - 3 = 0 by omega]
  · rw [mantissa, mantissa, Nat.div_div_eq_div_mul, ← pow_add, show L + 1 - 3 = L - 3 + 1 by omega,
      mul_add]
    simp [show 3 - L = 0 by omega, show 3 - (L + 1) = 0 by omega]

/-- What both `GetCompact`s put together: the mantissa and the number of bytes, with the sign bit cleared. -/
def parts (v : ℕ) : ℕ × ℕ :=
  clearSignBit (mantissa v ((v.size + 7) / 8) % 2 ^ 32) ((v.size + 7) / 8)

lemma parts_pos (hv : 0 < v) : parts v = (mantissa v (size v), size v) := by
  have hm := mantissa_lt (t := 24) (L := (v.size + 7) / 8) (v := v) (by omega)
  rw [parts, Nat.mod_eq_of_lt (by omega), clearSignBit, Nat.testBit_eq_decide_div_mod_eq]
  by_cases h8 : v.size % 8 = 0
  · have hlow := le_mantissa (t := 23) (L := (v.size + 7) / 8) hv (by omega)
    rw [if_pos (by rw [decide_eq_true_eq]; omega), Nat.shiftRight_eq_div_pow, mantissa_succ,
      show (v.size + 7) / 8 + 1 = size v by rw [size]; omega]
  · have hsize : (v.size + 7) / 8 = size v := by rw [size]; omega
    have hlt := mantissa_lt (t := 23) (L := size v) (v := v) (by rw [size]; omega)
    rw [hsize, if_neg (by rw [decide_eq_true_eq]; omega)]

lemma mantissa_size_lt (v : ℕ) : mantissa v (size v) < 2 ^ 23 :=
  mantissa_lt (by rw [size]; omega)

lemma parts_lt (h : v < 2 ^ 256) : (parts v).1 < 2 ^ 23 ∧ (parts v).2 < 2 ^ 8 := by
  obtain rfl | hv := Nat.eq_zero_or_pos v
  · decide
  · have hsize := Nat.size_le.2 h
    rw [parts_pos hv]
    exact ⟨mantissa_size_lt v, by rw [size]; omega⟩

/-- Decoding the mantissa gives back all but the bytes that were cut off. -/
theorem mantissa_unscale (v : ℕ) :
    mantissa v (size v) * 2 ^ (8 * (size v - 3)) / 2 ^ (8 * (3 - size v)) = truncate v := by
  rw [mantissa, truncate]
  obtain h | h := le_total (size v) 3
  · simp [Nat.sub_eq_zero_of_le h]
  · simp [Nat.sub_eq_zero_of_le h]

lemma truncate_le (v : ℕ) : truncate v ≤ v := Nat.div_mul_le_self _ _

lemma two_pow_le_truncate (ht : 8 * (size v - 3) ≤ t) (h : 2 ^ t ≤ v) : 2 ^ t ≤ truncate v := by
  obtain ⟨d, rfl⟩ := Nat.exists_eq_add_of_le' ht
  rw [pow_add] at h ⊢
  exact Nat.mul_le_mul_right _ ((Nat.le_div_iff_mul_le (by positivity)).2 h)

lemma size_truncate (hv : 0 < v) : size (truncate v) = size v := by
  have hlow : 2 ^ (v.size - 1) ≤ truncate v :=
    two_pow_le_truncate (by rw [size]; omega) (two_pow_le_of_size hv)
  have hle := Nat.size_le_size (truncate_le v)
  have hlt := Nat.lt_size.2 hlow
  rw [size, size, show (truncate v).size = v.size by omega]

lemma truncate_mono (h : v ≤ w) : truncate v ≤ truncate w := by
  by_cases hsize : size v = size w
  · rw [truncate, hsize]
    exact Nat.mul_le_mul_right _ (Nat.div_le_div_right h)
  · -- the larger number has a byte more, and its top bit is kept
    have hle : v.size / 8 < w.size / 8 := by
      have := Nat.size_le_size h
      rw [size, size] at hsize
      omega
    calc truncate v ≤ 2 ^ v.size := (truncate_le v).trans (Nat.lt_size_self v).le
      _ ≤ 2 ^ (w.size - 1) := Nat.pow_le_pow_right (by norm_num) (by omega)
      _ ≤ truncate w := two_pow_le_truncate (by rw [size]; omega) (two_pow_le_of_size (Nat.size_pos.1 (by omega)))

lemma truncate_pos (hv : 0 < v) : 0 < truncate v :=
  (Nat.two_pow_pos _).trans_le (two_pow_le_truncate (t := v.size - 1) (by rw [size]; omega) (two_pow_le_of_size hv))

lemma mantissa_truncate (v : ℕ) : mantissa (truncate v) (size v) = mantissa v (size v) := by
  rw [mantissa, mantissa, truncate]
  obtain h | h := le_total (size v) 3
  · simp [Nat.sub_eq_zero_of_le h]
  · simp [Nat.sub_eq_zero_of_le h]

/-- The bytes that are cut off are worth less than a part in `2 ^ 15`. -/
theorem sub_truncate_lt (hv : 0 < v) : (v - truncate v) * 2 ^ 15 < v := by
  have hmod := Nat.mod_lt v (Nat.two_pow_pos (8 * (size v - 3)))
  have hsub : v - truncate v = v % 2 ^ (8 * (size v - 3)) := by
    rw [truncate, Nat.mod_eq_sub_div_mul]
  rw [hsub]
  by_cases hL : size v ≤ 3
  · rw [Nat.sub_eq_zero_of_le hL, pow_zero, Nat.mod_one]
    exact hv
  · calc v % 2 ^ (8 * (size v - 3)) * 2 ^ 15 < 2 ^ (8 * (size v - 3)) * 2 ^ 15 := by gcongr
      _ ≤ 2 ^ (v.size - 1) := by
        rw [← pow_add]
        exact Nat.pow_le_pow_right (by norm_num) (by rw [size] at hL ⊢; omega)
      _ ≤ v := two_pow_le_of_size hv

end CompactForm

namespace CBigNum

open CompactForm

variable {v : ℕ}

lemma shift_eq_mantissa (v L : ℕ) : (if L ≤ 3 then v <<< (8 * (3 - L)) % 2 ^ 32 else v >>> (8 * (L - 3)) % 2 ^ 32) =
    mantissa v L % 2 ^ 32 := by
  rw [mantissa]
  split
  · next h => simp [Nat.sub_eq_zero_of_le h, Nat.shiftLeft_eq]
  · next h => simp [Nat.sub_eq_zero_of_le (not_le.1 h).le, Nat.shiftRight_eq_div_pow]

lemma getCompact_natCast (h : v < 2 ^ 256) : getCompact v = (parts v).1 ||| (parts v).2 <<< 24 := by
  have hL := (parts_lt h).2
  simp only [getCompact, Int.natAbs_natCast, shift_eq_mantissa, ← parts.eq_1]
  rw [if_neg (by omega), Nat.or_zero, Nat.mod_eq_of_lt]
  omega

lemma getCompact_pos (hv : 0 < v) (h : v < 2 ^ 256) : getCompact v = size v * 2 ^ 24 + mantissa v (size v) := by
  have hlt := mantissa_size_lt v
  rw [getCompact_natCast h, parts_pos hv, Nat.or_comm, ← Nat.shiftLeft_add_eq_or_of_lt (by omega), Nat.shiftLeft_eq]

lemma setCompact_encoding {L m : ℕ} (hm : m < 2 ^ 23) :
    setCompact (L * 2 ^ 24 + m) = ((m * 2 ^ (8 * (L - 3)) / 2 ^ (8 * (3 - L)) : ℕ) : ℤ) := by
  have hL : (L * 2 ^ 24 + m) >>> 24 = L := by rw [Nat.shiftRight_eq_div_pow]; omega
  have hw : (L * 2 ^ 24 + m) % 2 ^ 23 = m := by omega
  have hs : (L * 2 ^ 24 + m).testBit 23 = false := by
    rw [Nat.testBit_eq_decide_div_mod_eq, decide_eq_false_iff_not]; omega
  simp only [setCompact, hL, hw, hs, Bool.false_eq_true, if_false]
  split
  · next h => simp [Nat.sub_eq_zero_of_le h, Nat.shiftRight_eq_div_pow]
  · next h => simp [Nat.sub_eq_zero_of_le (not_le.1 h).le, Nat.shiftLeft_eq]

lemma setCompact_getCompact (h : v < 2 ^ 256) : setCompact (getCompact v) = truncate v := by
  obtain rfl | hv := Nat.eq_zero_or_pos v
  · rfl
  · rw [getCompact_pos hv h, setCompact_encoding (mantissa_size_lt v), mantissa_unscale]

lemma getCompact_truncate (h : v < 2 ^ 256) : getCompact (truncate v) = getCompact v := by
  obtain rfl | hv := Nat.eq_zero_or_pos v
  · rfl
  · rw [getCompact_pos (truncate_pos hv) ((truncate_le v).trans_lt h), getCompact_pos hv h,
      size_truncate hv, mantissa_truncate]

end CBigNum

namespace ArithUint256

open CompactForm

variable (x : ArithUint256) {v : ℕ}

lemma lowBytes_eq_mantissa (L : ℕ) (hL : x.value.size ≤ 8 * L) : (if L ≤ 3 then x.getLow64 <<< (8 * (3 - L)) % 2 ^ 32
    else (x.shr (8 * (L - 3))).getLow64 % 2 ^ 32) = mantissa x.value L % 2 ^ 32 := by
  rw [← CBigNum.shift_eq_mantissa, getLow64_eq, getLow64_eq, value_shr,
    Nat.mod_mod_of_dvd _ (by norm_num), Nat.shiftRight_eq_div_pow]
  split
  · have hlt : x.value < 2 ^ 24 := Nat.size_le.1 (by omega)
    rw [Nat.mod_eq_of_lt (hlt.trans (by norm_num))]
  · rfl

lemma getCompact_eq (fNegative : Bool) : x.getCompact fNegative = some (CBigNum.getCompact x.value |||
    if fNegative && CBigNum.getCompact x.value % 2 ^ 23 ≠ 0 then 0x00800000 else 0) := by
  obtain ⟨hm, hL⟩ := parts_lt x.value_lt
  rw [getCompact, BaseUint.bits_eq, ← value, CBigNum.getCompact_natCast x.value_lt]
  simp only [lowBytes_eq_mantissa x _ (show x.value.size ≤ 8 * ((x.value.size + 7) / 8) by omega), ← parts.eq_1]
  rw [if_neg (by rw [Nat.shiftRight_eq_div_pow, Nat.div_eq_of_lt hm]; simp), if_neg (by omega)]

lemma getCompact_false : x.getCompact false = some (CBigNum.getCompact x.value) := by
  simp [getCompact_eq]

lemma value_setCompact {n : ℕ} (hflags : (setCompact n).Unflagged) :
    ((setCompact n).target.value : ℤ) = CBigNum.setCompact n := by
  obtain ⟨hneg, hover⟩ := hflags
  have hw : n % 2 ^ 23 < 2 ^ 23 := Nat.mod_lt _ (by norm_num)
  by_cases hsize : n >>> 24 ≤ 3
  · have hlt : (n % 2 ^ 23) >>> (8 * (3 - n >>> 24)) < 2 ^ 64 := by
      rw [Nat.shiftRight_eq_div_pow]
      exact (Nat.div_le_self _ _).trans_lt (by omega)
    simp only [setCompact] at hneg
    simp only [setCompact, CBigNum.setCompact, hsize, if_true, value_ofUint64 hlt]
    split
    · next hbit => simp_all
    · rfl
  · simp only [setCompact, hsize, if_false] at hneg hover
    have hfit : n % 2 ^ 23 * 2 ^ (8 * (n >>> 24 - 3)) < 2 ^ 256 := by
      obtain h0 | hpos := Nat.eq_zero_or_pos (n % 2 ^ 23)
      · rw [h0]; norm_num
      -- each of the three overflow tests bounds the word at its own length
      have hcase : ∃ t, n % 2 ^ 23 < 2 ^ t ∧ t + 8 * (n >>> 24 - 3) ≤ 256 := by
        simp only [hpos.ne', ne_eq, not_false_eq_true, decide_true,
          Bool.or_eq_false_iff, Bool.and_eq_false_iff, decide_eq_false_iff_not] at hover
        obtain ⟨⟨h34, h33⟩, h32⟩ := hover
        obtain hle | heq | heq : n >>> 24 ≤ 32 ∨ n >>> 24 = 33 ∨ n >>> 24 = 34 := by omega
        · exact ⟨23, hw, by omega⟩
        · exact ⟨16, by omega, by omega⟩
        · exact ⟨8, by omega, by omega⟩
      obtain ⟨t, hlt, ht⟩ := hcase
      calc n % 2 ^ 23 * 2 ^ (8 * (n >>> 24 - 3)) < 2 ^ t * 2 ^ (8 * (n >>> 24 - 3)) := by gcongr
        _ ≤ 2 ^ 256 := by rw [← pow_add]; exact Nat.pow_le_pow_right (by norm_num) ht
    simp only [setCompact, CBigNum.setCompact, hsize, if_false, value_shl,
      value_ofUint64 (hw.trans (by norm_num)), Nat.mod_eq_of_lt hfit, Nat.shiftLeft_eq]
    split
    · next hbit => simp_all
    · rfl

/-- The two codecs agree, wherever `SetCompact` raises no flag and on every 256-bit number. -/
theorem compact_codecs_agree :
    (∀ nCompact, (setCompact nCompact).Unflagged →
      CBigNum.setCompact nCompact = (setCompact nCompact).target.value) ∧
    ∀ x : ArithUint256, some (CBigNum.getCompact x.value) = x.getCompact false :=
  ⟨fun _ hflags => (value_setCompact hflags).symm, fun x => (getCompact_false x).symm⟩

lemma setCompact_unflagged (h : v < 2 ^ 256) : (setCompact (CBigNum.getCompact v)).Unflagged := by
  obtain rfl | hv := Nat.eq_zero_or_pos v
  · exact ⟨rfl, rfl⟩
  · have hm := mantissa_size_lt v
    have hsize := Nat.size_le.2 h
    have hL : (size v * 2 ^ 24 + mantissa v (size v)) >>> 24 = size v := by
      rw [Nat.shiftRight_eq_div_pow]; omega
    have hsign : (size v * 2 ^ 24 + mantissa v (size v)).testBit 23 = false := by
      rw [Nat.testBit_eq_decide_div_mod_eq, decide_eq_false_iff_not]; omega
    simp only [CompactTarget.Unflagged, setCompact, CBigNum.getCompact_pos hv h, hL, hsign, Bool.and_false]
    have hle : size v ≤ 33 := by rw [size]; omega
    obtain hle | heq : size v ≤ 32 ∨ size v = 33 := by omega
    · simp [show ¬ 34 < size v by omega, show ¬ 33 < size v by omega, show ¬ 32 < size v by omega]
    · have h16 : mantissa v (size v) < 2 ^ 16 := mantissa_lt (by omega)
      simp [heq] at h16 ⊢
      omega

lemma value_setCompact_getCompact (h : v < 2 ^ 256) :
    (setCompact (CBigNum.getCompact v)).target.value = truncate v := by
  exact_mod_cast (value_setCompact (setCompact_unflagged h)).trans (CBigNum.setCompact_getCompact h)

/-- The laws of the encoding. -/
theorem compact_laws (x : ArithUint256) :
    (∀ fNegative, (x.getCompact fNegative).isSome) ∧
    ∃ nCompact, x.getCompact false = some nCompact ∧ (setCompact nCompact).Unflagged ∧
      (setCompact nCompact).target.value ≤ x.value ∧
      (0 < x.value → ((x.value - (setCompact nCompact).target.value : ℚ)) < x.value / 2 ^ 15) ∧
      (setCompact nCompact).target.getCompact false = some nCompact ∧
      ∀ y : ArithUint256, x.value ≤ y.value → ∀ nCompact', y.getCompact false = some nCompact' →
        (setCompact nCompact).target.value ≤ (setCompact nCompact').target.value := by
  have hval := value_setCompact_getCompact x.value_lt
  refine ⟨fun fNegative => by simp [getCompact_eq], _, getCompact_false x, setCompact_unflagged x.value_lt, ?_, ?_,
    ?_, ?_⟩
  · rw [hval]
    exact truncate_le _
  · intro hpos
    rw [hval, lt_div_iff₀ (by norm_num), ← Nat.cast_sub (truncate_le _)]
    exact_mod_cast sub_truncate_lt hpos
  · rw [getCompact_false, hval, CBigNum.getCompact_truncate x.value_lt]
  · intro y hle nCompact' hy
    rw [getCompact_false, Option.some_inj] at hy
    rw [← hy, hval, value_setCompact_getCompact y.value_lt]
    exact truncate_mono hle

/-- Nothing is lost of zero, and nothing is not less than nothing. -/
theorem compact_loss_zero :
    (ofUint64 0).getCompact false = some 0 ∧
      ¬ ((ofUint64 0).value - (setCompact 0).target.value : ℚ) < (ofUint64 0).value / 2 ^ 15 := by
  have hzero : (setCompact 0).target.value = 0 := rfl
  refine ⟨by decide, ?_⟩
  rw [value_ofUint64 (by norm_num), hzero]
  norm_num

end ArithUint256

end Soferox
