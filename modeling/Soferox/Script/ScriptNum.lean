import Soferox.Script.CScript

/-!
# Script numbers

`CScriptNum` of `script/script.h`: the little-endian sign-magnitude numbers of the numeric opcodes. Operands are
limited to four bytes (five for the lock-time opcodes), results are not, so the `int64_t` inside never overflows and
is an `Int` here.
-/

namespace Soferox

namespace CScriptNum

def nDefaultMaxNumSize : ℕ := 4

/-- The number whose little-endian bytes are `vch`. -/
def leNat : Valtype → ℕ
  | [] => 0
  | b :: vch => b.toNat + 2 ^ 8 * leNat vch

/-- `CScriptNum::set_vch`: the top bit of the last byte is the sign. -/
def setVch (vch : Valtype) : ℤ :=
  match vch.getLast? with
  | none => 0
  | some back =>
    if back &&& 0x80 ≠ 0 then -((leNat vch : ℤ) - 0x80 * 2 ^ (8 * (vch.length - 1))) else leNat vch

/-- The test under `fRequireMinimal`: the last byte is needed for the magnitude, or the byte before it would be read as
the sign. -/
def isMinimal (vch : Valtype) : Bool :=
  match vch.reverse with
  | [] => true
  | [back] => back &&& 0x7f != 0
  | back :: prev :: _ => back &&& 0x7f != 0 || prev &&& 0x80 != 0

/-- The constructor `CScriptNum(vch, fRequireMinimal, nMaxNumSize)`; `none` is its `scriptnum_error`. -/
def ofVch (vch : Valtype) (fRequireMinimal : Bool) (nMaxNumSize : ℕ) : Option ℤ :=
  if vch.length > nMaxNumSize then none
  else if fRequireMinimal && !isMinimal vch then none
  else some (setVch vch)

/-- The loop of `serialize` over the absolute value, a `uint64_t`. -/
def absBytes : ℕ → ℕ → Valtype
  | 0, _ => []
  | fuel + 1, absvalue => if absvalue = 0 then [] else UInt8.ofNat absvalue :: absBytes fuel (absvalue / 2 ^ 8)

/-- `CScriptNum::serialize`, also `getvch`. -/
def serialize (value : ℤ) : Valtype :=
  let result := absBytes 8 value.natAbs
  match result.getLast? with
  | none => []
  | some back =>
    if back &&& 0x80 ≠ 0 then result ++ [if value < 0 then 0x80 else 0]
    else if value < 0 then result.dropLast ++ [back ||| 0x80]
    else result

/-- `CScriptNum::getint`: clamped to the range of `int`. -/
def getint (value : ℤ) : ℤ := max (-2 ^ 31) (min (2 ^ 31 - 1) value)

/-- Requiring minimality rejects encodings and never changes the number read. -/
theorem ofVch_of_minimal {vch : Valtype} {n : ℕ} {x : ℤ} (h : ofVch vch true n = some x) (fMin : Bool) :
    ofVch vch fMin n = some x := by
  unfold ofVch at h ⊢
  split at h
  · cases h
  · rename_i hlen
    rw [if_neg hlen]
    split at h
    · cases h
    · rename_i hmin
      have : isMinimal vch = true := by simpa using hmin
      simpa [this] using h

lemma leNat_concat_zero (vch : Valtype) : leNat (vch ++ [0]) = leNat vch := by
  induction vch with
  | nil => rfl
  | cons b vch ih => rw [List.cons_append, leNat, leNat, ih]

lemma leNat_absBytes {fuel n : ℕ} (h : n < 2 ^ (8 * fuel)) : leNat (absBytes fuel n) = n := by
  induction fuel generalizing n with
  | zero =>
    obtain rfl : n = 0 := by simpa using h
    rfl
  | succ fuel ih =>
    have hdiv : n / 2 ^ 8 < 2 ^ (8 * fuel) := by
      rw [Nat.div_lt_iff_lt_mul (by norm_num), ← pow_add]
      exact h
    rw [absBytes]
    split_ifs with hn
    · exact hn.symm
    · rw [leNat, ih hdiv, UInt8.toNat_ofNat']
      omega

lemma length_absBytes_le (fuel n : ℕ) : (absBytes fuel n).length ≤ fuel := by
  induction fuel generalizing n with
  | zero => simp [absBytes]
  | succ fuel ih =>
    rw [absBytes]
    split_ifs
    · simp
    · exact Nat.succ_le_succ (ih _)

/-- A natural number has its bytes, and a zero where the last of them has the bit of the sign. -/
theorem serialize_natCast (n : ℕ) : serialize n = absBytes 8 n ∨ serialize n = absBytes 8 n ++ [0] := by
  have hneg : ¬ (n : ℤ) < 0 := by omega
  simp only [serialize]
  split
  · rename_i hlast
    exact .inl (List.getLast?_eq_none_iff.1 hlast).symm
  · split_ifs <;> simp

lemma leNat_serialize {n : ℕ} (h : n < 2 ^ 31) : leNat (serialize n) = n := by
  have habs : leNat (absBytes 8 n) = n := leNat_absBytes (by omega)
  rcases serialize_natCast n with hs | hs <;> simp [hs, leNat_concat_zero, habs]

lemma length_serialize_le (n : ℕ) : (serialize n).length ≤ 9 := by
  have := length_absBytes_le 8 n
  rcases serialize_natCast n with hs | hs <;> simp [hs] <;> omega

end CScriptNum

open CScriptNum

def CScript.pushInt64 (n : ℤ) : CScript :=
  if n = -1 ∨ (1 ≤ n ∧ n ≤ 16) then [UInt8.ofNat (n + (OP_1.toNat - 1)).toNat]
  else if n = 0 then [OP_0]
  else push (CScriptNum.serialize n)

lemma CScript.pushInt64_natCast {n : ℕ} (h : 17 ≤ n) : pushInt64 n = UInt8.ofNat (serialize n).length :: serialize n := by
  have hlen := length_serialize_le n
  have hop : OP_PUSHDATA1.toNat = 76 := rfl
  unfold pushInt64 push
  rw [if_neg (by omega), if_neg (by omega), if_pos (by omega)]

/-- No script starts with the pushes of two numbers: the first byte is the size, so both end at the same place. -/
theorem CScript.pushInt64_unique {m n : ℕ} {script : CScript} (hm : m ∈ Set.Ico 17 (2 ^ 31))
    (hn : n ∈ Set.Ico 17 (2 ^ 31)) (h : pushInt64 m <+: script) (h' : pushInt64 n <+: script) : m = n := by
  have hlt := length_serialize_le m
  have hlt' := length_serialize_le n
  obtain ⟨t, rfl⟩ := h
  rw [pushInt64_natCast hm.1, pushInt64_natCast hn.1, List.cons_append, List.cons_prefix_cons] at h'
  obtain ⟨hsize, t', heq⟩ := h'
  have hlen : (serialize n).length = (serialize m).length := by
    have := congrArg UInt8.toNat hsize
    simp only [UInt8.toNat_ofNat'] at this
    omega
  rw [← leNat_serialize hm.2, ← leNat_serialize hn.2, (List.append_inj heq hlen).1]

end Soferox
