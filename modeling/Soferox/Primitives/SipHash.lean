import Soferox.Primitives.Serialize

/-!
# SipHash

`CSipHasher` and the functions for a `uint256` (`hash.cpp`). `none` is an assertion that fails, or a result after the
`int` that counts the bytes has overflowed.
-/

namespace Soferox

open List

structure SipState where
  v0 : BitVec 64
  v1 : BitVec 64
  v2 : BitVec 64
  v3 : BitVec 64

namespace SipState

/-- `SIPROUND`. -/
def sipround (v : SipState) : SipState :=
  let v0 := v.v0 + v.v1
  let v1 := v.v1.rotateLeft 13 ^^^ v0
  let v0 := v0.rotateLeft 32
  let v2 := v.v2 + v.v3
  let v3 := v.v3.rotateLeft 16 ^^^ v2
  let v0 := v0 + v3
  let v3 := v3.rotateLeft 21 ^^^ v0
  let v2 := v2 + v1
  let v1 := v1.rotateLeft 17 ^^^ v2
  ⟨v0, v1, v2.rotateLeft 32, v3⟩

def init (k0 k1 : BitVec 64) : SipState :=
  ⟨0x736f6d6570736575 ^^^ k0, 0x646f72616e646f6d ^^^ k1, 0x6c7967656e657261 ^^^ k0, 0x7465646279746573 ^^^ k1⟩

/-- The rounds for a word of the message. -/
def compress (v : SipState) (d : BitVec 64) : SipState :=
  let v := sipround (sipround { v with v3 := v.v3 ^^^ d })
  { v with v0 := v.v0 ^^^ d }

/-- The rounds at the end. -/
def final (v : SipState) : BitVec 64 :=
  let v := sipround (sipround (sipround (sipround { v with v2 := v.v2 ^^^ 0xff })))
  v.v0 ^^^ v.v1 ^^^ v.v2 ^^^ v.v3

end SipState

open SipState

/-- A byte of a word, at its place. -/
def atByte (b : UInt8) (i : ℕ) : BitVec 64 := b.toBitVec.setWidth 64 <<< (8 * i)

/-- The word of the bytes at `ptr`, the lowest first. -/
def sipWord (ptr : List UInt8) : BitVec 64 := ptr.zipIdx.foldl (fun d b => d ||| atByte b.1 b.2) 0

/-- `uint256::GetUint64`. -/
def getUint64 (val : Uint256) (pos : ℕ) : BitVec 64 := sipWord (((writeUint256 val).drop (pos * 8)).take 8)

structure CSipHasher where
  v : SipState
  tmp : BitVec 64
  count : ℕ

/-- The bytes for one call of `Write`, which gets them as a `uint64_t` or as they are. -/
structure SipPiece where
  data : List UInt8
  isWord : Bool

namespace CSipHasher

/-- One round of the loop over the bytes. -/
def writeByte (s : CSipHasher) (b : UInt8) : CSipHasher :=
  let t := s.tmp ||| atByte b (s.count % 8)
  if (s.count + 1) % 8 = 0 then ⟨s.v.compress t, 0, s.count + 1⟩ else ⟨s.v, t, s.count + 1⟩

def write (s : CSipHasher) (p : SipPiece) : Option CSipHasher :=
  if p.isWord then
    if s.count % 8 = 0 then some ⟨s.v.compress (sipWord p.data), s.tmp, s.count + 8⟩ else none
  else some (p.data.foldl writeByte s)

def finalize (s : CSipHasher) : Option (BitVec 64) :=
  if s.count < 2 ^ 31 then some (s.v.compress (s.tmp ||| BitVec.ofNat 64 s.count <<< 56)).final else none

end CSipHasher

open CSipHasher

section

variable (k0 k1 : BitVec 64)

def sipHash (pieces : List SipPiece) : Option (BitVec 64) := (pieces.foldlM write ⟨init k0 k1, 0, 0⟩).bind finalize

/-- The rounds for the four words of a `uint256`. -/
def compressUint256 (val : Uint256) : SipState :=
  (range 4).foldl (fun v pos => v.compress (getUint64 val pos)) (init k0 k1)

def sipHashUint256 (val : Uint256) : BitVec 64 := ((compressUint256 k0 k1 val).compress (4#64 <<< 59)).final

def sipHashUint256Extra (val : Uint256) (extra : BitVec 32) : BitVec 64 :=
  ((compressUint256 k0 k1 val).compress (36#64 <<< 56 ||| extra.setWidth 64)).final

end

/-- From position `n` on, words have eight bytes and begin at multiples of eight. -/
def WordsAligned : ℕ → List SipPiece → Prop
  | _, [] => True
  | n, p :: pieces => (p.isWord = true → n % 8 = 0 ∧ p.data.length = 8) ∧ WordsAligned (n + p.data.length) pieces

namespace CSipHasher

variable {s : CSipHasher} {w : List UInt8}

/-- Between two words nothing is left in `tmp`. -/
def Clean (s : CSipHasher) : Prop := s.count % 8 = 0 → s.tmp = 0

lemma foldl_writeByte (hs : s.Clean) (w : List UInt8) :
    (w.foldl writeByte s).Clean ∧ (w.foldl writeByte s).count = s.count + w.length := by
  induction w generalizing s with
  | nil => exact ⟨hs, rfl⟩
  | cons b w ih =>
    have hstep : (s.writeByte b).Clean ∧ (s.writeByte b).count = s.count + 1 := by
      rw [writeByte]
      split_ifs with hmod
      · exact ⟨fun _ => rfl, rfl⟩
      · exact ⟨fun h => absurd h hmod, rfl⟩
    rw [foldl_cons, length_cons, Nat.add_comm w.length, ← Nat.add_assoc, ← hstep.2]
    exact ih hstep.1

lemma sipWord_concat (w : List UInt8) (b : UInt8) : sipWord (w ++ [b]) = sipWord w ||| atByte b w.length := by
  simp [sipWord, zipIdx_append]

section

variable (hs : s.Clean) (hcount : s.count % 8 = 0)
include hs hcount

lemma foldl_writeByte_lt (hw : w.length < 8) : w.foldl writeByte s = ⟨s.v, sipWord w, s.count + w.length⟩ := by
  induction w using List.reverseRecOn with
  | nil => simp [sipWord, ← hs hcount]
  | append_singleton w b ih =>
    rw [length_append, length_singleton] at hw
    have hmod : (s.count + w.length) % 8 = w.length := by omega
    have hnext : (s.count + w.length + 1) % 8 ≠ 0 := by omega
    rw [foldl_append, ih (by omega), foldl_cons, foldl_nil, writeByte, if_neg hnext, hmod, ← sipWord_concat, length_append]
    rfl

/-- Eight bytes are a word. -/
lemma foldl_writeByte_word (hw : w.length = 8) : w.foldl writeByte s = ⟨s.v.compress (sipWord w), 0, s.count + 8⟩ := by
  rcases eq_nil_or_concat w with rfl | ⟨w, b, rfl⟩
  · cases hw
  rw [concat_eq_append, length_append, length_singleton] at hw
  have hmod : (s.count + w.length) % 8 = w.length := by omega
  have hnext : (s.count + w.length + 1) % 8 = 0 := by omega
  rw [concat_eq_append, foldl_append, foldl_writeByte_lt hs hcount (by omega), foldl_cons, foldl_nil, writeByte,
    if_pos hnext, hmod, ← sipWord_concat, Nat.add_assoc, hw]

end

variable {pieces : List SipPiece}

lemma foldlM_write (hs : s.Clean) (ha : WordsAligned s.count pieces) :
    pieces.foldlM write s = some ((pieces.flatMap SipPiece.data).foldl writeByte s) := by
  induction pieces generalizing s with
  | nil => rfl
  | cons p pieces ih =>
    obtain ⟨hclean, hcount⟩ := foldl_writeByte hs p.data
    have hwrite : s.write p = some (p.data.foldl writeByte s) := by
      rw [write]
      split_ifs with hword hmod
      · rw [foldl_writeByte_word hs hmod (ha.1 hword).2, hs hmod]
      · exact absurd (ha.1 hword).1 hmod
      · rfl
    rw [flatMap_cons, foldl_append, foldlM_cons, hwrite]
    exact ih hclean (hcount ▸ ha.2)

end CSipHasher

variable (k0 k1 : BitVec 64) (val : Uint256) (w : List UInt8)

lemma foldl_writeUint256 : (writeUint256 val).foldl writeByte ⟨init k0 k1, 0, 0⟩ = ⟨compressUint256 k0 k1 val, 0, 32⟩ := by
  have hlen : (writeUint256 val).length = 32 := length_leBytes 32 _
  have htake : ∀ n ≤ 4, ((writeUint256 val).take (n * 8)).foldl writeByte ⟨init k0 k1, 0, 0⟩ =
      ⟨(range n).foldl (fun v pos => v.compress (getUint64 val pos)) (init k0 k1), 0, n * 8⟩ := by
    intro n hn
    induction n with
    | zero => rfl
    | succ n ih =>
      rw [Nat.succ_mul, take_add, foldl_append, ih (by omega), foldl_writeByte_word (fun _ => rfl) (Nat.mul_mod_left ..),
        range_succ, foldl_append]
      · rfl
      · simp [hlen]
        omega
  have hall := htake 4 le_rfl
  rwa [take_of_length_le (by omega)] at hall

lemma sipWord_extra (extra : BitVec 32) : sipWord (serWritedata 4 extra.toNat) = extra.setWidth 64 := by
  have hbyte : ∀ m j, (UInt8.ofNat m).toBitVec.getLsbD j = (decide (j < 8) && m.testBit j) := by
    simp [UInt8.ofNat, BitVec.getLsbD_ofNat]
  have hdiv : ∀ m j, (m / 256).testBit j = m.testBit (j + 8) := Nat.testBit_div_two_pow (n := 8)
  have hhigh : ∀ i, 32 ≤ i → extra.getLsbD i = false := BitVec.getLsbD_of_ge extra
  ext i hi
  simp [sipWord, serWritedata, leBytes, atByte, hbyte, hdiv]
  grind

lemma sipHash_eq (ha : WordsAligned 0 pieces) : sipHash k0 k1 pieces =
    ((pieces.flatMap SipPiece.data).foldl writeByte ⟨init k0 k1, 0, 0⟩).finalize := by
  rw [sipHash, foldlM_write (fun _ => rfl) ha]
  rfl

lemma sipHash_whole : sipHash k0 k1 [⟨w, false⟩] = (w.foldl writeByte ⟨init k0 k1, 0, 0⟩).finalize := by
  rw [sipHash_eq k0 k1 (by simp [WordsAligned]), flatMap_singleton]

lemma finalize_foldl : (w.foldl writeByte ⟨init k0 k1, 0, 0⟩).finalize.isSome ↔ w.length < 2 ^ 31 := by
  rw [finalize, (foldl_writeByte (fun _ => rfl) w).2, Nat.zero_add]
  split_ifs with hlen <;> simpa using hlen

/-- **The specialised functions agree with `CSipHasher`, and how a string is split does not matter, exactly if its length
is an `int`.** -/
theorem sipHash_iff (extra : BitVec 32) (w : List UInt8) :
    (sipHash k0 k1 [⟨writeUint256 val, false⟩] = some (sipHashUint256 k0 k1 val) ∧
      sipHash k0 k1 [⟨writeUint256 val ++ serWritedata 4 extra.toNat, false⟩] =
        some (sipHashUint256Extra k0 k1 val extra) ∧
      ∃ r, ∀ pieces, WordsAligned 0 pieces → pieces.flatMap SipPiece.data = w → sipHash k0 k1 pieces = some r) ↔
      w.length < 2 ^ 31 := by
  rw [← finalize_foldl k0 k1, Option.isSome_iff_exists]
  constructor
  · rintro ⟨-, -, r, hr⟩
    exact ⟨r, sipHash_whole k0 k1 w ▸ hr _ (by simp [WordsAligned]) (flatMap_singleton ..)⟩
  · rintro ⟨r, hr⟩
    refine ⟨?_, ?_, r, fun pieces ha hw => by rw [sipHash_eq k0 k1 ha, hw, hr]⟩
    · have hlast : 4#64 <<< 59 = 0#64 ||| 32#64 <<< 56 := by decide
      rw [sipHash_whole, foldl_writeUint256, finalize, if_pos (by norm_num), sipHashUint256, hlast]
      rfl
    · have hbytes : (serWritedata 4 extra.toNat).length = 4 := length_leBytes 4 _
      rw [sipHash_whole, foldl_append, foldl_writeUint256, foldl_writeByte_lt (fun _ => rfl) (by simp) (by omega),
        sipWord_extra, hbytes, finalize, if_pos (by norm_num), sipHashUint256Extra, BitVec.or_comm]

/-- The count of 2^31 bytes is no `int`. -/
theorem sipHash_overflow : sipHash 0 0 [⟨replicate (2 ^ 31) 0, false⟩] = none := by
  rw [sipHash_whole, ← Option.not_isSome_iff_eq_none, finalize_foldl, length_replicate]
  exact lt_irrefl _

end Soferox
