import Soferox.Primitives.RoundTrip

/-!
# Requests for the transactions of a block

The message `getblocktxn` (`blockencodings.h`), which has the differences of the indexes.
-/

namespace Soferox

open Lib List

structure BlockTransactionsRequest where
  blockhash : Uint256
  indexes : List ℕ

def readIndex : Stream ℕ := do
  let index ← readCompactSize
  ensure (decide (index ≤ 0xffff)) "index overflowed 16 bits"
  return index

/-- Adds up the differences. The type of `offset` is `uint16_t`. -/
def addOffset (offset : ℕ) : List ℕ → Stream (List ℕ)
  | [] => pure []
  | index :: indexes => do
    ensure (decide (index + offset ≤ 0xffff)) "indexes overflowed 16 bits"
    let rest ← addOffset ((index + offset + 1) % 2 ^ 16) indexes
    return (index + offset) :: rest

def readGetBlockTxn : Stream BlockTransactionsRequest := do
  let blockhash ← readUint256
  let indexes ← readVector readIndex
  let indexes ← addOffset 0 indexes
  return ⟨blockhash, indexes⟩

/-- What is written for the indexes, as `uint64_t`; `next` is one more than the index before. -/
def differences (next : ℕ) : List ℕ → List ℕ
  | [] => []
  | index :: indexes => ((index - next : ℤ) % 2 ^ 64).toNat :: differences (index + 1) indexes

def writeGetBlockTxn (req : BlockTransactionsRequest) : List UInt8 :=
  writeUint256 req.blockhash ++ writeVector writeCompactSize (differences 0 req.indexes)

/-- Increasing from `next` on, in 16 bits. -/
def IncreasingFrom (next : ℕ) (indexes : List ℕ) : Prop :=
  indexes.Pairwise (· < ·) ∧ ∀ i ∈ indexes, next ≤ i ∧ i ≤ 0xffff

variable {next index : ℕ} {indexes ds : List ℕ} {b t : List UInt8} {req : BlockTransactionsRequest}

lemma increasingFrom_cons : IncreasingFrom next (index :: indexes) ↔
    next ≤ index ∧ index ≤ 0xffff ∧ IncreasingFrom (index + 1) indexes := by
  simp only [IncreasingFrom, pairwise_cons, forall_mem_cons]
  grind

lemma IncreasingFrom.differences (h : IncreasingFrom next indexes) (hnext : next ≤ 2 ^ 16) :
    next + (differences next indexes).length ≤ 2 ^ 16 ∧ ∀ d ∈ differences next indexes, d ≤ 0xffff ∧ d ≤ MAX_SIZE := by
  induction indexes generalizing next with
  | nil => exact ⟨hnext, by simp [Soferox.differences]⟩
  | cons index indexes ih =>
    obtain ⟨hle, hmax, hrest⟩ := increasingFrom_cons.1 h
    obtain ⟨hlen, hall⟩ := ih hrest (by omega)
    rw [Soferox.differences, length_cons, forall_mem_cons]
    exact ⟨by omega, ⟨by omega, by rw [MAX_SIZE]; omega⟩, hall⟩

lemma codes_index : Codes readIndex writeCompactSize (fun index => index ≤ 0xffff ∧ index ≤ MAX_SIZE) :=
  codes_compactSize.guard _

lemma addOffset_cons {d : ℕ} : addOffset next (d :: ds) b = .ok (indexes, t) ↔ d + next ≤ 0xffff ∧
    ∃ rest, addOffset ((d + next + 1) % 2 ^ 16) ds b = .ok (rest, t) ∧ indexes = (d + next) :: rest := by
  simp only [addOffset, run_bind_eq_ok, run_ensure_eq_ok, run_pure_eq_ok]
  grind

lemma addOffset_le (h : addOffset next ds b = .ok (indexes, t)) : b = t ∧ ∀ i ∈ indexes, i ≤ 0xffff := by
  induction ds generalizing next indexes with
  | nil =>
    obtain ⟨rfl, rfl⟩ := run_pure_eq_ok.1 h
    simp
  | cons d ds ih =>
    obtain ⟨hle, rest, hrest, rfl⟩ := addOffset_cons.1 h
    exact ⟨(ih hrest).1, forall_mem_cons.2 ⟨hle, (ih hrest).2⟩⟩

/-- The offset starts again from 0 after the index 65535. -/
theorem addOffset_iff : addOffset next ds b = .ok (indexes, t) ∧ 0xffff ∉ indexes.dropLast ↔
    b = t ∧ ds = differences next indexes ∧ IncreasingFrom next indexes := by
  induction ds generalizing next indexes with
  | nil =>
    rw [addOffset, run_pure_eq_ok]
    cases indexes <;> simp [differences, IncreasingFrom]
  | cons d ds ih =>
    rw [addOffset_cons]
    constructor
    · rintro ⟨⟨hle, rest, hrest, rfl⟩, hlast⟩
      have hd : d = (((d + next : ℕ) - next : ℤ) % 2 ^ 64).toNat := by omega
      cases rest with
      | nil =>
        obtain ⟨rfl, rfl, -⟩ := ih.1 ⟨hrest, not_mem_nil⟩
        exact ⟨rfl, congrArg (· :: []) hd, by simp [IncreasingFrom, hle]⟩
      | cons index rest =>
        rw [dropLast_cons_cons, mem_cons, not_or] at hlast
        rw [Nat.mod_eq_of_lt (by omega)] at hrest
        obtain ⟨rfl, rfl, hinc⟩ := ih.1 ⟨hrest, hlast.2⟩
        exact ⟨rfl, congrArg (· :: _) hd, increasingFrom_cons.2 ⟨by omega, hle, hinc⟩⟩
    · rintro ⟨rfl, hds, hinc⟩
      cases indexes with
      | nil => cases hds
      | cons index rest =>
        obtain ⟨hnext, hmax, hinc⟩ := increasingFrom_cons.1 hinc
        obtain ⟨rfl, rfl⟩ := cons.inj hds
        have hindex : ((index - next : ℤ) % 2 ^ 64).toNat + next = index := by omega
        rw [hindex]
        cases rest with
        | nil => exact ⟨⟨hmax, [], rfl, rfl⟩, not_mem_nil⟩
        | cons index' rest =>
          have hlt := hinc.2 index' mem_cons_self
          obtain ⟨hrest, hlast⟩ := ih.2 ⟨rfl, rfl, hinc⟩
          rw [Nat.mod_eq_of_lt (by omega), dropLast_cons_cons, mem_cons, not_or]
          exact ⟨⟨hmax, _, hrest, rfl⟩, by omega, hlast⟩

/-- The index 65535 comes before the last one where the differences, with one for each index, add up to 65536. -/
lemma addOffset_last_iff (hnext : next < 2 ^ 16) (h : addOffset next ds b = .ok (indexes, t)) :
    0xffff ∉ indexes.dropLast ↔ ∀ k < ds.length, next + ((ds.take k).map (· + 1)).sum ≠ 2 ^ 16 := by
  induction ds generalizing next indexes with
  | nil =>
    obtain ⟨rfl, -⟩ := run_pure_eq_ok.1 h
    simp
  | cons d ds ih =>
    obtain ⟨hle, rest, hrest, rfl⟩ := addOffset_cons.1 h
    rw [length_cons, Nat.forall_lt_succ_left]
    simp only [take_zero, map_nil, sum_nil, take_succ_cons, map_cons, sum_cons]
    cases ds with
    | nil =>
      obtain ⟨rfl, -⟩ := run_pure_eq_ok.1 hrest
      exact ⟨fun _ => ⟨by omega, fun k hk => absurd hk k.not_lt_zero⟩, fun _ => not_mem_nil⟩
    | cons d' ds =>
      have hcons : rest ≠ [] := by
        rintro rfl
        obtain ⟨-, _, -, hnil⟩ := addOffset_cons.1 hrest
        cases hnil
      rw [dropLast_cons_of_ne_nil hcons, mem_cons, not_or]
      by_cases hlast : d + next = 0xffff
      · refine ⟨fun hne => absurd hlast.symm hne.1, fun hne => absurd ?_ (hne.2 0 (by simp))⟩
        simp only [take_zero, map_nil, sum_nil]
        omega
      · rw [Nat.mod_eq_of_lt (by omega)] at hrest
        rw [ih (by omega) hrest]
        simp only [← Nat.add_assoc, Nat.add_comm next d]
        exact ⟨fun hne => ⟨by omega, hne.2⟩, fun hne => ⟨fun heq => hlast heq.symm, hne.2⟩⟩

lemma readGetBlockTxn_iff : readGetBlockTxn b = .ok (req, t) ∧ 0xffff ∉ req.indexes.dropLast ↔
    IncreasingFrom 0 req.indexes ∧ b = writeGetBlockTxn req ++ t := by
  simp only [readGetBlockTxn, run_bind_eq_ok, run_pure_eq_ok]
  constructor
  · rintro ⟨⟨blockhash, b₁, hhash, ds, b₂, hds, indexes, b₃, hadd, rfl, rfl⟩, hlast⟩
    obtain ⟨-, rfl⟩ := codes_uint256.of_get hhash
    obtain ⟨-, rfl⟩ := (codes_vector codes_index).of_get hds
    obtain ⟨rfl, rfl, hinc⟩ := addOffset_iff.1 ⟨hadd, hlast⟩
    exact ⟨hinc, by rw [writeGetBlockTxn, append_assoc]⟩
  · rintro ⟨hinc, rfl⟩
    obtain ⟨hlen, hall⟩ := hinc.differences (Nat.zero_le _)
    obtain ⟨hadd, hlast⟩ := addOffset_iff.2 ⟨rfl, rfl, hinc⟩
    rw [writeGetBlockTxn, append_assoc]
    exact ⟨⟨_, _, codes_uint256.get_put trivial _, _, t, (codes_vector codes_index).get_put
      ⟨by rw [MAX_SIZE]; omega, hall⟩ t, _, t, hadd, rfl, rfl⟩, hlast⟩

lemma readGetBlockTxn_of_sorted (hsorted : req.indexes.Pairwise (· < ·)) (hmax : ∀ i ∈ req.indexes, i ≤ 0xffff) :
    readGetBlockTxn (writeGetBlockTxn req ++ t) = .ok (req, t) ∧ 0xffff ∉ req.indexes.dropLast :=
  readGetBlockTxn_iff.2 ⟨⟨hsorted, fun i hi => ⟨i.zero_le, hmax i hi⟩⟩, rfl⟩

/-- What is read is increasing and in its only encoding unless a difference follows those that reach 65535; what is
increasing is read back. -/
theorem getBlockTxn_wellFormed (req : BlockTransactionsRequest) (t : List UInt8) :
    (∀ b, readGetBlockTxn b = .ok (req, t) →
      ∃ ds, b = writeUint256 req.blockhash ++ writeVector writeCompactSize ds ++ t ∧
        (req.indexes.Pairwise (· < ·) ∧ b = writeGetBlockTxn req ++ t ↔
          ∀ k < ds.length, ((ds.take k).map (· + 1)).sum ≠ 2 ^ 16)) ∧
    (req.indexes.Pairwise (· < ·) → (∀ i ∈ req.indexes, i < 2 ^ 16) →
      readGetBlockTxn (writeGetBlockTxn req ++ t) = .ok (req, t)) := by
  refine ⟨fun b hread => ?_, fun hsorted hmax =>
    (readGetBlockTxn_of_sorted hsorted fun i hi => Nat.le_of_lt_succ (hmax i hi)).1⟩
  have hparts := hread
  simp only [readGetBlockTxn, run_bind_eq_ok, run_pure_eq_ok] at hparts
  obtain ⟨blockhash, b₁, hhash, ds, b₂, hds, indexes, b₃, hadd, rfl, rfl⟩ := hparts
  obtain ⟨-, rfl⟩ := codes_uint256.of_get hhash
  obtain ⟨-, rfl⟩ := (codes_vector codes_index).of_get hds
  obtain ⟨rfl, hle⟩ := addOffset_le hadd
  have hlast := addOffset_last_iff (by norm_num) hadd
  simp only [Nat.zero_add] at hlast
  refine ⟨ds, (append_assoc ..).symm, ?_⟩
  rw [← hlast]
  constructor
  · rintro ⟨hsorted, -⟩
    have hback : readGetBlockTxn (writeGetBlockTxn ⟨blockhash, indexes⟩ ++ b₂) = .ok (⟨blockhash, indexes⟩, b₂) ∧
        0xffff ∉ indexes.dropLast := readGetBlockTxn_of_sorted hsorted hle
    exact hback.2
  · intro hlast
    obtain ⟨hinc, hb⟩ := readGetBlockTxn_iff.1 ⟨hread, hlast⟩
    exact ⟨hinc.1, hb⟩

/-- The differences 65535 and 0. -/
theorem readGetBlockTxn_after_65535 :
    readGetBlockTxn (writeUint256 0 ++ [2, 253, 255, 255, 0]) = .ok (⟨0, [65535, 0]⟩, []) := rfl

end Soferox
