import Soferox.Primitives.Serialize

/-!
# Round trips of transactions

What `SerializeTransaction` writes is read back by `UnserializeTransaction`, and by nothing shorter; what
`UnserializeTransaction` reads is written again by `SerializeTransaction`, unless it was the extended format with nothing
in it that needs the extended format.

* `length_serializeTransaction` — the sizes of `primitives/transaction.h` are the lengths of the encodings;
* `unserialize_serialize` — from a transaction to bytes and back;
* `serialize_unserialize_iff` — from bytes to a transaction and back.
-/

namespace Soferox

open Lib List

/-! ## Lengths -/

lemma length_serWritedata (k n : ℕ) : (serWritedata k n).length = k := length_leBytes k n

lemma length_writeCompactSize (n : ℕ) : (writeCompactSize n).length = compactSizeSize n := by
  rw [writeCompactSize, compactSizeSize]
  split_ifs <;> simp [length_serWritedata]

lemma length_writeVector {α : Type} (serialize : α → List UInt8) (v : List α) :
    (writeVector serialize v).length = compactSizeSize v.length + (v.map fun a => (serialize a).length).sum := by
  rw [writeVector, length_append, length_writeCompactSize, length_flatMap]

lemma length_extendedFormat (tx : CMutableTransaction) :
    (extendedFormat tx).length = (basicFormat tx).length + 2 + (tx.vin.flatMap writeWitness).length := by
  have hdummy : (writeVector writeTxIn []).length = 1 := rfl
  simp only [extendedFormat, basicFormat, length_append, length_serWritedata]
  omega

/-! ## From a transaction to bytes and back -/

/-- What a reader sees of a transaction: no witnesses if they are not allowed. -/
def CMutableTransaction.seenThrough (fAllowWitness : Bool) (tx : CMutableTransaction) : CMutableTransaction :=
  if fAllowWitness then tx else { tx with vin := tx.vin.map CTxIn.stripped }

variable {tx : CMutableTransaction}

lemma CMutableTransaction.Fits.stripped (h : tx.Fits) :
    CMutableTransaction.Fits { tx with vin := tx.vin.map CTxIn.stripped } where
  __ := h
  vin := (length_map _).trans_le h.vin
  ins := by
    intro txin hmem
    obtain ⟨txin', hmem', rfl⟩ := mem_map.1 hmem
    exact ⟨CTxIn.fits_stripped.2 (h.ins txin' hmem').1, CTxIn.witnessFits_of_nil rfl⟩

lemma isFormat_serializeTransaction {fAllowWitness : Bool} (hvin : tx.vin ≠ []) :
    IsFormat fAllowWitness (tx.seenThrough fAllowWitness) (serializeTransaction fAllowWitness tx) := by
  rw [serializeTransaction_eq]
  cases fAllowWitness with
  | true =>
    cases hwit : tx.hasWitness with
    | true => exact .inr ⟨rfl, rfl⟩
    | false => exact .inl ⟨rfl, hwit, fun _ hnil => absurd hnil hvin⟩
  | false =>
    refine .inl ⟨?_, ?_, by rintro ⟨⟩⟩
    · rw [basicFormat, ← writeVector_stripped (map_stripped_stripped tx.vin)]
      rfl
    · refine hasWitness_eq_false.2 fun txin hmem => ?_
      obtain ⟨txin', -, rfl⟩ := mem_map.1 hmem
      rfl

lemma extends_unserializeTransaction (fAllowWitness : Bool) : Extends (unserializeTransaction fAllowWitness) := by
  intro b tx t u h
  obtain ⟨hfits, w, hformat, rfl⟩ := unserializeTransaction_eq_ok.1 h
  rw [append_assoc]
  exact unserializeTransaction_eq_ok.2 ⟨hfits, w, hformat, rfl⟩

/-- **From a transaction to bytes and back**: a transaction with inputs is read from what is written, and from no part
of it. -/
theorem unserialize_serialize (fAllowWitness : Bool) (tx : CMutableTransaction) (hfits : tx.Fits) (hvin : tx.vin ≠ []) :
    (∀ t, unserializeTransaction fAllowWitness (serializeTransaction fAllowWitness tx ++ t) =
      .ok (tx.seenThrough fAllowWitness, t)) ∧
    (∀ p, p <+: serializeTransaction fAllowWitness tx → p ≠ serializeTransaction fAllowWitness tx →
      ∀ r, unserializeTransaction fAllowWitness p ≠ .ok r) := by
  have hread : ∀ t, unserializeTransaction fAllowWitness (serializeTransaction fAllowWitness tx ++ t) =
      .ok (tx.seenThrough fAllowWitness, t) := by
    intro t
    refine unserializeTransaction_eq_ok.2 ⟨?_, _, isFormat_serializeTransaction hvin, rfl⟩
    rw [CMutableTransaction.seenThrough]
    split
    · exact hfits
    · exact hfits.stripped
  have hall := hread []
  rw [append_nil] at hall
  exact ⟨hread, fun p hpre hne => not_ok_of_prefix (extends_unserializeTransaction fAllowWitness) hall hpre hne⟩

/-- An input that spends the first output of a transaction, with a witness. -/
def spending (scriptWitness : List Valtype) : CTxIn := ⟨⟨1, 0⟩, [], 0xffffffff, scriptWitness⟩
def oneInOneOut (scriptWitness : List Valtype) : CMutableTransaction := ⟨[spending scriptWitness], [⟨5, []⟩], 1, 0⟩

theorem unserialize_serialize_oneInOneOut :
    unserializeTransaction true (serializeTransaction true (oneInOneOut [[7]]) ++ [9]) = .ok (oneInOneOut [[7]], [9]) ∧
    unserializeTransaction false (serializeTransaction false (oneInOneOut [[7]]) ++ [9]) = .ok (oneInOneOut [], [9]) := by
  have hfits : (oneInOneOut [[7]]).Fits := by
    refine ⟨by decide, by decide, by decide, forall_mem_singleton.2 ?_, by decide, forall_mem_singleton.2 ?_⟩
    · exact ⟨⟨by decide, by decide, by decide⟩, by decide, by decide⟩
    · exact ⟨by decide, by decide⟩
  exact ⟨(unserialize_serialize true _ hfits (by decide)).1 [9], (unserialize_serialize false _ hfits (by decide)).1 [9]⟩

/-! ## From bytes to a transaction and back -/

/-- The bytes begin with the extended format of a transaction that has no witness. -/
def SuperfluousWitness (b : List UInt8) : Prop :=
  ∃ tx : CMutableTransaction, tx.Fits ∧ tx.hasWitness = false ∧ extendedFormat tx <+: b

/-- **From bytes to a transaction and back**: what was read is written as it was, unless it was the extended format
without a witness. -/
theorem serialize_unserialize_iff {b t : List UInt8} {tx : CMutableTransaction}
    (h : unserializeTransaction true b = .ok (tx, t)) :
    serializeTransaction true tx ++ t = b ↔ ¬SuperfluousWitness b := by
  obtain ⟨hfits, w, hformat, hb⟩ := unserializeTransaction_eq_ok.1 h
  rw [serializeTransaction_eq, Bool.true_and]
  constructor
  · rintro hback ⟨tx', hfits', hno, t', ht'⟩
    -- the transaction is the one of the extended format, and its basic format is shorter
    have hread : unserializeTransaction true b = .ok (tx', t') :=
      unserializeTransaction_eq_ok.2 ⟨hfits', _, .inr ⟨rfl, rfl⟩, ht'.symm⟩
    rw [h] at hread
    obtain ⟨rfl, rfl⟩ := hread
    rw [hno, if_neg Bool.false_ne_true, ← ht'] at hback
    have hlen := congrArg List.length (append_cancel_right hback)
    rw [length_extendedFormat] at hlen
    omega
  · intro hneeded
    rcases hformat with ⟨rfl, hno, -⟩ | ⟨rfl, -⟩
    · rw [hno, if_neg Bool.false_ne_true, hb]
    · cases hwit : tx.hasWitness with
      | true => exact hb.symm
      | false => exact absurd ⟨tx, hfits, hwit, t, hb.symm⟩ hneeded

theorem serialize_unserialize_oneInOneOut :
    unserializeTransaction true (serializeTransaction true (oneInOneOut [[7]])) = .ok (oneInOneOut [[7]], []) ∧
    ¬SuperfluousWitness (serializeTransaction true (oneInOneOut [[7]])) := by
  have hread : unserializeTransaction true (serializeTransaction true (oneInOneOut [[7]])) =
      .ok (oneInOneOut [[7]], []) := by decide +kernel
  exact ⟨hread, (serialize_unserialize_iff hread).1 (append_nil _)⟩

/-- The prevout of the input below: the hash and the index. -/
def exampleHash : List UInt8 := 1 :: List.replicate 31 0

/-- An input and an output in the extended format, with an empty witness stack: it is written again in the basic
format. -/
theorem serialize_unserialize_differs :
    let extended : List UInt8 := [1, 0, 0, 0] ++ [0, 1] ++ ([1] ++ exampleHash ++ [0, 0, 0, 0] ++ [0] ++ [255, 255, 255, 255]) ++
      ([1] ++ [5, 0, 0, 0, 0, 0, 0, 0] ++ [0]) ++ [0] ++ [0, 0, 0, 0]
    let basic : List UInt8 := [1, 0, 0, 0] ++ ([1] ++ exampleHash ++ [0, 0, 0, 0] ++ [0] ++ [255, 255, 255, 255]) ++
      ([1] ++ [5, 0, 0, 0, 0, 0, 0, 0] ++ [0]) ++ [0, 0, 0, 0]
    unserializeTransaction true extended = .ok (oneInOneOut [], []) ∧
    unserializeTransaction true basic = .ok (oneInOneOut [], []) ∧
    serializeTransaction true (oneInOneOut []) = basic ∧ basic ≠ extended := by
  decide +kernel

end Soferox
