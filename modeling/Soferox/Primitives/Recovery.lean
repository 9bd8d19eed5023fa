import Soferox.Primitives.RoundTrip

/-!
# Transactions of any size

The readers refuse sizes over `MAX_SIZE`, the writers do not. A transaction that has the values of its types is read back,
or not at all.

* `CMutableTransaction.Typed` — the ranges of the types, a size having 64 bits;
* `recovers_transaction` — what is read from what was written is the transaction that was written.
-/

namespace Soferox

open Lib CTxIn List

lemma recovers_compactSize {n : ℕ} (h : n < 2 ^ 64) : Recovers readCompactSize (writeCompactSize n) n := by
  -- a test of the size may fail, but changes nothing
  have hform : ∀ chSize w, chSize < 256 → Recovers (readSizeForm chSize) w n →
      Recovers readCompactSize (serWritedata 1 chSize ++ w) n := by
    intro chSize w hch hsize
    refine ((codes_data 1).reads hch).recovers.bind ?_
    rw [← append_nil w]
    exact hsize.bind (Recovers.ensure (Reads.pure n).recovers)
  rw [writeCompactSize]
  split_ifs with h1 h2 h3
  · have hshort := hform n [] (by omega) (by rw [readSizeForm, if_pos h1]; exact (Reads.pure n).recovers)
    rwa [append_nil] at hshort
  · exact hform 253 _ (by decide) ((codes_longSize 2 253).reads ⟨by omega, by omega⟩).recovers
  · exact hform 254 _ (by decide) ((codes_longSize 4 0x10000).reads ⟨by omega, by omega⟩).recovers
  · exact hform 255 _ (by decide) ((codes_longSize 8 0x100000000).reads ⟨by omega, by omega⟩).recovers

lemma recovers_byteVector {v : List UInt8} (h : v.length < 2 ^ 64) : Recovers readByteVector (writeByteVector v) v :=
  (recovers_compactSize h).bind ((codes_readBytes v.length).reads rfl).recovers

lemma recovers_vector {α β : Type} {unserialize : Stream α} {serialize : β → List UInt8} {f : β → α} {v : List β}
    (hsize : v.length < 2 ^ 64) (h : ∀ b ∈ v, Recovers unserialize (serialize b) (f b)) :
    Recovers (readVector unserialize) (writeVector serialize v) (v.map f) :=
  (recovers_compactSize hsize).bind (recovers_readN h)

/-- The fields of an input have the values of their types. -/
structure CTxIn.Typed (txin : CTxIn) : Prop where
  n : txin.prevout.n < 2 ^ 32
  scriptSig : txin.scriptSig.length < 2 ^ 64
  nSequence : txin.nSequence < 2 ^ 32
  stack : txin.scriptWitness.length < 2 ^ 64
  elements : ∀ v ∈ txin.scriptWitness, v.length < 2 ^ 64

/-- The fields of an output have the values of their types. -/
structure CTxOut.Typed (txout : CTxOut) : Prop where
  nValue : IntRange 8 txout.nValue
  scriptPubKey : txout.scriptPubKey.length < 2 ^ 64

/-- The fields of a transaction have the values of their types. -/
structure CMutableTransaction.Typed (tx : CMutableTransaction) : Prop where
  nVersion : IntRange 4 tx.nVersion
  nLockTime : tx.nLockTime < 2 ^ 32
  vin : tx.vin.length < 2 ^ 64
  ins : ∀ txin ∈ tx.vin, txin.Typed
  vout : tx.vout.length < 2 ^ 64
  outs : ∀ txout ∈ tx.vout, txout.Typed

lemma recovers_txIn {txin : CTxIn} (h : txin.Typed) : Recovers readTxIn (writeTxIn txin) txin.stripped := by
  rw [writeTxIn, append_assoc]
  refine (codes_outPoint.reads h.n).recovers.bind ((recovers_byteVector h.scriptSig).bind ?_)
  rw [← map_eq_pure_bind]
  exact ((codes_data 4).reads h.nSequence).recovers.map _

lemma recovers_txOut {txout : CTxOut} (h : txout.Typed) : Recovers readTxOut (writeTxOut txout) txout := by
  refine ((codes_int 8).reads h.nValue).recovers.bind ?_
  exact (recovers_byteVector h.scriptPubKey).map _

lemma recovers_witnesses {vin : List CTxIn} (h : ∀ txin ∈ vin, txin.Typed) :
    Recovers (readWitnesses (vin.map stripped)) (vin.flatMap writeWitness) vin := by
  induction vin with
  | nil => exact (Reads.pure []).recovers
  | cons txin vin ih =>
    obtain ⟨htxin, hvin⟩ := forall_mem_cons.1 h
    have hstack := recovers_vector (f := id)
      (by rw [length_reverse]; exact htxin.stack)
      fun v hv => recovers_byteVector (htxin.elements v (mem_reverse.1 hv))
    rw [map_id] at hstack
    refine hstack.bind ?_
    have hback : { txin.stripped with scriptWitness := txin.scriptWitness.reverse.reverse } :: vin = txin :: vin := by
      rw [reverse_reverse]
      rfl
    rw [← hback]
    exact (ih hvin).map _

section Transaction

variable {tx : CMutableTransaction}

section

variable (h : tx.Typed)
include h

lemma recovers_ins : Recovers (readVector readTxIn) (writeVector writeTxIn tx.vin) (tx.vin.map stripped) :=
  recovers_vector h.vin fun txin hmem => recovers_txIn (h.ins txin hmem)

lemma recovers_outs : Recovers (readVector readTxOut) (writeVector writeTxOut tx.vout) tx.vout := by
  have houts := recovers_vector (f := id) h.vout fun txout hmem => recovers_txOut (h.outs txout hmem)
  rwa [map_id] at houts

lemma recovers_insOuts_basic (hvin : tx.vin ≠ []) :
    Recovers (readInsOuts true) (writeVector writeTxIn tx.vin ++ writeVector writeTxOut tx.vout)
      (0, tx.vin.map stripped, tx.vout) := by
  refine (recovers_ins h).bind ?_
  rw [if_neg (by simpa using hvin), ← map_eq_pure_bind]
  exact (recovers_outs h).map _

lemma recovers_insOuts_extended : Recovers (readInsOuts true) (writeVector writeTxIn [] ++ (serWritedata 1 1 ++
    (writeVector writeTxIn tx.vin ++ writeVector writeTxOut tx.vout))) (1, tx.vin.map stripped, tx.vout) := by
  have hdummy : Reads (readVector readTxIn) (writeVector writeTxIn []) [] :=
    (codes_vector codes_txIn).reads ⟨Nat.zero_le _, by simp⟩
  have hflags : Reads readFlags (serWritedata 1 1) 1 := codes_flags.reads (a := 1) trivial
  have hempty : (([] : List CTxIn).isEmpty && true) = true := rfl
  refine hdummy.recovers.bind ?_
  rw [if_pos hempty]
  refine hflags.recovers.bind ?_
  rw [if_pos (by decide)]
  refine (recovers_ins h).bind ?_
  rw [← map_eq_pure_bind]
  exact (recovers_outs h).map _

lemma recovers_lockTime : Recovers (do
      ensure ((0 : UInt8) == 0) "Unknown transaction optional data"
      let nLockTime ← serReaddata 4
      return (⟨tx.vin, tx.vout, tx.nVersion, nLockTime⟩ : CMutableTransaction) : Stream CMutableTransaction)
    (serWritedata 4 tx.nLockTime) tx := by
  refine Recovers.ensure ?_
  exact ((codes_data 4).reads h.nLockTime).recovers.map fun nLockTime => (⟨tx.vin, tx.vout, tx.nVersion, nLockTime⟩ : CMutableTransaction)

/-- **What is read from what was written is what was written.** -/
theorem recovers_transaction (hvin : tx.vin ≠ []) :
    Recovers (unserializeTransaction true) (serializeTransaction true tx) tx := by
  rw [serializeTransaction_eq]
  cases hwitness : tx.hasWitness with
  | false =>
    have hstripped : tx.vin.map stripped = tx.vin := by
      refine (map_congr_left fun txin hmem => ?_).trans (map_id _)
      rw [stripped, ← hasWitness_eq_false.1 hwitness txin hmem]
      rfl
    refine ((codes_int 4).reads h.nVersion).recovers.bind ((recovers_insOuts_basic h hvin).bind ?_)
    simp only [hstripped]
    exact recovers_lockTime h
  | true =>
    rw [extendedFormat]
    simp only [append_assoc]
    rw [← append_assoc (writeVector writeTxIn tx.vin)]
    refine ((codes_int 4).reads h.nVersion).recovers.bind ((recovers_insOuts_extended h).bind ?_)
    have hflagged : Recovers (readFlagged true 1 (tx.vin.map stripped)) (tx.vin.flatMap writeWitness) (0, tx.vin) := by
      exact (recovers_witnesses h.ins).map _
    exact hflagged.bind (recovers_lockTime h)

end

end Transaction

end Soferox
