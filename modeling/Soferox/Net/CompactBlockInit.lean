import Soferox.Net.CompactBlockSlots

/-!
# `InitData` on any message

* `ScanEnds`, `scanPool_ends`, `scanExtra_ends` — rules for the two scans;
* `InitSafe` — `InitData` ends, stays in range and maps the short ids right;
* `initData_safe_iff` — the messages for which it does;
* `initData_endless_message` — a message within the limit of the network for which it does not end.
-/

namespace Soferox

open Lib CBlockHeaderAndShortTxIDs CompactEnv List

/-! ## The scans -/

/-- A scan comes to an end in a state with `I`, or with an error with `Q`. -/
def ScanEnds (I : Scan → Prop) (Q : CompactError → Prop) (x : Except CompactError Scan) : Prop :=
  (∃ scan, x = .ok scan ∧ I scan) ∨ ∃ e, x = .error e ∧ Q e

variable {E : CompactEnv} {cmpctblock : CBlockHeaderAndShortTxIDs} {slots : AList fun _ : ℕ => ℕ} {I : Scan → Prop}
  {Q : CompactError → Prop}

/-- The rule for a loop that matches the elements of a list one after the other, and may stop early. -/
theorem scan_ends {α : Type} {visit : Scan → ℕ → α → Except CompactError Scan}
    {loop : List (Uint256 × α) → Scan → Except CompactError Scan} (hnil : ∀ scan, loop [] scan = .ok scan)
    (hcons : ∀ p rest scan, loop (p :: rest) scan = (do
      let scan ← matchSlot (slots.lookup (E.getShortID cmpctblock.header cmpctblock.nonce p.1)) (fun slot => visit scan slot p.2) scan
      if scan.mempool_count = slots.entries.length then return scan else loop rest scan))
    {l : List (Uint256 × α)} (hmatch : ∀ scan slot, ∀ p ∈ l,
      slots.lookup (E.getShortID cmpctblock.header cmpctblock.nonce p.1) = some slot → I scan → ScanEnds I Q (visit scan slot p.2))
    {scan : Scan} (hI : I scan) : ScanEnds I Q (loop l scan) := by
  induction l generalizing scan with
  | nil => exact .inl ⟨scan, hnil scan, hI⟩
  | cons p rest ih =>
    have hstep : ScanEnds I Q (matchSlot (slots.lookup (E.getShortID cmpctblock.header cmpctblock.nonce p.1))
        (fun slot => visit scan slot p.2) scan) := by
      cases hlookup : slots.lookup (E.getShortID cmpctblock.header cmpctblock.nonce p.1) with
      | none => exact .inl ⟨scan, rfl, hI⟩
      | some slot => exact hmatch scan slot p mem_cons_self hlookup hI
    rw [hcons]
    rcases hstep with ⟨scan', hok, hI'⟩ | ⟨e, herror, hQ⟩
    · rw [hok]
      simp only [ok_bind]
      split_ifs
      · exact .inl ⟨scan', rfl, hI'⟩
      · exact ih (fun scan slot p hp => hmatch scan slot p (mem_cons_of_mem _ hp)) hI'
    · rw [herror]
      exact .inr ⟨e, rfl, hQ⟩

/-- Both vectors have one element for each transaction. -/
structure Scan.Sized (n : ℕ) (scan : Scan) : Prop where
  txn_available : scan.txn_available.length = n
  have_txn : scan.have_txn.length = n

section Sized

variable {n slot : ℕ} {scan : Scan}

section

variable (h : scan.Sized n)
include h

section

variable (hslot : slot < n)
include hslot

lemma Scan.Sized.haveTxn : ∃ b, scan.haveTxn slot = .ok b := by
  rw [← h.have_txn] at hslot
  exact ⟨scan.have_txn[slot], by rw [Scan.haveTxn, getElem?_eq_getElem hslot]⟩

variable (tx : Option CMutableTransaction)

lemma Scan.Sized.put : ∃ scan', scan.put slot tx = .ok scan' ∧ scan'.Sized n := by
  rw [Scan.put, if_pos (h.txn_available ▸ hslot)]
  exact ⟨_, rfl, by rw [length_set, h.txn_available], by rw [length_set, h.have_txn]⟩

lemma Scan.Sized.resetIf (differs : CMutableTransaction → Except CompactError Bool) :
    (∃ b scan', scan.resetIf slot differs = .ok (b, scan') ∧ scan'.Sized n) ∨
      ∃ tx e, scan.resetIf slot differs = .error e ∧ differs tx = .error e := by
  rw [← h.txn_available] at hslot
  obtain ⟨tx, htx⟩ : ∃ tx, scan.txn_available[slot]? = some tx := ⟨_, getElem?_eq_getElem hslot⟩
  rw [Scan.resetIf, htx]
  cases tx with
  | none => exact .inl ⟨false, scan, rfl, h⟩
  | some tx =>
    simp only
    cases hdiffers : differs tx with
    | error e => exact .inr ⟨tx, e, rfl, hdiffers⟩
    | ok b =>
      cases b with
      | false => exact .inl ⟨false, scan, rfl, h⟩
      | true => exact .inl ⟨true, _, rfl, by rw [length_set, h.txn_available], h.have_txn⟩

lemma matchPool_sized (tx : CMutableTransaction) :
    ScanEnds (Scan.Sized n) (· = .nullReference) (matchPool scan slot tx) := by
  obtain ⟨b, hb⟩ := h.haveTxn hslot
  rw [matchPool, hb]
  cases b with
  | false => exact .inl (h.put hslot tx)
  | true =>
    rcases h.resetIf hslot fun _ => .ok true with ⟨b, scan', hok, hsized⟩ | ⟨_, _, -, herror⟩
    · exact .inl ⟨scan', by rw [hok]; rfl, hsized⟩
    · cases herror

lemma matchExtra_sized : ScanEnds (Scan.Sized n) (· = .nullReference) (matchExtra E scan slot tx) := by
  obtain ⟨b, hb⟩ := h.haveTxn hslot
  rw [matchExtra, hb]
  cases b with
  | false =>
    obtain ⟨scan', hput, hsized⟩ := h.put hslot tx
    simp only
    rw [hput]
    exact .inl ⟨_, rfl, hsized.txn_available, hsized.have_txn⟩
  | true =>
    cases tx with
    | none =>
      simp only
      rcases h.resetIf hslot fun _ => .error .nullReference with
        ⟨b, scan', hok, hsized⟩ | ⟨available, e, herror, hdiffers⟩
      · rw [hok]
        cases b with
        | false => exact .inl ⟨_, rfl, hsized⟩
        | true => exact .inl ⟨_, rfl, hsized.txn_available, hsized.have_txn⟩
      · rw [herror]
        exact .inr ⟨_, rfl, (Except.error.inj hdiffers).symm⟩
    | some tx =>
      simp only
      rcases h.resetIf hslot fun available => .ok (E.getWitnessHash available != E.getWitnessHash tx) with
        ⟨b, scan', hok, hsized⟩ | ⟨available, e, -, hdiffers⟩
      · rw [hok]
        cases b with
        | false => exact .inl ⟨_, rfl, hsized⟩
        | true => exact .inl ⟨_, rfl, hsized.txn_available, hsized.have_txn⟩
      · cases hdiffers

end

end

end Sized

/-! ## The whole of `InitData` -/

/-- The positions that no prefilled transaction has, in increasing order. -/
def CBlockHeaderAndShortTxIDs.freePositions (cmpctblock : CBlockHeaderAndShortTxIDs) : List ℕ :=
  (List.range cmpctblock.blockTxCount).filter fun p => p ∉ prefilledPositions 0 cmpctblock.prefilledtxn

/-- Each short id is mapped to the position that has its number among the free ones. -/
def MapsShortIds (cmpctblock : CBlockHeaderAndShortTxIDs) (slots : AList fun _ : ℕ => ℕ) : Prop :=
  ∀ i id : ℕ, cmpctblock.shorttxids[i]? = some id → ∃ p, cmpctblock.freePositions[i]? = some p ∧ slots.lookup id = some p

/-- `InitData` ends, stays in range, and maps the short ids to the free positions. -/
structure InitSafe (E : CompactEnv) (cmpctblock : CBlockHeaderAndShortTxIDs) (vTxHashes : List (Uint256 × CMutableTransaction))
    (extra_txn : List (Uint256 × Option CMutableTransaction)) : Prop where
  ends : ∃ enough, ∀ rounds ≥ enough, initData E cmpctblock vTxHashes extra_txn rounds ≠ .error .outOfRounds
  inRange : ∀ rounds, initData E cmpctblock vTxHashes extra_txn rounds ≠ .error .outOfRange
  mapped : ∀ rounds txn_available slots, initSlots E cmpctblock rounds = .ok (.inr (txn_available, slots)) →
    MapsShortIds cmpctblock slots

section Init

variable {vTxHashes : List (Uint256 × CMutableTransaction)} {extra_txn : List (Uint256 × Option CMutableTransaction)}
  {placed : Slots} {rounds : ℕ}

lemma Placed.freeFrom_eq (h : Placed cmpctblock placed) : freeFrom placed 0 = cmpctblock.freePositions := by
  rw [freeFrom, freePositions, h.length, range_eq_range']
  refine filter_congr fun p _ => ?_
  rw [h.filled_eq, decide_not]

variable (vTxHashes extra_txn) in
/-- With slots in range, only an access through a null reference stops the scans. -/
theorem initData_of_initSlots (h : initSlots E cmpctblock rounds = .ok (.inr (placed, slots)))
    (hslots : ∀ id v, slots.lookup id = some v → v < placed.length) :
    (∃ block, initData E cmpctblock vTxHashes extra_txn rounds = .ok (.OK, some block)) ∨
      initData E cmpctblock vTxHashes extra_txn rounds = .error .nullReference := by
  have hsized : Scan.Sized placed.length ⟨placed, replicate placed.length false, 0, 0⟩ := ⟨rfl, length_replicate⟩
  rw [initData, h]
  simp only
  have hpool : ScanEnds (Scan.Sized placed.length) (· = .nullReference) (scanPool E cmpctblock slots vTxHashes _) :=
    scan_ends (fun _ => rfl) (fun _ _ _ => rfl) (fun _ slot p _ hlookup hI => matchPool_sized hI (hslots _ slot hlookup) p.2) hsized
  rcases hpool with ⟨scan, hscan, hI⟩ | ⟨e, he, rfl⟩
  · have hextra : ScanEnds (Scan.Sized placed.length) (· = .nullReference) (scanExtra E cmpctblock slots extra_txn scan) :=
      scan_ends (fun _ => rfl) (fun _ _ _ => rfl) (fun _ slot p _ hlookup hI => matchExtra_sized hI (hslots _ slot hlookup) p.2) hI
    rw [hscan]
    simp only [ok_bind]
    rcases hextra with ⟨scan', hscan', -⟩ | ⟨e, he, rfl⟩
    · rw [hscan']
      exact .inl ⟨_, rfl⟩
    · rw [he]
      exact .inr rfl
  · rw [he]
    exact .inr rfl

/-- What the first part of `InitData` has to do for the whole to be safe. -/
theorem initSafe_of_initSlots (h : ∀ rounds, (∃ status, initSlots E cmpctblock rounds = .ok (.inl status)) ∨
    (initSlots E cmpctblock rounds = .error .outOfRounds ∧ rounds ≤ 2 ^ 16) ∨
    ∃ placed slots, initSlots E cmpctblock rounds = .ok (.inr (placed, slots)) ∧
      (∀ id v, slots.lookup id = some v → v < placed.length) ∧ MapsShortIds cmpctblock slots) :
    InitSafe E cmpctblock vTxHashes extra_txn := by
  have hcases : ∀ rounds, (∃ status block, initData E cmpctblock vTxHashes extra_txn rounds = .ok (status, block)) ∨
      initData E cmpctblock vTxHashes extra_txn rounds = .error .nullReference ∨
      (initData E cmpctblock vTxHashes extra_txn rounds = .error .outOfRounds ∧ rounds ≤ 2 ^ 16) := by
    intro rounds
    rcases h rounds with ⟨status, hstatus⟩ | ⟨herror, hrounds⟩ | ⟨placed, slots, hok, hslots, -⟩
    · exact .inl ⟨status, none, by rw [initData, hstatus]⟩
    · exact .inr (.inr ⟨by rw [initData, herror], hrounds⟩)
    · rcases initData_of_initSlots vTxHashes extra_txn hok hslots with ⟨block, hblock⟩ | hnull
      · exact .inl ⟨.OK, some block, hblock⟩
      · exact .inr (.inl hnull)
  refine ⟨⟨2 ^ 16 + 1, fun rounds hrounds herror => ?_⟩, fun rounds herror => ?_, fun rounds txn_available slots hok => ?_⟩
  · rcases hcases rounds with ⟨status, block, hok⟩ | hnull | ⟨-, hle⟩
    · rw [hok] at herror
      cases herror
    · rw [hnull] at herror
      cases herror
    · omega
  · rcases hcases rounds with ⟨status, block, hok⟩ | hnull | ⟨hrounds, -⟩
    · rw [hok] at herror
      cases herror
    · rw [hnull] at herror
      cases herror
    · rw [hrounds] at herror
      cases herror
  · rcases h rounds with ⟨status, hstatus⟩ | ⟨herror, -⟩ | ⟨placed, slots', hok', -, hmaps⟩
    · rw [hstatus] at hok
      cases hok
    · rw [herror] at hok
      cases hok
    · rw [hok'] at hok
      cases hok
      exact hmaps

section

variable (h : cmpctblock.Passes)
include h

lemma getElem?_zip_free (hplaced : Placed cmpctblock placed) {i id : ℕ} (hid : cmpctblock.shorttxids[i]? = some id) :
    ∃ p, cmpctblock.freePositions[i]? = some p ∧ (id, p) ∈ cmpctblock.shorttxids.zip (freeFrom placed 0) := by
  have hi : i < cmpctblock.freePositions.length := by
    rw [← hplaced.freeFrom_eq, (h.counts hplaced).2]
    exact (List.getElem?_eq_some_iff.1 hid).1
  have hp := getElem?_eq_getElem hi
  refine ⟨_, hp, mem_of_getElem? (i := i) ?_⟩
  rw [hplaced.freeFrom_eq, getElem?_zip_eq_some]
  exact ⟨hid, hp⟩

omit h in
lemma Placed.lt_of_mem_zip (h : Placed cmpctblock placed) {p : ℕ × ℕ}
    (hp : p ∈ cmpctblock.shorttxids.zip (freeFrom placed 0)) : p.2 < cmpctblock.blockTxCount := by
  have hmem := (of_mem_zip hp).2
  rw [h.freeFrom_eq, freePositions, mem_filter, mem_range] at hmem
  exact hmem.1

lemma CBlockHeaderAndShortTxIDs.Passes.initSafe_of_few (hfew : cmpctblock.blockTxCount ≤ 2 ^ 16) :
    InitSafe E cmpctblock vTxHashes extra_txn := by
  obtain ⟨placed, hplaced, -, heq⟩ := h.initSlots_eq
  refine initSafe_of_initSlots fun rounds => ?_
  rw [heq]
  rcases Nat.lt_or_eq_of_le h.prefilled_le with hlt | hprefilled
  · rcases h.afterPlacing_spec hplaced hlt E rounds with ⟨hnodup, hok⟩ | ⟨hfailed, -⟩ | hrounds
    · refine .inr (.inr ⟨_, _, hok, fun id v => ?_, fun i id hid => ?_⟩)
      · refine lt_of_lookup_insertAll (fun p hp => ?_) (fun id v hempty => ?_)
        · rw [hplaced.length]
          exact hplaced.lt_of_mem_zip hp
        · cases hempty
      · obtain ⟨p, hp, hmem⟩ := getElem?_zip_free h hplaced hid
        refine ⟨p, hp, ?_⟩
        have hfst : (cmpctblock.shorttxids.zip (freeFrom placed 0)).map Prod.fst = cmpctblock.shorttxids :=
          map_fst_zip (h.counts hplaced).2.ge
        rw [lookup_insertAll (p := (id, p)) (by rwa [hfst]) hmem]
        exact congrArg some (Nat.mod_eq_of_lt ((hplaced.lt_of_mem_zip hmem).trans_le hfew))
    · exact .inl ⟨_, hfailed⟩
    · exact .inr (.inl hrounds)
  · -- there is no short id
    have hnil : cmpctblock.shorttxids = [] := by
      rw [blockTxCount] at hfew
      exact length_eq_zero_iff.1 (by omega)
    refine .inr (.inr ⟨placed, ∅, ?_, fun id v hempty => ?_, fun i id hid => ?_⟩)
    · rw [afterPlacing, hnil]
      rfl
    · cases hempty
    · rw [hnil] at hid
      cases hid

/-- With a short id twice, `InitData` comes to the collision of short ids and gives up. -/
theorem CBlockHeaderAndShortTxIDs.Passes.initSafe_of_collision
    (hprefilled : cmpctblock.prefilledtxn.length ≠ 2 ^ 16) (hnodup : ¬ cmpctblock.shorttxids.Nodup) :
    InitSafe E cmpctblock vTxHashes extra_txn := by
  obtain ⟨placed, hplaced, -, heq⟩ := h.initSlots_eq
  refine initSafe_of_initSlots fun rounds => ?_
  rw [heq]
  rcases h.afterPlacing_spec hplaced (Nat.lt_of_le_of_ne h.prefilled_le hprefilled) E rounds with
    ⟨hno, -⟩ | ⟨hfailed, -⟩ | hrounds
  · exact absurd hno hnodup
  · exact .inl ⟨_, hfailed⟩
  · exact .inr (.inl hrounds)

/-- A map of short ids in which no bucket gets too full. -/
def CompactEnv.roomy : CompactEnv where
  hash _ := 0
  sipHash _ _ := 0
  bucketSize _ _ _ := 0
  block := ⟨fun _ => true, fun block => (block.hashMerkleRoot, false), fun _ _ => false, fun _ _ _ => true⟩

lemma CBlockHeaderAndShortTxIDs.Passes.not_initSafe_of_many (hmany : 2 ^ 16 < cmpctblock.blockTxCount)
    (hprefilled : cmpctblock.prefilledtxn.length < 2 ^ 16) (hnodup : cmpctblock.shorttxids.Nodup) :
    ¬ InitSafe roomy cmpctblock [] [] := by
  intro hsafe
  obtain ⟨placed, hplaced, -, heq⟩ := h.initSlots_eq
  have hok : initSlots roomy cmpctblock (2 ^ 16 + 1) =
      .ok (.inr (placed, insertAll ∅ (cmpctblock.shorttxids.zip (freeFrom placed 0)))) := by
    rw [heq]
    rcases h.afterPlacing_spec hplaced hprefilled roomy (2 ^ 16 + 1) with ⟨-, hok⟩ | ⟨-, hbucket⟩ | ⟨-, hrounds⟩
    · exact hok
    · obtain ⟨_, _, _, hfull⟩ := hbucket hnodup
      cases hfull
    · omega
  have hfree : cmpctblock.blockTxCount - 1 ∈ cmpctblock.freePositions := by
    rw [freePositions, mem_filter, mem_range, decide_eq_true_iff]
    refine ⟨by omega, fun hmem => ?_⟩
    have := (h.placeable.le hmem).1
    omega
  obtain ⟨i, hi⟩ := getElem?_of_mem hfree
  obtain ⟨id, hid⟩ : ∃ id, cmpctblock.shorttxids[i]? = some id := by
    refine ⟨_, getElem?_eq_getElem ?_⟩
    rw [← (h.counts hplaced).2, hplaced.freeFrom_eq]
    exact (List.getElem?_eq_some_iff.1 hi).1
  obtain ⟨p, hp, hlookup⟩ := hsafe.mapped _ _ _ hok i id hid
  obtain ⟨q, hq, hmem⟩ := getElem?_zip_free h hplaced hid
  obtain rfl : p = q := Option.some.inj (hp.symm.trans hq)
  obtain rfl : p = cmpctblock.blockTxCount - 1 := Option.some.inj (hp.symm.trans hi)
  have hfst : (cmpctblock.shorttxids.zip (freeFrom placed 0)).map Prod.fst = cmpctblock.shorttxids :=
    map_fst_zip (h.counts hplaced).2.ge
  rw [lookup_insertAll (p := (id, cmpctblock.blockTxCount - 1)) (by rwa [hfst]) hmem, Option.some.injEq] at hlookup
  simp only at hlookup
  omega

lemma CBlockHeaderAndShortTxIDs.Passes.initData_endless
    (hprefilled : cmpctblock.prefilledtxn.length = 2 ^ 16) (hids : cmpctblock.shorttxids ≠ []) :
    initData E cmpctblock vTxHashes extra_txn rounds = .error .outOfRounds := by
  obtain ⟨placed, hplaced, -, heq⟩ := h.initSlots_eq
  rw [initData, heq, h.afterPlacing_endless hplaced hprefilled hids]

end

end Init

/-- **The messages for which `InitData` is safe**: all but those that pass its checks with more than `2 ^ 16`
transactions, `2 ^ 16` of them prefilled or the short ids all different. -/
theorem initData_safe_iff (cmpctblock : CBlockHeaderAndShortTxIDs) :
    (∀ E vTxHashes extra_txn, InitSafe E cmpctblock vTxHashes extra_txn) ↔
      ¬ (cmpctblock.Passes ∧ 2 ^ 16 < cmpctblock.blockTxCount ∧
        (cmpctblock.prefilledtxn.length = 2 ^ 16 ∨ cmpctblock.shorttxids.Nodup)) := by
  constructor
  · rintro hsafe ⟨h, hmany, hcase⟩
    rcases Nat.lt_or_eq_of_le h.prefilled_le with hlt | hprefilled
    · exact h.not_initSafe_of_many hmany hlt (hcase.resolve_left hlt.ne) (hsafe _ _ _)
    · have hids : cmpctblock.shorttxids ≠ [] := by
        intro hnil
        rw [blockTxCount, hnil, hprefilled] at hmany
        simp at hmany
      obtain ⟨enough, hends⟩ := (hsafe roomy [] []).ends
      exact hends enough le_rfl (h.initData_endless hprefilled hids)
  · intro hcond E vTxHashes extra_txn
    by_cases h : cmpctblock.Passes
    · rcases Nat.lt_or_ge (2 ^ 16) cmpctblock.blockTxCount with hmany | hfew
      · have hneither := not_or.1 fun hcase => hcond ⟨h, hmany, hcase⟩
        exact h.initSafe_of_collision hneither.1 hneither.2
      · exact h.initSafe_of_few hfew
    · exact initSafe_of_initSlots fun rounds => .inl ⟨_, initSlots_of_not_passes h⟩

/-- A message with one short id and `2 ^ 16` prefilled transactions, one after the other. -/
def endlessMessage : CBlockHeaderAndShortTxIDs where
  header := ⟨1, 0, 0, 0, 1, 0⟩
  nonce := 0
  shorttxids := [0]
  prefilledtxn := List.replicate (2 ^ 16) ⟨0, oneInOneOut []⟩

lemma placeable_replicate {tx : CMutableTransaction} (htx : tx.isNull = false) (n next : ℕ) (h : next + n ≤ 2 ^ 16) :
    Placeable 1 next next (replicate n ⟨0, tx⟩) := by
  induction n generalizing next with
  | zero => trivial
  | succ n ih =>
    refine ⟨htx, ?_, ?_, ih (next + 1) (by omega)⟩
    · show next + 0 ≤ 0xffff
      omega
    · show next + 0 ≤ 1 + next
      omega

lemma prefilledtxn_eq : endlessMessage.prefilledtxn = replicate (2 ^ 16) ⟨0, oneInOneOut []⟩ := rfl
lemma length_prefilledtxn : endlessMessage.prefilledtxn.length = 2 ^ 16 := length_replicate

lemma passes_endlessMessage : endlessMessage.Passes where
  header := rfl
  pos := by
    rw [blockTxCount, length_prefilledtxn]
    decide
  size := by
    rw [blockTxCount, length_prefilledtxn]
    decide
  placeable := placeable_replicate rfl (2 ^ 16) 0 le_rfl

lemma length_writeCmpctBlock_endlessMessage : (writeCmpctBlock endlessMessage).length = 3997796 := by
  have hprefilled : (writePrefilled ⟨0, oneInOneOut []⟩).length = 61 := by decide
  -- for any `n`: the kernel would unfold a list of `2 ^ 16` elements
  have hsum (n : ℕ) : (replicate n (writePrefilled ⟨0, oneInOneOut []⟩).length).sum = n * 61 := by
    rw [sum_replicate, smul_eq_mul, hprefilled]
  rw [writeCmpctBlock, length_append, length_append, length_append, length_writeVector writePrefilled,
    length_prefilledtxn, prefilledtxn_eq, map_replicate, hsum]
  decide

lemma fits_oneInOneOut : (oneInOneOut []).Fits where
  nVersion := by decide
  nLockTime := by decide
  vin := by decide
  ins := forall_mem_singleton.2 ⟨⟨by decide, by decide, by decide⟩, CTxIn.witnessFits_of_nil rfl⟩
  vout := by decide
  outs := forall_mem_singleton.2 ⟨by decide, by decide⟩

/-- A message within the limit of the network on which `InitData` does not end. -/
theorem initData_endless_message : ∃ bytes cmpctblock, bytes.length ≤ MAX_PROTOCOL_MESSAGE_LENGTH ∧
    readCmpctBlock bytes = .ok (cmpctblock, []) ∧
    ∀ E vTxHashes extra_txn rounds, initData E cmpctblock vTxHashes extra_txn rounds = .error .outOfRounds := by
  refine ⟨writeCmpctBlock endlessMessage, endlessMessage, ?_, ?_, fun E vTxHashes extra_txn rounds => ?_⟩
  · rw [length_writeCmpctBlock_endlessMessage]
    decide
  · have hreads : Reads readCmpctBlock (writeCmpctBlock endlessMessage) endlessMessage := by
      refine reads_cmpctBlock ⟨by decide, by decide, by decide, by decide⟩ (by decide) (by decide) (by decide) ?_ ?_
      · rw [length_prefilledtxn]
        decide
      · intro prefilled hmem
        rw [eq_of_mem_replicate hmem]
        exact ⟨by decide, fits_oneInOneOut, by decide⟩
    have hread := hreads []
    rwa [append_nil] at hread
  · exact passes_endlessMessage.initData_endless length_replicate (cons_ne_nil _ _)

end Soferox
