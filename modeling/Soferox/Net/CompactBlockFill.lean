import Soferox.Net.CompactBlockInit
import Soferox.Primitives.Recovery
import Soferox.Validation.Effects

/-!
# A block through a compact block

From a block to its compact form, over the wire, through `InitData` and `FillBlock` and back.

* `recovers_cmpctBlock` — the message that is read is the one that was written;
* `Scan.Agrees` — the invariant of both scans: a slot is empty or has the transaction of the block;
* `fillSlots_missing` — the empty slots get what was missing;
* `fillBlock_initData` — the block comes back.
-/

namespace Soferox

open Lib CompactEnv CBlockHeaderAndShortTxIDs List Option Prod

/-! ## The message -/

lemma recovers_prefilled {prefilled : PrefilledTransaction} (hindex : prefilled.index < 2 ^ 64) (htyped : prefilled.tx.Typed)
    (hvin : prefilled.tx.vin ≠ []) : Recovers readPrefilled (writePrefilled prefilled) prefilled := by
  refine (recovers_compactSize hindex).bind (Recovers.ensure ?_)
  exact (recovers_transaction htyped hvin).map _

lemma recovers_cmpctBlock {cmpctblock : CBlockHeaderAndShortTxIDs} (hheader : cmpctblock.header.Fits)
    (hnonce : cmpctblock.nonce < 2 ^ 64) (hids : cmpctblock.shorttxids.length < 2 ^ 64)
    (hid : ∀ id ∈ cmpctblock.shorttxids, id < 2 ^ 48) (hprefilled : cmpctblock.prefilledtxn.length < 2 ^ 64)
    (htx : ∀ prefilled ∈ cmpctblock.prefilledtxn, prefilled.index < 2 ^ 64 ∧ prefilled.tx.Typed ∧ prefilled.tx.vin ≠ []) :
    Recovers readCmpctBlock (writeCmpctBlock cmpctblock) cmpctblock := by
  have hvector := recovers_vector (f := id) hids fun id hmem => (reads_shortID (hid id hmem)).recovers
  have htxs := recovers_vector (f := id) hprefilled fun prefilled hmem =>
    recovers_prefilled (htx prefilled hmem).1 (htx prefilled hmem).2.1 (htx prefilled hmem).2.2
  rw [List.map_id] at hvector htxs
  refine (reads_blockHeader hheader).recovers.bind (((codes_data 8).reads hnonce).recovers.bind (hvector.bind ?_))
  exact htxs.map _

/-- The fields of a block have the values of their types. -/
structure FullBlock.Typed (block : FullBlock) : Prop where
  header : block.header.Fits
  vtx : ∀ tx ∈ block.vtx, tx.Typed

/-- The short id of a transaction, from its witness hash. -/
def CompactEnv.shortIDOf (E : CompactEnv) (header : CBlockHeader) (nonce : ℕ) (tx : CMutableTransaction) : ℕ :=
  E.getShortID header nonce (E.getWitnessHash tx)

lemma CompactEnv.shortIDOf_lt (E : CompactEnv) (header : CBlockHeader) (nonce : ℕ) (tx : CMutableTransaction) :
    E.shortIDOf header nonce tx < 2 ^ 48 := by
  rw [shortIDOf, getShortID, show (0xffffffffffff : ℕ) = 2 ^ 48 - 1 by rfl, Nat.and_two_pow_sub_one_eq_mod]
  exact Nat.mod_lt _ (by positivity)

/-! ## The slots before the scans -/

section Scans

variable {E : CompactEnv} {header : CBlockHeader} {nonce : ℕ} {coinbase : CMutableTransaction} {vtx : List CMutableTransaction}

/-- The compact form of a block with a first transaction. -/
def CompactEnv.compactOf (E : CompactEnv) (header : CBlockHeader) (nonce : ℕ) (coinbase : CMutableTransaction)
    (vtx : List CMutableTransaction) : CBlockHeaderAndShortTxIDs :=
  ⟨header, nonce, vtx.map (E.shortIDOf header nonce), [⟨0, coinbase⟩]⟩

lemma freePositions_compactOf : (E.compactOf header nonce coinbase vtx).freePositions = range' 1 vtx.length := by
  have hcount : (E.compactOf header nonce coinbase vtx).blockTxCount = vtx.length + 1 := by
    simp [blockTxCount, compactOf]
  have hlater : ∀ p ∈ range' 1 vtx.length, decide (p ∉ [0]) = true := by
    intro p hp
    rw [mem_range'_1] at hp
    simp
    omega
  rw [freePositions, hcount, range_eq_range']
  exact filter_eq_self.2 hlater

lemma placePrefilled_first {placed : Slots} {n : ℕ}
    (h : placePrefilled n [⟨0, coinbase⟩] 0 (-1) (replicate (n + 1) none) = .ok (some placed)) :
    placed = some coinbase :: replicate n none := by
  rw [placePrefilled] at h
  by_cases hnull : coinbase.isNull
  · rw [if_pos hnull] at h
    cases h
  · rw [if_neg hnull] at h
    cases h
    rfl

variable {extra_txn : List (Uint256 × Option CMutableTransaction)}

variable {vTxHashes : List (Uint256 × CMutableTransaction)}

variable {rounds : ℕ}

/-- What `InitData` has at the scans: the coinbase in the first slot, the other positions in the map. -/
theorem initSlots_compactOf {pdb : PartiallyDownloadedBlock} (hmax : vtx.length < 2 ^ 16)
    (h : initData E (E.compactOf header nonce coinbase vtx) vTxHashes extra_txn rounds = .ok (.OK, some pdb)) :
    header.isNull = false ∧ ∃ slots : AList fun _ : ℕ => ℕ,
      initSlots E (E.compactOf header nonce coinbase vtx) rounds =
        .ok (.inr (some coinbase :: replicate vtx.length none, slots)) ∧
      ∀ id slot, slots.lookup id = some slot → ∃ i, slot = i + 1 ∧ (vtx.map (E.shortIDOf header nonce))[i]? = some id := by
  have hpasses : (E.compactOf header nonce coinbase vtx).Passes := by
    by_contra hnot
    rw [initData, initSlots_of_not_passes hnot] at h
    cases h
  obtain ⟨placed, hplaced, hrun, heq⟩ := hpasses.initSlots_eq
  have hcount : (E.compactOf header nonce coinbase vtx).blockTxCount = vtx.length + 1 := by
    simp [blockTxCount, compactOf]
  have hplacedeq : placed = some coinbase :: replicate vtx.length none := by
    rw [hcount] at hrun
    refine placePrefilled_first ?_
    rwa [show (E.compactOf header nonce coinbase vtx).shorttxids.length = vtx.length by simp [compactOf]] at hrun
  refine ⟨hpasses.header, ?_⟩
  rw [initData, heq] at h
  rw [heq, ← hplacedeq]
  rcases hpasses.afterPlacing_spec hplaced (by simp [compactOf]) E rounds with ⟨hnodup, hok⟩ | ⟨hfailed, -⟩ | ⟨herror, -⟩
  · refine ⟨_, hok, fun id slot hlookup => ?_⟩
    -- the id is one of the message, and has one position
    have hmem : id ∈ (E.compactOf header nonce coinbase vtx).shorttxids := by
      have hin := mem_insertAll.1 (AList.lookup_isSome.1 (isSome_of_eq_some hlookup))
      simpa [map_fst_zip (hpasses.counts hplaced).2.ge] using hin
    obtain ⟨i, hi⟩ := getElem?_of_mem hmem
    have hsafe : InitSafe E (E.compactOf header nonce coinbase vtx) [] [] := hpasses.initSafe_of_few (by omega)
    obtain ⟨p, hp, hlookup'⟩ := hsafe.mapped rounds _ _ (by rw [heq, hok]) i id hi
    obtain rfl : slot = p := some.inj (hlookup.symm.trans hlookup')
    rw [freePositions_compactOf, List.getElem?_eq_some_iff] at hp
    obtain ⟨hlt, hget⟩ := hp
    rw [getElem_range'] at hget
    exact ⟨i, by omega, hi⟩
  · rw [hfailed] at h
    cases h
  · rw [herror] at h
    cases h

end Scans

/-! ## The scans -/

/-- A slot is empty or has the transaction of the block. -/
structure Scan.Agrees (vtx : List CMutableTransaction) (scan : Scan) : Prop extends Scan.Sized vtx.length scan where
  agrees : ∀ (p : ℕ) tx, scan.txn_available[p]? = some (some tx) → vtx[p]? = some tx

section Agrees

variable {vtx : List CMutableTransaction} {scan : Scan} {slot : ℕ} {tx : CMutableTransaction}

section

variable (h : scan.Agrees vtx)
include h

lemma Scan.Agrees.put (hslot : vtx[slot]? = some tx) :
    ∃ scan', scan.put slot (some tx) = .ok scan' ∧ scan'.Agrees vtx := by
  have hlt : slot < vtx.length := (List.getElem?_eq_some_iff.1 hslot).1
  rw [Scan.put, if_pos (by rw [h.txn_available]; exact hlt)]
  refine ⟨_, rfl, ⟨?_, ?_⟩, fun p tx' hget => ?_⟩
  · rw [length_set, h.txn_available]
  · rw [length_set, h.have_txn]
  · rw [getElem?_set] at hget
    by_cases hp : slot = p
    · subst hp
      simp only [h.txn_available, hlt, if_true, some.injEq] at hget
      rw [hslot, hget]
    · rw [if_neg hp] at hget
      exact h.agrees p tx' hget

lemma Scan.Agrees.resetIf (hslot : slot < vtx.length) (differs : CMutableTransaction → Bool) :
    ∃ b scan', scan.resetIf slot (fun tx => .ok (differs tx)) = .ok (b, scan') ∧ scan'.Agrees vtx := by
  have hlt : slot < scan.txn_available.length := by
    rw [h.txn_available]
    exact hslot
  obtain ⟨available, havailable⟩ : ∃ tx, scan.txn_available[slot]? = some tx := ⟨_, getElem?_eq_getElem hlt⟩
  rw [Scan.resetIf, havailable]
  rcases available with _ | tx
  · exact ⟨false, scan, rfl, h⟩
  · cases hdiffers : differs tx with
    | false => exact ⟨false, scan, by simp [hdiffers], h⟩
    | true =>
      simp only [hdiffers]
      refine ⟨true, _, rfl, ⟨?_, h.have_txn⟩, fun p tx' hget => ?_⟩
      · rw [length_set, h.txn_available]
      · rw [getElem?_set] at hget
        by_cases hp : slot = p
        · subst hp
          simp [hlt] at hget
        · rw [if_neg hp] at hget
          exact h.agrees p tx' hget

lemma matchPool_agrees (hslot : vtx[slot]? = some tx) :
    ScanEnds (Scan.Agrees vtx) (fun _ => False) (matchPool scan slot tx) := by
  have hlt : slot < vtx.length := (List.getElem?_eq_some_iff.1 hslot).1
  obtain ⟨b, hb⟩ := h.haveTxn hlt
  rw [matchPool, hb]
  cases b with
  | false => exact .inl (h.put hslot)
  | true =>
    obtain ⟨b, scan', hok, hagrees⟩ := h.resetIf hlt fun _ => true
    exact .inl ⟨scan', by rw [hok]; rfl, hagrees⟩

lemma matchExtra_agrees {E : CompactEnv} (hslot : vtx[slot]? = some tx) :
    ScanEnds (Scan.Agrees vtx) (fun _ => False) (matchExtra E scan slot (some tx)) := by
  have hlt : slot < vtx.length := (List.getElem?_eq_some_iff.1 hslot).1
  obtain ⟨b, hb⟩ := h.haveTxn hlt
  rw [matchExtra, hb]
  cases b with
  | false =>
    obtain ⟨scan', hput, hagrees⟩ := h.put hslot
    simp only
    rw [hput]
    exact .inl ⟨_, rfl, ⟨hagrees.txn_available, hagrees.have_txn⟩, hagrees.agrees⟩
  | true =>
    obtain ⟨b, scan', hok, hagrees⟩ := h.resetIf hlt fun available => E.getWitnessHash available != E.getWitnessHash tx
    simp only
    rw [hok]
    cases b with
    | false => exact .inl ⟨_, rfl, hagrees⟩
    | true => exact .inl ⟨_, rfl, ⟨hagrees.txn_available, hagrees.have_txn⟩, hagrees.agrees⟩

end

end Agrees

/-! ## `FillBlock` -/

/-- The transactions of the block at the positions where `IsTxAvailable` is false. -/
def PartiallyDownloadedBlock.missing (pdb : PartiallyDownloadedBlock) (vtx : List CMutableTransaction) :
    List CMutableTransaction :=
  (vtx.zipIdx.filter fun p =>
    match pdb.isTxAvailable p.2 with
    | .ok available => !available
    | .error _ => false).map Prod.fst

variable {pdb : PartiallyDownloadedBlock} {vtx : List CMutableTransaction}

lemma PartiallyDownloadedBlock.missing_eq (hnull : pdb.header.isNull = false)
    (hlen : pdb.txn_available.length = vtx.length) :
    pdb.missing vtx = ((vtx.zip pdb.txn_available).filter fun p => p.2.isNone).map fst := by
  have hshift : ∀ (k : ℕ) (vtx : List CMutableTransaction) (slots : Slots), slots.length = vtx.length →
      (∀ i, slots[i]? = pdb.txn_available[k + i]?) →
      ((vtx.zipIdx k).filter fun p =>
        match pdb.isTxAvailable p.2 with
        | .ok available => !available
        | .error _ => false).map fst = ((vtx.zip slots).filter fun p => p.2.isNone).map fst := by
    intro k vtx
    induction vtx generalizing k with
    | nil => intro slots _ _; rfl
    | cons tx vtx ih =>
      intro slots hlen hslots
      cases slots with
      | nil => cases hlen
      | cons slot slots =>
        have hrest := ih (k + 1) slots (Nat.succ.inj hlen) fun i => by
          have := hslots (i + 1)
          rwa [show k + (i + 1) = k + 1 + i by omega] at this
        have hfirst : pdb.isTxAvailable k = .ok slot.isSome := by
          rw [isTxAvailable, hnull, ← Nat.add_zero k, ← hslots 0]
          rfl
        rw [zipIdx_cons, filter_cons]
        simp only [hfirst]
        cases slot with
        | none => simpa using hrest
        | some _ => simpa using hrest
  exact hshift 0 vtx _ hlen fun i => by rw [Nat.zero_add]

/-- **The empty slots get what was missing.** -/
theorem fillSlots_missing {slots : Slots} (hlen : slots.length = vtx.length)
    (hagrees : ∀ (p : ℕ) tx, slots[p]? = some (some tx) → vtx[p]? = some tx) :
    fillSlots slots (((vtx.zip slots).filter fun p => p.2.isNone).map fst) = some (vtx, []) := by
  induction slots generalizing vtx with
  | nil =>
    obtain rfl := length_eq_zero_iff.1 hlen.symm
    rfl
  | cons slot slots ih =>
    cases vtx with
    | nil => cases hlen
    | cons tx vtx =>
      have hrest := ih (Nat.succ.inj hlen) fun p tx' hget => hagrees (p + 1) tx' hget
      cases slot with
      | none => simp [fillSlots, hrest]
      | some tx' =>
        obtain rfl : tx = tx' := some.inj (hagrees 0 tx' rfl)
        simp [fillSlots, hrest]

/-! ## The way of a block -/

section Block

variable {E : CompactEnv} {header : CBlockHeader} {nonce : ℕ} {coinbase : CMutableTransaction} {vtx : List CMutableTransaction}

lemma getElem?_of_shortID (hnodup : (vtx.map (E.shortIDOf header nonce)).Nodup) {tx : CMutableTransaction} {i : ℕ}
    (hi : (vtx.map (E.shortIDOf header nonce))[i]? = some (E.shortIDOf header nonce tx)) (htx : tx ∈ vtx) :
    (coinbase :: vtx)[i + 1]? = some tx := by
  obtain ⟨k, hk⟩ := getElem?_of_mem htx
  have hkid : (vtx.map (E.shortIDOf header nonce))[k]? = some (E.shortIDOf header nonce tx) := by
    rw [getElem?_map, hk]
    rfl
  have hlt : k < (vtx.map (E.shortIDOf header nonce)).length := (List.getElem?_eq_some_iff.1 hkid).1
  obtain rfl : k = i := (getElem?_inj hlt hnodup).1 (hkid.trans hi.symm)
  rw [getElem?_cons_succ, hk]

lemma agrees_initData (hmax : vtx.length < 2 ^ 16) (hpool : ∀ p ∈ vTxHashes, p.1 = E.getWitnessHash p.2)
    (hextra : ∀ p ∈ extra_txn, ∃ tx, p.2 = some tx ∧ p.1 = E.getWitnessHash tx)
    (hnodup : (vtx.map (E.shortIDOf header nonce)).Nodup)
    (houtside : ∀ tx, tx ∈ vTxHashes.map snd ∨ some tx ∈ extra_txn.map snd →
      E.shortIDOf header nonce tx ∈ vtx.map (E.shortIDOf header nonce) → tx ∈ vtx)
    (h : initData E (E.compactOf header nonce coinbase vtx) vTxHashes extra_txn rounds = .ok (.OK, some pdb)) :
    pdb.header = header ∧ header.isNull = false ∧ pdb.txn_available.length = vtx.length + 1 ∧
      ∀ (p : ℕ) tx, pdb.txn_available[p]? = some (some tx) → (coinbase :: vtx)[p]? = some tx := by
  obtain ⟨hnull, slots, hinit, hslots⟩ := initSlots_compactOf hmax h
  have hstart : Scan.Agrees (coinbase :: vtx) ⟨some coinbase :: replicate vtx.length none,
      replicate (some coinbase :: replicate vtx.length none).length false, 0, 0⟩ := by
    refine ⟨⟨?_, ?_⟩, fun p tx hget => ?_⟩
    · simp
    · simp
    · cases p with
      | zero => simpa using hget
      | succ p =>
        rw [getElem?_cons_succ] at hget
        cases eq_of_mem_replicate (mem_of_getElem? hget)
  have hpoolscan : ∀ start : Scan, start.Agrees (coinbase :: vtx) → ScanEnds (Scan.Agrees (coinbase :: vtx)) (fun _ => False)
      (scanPool E (E.compactOf header nonce coinbase vtx) slots vTxHashes start) := by
    intro start hstart
    refine scan_ends (fun _ => rfl) (fun _ _ _ => rfl) (fun scan slot p hp hlookup hI => matchPool_agrees hI ?_) hstart
    obtain ⟨i, rfl, hi⟩ := hslots _ _ hlookup
    rw [hpool p hp] at hi
    exact getElem?_of_shortID hnodup hi (houtside p.2 (.inl (List.mem_map_of_mem hp)) (mem_of_getElem? hi))
  rw [initData, hinit] at h
  rcases hpoolscan _ hstart with ⟨scan, hscan, hI⟩ | ⟨e, -, hfalse⟩
  · have hextrascan : ScanEnds (Scan.Agrees (coinbase :: vtx)) (fun _ => False)
        (scanExtra E (E.compactOf header nonce coinbase vtx) slots extra_txn scan) := by
      refine scan_ends (fun _ => rfl) (fun _ _ _ => rfl) (fun scan slot p hp hlookup hI => ?_) hI
      obtain ⟨tx, htx, hhash⟩ := hextra p hp
      obtain ⟨i, rfl, hi⟩ := hslots _ _ hlookup
      rw [hhash] at hi
      rw [htx]
      apply matchExtra_agrees hI
      exact getElem?_of_shortID hnodup hi (houtside tx (.inr (List.mem_map.2 ⟨p, hp, htx⟩)) (mem_of_getElem? hi))
    rcases hextrascan with ⟨scan', hscan', hI'⟩ | ⟨e, -, hfalse⟩
    · simp only [ok_bind, hscan, hscan'] at h
      cases h
      exact ⟨rfl, hnull, hI'.txn_available, hI'.agrees⟩
    · exact hfalse.elim
  · exact hfalse.elim

end Block

/-- **A block comes back from its compact form**: if only transactions of the block have its short ids and these are
different, `FillBlock` makes the block from what `InitData` found and what was missing. -/
theorem fillBlock_initData (E : CompactEnv) (block : FullBlock) (nonce : ℕ) (vTxHashes : List (Uint256 × CMutableTransaction))
    (extra_txn : List (Uint256 × Option CMutableTransaction)) (rest : List UInt8)
    (htyped : block.Typed) (hnonce : nonce < 2 ^ 64) (hmax : block.vtx.length ≤ 65536) (hcheck : E.checkBlock block = .ok ())
    (hpool : ∀ p ∈ vTxHashes, p.1 = E.getWitnessHash p.2)
    (hextra : ∀ p ∈ extra_txn, ∃ tx, p.2 = some tx ∧ p.1 = E.getWitnessHash tx)
    (hnodup : (block.vtx.tail.map (E.shortIDOf block.header nonce)).Nodup)
    (houtside : ∀ tx, tx ∈ vTxHashes.map Prod.snd ∨ some tx ∈ extra_txn.map Prod.snd →
      E.shortIDOf block.header nonce tx ∈ block.vtx.tail.map (E.shortIDOf block.header nonce) → tx ∈ block.vtx.tail) :
    ∃ cmpctblock, E.compact block nonce = some cmpctblock ∧
      ((∀ tx ∈ block.vtx.head?, tx.Fits) → readCmpctBlock (writeCmpctBlock cmpctblock ++ rest) = .ok (cmpctblock, rest)) ∧
      ∀ cmpctblock' rest' rounds pdb, readCmpctBlock (writeCmpctBlock cmpctblock ++ rest) = .ok (cmpctblock', rest') →
        initData E cmpctblock' vTxHashes extra_txn rounds = .ok (.OK, some pdb) →
        fillBlock E pdb (pdb.missing block.vtx) = .ok (.OK, some block) := by
  obtain ⟨header, vtx⟩ := block
  obtain ⟨cb, tail, hvtx, hcoinbase, -, -⟩ := checkBlock_ok hcheck
  cases vtx with
  | nil => cases hvtx
  | cons coinbase vtx =>
    -- the coinbase has an input, so that it is not taken for the dummy of the extended format
    have hvin : coinbase.vin ≠ [] := by
      intro hnil
      rw [← (List.cons.inj hvtx).1, toTransaction, hnil] at hcoinbase
      cases hcoinbase
    have hlen : vtx.length < 2 ^ 16 := hmax
    have hids : ∀ id ∈ (E.compactOf header nonce coinbase vtx).shorttxids, id < 2 ^ 48 := by
      intro id hid
      obtain ⟨tx, -, rfl⟩ := List.mem_map.1 hid
      exact E.shortIDOf_lt header nonce tx
    have hcount : (E.compactOf header nonce coinbase vtx).shorttxids.length = vtx.length := length_map _
    have hsize : MAX_SIZE = 2 ^ 25 := by decide
    refine ⟨E.compactOf header nonce coinbase vtx, rfl, fun hfits => ?_, fun cmpctblock' rest' rounds pdb hread hinit => ?_⟩
    · refine reads_cmpctBlock htyped.header hnonce (by omega) hids (Nat.one_le_two_pow.trans hsize.ge) ?_ rest
      exact forall_mem_singleton.2 ⟨Nat.zero_le _, hfits coinbase rfl, hvin⟩
    · have hrecovers : Recovers readCmpctBlock (writeCmpctBlock (E.compactOf header nonce coinbase vtx))
          (E.compactOf header nonce coinbase vtx) := by
        refine recovers_cmpctBlock htyped.header hnonce (by omega) hids (Nat.one_lt_two_pow (by decide)) ?_
        exact forall_mem_singleton.2 ⟨Nat.two_pow_pos 64, htyped.vtx coinbase mem_cons_self, hvin⟩
      obtain ⟨rfl, rfl⟩ := hrecovers _ _ _ hread
      obtain ⟨hheader, hnull, hlength, hagrees⟩ := agrees_initData hlen hpool hextra hnodup houtside hinit
      rw [fillBlock, PartiallyDownloadedBlock.missing_eq (by rw [hheader, hnull]) hlength, fillSlots_missing hlength hagrees,
        hheader, hnull]
      simp only [isEmpty_nil, Bool.not_true, Bool.false_eq_true, if_false]
      rw [hcheck]

/-- Hashes that tell transactions apart by their lengths. -/
def CompactEnv.byLength : CompactEnv := { CompactEnv.roomy with
  hash bytes := BitVec.ofNat 256 bytes.length
  sipHash _ hash := hash.toNat }

/-- A block with a coinbase and two other transactions. -/
def threeTransactions : FullBlock where
  header := ⟨1, 0, 0, 0, 1, 0⟩
  vtx := [⟨[⟨⟨0, 0xffffffff⟩, [1, 2], 0, []⟩], [⟨5, []⟩], 1, 0⟩, oneInOneOut [], oneInOneOut [[7]]]

lemma typed_threeTransactions : threeTransactions.Typed where
  header := ⟨by decide, by decide, by decide, by decide⟩
  vtx := by
    intro tx hmem
    simp only [threeTransactions, mem_cons, not_mem_nil, or_false] at hmem
    rcases hmem with rfl | rfl | rfl
    all_goals
      refine ⟨by decide, by decide, by decide, forall_mem_singleton.2 ?_, by decide, forall_mem_singleton.2 ?_⟩
      · exact ⟨by decide, by decide, by decide, by decide, by decide⟩
      · exact ⟨by decide, by decide⟩

/-- One of the transactions is in the pool and the other one was missing. -/
theorem fillBlock_initData_threeTransactions : ∃ cmpctblock pdb,
    CompactEnv.byLength.compact threeTransactions 7 = some cmpctblock ∧
    readCmpctBlock (writeCmpctBlock cmpctblock ++ [9]) = .ok (cmpctblock, [9]) ∧
    initData CompactEnv.byLength cmpctblock [(60, oneInOneOut [])] [] 2 = .ok (.OK, some pdb) ∧
    pdb.missing threeTransactions.vtx = [oneInOneOut [[7]]] ∧
    fillBlock CompactEnv.byLength pdb [oneInOneOut [[7]]] = .ok (.OK, some threeTransactions) := by
  obtain ⟨cmpctblock, hcompact, hreads, hfill⟩ := fillBlock_initData byLength threeTransactions 7
    [(60, oneInOneOut [])] [] [9] typed_threeTransactions (by decide) (by decide) (by decide) (by decide) (by decide) (by decide)
    (by
      rintro tx (htx | htx) _
      · obtain rfl := mem_singleton.1 htx
        decide
      · cases htx)
  have hread := hreads fun tx hmem => by
    cases hmem
    refine ⟨by decide, by decide, by decide, forall_mem_singleton.2 ?_, by decide, forall_mem_singleton.2 ?_⟩
    · exact ⟨⟨by decide, by decide, by decide⟩, CTxIn.witnessFits_of_nil rfl⟩
    · exact ⟨by decide, by decide⟩
  cases hcompact
  exact ⟨_, _, rfl, hread, rfl, by decide, hfill _ _ 2 _ hread rfl⟩

end Soferox
