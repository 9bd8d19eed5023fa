import Mathlib.Data.Finset.Dedup
import Soferox.Lib.Keyed
import Soferox.Net.CompactBlock
import Soferox.Net.Messages

/-!
# The slots of a compact block

Positions of prefilled transactions and slots of short ids have 16 bits, but a message may have more than `2 ^ 16`
transactions.

* `placePrefilled_spec` — which prefilled transactions are accepted, and the slots that they take;
* `mapShortIds_spec` — while the offset does not wrap, the short ids get the free slots one after the other;
* `Passes.afterPlacing_spec`, `Passes.afterPlacing_endless` — the first part of `InitData`; with `2 ^ 16` prefilled
  transactions the loop that skips slots does not end.
-/

namespace Soferox

open Lib CBlockHeaderAndShortTxIDs List Finset Prod AList Nat

/-! ## Prefilled transactions -/

/-- The positions of prefilled transactions, from the offsets; `next` comes after the last one. -/
def prefilledPositions : ℕ → List PrefilledTransaction → List ℕ
  | _, [] => []
  | next, prefilled :: rest => (next + prefilled.index) :: prefilledPositions (next + prefilled.index + 1) rest

/-- Prefilled transactions, from number `i` on, that `InitData` accepts: none is null, and a position has 16 bits and
leaves no gap. -/
def Placeable (nShortIds : ℕ) : ℕ → ℕ → List PrefilledTransaction → Prop
  | _, _, [] => True
  | i, next, prefilled :: rest =>
    prefilled.tx.isNull = false ∧ next + prefilled.index ≤ 0xffff ∧ next + prefilled.index ≤ nShortIds + i ∧
      Placeable nShortIds (i + 1) (next + prefilled.index + 1) rest

/-- There is a transaction in the slot. -/
def filled (txn_available : Slots) (p : ℕ) : Bool := txn_available[p]?.join.isSome

lemma filled_set (txn_available : Slots) {q : ℕ} (hq : q < txn_available.length) (tx : CMutableTransaction) (p : ℕ) :
    filled (txn_available.set q (some tx)) p = (p == q || filled txn_available p) := by
  rw [filled, filled]
  by_cases hp : q = p
  · subst hp
    simp [hq]
  · simp [hp, Ne.symm hp]

lemma filled_replicate (n p : ℕ) : filled (replicate n none) p = false := by
  rw [filled, getElem?_replicate]
  split_ifs with h
  · rfl
  · rfl

lemma placePrefilled_spec (nShortIds : ℕ) (prefilledtxn : List PrefilledTransaction) (i next : ℕ) (txn_available : Slots)
    (hlen : nShortIds + i + prefilledtxn.length = txn_available.length) :
    (¬ Placeable nShortIds i next prefilledtxn ∧
      placePrefilled nShortIds prefilledtxn i ((next : ℤ) - 1) txn_available = .ok none) ∨
    (Placeable nShortIds i next prefilledtxn ∧ ∃ placed,
      placePrefilled nShortIds prefilledtxn i ((next : ℤ) - 1) txn_available = .ok (some placed) ∧
      placed.length = txn_available.length ∧
      ∀ p, filled placed p = (decide (p ∈ prefilledPositions next prefilledtxn) || filled txn_available p)) := by
  induction prefilledtxn generalizing i next txn_available with
  | nil => exact .inr ⟨trivial, txn_available, rfl, rfl, by simp [prefilledPositions]⟩
  | cons prefilled rest ih =>
    rw [length_cons] at hlen
    have hpos : (next : ℤ) - 1 + (prefilled.index + 1) = ((next + prefilled.index : ℕ) : ℤ) := by
      push_cast
      ring
    simp only [placePrefilled, Placeable, hpos, Int.toNat_natCast]
    by_cases hnull : prefilled.tx.isNull = true
    · exact .inl ⟨by simp [hnull], if_pos hnull⟩
    rw [if_neg hnull]
    by_cases hbits : next + prefilled.index ≤ 0xffff
    · rw [if_neg (by omega)]
      by_cases hgap : next + prefilled.index ≤ nShortIds + i
      · rw [if_neg (by omega), if_pos (by omega)]
        have hcast : ((next + prefilled.index : ℕ) : ℤ) = ((next + prefilled.index + 1 : ℕ) : ℤ) - 1 := by
          push_cast
          ring
        have hlt : next + prefilled.index < txn_available.length := by omega
        rw [hcast]
        rcases ih (i + 1) (next + prefilled.index + 1) (txn_available.set (next + prefilled.index) prefilled.tx)
          (by rw [length_set]; omega) with
          ⟨hnot, hrun⟩ | ⟨hplace, placed, hrun, hsame, hfilled⟩
        · exact .inl ⟨fun h => hnot h.2.2.2, hrun⟩
        · refine .inr ⟨⟨by simpa using hnull, hbits, hgap, hplace⟩, placed, hrun, by rw [hsame, length_set], fun p => ?_⟩
          rw [hfilled, filled_set _ hlt, prefilledPositions]
          simp only [List.mem_cons, Bool.decide_or, ← Bool.or_assoc, Bool.beq_eq_decide_eq]
          rw [Bool.or_comm (decide (p = _))]
      · rw [if_pos (by omega)]
        exact .inl ⟨fun h => hgap h.2.2.1, rfl⟩
    · rw [if_pos (by omega)]
      exact .inl ⟨fun h => hbits h.2.1, rfl⟩

lemma length_prefilledPositions (next : ℕ) (prefilledtxn : List PrefilledTransaction) :
    (prefilledPositions next prefilledtxn).length = prefilledtxn.length := by
  induction prefilledtxn generalizing next with
  | nil => rfl
  | cons prefilled rest ih => rw [prefilledPositions, length_cons, ih, length_cons]

variable {prefilledtxn : List PrefilledTransaction}

lemma le_of_mem_prefilledPositions {next p : ℕ} (h : p ∈ prefilledPositions next prefilledtxn) : next ≤ p := by
  induction prefilledtxn generalizing next with
  | nil => cases h
  | cons prefilled rest ih =>
    rcases List.mem_cons.1 h with rfl | h
    · omega
    · have := ih h
      omega

lemma nodup_prefilledPositions (next : ℕ) (prefilledtxn : List PrefilledTransaction) :
    (prefilledPositions next prefilledtxn).Nodup := by
  induction prefilledtxn generalizing next with
  | nil => exact nodup_nil
  | cons prefilled rest ih =>
    refine nodup_cons.2 ⟨fun h => ?_, ih _⟩
    have := le_of_mem_prefilledPositions h
    omega

lemma Placeable.le {nShortIds i next p : ℕ}
    (h : Placeable nShortIds i next prefilledtxn) (hp : p ∈ prefilledPositions next prefilledtxn) :
    p ≤ 0xffff ∧ p < nShortIds + i + prefilledtxn.length := by
  induction prefilledtxn generalizing i next with
  | nil => cases hp
  | cons prefilled rest ih =>
    obtain ⟨-, hbits, hgap, hrest⟩ := h
    rw [length_cons]
    rcases List.mem_cons.1 hp with rfl | hp
    · omega
    · have := ih hrest hp
      omega

/-! ## Free slots -/

/-- The free slots from a position on. -/
def freeFrom (txn_available : Slots) (q : ℕ) : List ℕ :=
  (List.range' q (txn_available.length - q)).filter fun p => !filled txn_available p

/-- The number of slots that are taken, from a position on. -/
def filledFrom (txn_available : Slots) (q : ℕ) : ℕ :=
  (List.range' q (txn_available.length - q)).countP fun p => filled txn_available p

lemma range'_length_sub {n q : ℕ} (h : q < n) : range' q (n - q) = q :: range' (q + 1) (n - (q + 1)) := by
  rw [show n - q = n - (q + 1) + 1 by omega, range'_succ]

variable {txn_available : Slots}

lemma freeFrom_eq_cons {q p : ℕ} {tail : List ℕ} (h : freeFrom txn_available q = p :: tail) :
    q ≤ p ∧ p < txn_available.length ∧ filled txn_available p = false ∧
      (∀ x, q ≤ x → x < p → filled txn_available x = true) ∧ freeFrom txn_available (p + 1) = tail ∧
      filledFrom txn_available q = p - q + filledFrom txn_available (p + 1) := by
  induction hn : txn_available.length - q generalizing q with
  | zero =>
    rw [freeFrom, hn] at h
    cases h
  | succ n ih =>
    have hlt : q < txn_available.length := by omega
    rw [freeFrom, range'_length_sub hlt, List.filter_cons] at h
    cases hq : filled txn_available q with
    | true =>
      rw [hq, Bool.not_true, if_neg Bool.false_ne_true] at h
      obtain ⟨hle, hltp, hfree, hbetween, htail, hcount⟩ := ih h (by omega)
      refine ⟨by omega, hltp, hfree, fun x hx hxp => ?_, htail, ?_⟩
      · rcases lt_or_eq_of_le hx with hx | rfl
        · exact hbetween x hx hxp
        · exact hq
      · rw [filledFrom, range'_length_sub hlt, countP_cons, hq, if_pos rfl]
        rw [filledFrom] at hcount
        omega
    | false =>
      rw [hq, Bool.not_false, if_pos rfl] at h
      injection h with hqp htail
      subst hqp
      refine ⟨le_rfl, hlt, hq, fun x hx hxp => by omega, htail, ?_⟩
      rw [filledFrom, range'_length_sub hlt, countP_cons, hq]
      simp [filledFrom]

lemma length_freeFrom_add (txn_available : Slots) :
    (freeFrom txn_available 0).length + filledFrom txn_available 0 = txn_available.length := by
  rw [freeFrom, filledFrom, ← countP_eq_length_filter, add_comm]
  have hsplit := length_eq_countP_add_countP (filled txn_available) (l := range' 0 (txn_available.length - 0))
  simpa using hsplit.symm

/-! ## Skipping -/

lemma getElem?_of_filled {p : ℕ} (h : filled txn_available p = true) : ∃ tx, txn_available[p]? = some (some tx) := by
  rw [filled] at h
  rcases hget : txn_available[p]? with _ | _ | tx
  · rw [hget] at h
    cases h
  · rw [hget] at h
    cases h
  · exact ⟨tx, rfl⟩

/-- The loop that skips slots stops at the next free slot, if it gets enough rounds and the offset does not wrap. -/
theorem skipAvailable_spec {i o o' : ℕ} (hle : o ≤ o') (hbits : o' < 2 ^ 16)
    (hlt : i + o' < txn_available.length) (hfree : filled txn_available (i + o') = false)
    (hbetween : ∀ x, i + o ≤ x → x < i + o' → filled txn_available x = true) (rounds : ℕ) :
    skipAvailable txn_available i rounds o = if o' - o < rounds then .ok o' else .error .outOfRounds := by
  induction rounds generalizing o with
  | zero => rfl
  | succ rounds ih =>
    rw [skipAvailable]
    rcases lt_or_eq_of_le hle with hlto | rfl
    · obtain ⟨tx, hget⟩ := getElem?_of_filled (hbetween (i + o) le_rfl (by omega))
      rw [hget]
      simp only
      rw [mod_eq_of_lt (by omega), ih (by omega) fun x hx hxp => hbetween x (by omega) hxp]
      simp [show o' - (o + 1) < rounds ↔ o' - o < rounds + 1 by omega]
    · have hget : txn_available[i + o]? = some none := by
        rw [getElem?_eq_getElem hlt] at *
        rw [filled, getElem?_eq_getElem hlt] at hfree
        cases hslot : txn_available[i + o] with
        | none => rfl
        | some tx =>
          rw [hslot] at hfree
          cases hfree
      rw [hget, if_pos (by omega)]

lemma skipAvailable_endless (h : ∀ p < 2 ^ 16, filled txn_available p = true) (rounds : ℕ) {o : ℕ}
    (ho : o < 2 ^ 16) : skipAvailable txn_available 0 rounds o = .error .outOfRounds := by
  induction rounds generalizing o with
  | zero => rfl
  | succ rounds ih =>
    obtain ⟨tx, hget⟩ := getElem?_of_filled (h o ho)
    rw [skipAvailable, zero_add, hget]
    exact ih (mod_lt _ (by positivity))

/-! ## The map of short ids -/

/-- Short ids with their slots, in 16 bits, are put into the map one after the other. -/
def insertAll (slots : AList fun _ : ℕ => ℕ) (l : List (ℕ × ℕ)) : AList fun _ : ℕ => ℕ :=
  l.foldl (fun slots p => slots.insert p.1 (p.2 % 2 ^ 16)) slots

/-- **The short ids get the free slots in turn**, unless a bucket is too full or the rounds are too few. -/
theorem mapShortIds_spec (E : CompactEnv) (shorttxids : List ℕ) (txn_available : Slots) (rounds : ℕ) (rest : List ℕ) (i o : ℕ)
    (slots : AList fun _ : ℕ => ℕ) (hlen : rest.length ≤ (freeFrom txn_available (i + o)).length)
    (hbits : o + filledFrom txn_available (i + o) < 2 ^ 16) :
    mapShortIds E shorttxids txn_available rounds rest i o slots = .ok (some
        (insertAll slots (rest.zip (freeFrom txn_available (i + o))))) ∨
      (mapShortIds E shorttxids txn_available rounds rest i o slots = .ok none ∧ ∃ ids id, 12 < E.bucketSize shorttxids.length ids id) ∨
      (mapShortIds E shorttxids txn_available rounds rest i o slots = .error .outOfRounds ∧ rounds ≤ 2 ^ 16) := by
  induction rest generalizing i o slots with
  | nil => exact .inl rfl
  | cons id rest ih =>
    rcases hfrom : freeFrom txn_available (i + o) with _ | ⟨p, tail⟩
    · rw [hfrom] at hlen
      cases hlen
    obtain ⟨hle, hlt, hfree, hbetween, htail, hcount⟩ := freeFrom_eq_cons hfrom
    obtain ⟨o', rfl⟩ : ∃ o', p = i + o' := ⟨p - i, by omega⟩
    have hskip := skipAvailable_spec (i := i) (by omega : o ≤ o') (by omega) hlt hfree hbetween rounds
    rw [mapShortIds, hskip]
    by_cases hrounds : o' - o < rounds
    · rw [if_pos hrounds]
      simp only
      by_cases hbucket : E.bucketSize shorttxids.length (shorttxids.take (i + 1)) id > 12
      · rw [if_pos hbucket]
        exact .inr (.inl ⟨rfl, _, _, hbucket⟩)
      · rw [if_neg hbucket]
        have hnext : i + 1 + o' = i + o' + 1 := by omega
        have hrest := ih (i + 1) o' (slots.insert id ((i + o') % 2 ^ 16))
          (by rw [hnext, htail]; rw [hfrom] at hlen; simpa using hlen) (by rw [hnext]; omega)
        rw [hnext, htail] at hrest
        exact hrest
    · rw [if_neg hrounds]
      exact .inr (.inr ⟨rfl, by omega⟩)

variable {l : List (ℕ × ℕ)} {slots : AList fun _ : ℕ => ℕ}

lemma lookup_insertAll (hl : (l.map fst).Nodup) {p : ℕ × ℕ} (hp : p ∈ l) :
    (insertAll ∅ l).lookup p.1 = some (p.2 % 2 ^ 16) :=
  @foldl_look_of_mem _ _ _ _ l (fun slots id => slots.lookup id) fst _ (fun _ _ _ hne => lookup_insert_ne hne)
    (fun p _ => some (p.2 % 2 ^ 16)) (fun slots _ => lookup_insert slots) hl p hp ∅

lemma mem_insertAll {id : ℕ} : id ∈ insertAll slots l ↔ id ∈ slots ∨ id ∈ l.map fst := by
  induction l generalizing slots with
  | nil => simp [insertAll]
  | cons p l ih =>
    have hstep : insertAll slots (p :: l) = insertAll (slots.insert p.1 (p.2 % 2 ^ 16)) l := rfl
    rw [hstep, ih, AList.mem_insert, List.map_cons, List.mem_cons]
    tauto

lemma lt_of_lookup_insertAll {n : ℕ} (hl : ∀ p ∈ l, p.2 < n)
    (hslots : ∀ id v, slots.lookup id = some v → v < n) {id v : ℕ} (h : (insertAll slots l).lookup id = some v) : v < n := by
  induction l generalizing slots with
  | nil => exact hslots id v h
  | cons p l ih =>
    obtain ⟨hp, hl⟩ := List.forall_mem_cons.1 hl
    refine ih hl ?_ h
    intro id' v' h'
    rcases lookup_insert_eq_some.1 h' with ⟨-, rfl⟩ | ⟨-, h'⟩
    · omega
    · exact hslots id' v' h'

lemma length_insertAll_iff (l : List (ℕ × ℕ)) : (insertAll ∅ l).entries.length = l.length ↔ (l.map fst).Nodup := by
  have hkeys : (insertAll ∅ l).keys.toFinset = (l.map fst).toFinset := by
    ext id
    rw [List.mem_toFinset, ← AList.mem_keys, mem_insertAll]
    simp
  have hlength : (insertAll ∅ l).entries.length = (l.map fst).dedup.length := by
    rw [← card_toFinset, ← hkeys, toFinset_card_of_nodup (keys_nodup _), AList.keys, List.keys, length_map]
  rw [hlength]
  constructor
  · intro h
    have heq := (dedup_sublist (l.map fst)).eq_of_length (by rw [h, length_map])
    rw [← heq]
    exact nodup_dedup _
  · intro h
    rw [List.Nodup.dedup h, length_map]

/-! ## The first part of `InitData` -/

/-- A message that `InitData` does not reject at once. -/
structure CBlockHeaderAndShortTxIDs.Passes (cmpctblock : CBlockHeaderAndShortTxIDs) : Prop where
  header : cmpctblock.header.isNull = false
  pos : 0 < cmpctblock.blockTxCount
  size : cmpctblock.blockTxCount ≤ MAX_BLOCK_WEIGHT / MIN_SERIALIZABLE_TRANSACTION_WEIGHT
  placeable : Placeable cmpctblock.shorttxids.length 0 0 cmpctblock.prefilledtxn

/-- The slots of a message, after the prefilled transactions have been put there. -/
structure Placed (cmpctblock : CBlockHeaderAndShortTxIDs) (placed : Slots) : Prop where
  length : placed.length = cmpctblock.blockTxCount
  filled_eq : ∀ p, filled placed p = decide (p ∈ prefilledPositions 0 cmpctblock.prefilledtxn)

variable {E : CompactEnv} {cmpctblock : CBlockHeaderAndShortTxIDs} {placed : Slots} {rounds : ℕ}

variable (cmpctblock) in
lemma placePrefilled_message :
    (¬ Placeable cmpctblock.shorttxids.length 0 0 cmpctblock.prefilledtxn ∧
      placePrefilled cmpctblock.shorttxids.length cmpctblock.prefilledtxn 0 (-1)
        (replicate cmpctblock.blockTxCount none) = .ok none) ∨
    (Placeable cmpctblock.shorttxids.length 0 0 cmpctblock.prefilledtxn ∧ ∃ placed, Placed cmpctblock placed ∧
      placePrefilled cmpctblock.shorttxids.length cmpctblock.prefilledtxn 0 (-1)
        (replicate cmpctblock.blockTxCount none) = .ok (some placed)) := by
  have hlen : cmpctblock.shorttxids.length + 0 + cmpctblock.prefilledtxn.length =
      (replicate cmpctblock.blockTxCount (none : Option CMutableTransaction)).length := by
    rw [length_replicate]
    rfl
  rcases placePrefilled_spec _ _ 0 0 _ hlen with h | ⟨hplaceable, placed, hrun, hlength, hfilled⟩
  · exact .inl h
  · refine .inr ⟨hplaceable, placed, ⟨by rw [hlength, length_replicate], fun p => ?_⟩, hrun⟩
    rw [hfilled, filled_replicate, Bool.or_false]

lemma initSlots_of_not_passes (h : ¬ cmpctblock.Passes) : initSlots E cmpctblock rounds = .ok (.inl .INVALID) := by
  unfold initSlots
  split_ifs with hempty hsize
  · rfl
  · rfl
  rcases placePrefilled_message cmpctblock with ⟨-, hrun⟩ | ⟨hplaceable, -⟩
  · rw [hrun]
  · refine absurd ⟨?_, ?_, Nat.le_of_not_lt hsize, hplaceable⟩ h
    · simp only [Bool.or_eq_true, not_or] at hempty
      simpa using hempty.1
    · simp only [Bool.or_eq_true, not_or, Bool.and_eq_true, List.isEmpty_iff, not_and] at hempty
      rw [blockTxCount]
      have hids := length_pos_iff (l := cmpctblock.shorttxids)
      have hprefilled := length_pos_iff (l := cmpctblock.prefilledtxn)
      by_cases hnil : cmpctblock.shorttxids = []
      · have := hprefilled.2 (hempty.2 hnil)
        omega
      · have := hids.2 hnil
        omega

/-- The part of `InitData` after the prefilled transactions have been put into their slots. -/
def afterPlacing (E : CompactEnv) (cmpctblock : CBlockHeaderAndShortTxIDs) (placed : Slots) (rounds : ℕ) :
    Except CompactError (ReadStatus ⊕ Slots × AList fun _ : ℕ => ℕ) :=
  match mapShortIds E cmpctblock.shorttxids placed rounds cmpctblock.shorttxids 0 0 ∅ with
  | .error e => .error e
  | .ok none => .ok (.inl .FAILED)
  | .ok (some slots) =>
    if slots.entries.length ≠ cmpctblock.shorttxids.length then .ok (.inl .FAILED) else .ok (.inr (placed, slots))

section

variable (h : cmpctblock.Passes)
include h

lemma CBlockHeaderAndShortTxIDs.Passes.initSlots_eq :
    ∃ placed, Placed cmpctblock placed ∧
      placePrefilled cmpctblock.shorttxids.length cmpctblock.prefilledtxn 0 (-1)
        (replicate cmpctblock.blockTxCount none) = .ok (some placed) ∧
      ∀ E rounds, initSlots E cmpctblock rounds = afterPlacing E cmpctblock placed rounds := by
  rcases placePrefilled_message cmpctblock with ⟨hnot, -⟩ | ⟨-, placed, hplaced, hrun⟩
  · exact absurd h.placeable hnot
  · refine ⟨placed, hplaced, hrun, fun E rounds => ?_⟩
    have hempty : (cmpctblock.header.isNull || (cmpctblock.shorttxids.isEmpty && cmpctblock.prefilledtxn.isEmpty)) = false := by
      have hpos := h.pos
      rw [h.header, Bool.false_or, Bool.and_eq_false_iff, isEmpty_eq_false_iff, isEmpty_eq_false_iff,
        ← length_pos_iff, ← length_pos_iff]
      rw [blockTxCount] at hpos
      omega
    unfold initSlots
    rw [if_neg (by rw [hempty]; exact Bool.false_ne_true), if_neg (not_lt.2 h.size), hrun]
    rfl

/-- The prefilled transactions take as many slots as there are, and the short ids the others. -/
theorem CBlockHeaderAndShortTxIDs.Passes.counts (hplaced : Placed cmpctblock placed) :
    filledFrom placed 0 = cmpctblock.prefilledtxn.length ∧ (freeFrom placed 0).length = cmpctblock.shorttxids.length := by
  have hfilled : filledFrom placed 0 = cmpctblock.prefilledtxn.length := by
    rw [filledFrom, countP_eq_length_filter, ← length_prefilledPositions 0]
    apply List.Perm.length_eq
    rw [perm_ext_iff_of_nodup (List.Nodup.filter _ nodup_range') (nodup_prefilledPositions 0 _)]
    intro p
    rw [List.mem_filter, mem_range'_1, hplaced.filled_eq, decide_eq_true_iff, hplaced.length]
    refine ⟨fun hp => hp.2, fun hp => ⟨?_, hp⟩⟩
    have := (h.placeable.le hp).2
    rw [blockTxCount]
    omega
  have hsum := length_freeFrom_add placed
  rw [hplaced.length, blockTxCount] at hsum
  exact ⟨hfilled, by omega⟩

lemma CBlockHeaderAndShortTxIDs.Passes.positions_subset :
    (prefilledPositions 0 cmpctblock.prefilledtxn).toFinset ⊆ Finset.range (2 ^ 16) := by
  intro p hp
  have := (h.placeable.le (List.mem_toFinset.1 hp)).1
  rw [Finset.mem_range]
  omega

lemma CBlockHeaderAndShortTxIDs.Passes.prefilled_le : cmpctblock.prefilledtxn.length ≤ 2 ^ 16 := by
  have hcard := card_le_card h.positions_subset
  rwa [toFinset_card_of_nodup (nodup_prefilledPositions 0 _), length_prefilledPositions, card_range] at hcard

/-- The first part of `InitData`, while the offset does not wrap. -/
theorem CBlockHeaderAndShortTxIDs.Passes.afterPlacing_spec (hplaced : Placed cmpctblock placed)
    (hprefilled : cmpctblock.prefilledtxn.length < 2 ^ 16) (E : CompactEnv) (rounds : ℕ) :
    (cmpctblock.shorttxids.Nodup ∧ afterPlacing E cmpctblock placed rounds =
        .ok (.inr (placed, insertAll ∅ (cmpctblock.shorttxids.zip (freeFrom placed 0))))) ∨
      (afterPlacing E cmpctblock placed rounds = .ok (.inl .FAILED) ∧
        (cmpctblock.shorttxids.Nodup → ∃ n ids id, 12 < E.bucketSize n ids id)) ∨
      (afterPlacing E cmpctblock placed rounds = .error .outOfRounds ∧ rounds ≤ 2 ^ 16) := by
  obtain ⟨hfilled, hfree⟩ := h.counts hplaced
  have hmap := mapShortIds_spec E cmpctblock.shorttxids placed rounds cmpctblock.shorttxids 0 0 ∅
    hfree.ge (by rw [zero_add, hfilled]; exact hprefilled)
  have hfst : (cmpctblock.shorttxids.zip (freeFrom placed 0)).map fst = cmpctblock.shorttxids :=
    map_fst_zip hfree.ge
  have hsize := length_insertAll_iff (cmpctblock.shorttxids.zip (freeFrom placed 0))
  rw [hfst, length_zip, hfree, min_self] at hsize
  rw [afterPlacing]
  rcases hmap with hok | ⟨hnone, hbucket⟩ | ⟨herror, hrounds⟩
  · rw [hok]
    simp only [ne_eq, zero_add]
    by_cases hnodup : cmpctblock.shorttxids.Nodup
    · exact .inl ⟨hnodup, if_neg (not_not.2 (hsize.2 hnodup))⟩
    · exact .inr (.inl ⟨if_pos fun heq => hnodup (hsize.1 heq), fun hno => absurd hno hnodup⟩)
  · rw [hnone]
    exact .inr (.inl ⟨rfl, fun _ => ⟨_, hbucket⟩⟩)
  · rw [herror]
    exact .inr (.inr ⟨rfl, hrounds⟩)

/-- **With `2 ^ 16` prefilled transactions and a short id the loop that skips slots does not end.** -/
theorem CBlockHeaderAndShortTxIDs.Passes.afterPlacing_endless (hplaced : Placed cmpctblock placed)
    (hprefilled : cmpctblock.prefilledtxn.length = 2 ^ 16) (hids : cmpctblock.shorttxids ≠ []) (E : CompactEnv) (rounds : ℕ) :
    afterPlacing E cmpctblock placed rounds = .error .outOfRounds := by
  -- the positions are all numbers of 16 bits
  have hall : ∀ p < 2 ^ 16, filled placed p = true := by
    have hcard : (prefilledPositions 0 cmpctblock.prefilledtxn).toFinset.card = 2 ^ 16 := by
      rw [toFinset_card_of_nodup (nodup_prefilledPositions 0 _), length_prefilledPositions, hprefilled]
    have heq := eq_of_subset_of_card_le h.positions_subset (by rw [hcard, card_range])
    intro p hp
    rw [hplaced.filled_eq, decide_eq_true_iff, ← List.mem_toFinset, heq, Finset.mem_range]
    exact hp
  obtain ⟨id, rest, hcons⟩ := exists_cons_of_ne_nil hids
  rw [afterPlacing]
  nth_rewrite 2 [hcons]
  rw [mapShortIds, skipAvailable_endless hall rounds (by positivity)]

end

end Soferox
