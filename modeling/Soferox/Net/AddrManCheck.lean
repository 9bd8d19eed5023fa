import Soferox.Lib.Restrict
import Soferox.Net.AddrManRuns

/-!
# What `Check_` checks

* `CAddrMan.Consistent` — what `Check_` is about, without its loops;
* `CAddrMan.check_eq_ok_iff` — `Check_` returns 0 exactly then;
* `CAddrMan.run_check` — it does so after every run.
-/

namespace Soferox

open Lib Multiset List Option Except Bool AList

namespace CAddrMan

variable {P : AddrManParams} {loose : Set ℕ} {k : ℤ} {s : CAddrMan} {n : ℕ} {info : CAddrInfo} {code : ℤ}

/-! ## Consistent tables -/

/-- What `Check_` wants of one entry. -/
structure EntryChecked (s : CAddrMan) (n : ℕ) (info : CAddrInfo) : Prop where
  ofTried : info.fInTried = true → info.nLastSuccess ≠ 0 ∧ info.nRefCount = 0
  ofNew : info.fInTried = false → 0 < info.nRefCount ∧ info.nRefCount ≤ ADDRMAN_NEW_BUCKETS_PER_ADDRESS
  addr : (s.mapAddr.lookup info.net).getD 0 = n
  position : s.vRandom[info.nRandomPos]? = some n
  nLastTry : 0 ≤ info.nLastTry
  nLastSuccess : 0 ≤ info.nLastSuccess

/-- **Consistent tables.** A tried entry is in its own slot only; a new entry is in as many slots as it has
references, at its position in each bucket. -/
structure Consistent (P : AddrManParams) (s : CAddrMan) : Prop where
  total : (s.vRandom.length : ℤ) = s.nTried + s.nNew
  entry : ∀ n info, s.mapInfo.lookup n = some info → EntryChecked s n info
  nTried_eq : s.nTried = s.mapInfo.entries.countP fun e => e.2.fInTried
  nNew_eq : s.nNew = s.mapInfo.entries.countP fun e => !e.2.fInTried
  tried : ∀ slot n, s.vvTried slot = some n ↔
    ∃ info, s.mapInfo.lookup n = some info ∧ info.fInTried = true ∧ slot = s.triedSlot P info
  new : ∀ slot n, s.vvNew slot = some n →
    ∃ info, s.mapInfo.lookup n = some info ∧ info.fInTried = false ∧ slot = s.newSlot P info slot.1
  refs : ∀ n info, s.mapInfo.lookup n = some info → info.nRefCount = occ s.vvNew n
  nKey_ne : s.nKey ≠ 0

/-! ## Ids, entry by entry -/

section Ids

variable {β : Type} {l : List (Sigma fun _ : ℕ => β)} {f : Sigma (fun _ : ℕ => β) → Multiset ℕ}

/-- In a sum over entries with different keys, a key is counted by its own entry only. -/
theorem count_sum_map (hl : l.NodupKeys) (hf : ∀ e m, m ≠ e.1 → (f e).count m = 0) (n : ℕ) :
    (l.map f).sum.count n = (l.dlookup n).elim 0 fun b => (f ⟨n, b⟩).count n := by
  induction l with
  | nil => simp
  | cons e l ih =>
    obtain ⟨m, b⟩ := e
    rw [nodupKeys_cons] at hl
    rw [List.map_cons, List.sum_cons, count_add, ih hl.2]
    by_cases hm : n = m
    · subst hm
      rw [dlookup_eq_none.2 hl.1]
      simp
    · rw [dlookup_cons_ne _ _ hm, hf _ n hm, zero_add]

/-- The keys of such a sum, when an entry adds its key or nothing. -/
theorem card_toFinset_sum_map {p : Sigma (fun _ : ℕ => β) → Bool} (hl : l.NodupKeys)
    (hf : ∀ e ∈ l, (f e).toFinset = if p e then {e.1} else ∅) : (l.map f).sum.toFinset.card = l.countP p := by
  have hset : (l.map f).sum.toFinset = ((l.filter p).map Sigma.fst).toFinset := by
    clear hl
    induction l with
    | nil => rfl
    | cons e l ih =>
      rw [List.map_cons, List.sum_cons, toFinset_add, ih fun e' he' => hf e' (List.mem_cons_of_mem e he'),
        hf e List.mem_cons_self, List.filter_cons]
      split_ifs with hp
      · simp
      · simp
  have hnodup : ((l.filter p).map Sigma.fst).Nodup := hl.sublist filter_sublist
  rw [hset, List.toFinset_card_of_nodup hnodup, length_map, countP_eq_length_filter]

end Ids

/-- What an entry adds to `setTried`. -/
def triedIds (e : AddrEntry) : Multiset ℕ := if e.2.fInTried then {e.1} else 0

/-- What an entry adds to `mapNew`. -/
def newIds (e : AddrEntry) : Multiset ℕ :=
  if e.2.fInTried then 0 else Multiset.replicate e.2.nRefCount.toNat e.1

lemma count_triedIds (s : CAddrMan) (n : ℕ) :
    (s.mapInfo.entries.map triedIds).sum.count n = (s.mapInfo.lookup n).elim 0 fun info => info.fInTried.toNat := by
  rw [count_sum_map s.mapInfo.nodupKeys ?_ n]
  · show Option.elim (s.mapInfo.lookup n) _ _ = _
    rcases s.mapInfo.lookup n with _ | info
    · rfl
    · rcases htried : info.fInTried with _ | _ <;> simp [triedIds, htried]
  · intro e m hm
    unfold triedIds
    split_ifs
    · rw [Multiset.count_singleton, if_neg hm]
    · rfl

lemma count_newIds (s : CAddrMan) (n : ℕ) : (s.mapInfo.entries.map newIds).sum.count n =
    (s.mapInfo.lookup n).elim 0 fun info => if info.fInTried then 0 else info.nRefCount.toNat := by
  rw [count_sum_map s.mapInfo.nodupKeys ?_ n]
  · show Option.elim (s.mapInfo.lookup n) _ _ = _
    rcases s.mapInfo.lookup n with _ | info
    · rfl
    · rcases htried : info.fInTried with _ | _ <;> simp [newIds, htried]
  · intro e m hm
    unfold newIds
    split_ifs
    · rfl
    · rw [Multiset.count_replicate, if_neg (Ne.symm hm)]

/-! ## The loops -/

lemma checkCode_eq_ok {b : Bool} {u : Unit} : checkCode b code = .ok u ↔ b = true := by
  unfold checkCode
  split_ifs with hb
  · exact iff_of_true rfl hb
  · exact iff_of_false nofun hb

variable {sets sets' : Multiset ℕ × Multiset ℕ}

lemma checkTable_eq_ok :
    checkTable sets n info = .ok sets' ↔ (info.fInTried = true → info.nLastSuccess ≠ 0 ∧ info.nRefCount = 0) ∧
      (info.fInTried = false → 0 < info.nRefCount ∧ info.nRefCount ≤ ADDRMAN_NEW_BUCKETS_PER_ADDRESS) ∧
      sets' = (sets.1 + triedIds ⟨n, info⟩, sets.2 + newIds ⟨n, info⟩) := by
  unfold checkTable triedIds newIds
  rcases htried : info.fInTried with _ | _
  · simp only [false_eq_true, if_false, bind_eq_ok, checkCode_eq_ok, pure, Except.pure]
    simp only [and_eq_true, decide_eq_true_eq, bne_iff_ne, ok.injEq, exists_const, add_zero]
    grind
  · simp only [if_true, bind_eq_ok, checkCode_eq_ok, pure, Except.pure]
    simp only [beq_iff_eq, bne_iff_ne, ok.injEq, exists_const, add_zero, Multiset.add_comm sets.1, singleton_add]
    grind

lemma checkEntry_eq_ok {e : AddrEntry} : s.checkEntry sets e = .ok sets' ↔
    EntryChecked s e.1 e.2 ∧ sets' = (sets.1 + triedIds e, sets.2 + newIds e) := by
  simp only [checkEntry, bind_eq_ok, checkTable_eq_ok, checkCode_eq_ok, pure, Except.pure, beq_iff_eq, decide_eq_true_eq,
    ok.injEq]
  constructor
  · rintro ⟨_, ⟨htried, hnew, rfl⟩, -, haddr, -, hpos, -, hlastTry, -, hsuccess, rfl⟩
    exact ⟨⟨htried, hnew, haddr, hpos, hlastTry, hsuccess⟩, rfl⟩
  · rintro ⟨h, rfl⟩
    exact ⟨_, ⟨h.ofTried, h.ofNew, rfl⟩, (), h.addr, (), h.position, (), h.nLastTry, (), h.nLastSuccess, rfl⟩

lemma foldlM_checkEntry {l : List AddrEntry} : l.foldlM s.checkEntry sets = .ok sets' ↔
    (∀ e ∈ l, EntryChecked s e.1 e.2) ∧ sets' = (sets.1 + (l.map triedIds).sum, sets.2 + (l.map newIds).sum) := by
  induction l generalizing sets with
  | nil => simp [pure, Except.pure, eq_comm]
  | cons e l ih =>
    simp only [foldlM_cons, bind_eq_ok, checkEntry_eq_ok, ih, List.forall_mem_cons, List.map_cons, List.sum_cons]
    constructor
    · rintro ⟨_, ⟨he, rfl⟩, hl, rfl⟩
      exact ⟨⟨he, hl⟩, by simp [add_assoc]⟩
    · rintro ⟨⟨he, hl⟩, rfl⟩
      exact ⟨_, ⟨he, rfl⟩, hl, by simp [add_assoc]⟩

lemma foldlM_checkSlot {B : Type} {t : B × BucketPos → Option ℕ} {check : B × BucketPos → ℕ → Except ℤ Unit}
    {xs : List (B × BucketPos)} {set set' : Multiset ℕ} : xs.foldlM (checkSlot t code check) set = .ok set' ↔
      (∀ x ∈ xs, ∀ n, t x = some n → check x n = .ok ()) ∧ set = set' + xs.filterMap t := by
  induction xs generalizing set with
  | nil => simp [pure, Except.pure]
  | cons x xs ih =>
    rw [foldlM_cons, bind_eq_ok, List.forall_mem_cons]
    rcases hx : t x with _ | n
    · simp [checkSlot, hx, ih]
    · rw [List.filterMap_cons_some hx]
      simp only [checkSlot, hx, bind_eq_ok, checkCode_eq_ok, decide_eq_true_eq, pure, Except.pure, ok.injEq, ih]
      constructor
      · rintro ⟨_, ⟨-, hmem, u, hcheck, rfl⟩, hall, hset⟩
        refine ⟨⟨?_, hall⟩, ?_⟩
        · intro m hm
          rw [← some.inj hm]
          exact hcheck
        · rw [← cons_coe, add_cons, ← hset, cons_erase hmem]
      · rintro ⟨⟨hcheck, hall⟩, rfl⟩
        rw [← cons_coe, add_cons]
        exact ⟨_, ⟨(), Multiset.mem_cons_self n _, (), hcheck n rfl, rfl⟩, hall, Multiset.erase_cons_head n _⟩

lemma checkTriedSlot_eq_ok {slot : TriedBucket × BucketPos} :
    s.checkTriedSlot P slot n = .ok () ↔ ∃ info, s.mapInfo.lookup n = some info ∧ slot = s.triedSlot P info := by
  simp only [checkTriedSlot, bind_eq_ok, checkCode_eq_ok]
  rcases s.mapInfo.lookup n with _ | info
  · simp
  · simp only [triedSlot]
    grind

lemma checkNewSlot_eq_ok {slot : NewBucket × BucketPos} :
    s.checkNewSlot P slot n = .ok () ↔ ∃ info, s.mapInfo.lookup n = some info ∧ slot = s.newSlot P info slot.1 := by
  simp only [checkNewSlot, checkCode_eq_ok]
  rcases s.mapInfo.lookup n with _ | info
  · simp
  · simp only [any_some, beq_iff_eq, some.injEq, exists_eq_left']
    exact eq_comm

lemma nodup_slots (buckets : ℕ) : (slots buckets).Nodup := (nodup_finRange buckets).product (nodup_finRange 64)

lemma mem_slots {buckets : ℕ} (slot : Fin buckets × BucketPos) : slot ∈ slots buckets := by
  obtain ⟨bucket, pos⟩ := slot
  exact pair_mem_product.2 ⟨mem_finRange bucket, mem_finRange pos⟩

lemma infos_perm (s : CAddrMan) : s.infos.Perm s.mapInfo.entries := mergeSort_perm _ _

/-! ## `Check_` -/

lemma check_eq_ok : s.check P = .ok () ↔
    (s.vRandom.length : ℤ) = s.nTried + s.nNew ∧
    (∀ n info, s.mapInfo.lookup n = some info → EntryChecked s n info) ∧
    ((s.mapInfo.entries.map triedIds).sum.toFinset.card : ℤ) = s.nTried ∧
    ((s.mapInfo.entries.map newIds).sum.toFinset.card : ℤ) = s.nNew ∧
    (∀ slot n, s.vvTried slot = some n → ∃ info, s.mapInfo.lookup n = some info ∧ slot = s.triedSlot P info) ∧
    (s.mapInfo.entries.map triedIds).sum = (slots 256).filterMap s.vvTried ∧
    (∀ slot n, s.vvNew slot = some n → ∃ info, s.mapInfo.lookup n = some info ∧ slot = s.newSlot P info slot.1) ∧
    (s.mapInfo.entries.map newIds).sum = (slots 1024).filterMap s.vvNew ∧ s.nKey ≠ 0 := by
  have hentries : (∀ e ∈ s.infos, EntryChecked s e.1 e.2) ↔
      ∀ n info, s.mapInfo.lookup n = some info → EntryChecked s n info := by
    constructor
    · intro h n info hn
      exact h ⟨n, info⟩ ((infos_perm s).mem_iff.2 (mem_lookup_iff.1 hn))
    · intro h e he
      exact h e.1 e.2 (mem_lookup_iff.2 ((infos_perm s).mem_iff.1 he))
  simp only [check, bind_eq_ok, checkCode_eq_ok, foldlM_checkEntry, hentries, ((infos_perm s).map _).sum_eq, foldlM_checkSlot,
    checkTriedSlot_eq_ok, checkNewSlot_eq_ok, beq_iff_eq, bne_iff_ne, decide_eq_true_eq, zero_add]
  constructor
  · rintro ⟨-, htotal, _, ⟨hentry, rfl⟩, -, htried, -, hnew, _, ⟨htslots, ht⟩, _, ⟨hnslots, hn⟩, -, rfl, -, rfl, hkey⟩
    rw [zero_add] at ht hn
    exact ⟨htotal, hentry, htried, hnew, fun slot => htslots slot (mem_slots slot), ht,
      fun slot => hnslots slot (mem_slots slot), hn, hkey⟩
  · rintro ⟨htotal, hentry, htried, hnew, htslots, ht, hnslots, hn, hkey⟩
    exact ⟨(), htotal, _, ⟨hentry, rfl⟩, (), htried, (), hnew, 0, ⟨fun slot _ => htslots slot, by rw [zero_add, ht]⟩, 0,
      ⟨fun slot _ => hnslots slot, by rw [zero_add, hn]⟩, (), rfl, (), rfl, hkey⟩

/-- Where all tried entries are in their own slots, the table has each of them once. -/
theorem occ_vvTried (htried : ∀ slot n, s.vvTried slot = some n ↔
    ∃ info, s.mapInfo.lookup n = some info ∧ info.fInTried = true ∧ slot = s.triedSlot P info) (n : ℕ) :
    occ s.vvTried n = (s.mapInfo.lookup n).elim 0 fun info => info.fInTried.toNat := by
  unfold occ
  rcases hn : s.mapInfo.lookup n with _ | info
  · rw [elim_none, Finset.card_eq_zero, Finset.filter_eq_empty_iff]
    intro slot _ hslot
    obtain ⟨info, hn', -⟩ := (htried slot n).1 hslot
    rw [hn] at hn'
    cases hn'
  · have hiff (slot : TriedBucket × BucketPos) : s.vvTried slot = some n ↔ info.fInTried = true ∧ slot = s.triedSlot P info := by
      rw [htried, hn]
      simp
    simp only [hiff, elim_some]
    rcases info.fInTried with _ | _
    · simp
    · simp [Finset.filter_eq']

lemma card_triedIds (s : CAddrMan) :
    (s.mapInfo.entries.map triedIds).sum.toFinset.card = s.mapInfo.entries.countP fun e => e.2.fInTried := by
  refine card_toFinset_sum_map s.mapInfo.nodupKeys fun e _ => ?_
  unfold triedIds
  split_ifs <;> simp

lemma card_newIds (hentry : ∀ n info, s.mapInfo.lookup n = some info → EntryChecked s n info) :
    (s.mapInfo.entries.map newIds).sum.toFinset.card = s.mapInfo.entries.countP fun e => !e.2.fInTried := by
  refine card_toFinset_sum_map s.mapInfo.nodupKeys fun e he => ?_
  unfold newIds
  rcases htried : e.2.fInTried with _ | _
  · have hpos := ((hentry e.1 e.2 (mem_lookup_iff.2 he)).ofNew htried).1
    simp only [false_eq_true, if_false, Bool.not_false, if_true]
    rw [toFinset_replicate, if_neg (by omega)]
  · simp

lemma triedIds_eq_iff (s : CAddrMan) : (s.mapInfo.entries.map triedIds).sum = (slots 256).filterMap s.vvTried ↔
    ∀ n, (s.mapInfo.lookup n).elim 0 (fun info => info.fInTried.toNat) = occ s.vvTried n := by
  simp [Multiset.ext, count_triedIds, coe_count, count_filterMap (nodup_slots 256) mem_slots]

lemma newIds_eq_iff (s : CAddrMan) : (s.mapInfo.entries.map newIds).sum = (slots 1024).filterMap s.vvNew ↔
    ∀ n, (s.mapInfo.lookup n).elim 0 (fun info => if info.fInTried then 0 else info.nRefCount.toNat) = occ s.vvNew n := by
  simp only [Multiset.ext, count_newIds, coe_count, count_filterMap (nodup_slots 1024) mem_slots]

/-- **`Check_` returns 0 exactly on consistent tables.** -/
theorem check_eq_ok_iff : s.check P = .ok () ↔ Consistent P s := by
  rw [check_eq_ok, triedIds_eq_iff, newIds_eq_iff, card_triedIds]
  constructor
  · rintro ⟨htotal, hentry, hnTried, hnNew, htslots, htried, hnslots, hnew, hkey⟩
    rw [card_newIds hentry] at hnNew
    refine ⟨htotal, hentry, hnTried.symm, hnNew.symm, ?_, ?_, ?_, hkey⟩
    · intro slot n
      constructor
      · intro hslot
        obtain ⟨info, hn, hpos⟩ := htslots slot n hslot
        have hocc : 0 < occ s.vvTried n := occ_pos_iff.2 ⟨slot, hslot⟩
        rw [← htried, hn] at hocc
        refine ⟨info, hn, ?_, hpos⟩
        by_contra hnot
        rw [elim_some, eq_false_of_not_eq_true hnot] at hocc
        exact lt_irrefl 0 hocc
      · rintro ⟨info, hn, hinTried, rfl⟩
        have hcount := htried n
        rw [hn, elim_some, hinTried] at hcount
        obtain ⟨slot, hslot⟩ := occ_pos_iff.1 (hcount.symm ▸ Nat.one_pos : 0 < occ s.vvTried n)
        obtain ⟨info', hn', hpos⟩ := htslots slot n hslot
        rw [hn] at hn'
        cases hn'
        exact hpos ▸ hslot
    · intro slot n hslot
      obtain ⟨info, hn, hpos⟩ := hnslots slot n hslot
      refine ⟨info, hn, ?_, hpos⟩
      have hocc : 0 < occ s.vvNew n := occ_pos_iff.2 ⟨slot, hslot⟩
      rw [← hnew, hn, elim_some] at hocc
      by_contra hinTried
      rw [if_pos (eq_true_of_not_eq_false hinTried)] at hocc
      exact lt_irrefl 0 hocc
    · intro n info hn
      have hcount := hnew n
      rw [hn, elim_some] at hcount
      rcases htried : info.fInTried with _ | _
      · have hpos := ((hentry n info hn).ofNew htried).1
        rw [htried, if_neg Bool.false_ne_true] at hcount
        omega
      · rw [((hentry n info hn).ofTried htried).2, ← hcount, if_pos htried]
        rfl
  · intro h
    refine ⟨h.total, h.entry, h.nTried_eq.symm, ?_, ?_, fun n => (occ_vvTried h.tried n).symm, ?_, ?_, h.nKey_ne⟩
    · rw [card_newIds h.entry, h.nNew_eq]
    · intro slot n hslot
      obtain ⟨info, hn, -, hpos⟩ := (h.tried slot n).1 hslot
      exact ⟨info, hn, hpos⟩
    · intro slot n hslot
      obtain ⟨info, hn, -, hpos⟩ := h.new slot n hslot
      exact ⟨info, hn, hpos⟩
    · intro n
      rcases hn : s.mapInfo.lookup n with _ | info
      · refine (occ_eq_zero_iff.2 fun slot hslot => ?_).symm
        obtain ⟨info, hn', -⟩ := h.new slot n hslot
        rw [hn] at hn'
        cases hn'
      · have hrefs := h.refs n info hn
        rw [elim_some]
        split_ifs with htried
        · have hzero := ((h.entry n info hn).ofTried htried).2
          omega
        · omega

lemma Inv.length_vRandom (h : Inv P loose k s) : s.vRandom.length = s.mapInfo.entries.length := by
  have hperm : s.vRandom.Perm s.mapInfo.keys := by
    rw [perm_ext_iff_of_nodup h.positions.nodup s.mapInfo.keys_nodup]
    intro n
    rw [← AList.mem_keys, ← lookup_isSome, isSome_iff_exists, mem_iff_getElem?]
    constructor
    · rintro ⟨i, hi⟩
      obtain ⟨info, hn, -⟩ := h.lookup_of_getElem hi
      exact ⟨info, hn⟩
    · rintro ⟨info, hn⟩
      exact ⟨info.nRandomPos, h.getElem_of_lookup hn⟩
  rw [hperm.length_eq, AList.keys, List.keys, length_map]

lemma filled_vvTried (htried : ∀ slot n, s.vvTried slot = some n ↔
    ∃ info, s.mapInfo.lookup n = some info ∧ info.fInTried = true ∧ slot = s.triedSlot P info) :
    filled s.vvTried = s.mapInfo.entries.countP fun e => e.2.fInTried := by
  have hids : (s.mapInfo.entries.map triedIds).sum = (slots 256).filterMap s.vvTried := by
    rw [triedIds_eq_iff]
    exact fun n => (occ_vvTried htried n).symm
  have hnodup : (s.mapInfo.entries.map triedIds).sum.Nodup := by
    rw [Multiset.nodup_iff_count_le_one]
    intro n
    rw [count_triedIds]
    rcases s.mapInfo.lookup n with _ | info
    · exact Nat.zero_le 1
    · exact toNat_le info.fInTried
  calc filled s.vvTried = (s.mapInfo.entries.map triedIds).sum.card := by
        rw [hids, coe_card, length_filterMap (nodup_slots 256) mem_slots]
    _ = s.mapInfo.entries.countP fun e => e.2.fInTried := by
        rw [← Multiset.toFinset_card_of_nodup hnodup, card_triedIds]

lemma Inv.consistent (h : Inv P ∅ 0 s) : Consistent P s where
  total := by rw [h.total, add_zero]
  entry := by
    intro n info hn
    have hentry := h.entry n info hn
    refine ⟨fun htried => ⟨hentry.succeeded htried, h.nRefCount_of_tried hn htried⟩, ?_, ?_, h.getElem_of_lookup hn,
      hentry.nLastTry, hentry.nLastSuccess⟩
    · intro hnew
      exact ⟨hentry.referenced hnew (Set.notMem_empty n), hentry.nRefCount_le⟩
    · rw [(h.addrs info.net n).2 ⟨info, hn, rfl⟩, getD_some]
  nTried_eq := by rw [h.nTried_eq, filled_vvTried h.tried]
  nNew_eq := by
    have htotal := h.total
    have hsplit := length_eq_countP_add_countP (l := s.mapInfo.entries) fun e => e.2.fInTried
    rw [h.nTried_eq, filled_vvTried h.tried, h.length_vRandom, hsplit] at htotal
    simp only [not_eq_true, decide_eq_false] at htotal
    omega
  __ := h

/-! ## After every run -/

/-- **A run succeeds, and `Check_` finds nothing after it**, exactly when there is an id for every entry it creates: no
`assert` fails, and every entry is in its tried slot or in as many new slots as it has references. -/
theorem run_check (P : AddrManParams) (nKey : Uint256) (ops : List AddrManOp) (hkey : nKey ≠ 0)
    (hops : ∀ op ∈ ops, op.Timely) :
    (∃ s, ops.foldlM (CAddrMan.step P) (clear nKey) = .ok s ∧ s.check P = .ok () ∧
      (∀ net n, s.mapAddr.lookup net = some n ↔ ∃ info, s.mapInfo.lookup n = some info ∧ info.net = net) ∧
      (∀ n i, s.vRandom[i]? = some n ↔ ∃ info, s.mapInfo.lookup n = some info ∧ info.nRandomPos = i) ∧
      (∀ slot n, s.vvTried slot = some n → ∃ info, s.mapInfo.lookup n = some info ∧ info.fInTried = true) ∧
      (∀ slot n, s.vvNew slot = some n → ∃ info, s.mapInfo.lookup n = some info ∧ info.fInTried = false) ∧
      (∀ n info, s.mapInfo.lookup n = some info → info.fInTried = true →
        ∀ slot, s.vvTried slot = some n ↔ slot = s.triedSlot P info) ∧
      (∀ n info, s.mapInfo.lookup n = some info → info.fInTried = false →
        1 ≤ info.nRefCount ∧ info.nRefCount ≤ 8 ∧
        info.nRefCount = (Finset.univ.filter fun slot => s.vvNew slot = some n).card ∧
        ∀ slot, s.vvNew slot = some n → slot = s.newSlot P info slot.1) ∧
      s.nTried = s.mapInfo.entries.countP (fun e => e.2.fInTried) ∧
      s.nNew = s.mapInfo.entries.countP (fun e => !e.2.fInTried)) ↔
    Meets (CAddrMan.step P) (HasId P) (clear nKey) ops := by
  constructor
  · rintro ⟨s, hrun, -⟩
    exact meets_of_foldlM (fun _ _ _ => hasId_of_step) hrun
  intro hids
  have hclear : Inv P ∅ 0 (clear nKey) := inv_clear hkey
  obtain ⟨s, hrun, h⟩ := hclear.run hops hids
  have hc := h.consistent
  refine ⟨s, hrun, check_eq_ok_iff.2 hc, h.addrs, ?_, ?_, ?_, ?_, ?_, hc.nTried_eq, hc.nNew_eq⟩
  · intro n i
    rw [← map_eq_some_iff, h.positions n i]
    simp
  · intro slot n hslot
    obtain ⟨info, hn, htried, -⟩ := (h.tried slot n).1 hslot
    exact ⟨info, hn, htried⟩
  · intro slot n hslot
    obtain ⟨info, hn, hnew, -⟩ := h.new slot n hslot
    exact ⟨info, hn, hnew⟩
  · intro n info hn htried slot
    rw [h.tried, hn]
    simp [htried]
  · intro n info hn hnew
    obtain ⟨hpos, hle⟩ := (hc.entry n info hn).ofNew hnew
    refine ⟨hpos, hle, h.refs n info hn, ?_⟩
    intro slot hslot
    obtain ⟨info', hn', -, hplace⟩ := h.new slot n hslot
    rw [hn] at hn'
    cases hn'
    exact hplace

/-- All addresses are routable and share a place in each bucket; the new bucket is not that of another source. -/
def oneSlot : AddrManParams :=
  ⟨fun _ => true, fun _ _ => 0, fun _ net source => if net = 1 then 0 else if source = 7 then 1 else 2, fun _ _ _ _ => 0⟩

/-- Two addresses for one tried slot: the second call of `Good_` moves the first back to new. -/
theorem run_check_evict :
    ∃ s, [AddrManOp.add ⟨⟨1, 1⟩, 0, 100⟩ 7 0 0 100, .add ⟨⟨2, 1⟩, 0, 100⟩ 7 0 0 100, .good ⟨1, 1⟩ 100 0,
      .good ⟨2, 1⟩ 100 0].foldlM (CAddrMan.step oneSlot) (clear 1) = .ok s ∧ s.check oneSlot = .ok () := by
  obtain ⟨s, hrun, hcheck, -⟩ := (run_check oneSlot 1 [AddrManOp.add ⟨⟨1, 1⟩, 0, 100⟩ 7 0 0 100,
    .add ⟨⟨2, 1⟩, 0, 100⟩ 7 0 0 100, .good ⟨1, 1⟩ 100 0, .good ⟨2, 1⟩ 100 0] (by decide) (by simp [AddrManOp.Timely])).2
    (by decide +kernel)
  exact ⟨s, hrun, hcheck⟩

/-! ## The ids run out -/

lemma erase_insert_of_notMem {α : Type*} [DecidableEq α] {β : α → Type*} {m : AList β} {a : α} (h : a ∉ m) (b : β a) :
    (m.insert a b).erase a = m := by
  rw [insert_of_notMem h]
  exact AList.ext (kerase_cons_eq rfl)

/-- An address whose slot is taken gets an id and is deleted again. -/
lemma add_of_taken {addr : CAddress} {source : CNetAddr} {nTimePenalty nNow : ℤ} {rnd : ℕ} {p : NewBucket × BucketPos}
    (hroutable : P.isRoutable addr.service.net = true) (hnet : addr.service.net ∉ s.mapAddr)
    (hid : s.nIdCount + 1 < 2 ^ 31) (hfresh : s.nIdCount ∉ s.mapInfo)
    (hp : p = (P.getNewBucket s.nKey addr.service.net source,
      P.getBucketPosition s.nKey true (P.getNewBucket s.nKey addr.service.net source) addr.service))
    (hslot : s.vvNew p = some n) (hn : s.mapInfo.lookup n = some info) (hkeep : info.isTerrible nNow = false)
    (hrefs : info.nRefCount ≤ 1) :
    s.add P addr source nTimePenalty rnd nNow = .ok ({ s with nIdCount := s.nIdCount + 1 }, true) := by
  have hfind : s.find addr.service.net = none := by simp [find, lookup_eq_none.2 hnet]
  have hne : n ≠ s.nIdCount := by
    rintro rfl
    exact hfresh (lookup_isSome.1 (hn ▸ rfl))
  have hcreate : s.create addr source = .ok (s.created addr source) := if_pos hid
  subst hp
  simp [add, hroutable, hfind, hcreate, created, CAddrInfo.net, CAddrInfo.service, getInfo, setInfo, insert_insert,
    placeNew, newSlot, insertsAt, lookup_insert_ne hne, hslot, hne, hn, hkeep, not_lt.2 hrefs, Bind.bind, Except.bind,
    Pure.pure, Except.pure, CAddrInfo.setTime, CAddrInfo.new, delete, assertThat, swapRandom,
    erase_insert_of_notMem hfresh, erase_insert_of_notMem hnet]

/-- The first address is in its slot, after `n` ids were used. -/
def occupied (n : ℕ) : CAddrMan where
  nIdCount := n
  mapInfo := AList.singleton 0 ⟨⟨⟨2, 1⟩, 0, 100⟩, 7, 0, 0, 0, 0, 1, false, 0⟩
  mapAddr := AList.singleton 2 0
  vRandom := [0]
  nTried := 0
  vvTried _ := none
  nNew := 1
  vvNew := Function.update (fun _ => none) (1, 0) (some 0)
  nLastGood := 1
  nKey := 1

lemma foldlM_occupied {n k : ℕ} (hk : n + k + 2 = 2 ^ 31) :
    (List.replicate (k + 1) (AddrManOp.add ⟨⟨3, 1⟩, 0, 100⟩ 7 0 0 100)).foldlM (CAddrMan.step oneSlot) (occupied (n + 1)) =
      .error .overflow := by
  have hcount : (occupied (n + 1)).nIdCount = n + 1 := rfl
  induction k generalizing n with
  | zero =>
    have hcreate : (occupied (n + 1)).create ⟨⟨3, 1⟩, 0, 100⟩ 7 = .error .overflow := by
      refine if_neg ?_
      omega
    rw [List.replicate_succ, foldlM_cons, CAddrMan.step, CAddrMan.add, hcreate]
    rfl
  | succ k ih =>
    have hadd : (occupied (n + 1)).add oneSlot ⟨⟨3, 1⟩, 0, 100⟩ 7 0 0 100 = .ok (occupied (n + 2), true) :=
      add_of_taken (n := 0) rfl (show (3 : CNetAddr) ∉ [(2 : CNetAddr)] by decide) (by omega)
        (show n + 1 ∉ [0] by simp) rfl rfl rfl (by decide) (by decide)
    rw [List.replicate_succ, foldlM_cons, CAddrMan.step, hadd]
    exact ih (by omega) rfl

/-- **The ids run out.** An address whose slot is taken uses up an id each time it is sent. -/
theorem run_overflow : ∃ ops : List AddrManOp, (∀ op ∈ ops, op.Timely) ∧
    ops.foldlM (CAddrMan.step oneSlot) (clear 1) = .error .overflow := by
  obtain ⟨k, hk⟩ : ∃ k, 0 + k + 2 = 2 ^ 31 := ⟨2 ^ 31 - 2, by norm_num⟩
  have hfirst : (clear 1).step oneSlot (.add ⟨⟨2, 1⟩, 0, 100⟩ 7 0 0 100) = .ok (occupied 1) := rfl
  refine ⟨.add ⟨⟨2, 1⟩, 0, 100⟩ 7 0 0 100 :: List.replicate (k + 1) (.add ⟨⟨3, 1⟩, 0, 100⟩ 7 0 0 100), ?_, ?_⟩
  · simp [AddrManOp.Timely]
  · rw [foldlM_cons, hfirst]
    exact foldlM_occupied hk

end CAddrMan

end Soferox
