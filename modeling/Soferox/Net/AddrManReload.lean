import Soferox.Lib.Runs
import Soferox.Net.AddrManCheck
import Soferox.Net.AddrManDisk

/-!
# The address manager after a restart

What `Unserialize` makes of what `Serialize` has written: the same tables, with the entries numbered in the order of the
file.

* `CAddrMan.serialize_eq` — what is written;
* `CAddrMan.Loaded` — what the loops of `Unserialize` build up, entry by entry and position by position;
* `CAddrMan.reload_consistent` — the tables after a restart.
-/

namespace Soferox

open Lib Function List Option AList Sigma CAddrMan List.Nodup Nat

namespace CAddrMan

/-! ## The order of the file -/

variable {info : CAddrInfo} {n : ℕ} {m : ℕ}

section Order

variable (s : CAddrMan)

/-- The new entries, in the order of their ids. -/
def newEntries : List AddrEntry := s.infos.filter fun e => !e.2.fInTried

/-- The tried entries, in the order of their ids. -/
def triedEntries : List AddrEntry := s.infos.filter fun e => e.2.fInTried
def fileEntries : List AddrEntry := s.newEntries ++ s.triedEntries

/-- The number of an entry in the file. -/
def rank (n : ℕ) : ℕ := (s.fileEntries.map Sigma.fst).idxOf n

lemma fileEntries_perm : s.fileEntries.Perm s.mapInfo.entries := by
  have hsplit := filter_append_perm (fun e : AddrEntry => !e.2.fInTried) s.infos
  simp only [Bool.not_not] at hsplit
  exact hsplit.trans (infos_perm s)

lemma nodup_fileEntries : (s.fileEntries.map fst).Nodup :=
  ((s.fileEntries_perm.map fst).nodup_iff).2 s.mapInfo.nodupKeys

lemma mem_fileEntries : ⟨n, info⟩ ∈ s.fileEntries ↔ s.mapInfo.lookup n = some info :=
  s.fileEntries_perm.mem_iff.trans mem_lookup_iff.symm

lemma rank_of_getElem? {e : AddrEntry} (hm : s.fileEntries[m]? = some e) : s.rank e.1 = m := by
  have hid : (s.fileEntries.map fst)[m]? = some e.1 := by
    rw [getElem?_map, hm]
    rfl
  obtain ⟨hlt, hget⟩ := List.getElem?_eq_some_iff.1 hid
  rw [← hget]
  exact idxOf_getElem s.nodup_fileEntries m hlt

lemma getElem?_fileEntries {n : ℕ} :
    s.fileEntries[m]? = some ⟨n, info⟩ ↔ s.mapInfo.lookup n = some info ∧ s.rank n = m := by
  constructor
  · intro hm
    exact ⟨s.mem_fileEntries.1 (mem_of_getElem? hm), s.rank_of_getElem? hm⟩
  · rintro ⟨hn, rfl⟩
    obtain ⟨m, hm⟩ := mem_iff_getElem?.1 (s.mem_fileEntries.2 hn)
    rwa [s.rank_of_getElem? hm]

lemma rank_inj {n n' : ℕ} {info info' : CAddrInfo} (hn : s.mapInfo.lookup n = some info)
    (hn' : s.mapInfo.lookup n' = some info') (h : s.rank n = s.rank n') : n = n' := by
  have hm := s.getElem?_fileEntries.2 ⟨hn, h⟩
  rw [s.getElem?_fileEntries.2 ⟨hn', rfl⟩] at hm
  exact (congrArg fst (some.inj hm)).symm

lemma getElem?_newEntries (hn : s.mapInfo.lookup n = some info) (hnew : info.fInTried = false) :
    s.newEntries[s.rank n]? = some ⟨n, info⟩ := by
  have hentry : ⟨n, info⟩ ∈ s.newEntries := by
    refine mem_filter.2 ⟨(infos_perm s).mem_iff.2 (mem_lookup_iff.1 hn), ?_⟩
    simp [hnew]
  obtain ⟨j, hj⟩ := mem_iff_getElem?.1 hentry
  have hfile : s.fileEntries[j]? = some ⟨n, info⟩ := by
    rw [fileEntries, getElem?_append_left (List.getElem?_eq_some_iff.1 hj).1, hj]
  rwa [s.rank_of_getElem? hfile]

end Order

variable {P : AddrManParams} {T : SerType} {s st : CAddrMan}

/-- The condition that `Serialize` has for a new entry. -/
def hasRefs (e : AddrEntry) : Bool := e.2.nRefCount ≠ 0

section

variable (h : Consistent P s)
include h

lemma Consistent.newEntries_eq : s.newEntries = s.infos.filter hasRefs := by
  refine filter_congr fun e he => ?_
  rw [hasRefs]
  have hentry := h.entry e.1 e.2 (mem_lookup_iff.2 ((infos_perm s).mem_iff.1 he))
  rcases htried : e.2.fInTried with _ | _
  · have hpos := (hentry.ofNew htried).1
    simp [hpos.ne']
  · simp [(hentry.ofTried htried).2]

lemma Consistent.length_newEntries : (s.newEntries.length : ℤ) = s.nNew := by
  rw [h.nNew_eq, newEntries, ← countP_eq_length_filter, (infos_perm s).countP_eq]

lemma Consistent.length_triedEntries : (s.triedEntries.length : ℤ) = s.nTried := by
  rw [h.nTried_eq, triedEntries, ← countP_eq_length_filter, (infos_perm s).countP_eq]

lemma Consistent.nTried_le : s.nTried ≤ 256 * 64 := by
  rw [h.nTried_eq, ← filled_vvTried h.tried]
  have hcard := filled_le s.vvTried
  simp only [Fintype.card_prod, Fintype.card_fin] at hcard
  omega

lemma Consistent.nNew_le : s.nNew ≤ 1024 * 64 := by
  obtain ⟨-, hentry, -, hnNew, -, -, -, hids, -⟩ := check_eq_ok.1 (check_eq_ok_iff.2 h)
  have hlen : ((slots 1024).filterMap s.vvNew).length ≤ 1024 * 64 := by
    refine (length_filterMap_le _ _).trans ?_
    show ((finRange 1024) ×ˢ (finRange 64)).length ≤ _
    rw [length_product, length_finRange, length_finRange]
  have hcard := Multiset.toFinset_card_le (s.mapInfo.entries.map newIds).sum
  rw [hids] at hcard
  rw [← hnNew, hids]
  exact_mod_cast hcard.trans hlen

end

/-! ## Writing -/

lemma assertThat_bne {k : ℕ} {n : ℤ} (h : k < n) : assertThat ((k : ℤ) != n) = .ok () := if_pos (bne_iff_ne.2 h.ne)

lemma foldlM_writeNew (l : List AddrEntry) (hl : l.NodupKeys) (acc : (ℕ → ℕ) × ℕ × List UInt8)
    (hroom : ((acc.2.1 + (l.filter hasRefs).length : ℕ) : ℤ) ≤ s.nNew) :
    ∃ mapUnkIds, l.foldlM (s.writeNew T) acc =
        .ok (mapUnkIds, acc.2.1 + (l.filter hasRefs).length,
          acc.2.2 ++ (l.filter hasRefs).flatMap fun e => writeInfo T e.2) ∧
      (∀ j e, (l.filter hasRefs)[j]? = some e → mapUnkIds e.1 = acc.2.1 + j) ∧
      ∀ m, m ∉ l.keys → mapUnkIds m = acc.1 m := by
  induction l generalizing acc with
  | nil => exact ⟨acc.1, by simp [pure, Except.pure], by simp, fun _ _ => rfl⟩
  | cons e l ih =>
    obtain ⟨hnot, hl⟩ := nodupKeys_cons.1 hl
    have hself {f : ℕ → ℕ} {g : ℕ → ℕ} {v : ℕ} (hfg : ∀ m, m ∉ l.keys → f m = update g e.1 v m) : f e.1 = v := by
      rw [hfg e.1 hnot, update_self]
    have hother {f : ℕ → ℕ} {g : ℕ → ℕ} {v : ℕ} (hfg : ∀ m, m ∉ l.keys → f m = update g e.1 v m) (m : ℕ)
        (hm : m ∉ (e :: l).keys) : f m = g m := by
      rw [keys_cons, mem_cons, not_or] at hm
      rw [hfg m hm.2, update_of_ne hm.1]
    by_cases hrefs : e.2.nRefCount ≠ 0
    · rw [filter_cons_of_pos (p := hasRefs) (decide_eq_true hrefs), length_cons] at hroom ⊢
      have hstep : s.writeNew T acc e = .ok (update acc.1 e.1 acc.2.1, acc.2.1 + 1, acc.2.2 ++ writeInfo T e.2) := by
        simp only [writeNew, if_pos hrefs, assertThat_bne (show (acc.2.1 : ℤ) < s.nNew by omega)]
        rfl
      obtain ⟨mapUnkIds, hrun, hranks, hrest⟩ := ih hl (update acc.1 e.1 acc.2.1, acc.2.1 + 1, acc.2.2 ++ writeInfo T e.2)
        (by show (((acc.2.1 + 1) + _ : ℕ) : ℤ) ≤ _; omega)
      refine ⟨mapUnkIds, ?_, ?_, hother hrest⟩
      · rw [foldlM_cons, hstep]
        show l.foldlM (s.writeNew T) _ = _
        rw [hrun, append_assoc]
        congr 3
        show acc.2.1 + 1 + _ = _
        omega
      · intro j e' hj
        cases j with
        | zero =>
          cases hj
          exact hself hrest
        | succ j =>
          rw [hranks j e' hj]
          show acc.2.1 + 1 + j = _
          omega
    · rw [filter_cons_of_neg (by simpa [hasRefs] using hrefs)] at hroom ⊢
      have hstep : s.writeNew T acc e = .ok (update acc.1 e.1 acc.2.1, acc.2.1, acc.2.2) := by
        simp only [writeNew, if_neg hrefs]
        rfl
      obtain ⟨mapUnkIds, hrun, hranks, hrest⟩ := ih hl (update acc.1 e.1 acc.2.1, acc.2.1, acc.2.2) hroom
      refine ⟨mapUnkIds, ?_, hranks, hother hrest⟩
      rw [foldlM_cons, hstep]
      exact hrun

lemma foldlM_writeTried (l : List AddrEntry) (acc : ℕ × List UInt8)
    (hroom : ((acc.1 + (l.filter fun e => e.2.fInTried).length : ℕ) : ℤ) ≤ s.nTried) :
    l.foldlM (s.writeTried T) acc = .ok (acc.1 + (l.filter fun e => e.2.fInTried).length,
      acc.2 ++ (l.filter fun e => e.2.fInTried).flatMap fun e => writeInfo T e.2) := by
  induction l generalizing acc with
  | nil => simp [pure, Except.pure]
  | cons e l ih =>
    by_cases htried : e.2.fInTried = true
    · simp only [filter_cons, htried, if_true, length_cons] at hroom ⊢
      have hstep : s.writeTried T acc e = .ok (acc.1 + 1, acc.2 ++ writeInfo T e.2) := by
        simp only [writeTried, if_pos htried, assertThat_bne (show (acc.1 : ℤ) < s.nTried by omega)]
        rfl
      rw [foldlM_cons, hstep]
      show l.foldlM (s.writeTried T) _ = _
      rw [ih _ (by show (((acc.1 + 1) + _ : ℕ) : ℤ) ≤ _; omega), flatMap_cons, append_assoc]
      congr 2
      show acc.1 + 1 + _ = _
      omega
    · simp only [filter_cons, htried] at hroom ⊢
      have hstep : s.writeTried T acc e = .ok acc := if_neg htried
      rw [foldlM_cons, hstep]
      exact ih acc hroom

/-- What `Serialize` writes. -/
def fileBytes (T : SerType) (s : CAddrMan) : List UInt8 :=
  serWritedata 1 1 ++ (serWritedata 1 32 ++ (writeUint256 s.nKey ++ (writeInt 4 s.nNew ++ (writeInt 4 s.nTried ++
    (writeInt 4 (flip30 1024) ++ (s.newEntries.flatMap (fun e => writeInfo T e.2) ++
      (s.triedEntries.flatMap (fun e => writeInfo T e.2) ++ (List.finRange 1024).flatMap (s.writeBucket s.rank))))))))

lemma Consistent.serialize_eq (h : Consistent P s) : s.serialize T = .ok (s.fileBytes T) := by
  have hnodup : s.infos.NodupKeys := ((infos_perm s).map fst).nodup_iff.2 s.mapInfo.nodupKeys
  obtain ⟨mapUnkIds, hnews, hranks, -⟩ := foldlM_writeNew (T := T) s.infos hnodup (fun _ => 0, 0, []) (by
    rw [← h.newEntries_eq, ← h.length_newEntries]
    simp)
  rw [← h.newEntries_eq] at hnews hranks
  have htrieds := foldlM_writeTried (T := T) s.infos (0, []) (by
    show ((0 + s.triedEntries.length : ℕ) : ℤ) ≤ _
    rw [← h.length_triedEntries, zero_add])
  have hbuckets : (finRange 1024).flatMap (s.writeBucket mapUnkIds) = (finRange 1024).flatMap (s.writeBucket s.rank) := by
    refine flatMap_congr fun bucket _ => ?_
    unfold writeBucket
    congr 1
    refine flatMap_congr fun nId hmem => ?_
    obtain ⟨i, -, hslot⟩ := mem_filterMap.1 hmem
    obtain ⟨info, hn, hnew, -⟩ := h.new _ nId hslot
    have hunk := hranks _ _ (s.getElem?_newEntries hn hnew)
    rw [hunk, zero_add]
  rw [serialize]
  simp only [hnews, htrieds, ok_bind, hbuckets]
  simp only [append_assoc, nil_append]
  rfl

/-! ## Reading -/

/-- What `Unserialize` reads from it. -/
def file (T : SerType) (s : CAddrMan) : AddrManFile where
  nVersion := 1
  nKey := s.nKey
  nNew := s.nNew
  nTried := s.nTried
  nUBuckets := 1024
  news := s.newEntries.map fun e => e.2.stored T
  trieds := s.triedEntries.map fun e => e.2.stored T
  positions := (slots 1024).filterMap fun x => (s.vvNew x).map fun nId => (x.1.val, (s.rank nId : ℤ))

lemma zipIdx_finRange (n : ℕ) : (finRange n).zipIdx = (finRange n).map fun i => (i, i.val) := by
  refine ext_getElem (by simp) fun i hi hi' => ?_
  simp

lemma filterMap_product {α β γ : Type} (l : List α) (l' : List β) (f : α × β → Option γ) :
    (l.product l').filterMap f = l.flatMap fun a => l'.filterMap fun b => f (a, b) := by
  rw [product, filterMap_flatMap]
  simp only [filterMap_map]
  rfl

variable (T s) in
lemma positions_eq : (s.file T).positions = (finRange 1024).zipIdx.flatMap fun p =>
    (s.bucketIds p.1).map fun nId => (p.2, (s.rank nId : ℤ)) := by
  rw [zipIdx_finRange, flatMap_map, file, slots, filterMap_product]
  simp [bucketIds, map_filterMap]

lemma Consistent.rank_lt (h : Consistent P s) (hn : s.mapInfo.lookup n = some info)
    (hnew : info.fInTried = false) : (s.rank n : ℤ) < s.nNew := by
  rw [← h.length_newEntries]
  exact_mod_cast (List.getElem?_eq_some_iff.1 (s.getElem?_newEntries hn hnew)).1

/-- **What is written is read**, whatever follows. -/
theorem Consistent.reads_file (h : Consistent P s) (hT : IntRange 4 T.nVersion)
    (hfits : ∀ n info, s.mapInfo.lookup n = some info → info.Fits) : Reads (readFile T) (s.fileBytes T) (s.file T) := by
  have hnNew := h.nNew_le
  have hnTried := h.nTried_le
  have hlenNew := h.length_newEntries
  have hlenTried := h.length_triedEntries
  have hinfos {l : List AddrEntry} (hl : ∀ e ∈ l, e ∈ s.infos) :
      Reads (readN (readInfo T) l.length) (l.flatMap fun e => writeInfo T e.2) (l.map fun e => e.2.stored T) := by
    refine reads_readN fun e he => reads_info hT (hfits e.1 e.2 ?_)
    exact mem_lookup_iff.2 ((infos_perm s).mem_iff.1 (hl e he))
  have hnews := hinfos (l := s.newEntries) fun e he => mem_of_mem_filter he
  have htrieds := hinfos (l := s.triedEntries) fun e he => mem_of_mem_filter he
  have hpositions : Reads (readPositions 1024 0) ((finRange 1024).flatMap (s.writeBucket s.rank)) (s.file T).positions := by
    rw [positions_eq T s]
    have hread := reads_positions s.bucketIds ?_ s.rank ?_ (finRange 1024) 0
    · rwa [length_finRange] at hread
    · intro bucket
      refine (length_filterMap_le _ _).trans ?_
      rw [length_finRange]
    · intro bucket nId hmem
      obtain ⟨i, -, hslot⟩ := mem_filterMap.1 hmem
      obtain ⟨info, hn, hnew, -⟩ := h.new _ nId hslot
      have hlt := h.rank_lt hn hnew
      omega
  refine ((codes_data 1).reads (by norm_num)).bind (((codes_data 1).reads (by norm_num)).bind (Reads.ensure rfl
    ((codes_uint256.reads trivial).bind (((codes_int 4).reads (intRange_four (by omega) (by omega))).bind
    (((codes_int 4).reads (intRange_four (by omega) (by omega))).bind (((codes_int 4).reads (by decide)).bind ?_))))))
  refine Reads.ensure (decide_eq_true hnNew) (Reads.ensure (decide_eq_true hnTried) ?_)
  rw [← hlenNew, ← hlenTried]
  refine hnews.bind (htrieds.bind ?_)
  have hfile := hpositions.map fun positions => { s.file T with positions := positions }
  simp only [file, ← hlenNew, ← hlenTried] at hfile ⊢
  exact hfile

/-! ## Building -/

/-- The entries `L` have been read, in this order, and have the references that the new table has. -/
structure Loaded (L : List CAddrInfo) (st : CAddrMan) : Prop where
  infos : ∀ m, st.mapInfo.lookup m = L[m]?.map fun info => { info with nRandomPos := m, nRefCount := occ st.vvNew m }
  addrs : ∀ net m, st.mapAddr.lookup net = some m ↔ ∃ info, L[m]? = some info ∧ info.net = net
  random : st.vRandom = List.range L.length

variable {L infos : List CAddrInfo} {info : CAddrInfo}

lemma loaded_clear (st : CAddrMan) (hinfo : st.mapInfo = ∅) (haddr : st.mapAddr = ∅) (hrandom : st.vRandom = []) :
    Loaded [] st where
  infos := by
    intro m
    rw [hinfo]
    exact lookup_empty m
  addrs := by simp [haddr]
  random := hrandom

lemma Loaded.register (h : Loaded L st) (hempty : ∀ x, st.vvNew x = none) (hrefs : info.nRefCount = 0)
    (hnet : ∀ info' ∈ L, info'.net ≠ info.net) : Loaded (L ++ [info]) (st.register L.length info) where
  infos := by
    intro m
    have hocc : occ st.vvNew m = 0 := occ_eq_zero_iff.2 fun x => by rw [hempty x]; nofun
    show (st.mapInfo.insert L.length { info with nRandomPos := st.vRandom.length }).lookup m =
      (L ++ [info])[m]?.map fun info => { info with nRandomPos := m, nRefCount := occ st.vvNew m }
    rw [lookup_insert_eq_ite, hocc]
    split_ifs with hm
    · subst hm
      rw [getElem?_concat_length, h.random, length_range, map_some, hrefs, cast_zero]
    · rw [h.infos, hocc]
      rcases lt_or_gt_of_ne hm with hlt | hgt
      · rw [getElem?_append_left hlt]
      · rw [getElem?_eq_none (by omega), getElem?_eq_none (by simp; omega)]
  addrs := by
    intro net m
    show (st.mapAddr.insert info.net L.length).lookup net = some m ↔ _
    rw [lookup_insert_eq_some, h.addrs]
    simp only [getElem?_concat_eq_some]
    constructor
    · rintro (⟨rfl, rfl⟩ | ⟨-, info', hget, hnet'⟩)
      · exact ⟨info, .inr ⟨rfl, rfl⟩, rfl⟩
      · exact ⟨info', .inl hget, hnet'⟩
    · rintro ⟨info', hget | ⟨rfl, rfl⟩, rfl⟩
      · exact .inr ⟨hnet info' (mem_of_getElem? hget), info', hget, rfl⟩
      · exact .inl ⟨rfl, rfl⟩
  random := by
    show st.vRandom ++ [L.length] = _
    rw [h.random, length_append, length_singleton, range_succ]

lemma ne_of_nodup_map {α : Type} {f : CAddrInfo → α} (h : ((L ++ info :: infos).map f).Nodup) : ∀ info' ∈ L, f info' ≠ f info := by
  intro info' hmem
  rw [map_append, nodup_append] at h
  exact h.2.2 _ (List.mem_map_of_mem hmem) _ (List.mem_map_of_mem mem_cons_self)

variable {file : AddrManFile} {nKey : Uint256}

section

variable (h : Loaded L st) (hempty : ∀ x, st.vvNew x = none)
include h hempty

lemma Loaded.loadNews (P : AddrManParams) (hbuckets : file.hasBuckets = true)
    (infos : List CAddrInfo) (hrefs : ∀ info ∈ infos, info.nRefCount = 0)
    (hnets : ((L ++ infos).map CAddrInfo.net).Nodup) :
    ∃ mapInfo mapAddr vRandom, loadNews P file L.length infos st =
        { st with mapInfo := mapInfo, mapAddr := mapAddr, vRandom := vRandom } ∧
      Loaded (L ++ infos) { st with mapInfo := mapInfo, mapAddr := mapAddr, vRandom := vRandom } := by
  induction infos generalizing L st with
  | nil => exact ⟨st.mapInfo, st.mapAddr, st.vRandom, rfl, by rwa [append_nil]⟩
  | cons info infos ih =>
    have hnet := ne_of_nodup_map hnets
    have h₁ := h.register hempty (hrefs info mem_cons_self) hnet
    rw [append_cons] at hnets ⊢
    obtain ⟨mapInfo, mapAddr, vRandom, hload, h'⟩ := ih h₁ hempty (fun i hi => hrefs i (mem_cons_of_mem info hi)) hnets
    refine ⟨mapInfo, mapAddr, vRandom, ?_, h'⟩
    rw [length_append, length_singleton] at hload
    simp only [loadNews, hbuckets, if_true]
    exact hload

/-- The tried table has the tried ones of the entries `L`, each in its own slot. -/
def TriedLoaded (P : AddrManParams) (L : List CAddrInfo) (st : CAddrMan) : Prop :=
  ∀ slot m, st.vvTried slot = some m ↔ ∃ info, L[m]? = some info ∧ info.fInTried = true ∧ slot = st.triedSlot P info

lemma loadTried_of_empty (htried : TriedLoaded P L st) (hcount : st.nIdCount = L.length)
    (hrefs : info.nRefCount = 0) (hnet : ∀ info' ∈ L, info'.net ≠ info.net)
    (hslot : st.vvTried (st.triedSlot P info) = none) (nLost : ℕ) :
    ∃ st', loadTried P (st, nLost) info = (st', nLost) ∧ Loaded (L ++ [{ info with fInTried := true }]) st' ∧
      TriedLoaded P (L ++ [{ info with fInTried := true }]) st' ∧ st'.nIdCount = L.length + 1 ∧ st'.vvNew = st.vvNew ∧
      st'.nKey = st.nKey ∧ st'.nNew = st.nNew ∧ st'.nTried = st.nTried := by
  have h₁ : Loaded (L ++ [{ info with fInTried := true }]) (st.register L.length { info with fInTried := true }) :=
    h.register hempty hrefs hnet
  refine ⟨{ st.register L.length { info with fInTried := true } with
    vvTried := update st.vvTried (st.triedSlot P info) (some L.length)
    nIdCount := L.length + 1 }, ?_, ⟨h₁.infos, h₁.addrs, h₁.random⟩, ?_, rfl, rfl, rfl, rfl, rfl⟩
  · simp [loadTried, hslot, hcount]
  · intro slot m
    show update st.vvTried (st.triedSlot P info) (some L.length) slot = some m ↔
      ∃ info', (L ++ [{ info with fInTried := true }])[m]? = some info' ∧ info'.fInTried = true ∧ slot = st.triedSlot P info'
    rw [put_eq_some_iff hslot, htried]
    simp only [getElem?_concat_eq_some]
    constructor
    · rintro (⟨rfl, rfl⟩ | ⟨info', hget, hrest⟩)
      · exact ⟨_, .inr ⟨rfl, rfl⟩, rfl, rfl⟩
      · exact ⟨info', .inl hget, hrest⟩
    · rintro ⟨info', hget | ⟨rfl, rfl⟩, hrest⟩
      · exact .inr ⟨info', hget, hrest⟩
      · exact .inl ⟨rfl, hrest.2⟩

lemma Loaded.foldl_loadTried (infos : List CAddrInfo) (slotOf : CAddrInfo → TriedBucket × BucketPos)
    (hslotOf : ∀ info, st.triedSlot P info = slotOf info)
    (hservice : ∀ info, slotOf { info with fInTried := true } = slotOf info) (htried : TriedLoaded P L st)
    (hcount : st.nIdCount = L.length) (hrefs : ∀ info ∈ infos, info.nRefCount = 0) (hnets : ((L ++ infos).map CAddrInfo.net).Nodup)
    (hslots : (((L.filter fun info => info.fInTried) ++ infos).map slotOf).Nodup) (nLost : ℕ) :
    ∃ st', infos.foldl (loadTried P) (st, nLost) = (st', nLost) ∧
      Loaded (L ++ infos.map fun info => { info with fInTried := true }) st' ∧
      TriedLoaded P (L ++ infos.map fun info => { info with fInTried := true }) st' ∧ st'.vvNew = st.vvNew ∧
      st'.nKey = st.nKey ∧ st'.nNew = st.nNew ∧ st'.nTried = st.nTried := by
  induction infos generalizing L st with
  | nil => exact ⟨st, rfl, by simpa using h, by simpa using htried, rfl, rfl, rfl, rfl⟩
  | cons info infos ih =>
    have hnet := ne_of_nodup_map hnets
    have hslot : st.vvTried (st.triedSlot P info) = none := by
      rw [eq_none_iff_forall_ne_some]
      intro m hm
      obtain ⟨info', hget, htried', heq⟩ := (htried _ m).1 hm
      rw [hslotOf, hslotOf] at heq
      exact ne_of_nodup_map hslots _ (mem_filter.2 ⟨mem_of_getElem? hget, htried'⟩) heq.symm
    obtain ⟨st₁, hstep, h₁, htried₁, hcount₁, hvvNew, hnKey, hnNew, hnTried⟩ :=
      loadTried_of_empty h hempty htried hcount (hrefs info mem_cons_self) hnet hslot nLost
    have hslotOf₁ (info : CAddrInfo) : st₁.triedSlot P info = slotOf info := by
      rw [← hslotOf, triedSlot, triedSlot, hnKey]
    obtain ⟨st', hrun, h', htried', hvvNew', hnKey', hnNew', hnTried'⟩ := ih h₁ (by rw [hvvNew]; exact hempty)
      hslotOf₁ htried₁ (by rw [hcount₁, length_append, length_singleton]) (fun i hi => hrefs i (mem_cons_of_mem info hi))
      (by simpa using hnets) (by simpa [hservice] using hslots)
    refine ⟨st', ?_, ?_, ?_, hvvNew'.trans hvvNew, hnKey'.trans hnKey, hnNew'.trans hnNew, hnTried'.trans hnTried⟩
    · rw [foldl_cons, hstep, hrun]
    · simpa using h'
    · simpa using htried'

end

lemma Loaded.loadPosition (hbuckets : file.hasBuckets = true) (h : Loaded L st)
    {x : NewBucket × BucketPos} (hm : L[m]? = some info) (hlt : (m : ℤ) < file.nNew) (hx : x = st.newSlot P info x.1)
    (hslot : st.vvNew x = none) (hocc : (occ st.vvNew m : ℤ) < 8) :
    ∃ mapInfo, loadPosition P file st (x.1.val, m) =
        { st with mapInfo := mapInfo, vvNew := update st.vvNew x (some m) } ∧
      Loaded L { st with mapInfo := mapInfo, vvNew := update st.vvNew x (some m) } := by
  have hlook : st.mapInfo.lookup m = some { info with nRandomPos := m, nRefCount := occ st.vvNew m } := by
    rw [h.infos, hm, map_some]
  have hplace : st.newSlot P { info with nRandomPos := m, nRefCount := occ st.vvNew m } (Fin.ofNat 1024 x.1.val) = x := by
    rw [Fin.ofNat_val_eq_self]
    exact hx.symm
  refine ⟨st.mapInfo.insert m { info with nRandomPos := m, nRefCount := occ st.vvNew m + 1 }, ?_, ?_, h.addrs, h.random⟩
  · simp only [CAddrMan.loadPosition, Int.toNat_natCast, hlook, hplace]
    rw [if_pos ⟨Int.natCast_nonneg m, hlt⟩, if_pos ⟨hbuckets, hslot, hocc⟩]
    rfl
  · intro m'
    rw [lookup_insert_eq_ite, occ_put hslot]
    split_ifs with heq
    · subst heq
      rw [hm]
      rfl
    · rw [h.infos, add_zero]

lemma Loaded.foldl_loadPosition (h : Loaded L st) (hbuckets : file.hasBuckets = true)
    (full : NewBucket × BucketPos → Option ℕ) (hfull : ∀ x m, full x = some m → (m : ℤ) < file.nNew ∧
      ∃ info, L[m]? = some info ∧ x = st.newSlot P info x.1) (hocc : ∀ m, occ full m ≤ 8)
    (hsub : ∀ x m, st.vvNew x = some m → full x = some m)
    (xs : List (NewBucket × BucketPos)) (hxs : xs.Nodup) (hfree : ∀ x ∈ xs, st.vvNew x = none) :
    ∃ mapInfo vvNew, (xs.filterMap fun x => (full x).map fun m : ℕ => (x.1.val, (m : ℤ))).foldl (CAddrMan.loadPosition P file) st =
        { st with mapInfo := mapInfo, vvNew := vvNew } ∧ Loaded L { st with mapInfo := mapInfo, vvNew := vvNew } ∧
      ∀ x, vvNew x = if x ∈ xs then full x else st.vvNew x := by
  induction xs generalizing st with
  | nil => exact ⟨st.mapInfo, st.vvNew, rfl, h, fun x => by simp⟩
  | cons x xs ih =>
    obtain ⟨hnot, hxs⟩ := nodup_cons.1 hxs
    rcases hx : full x with _ | m
    · have hfree' : ∀ y ∈ xs, st.vvNew y = none := fun y hy => hfree y (mem_cons_of_mem x hy)
      obtain ⟨mapInfo, vvNew, hrun, h', htable⟩ := ih h hfull hsub hxs hfree'
      rw [filterMap_cons_none (by rw [hx]; rfl)]
      refine ⟨mapInfo, vvNew, hrun, h', fun y => ?_⟩
      rw [htable]
      by_cases hy : y = x
      · subst hy
        rw [if_neg hnot, if_pos mem_cons_self, hfree y mem_cons_self, hx]
      · simp [hy]
    · obtain ⟨hlt, info, hm, hplace⟩ := hfull x m hx
      have hslot := hfree x mem_cons_self
      have hsub₁ : ∀ y m', update st.vvNew x (some m) y = some m' → full y = some m' := by
        intro y m' hy
        by_cases hyx : y = x
        · subst hyx
          rw [update_self] at hy
          rw [hx, hy]
        · rw [update_of_ne hyx] at hy
          exact hsub y m' hy
      have hroom : (occ st.vvNew m : ℤ) < 8 := by
        have hmono := occ_mono fun y => hsub₁ y m
        rw [occ_put hslot, if_pos rfl] at hmono
        have hle := hocc m
        omega
      obtain ⟨mapInfo₁, hstep, h₁⟩ := h.loadPosition hbuckets hm hlt hplace hslot hroom
      obtain ⟨mapInfo, vvNew, hrun, h', htable⟩ := ih h₁ hfull hsub₁ hxs (by
          intro y hy
          show update st.vvNew x (some m) y = none
          have hne : y ≠ x := by
            rintro rfl
            exact hnot hy
          rw [update_of_ne hne]
          exact hfree y (mem_cons_of_mem x hy))
      rw [filterMap_cons_some (by rw [hx]; rfl), foldl_cons, hstep, hrun]
      refine ⟨mapInfo, vvNew, rfl, h', fun y => ?_⟩
      rw [htable]
      by_cases hy : y = x
      · subst hy
        rw [if_neg hnot, if_pos mem_cons_self, hx]
        exact update_self y (some m) st.vvNew
      · simp only [mem_cons, hy, false_or]
        split_ifs
        · rfl
        · exact update_of_ne hy _ _

/-! ## After a restart -/

/-- An entry after a restart, with its number in the file. -/
def reloaded (T : SerType) (e : AddrEntry) : CAddrInfo := { e.2.stored T with fInTried := e.2.fInTried }

section

variable (h : Consistent P s)
include h

lemma Consistent.nodup_net : (s.fileEntries.map fun e => e.2.net).Nodup := by
  refine of_map (f := fun net => (s.mapAddr.lookup net).getD 0) ?_
  rw [List.map_map]
  have hkeys : s.fileEntries.map ((fun net => (s.mapAddr.lookup net).getD 0) ∘ fun e => e.2.net) = s.fileEntries.map fst := by
    refine map_congr_left fun e he => ?_
    exact (h.entry e.1 e.2 (s.mem_fileEntries.1 he)).addr
  rw [hkeys]
  exact s.nodup_fileEntries

lemma Consistent.nodup_triedSlot : (s.triedEntries.map fun e => s.triedSlot P e.2).Nodup := by
  refine of_map (f := s.vvTried) ?_
  rw [List.map_map]
  have hkeys : s.triedEntries.map ((s.vvTried) ∘ fun e => s.triedSlot P e.2) =
      (s.triedEntries.map fst).map some := by
    rw [List.map_map]
    refine map_congr_left fun e he => ?_
    obtain ⟨hmem, htried⟩ := mem_filter.1 he
    exact (h.tried _ _).2 ⟨e.2, mem_lookup_iff.2 ((infos_perm s).mem_iff.1 hmem), htried, rfl⟩
  rw [hkeys]
  refine List.Nodup.map (some_injective ℕ) ?_
  have hnodup := s.nodup_fileEntries
  rw [fileEntries, map_append] at hnodup
  exact (nodup_append.1 hnodup).2.1

lemma Consistent.occ_rank (hn : s.mapInfo.lookup n = some info) :
    occ (fun x => (s.vvNew x).map s.rank) (s.rank n) = occ s.vvNew n := by
  have hiff (x : NewBucket × BucketPos) : (s.vvNew x).map s.rank = some (s.rank n) ↔ s.vvNew x = some n := by
    rw [map_eq_some_iff]
    constructor
    · rintro ⟨n', hslot, hrank⟩
      obtain ⟨info', hn', -⟩ := h.new x n' hslot
      rwa [← s.rank_inj hn' hn hrank]
    · intro hslot
      exact ⟨n, hslot, rfl⟩
  simp [occ, hiff]

lemma Consistent.occ_rank_le (m : ℕ) : occ (fun x => (s.vvNew x).map s.rank) m ≤ 8 := by
  rcases Nat.eq_zero_or_pos (occ (fun x => (s.vvNew x).map s.rank) m) with hzero | hpos
  · omega
  · obtain ⟨x, hx⟩ := occ_pos_iff.1 hpos
    obtain ⟨n, hslot, rfl⟩ := map_eq_some_iff.1 hx
    obtain ⟨info, hn, hnew, -⟩ := h.new x n hslot
    have hle := ((h.entry n info hn).ofNew hnew).2
    have hrefs := h.refs n info hn
    rw [h.occ_rank hn]
    rw [ADDRMAN_NEW_BUCKETS_PER_ADDRESS] at hle
    omega

end

variable (T s) in
lemma fileEntries_map_reloaded : s.fileEntries.map (reloaded T) =
    (s.file T).news ++ (s.file T).trieds.map fun info => { info with fInTried := true } := by
  rw [fileEntries, map_append, file, List.map_map]
  congr 1
  · refine map_congr_left fun e he => ?_
    obtain ⟨-, hnew⟩ := mem_filter.1 he
    rw [reloaded, (Bool.not_eq_true' _).mp hnew]
    rfl
  · refine map_congr_left fun e he => ?_
    obtain ⟨-, htried⟩ := mem_filter.1 he
    rw [reloaded, htried]
    rfl

lemma load_eq {st₁ st₂ : CAddrMan} {nLost : ℕ} (hnews : loadNews P file 0 file.news
      { clear nKey with nKey := file.nKey, nNew := file.nNew, nTried := file.nTried } = st₁)
    (htrieds : file.trieds.foldl (loadTried P) ({ st₁ with nIdCount := file.nNew.toNat }, 0) = (st₂, nLost)) :
    load P nKey file =
      (file.positions.foldl (loadPosition P file) { st₂ with nTried := st₂.nTried - nLost }, nLost) := by
  subst hnews
  simp [load, htrieds]

/-- `st` has been built from the file of `s`. -/
structure Restored (P : AddrManParams) (T : SerType) (s st : CAddrMan) : Prop where
  loaded : Loaded (s.fileEntries.map (reloaded T)) st
  tried : TriedLoaded P (s.fileEntries.map (reloaded T)) st
  new : ∀ x, st.vvNew x = (s.vvNew x).map s.rank
  nKey : st.nKey = s.nKey
  nNew : st.nNew = s.nNew
  nTried : st.nTried = s.nTried

/-- **What `Unserialize` builds from the file.** -/
theorem Consistent.load_file (h : Consistent P s) (T : SerType) (nKey : Uint256) :
    ∃ st, load P nKey (s.file T) = (st, 0) ∧ Restored P T s st := by
  have hbuckets : (s.file T).hasBuckets = true := rfl
  have hnets : (((s.file T).news ++ (s.file T).trieds).map CAddrInfo.net).Nodup := by
    have hnodup := h.nodup_net
    rw [fileEntries, map_append] at hnodup
    rw [map_append, file, List.map_map, List.map_map]
    exact hnodup
  have hrefs {l : List CAddrInfo} {l' : List AddrEntry}
      (hl : ∀ {info}, info ∈ l → ∃ e ∈ l', e.2.stored T = info) : ∀ info ∈ l, info.nRefCount = 0 := by
    intro info hmem
    obtain ⟨e, -, rfl⟩ := hl hmem
    rfl
  have hnotTried : ∀ info ∈ (s.file T).news, info.fInTried = false := by
    intro info hmem
    obtain ⟨e, -, rfl⟩ := List.mem_map.1 hmem
    rfl
  -- the new entries
  have h₀ := loaded_clear { clear nKey with nKey := s.nKey, nNew := s.nNew, nTried := s.nTried } rfl rfl rfl
  obtain ⟨mapInfo, mapAddr, vRandom, hnews, h₁⟩ := h₀.loadNews (fun _ => rfl) P hbuckets (s.file T).news (hrefs (List.mem_map.1 ·))
    (by rw [map_append] at hnets; exact (nodup_append.1 hnets).1)
  -- the tried entries
  have h₁' : Loaded (s.file T).news { clear nKey with
      nKey := s.nKey, nNew := s.nNew, nTried := s.nTried, mapInfo := mapInfo, mapAddr := mapAddr, vRandom := vRandom,
      nIdCount := s.nNew.toNat } := ⟨h₁.infos, h₁.addrs, h₁.random⟩
  have hcount : s.nNew.toNat = (s.file T).news.length := by
    rw [file, ← h.length_newEntries, Int.toNat_natCast, length_map]
  have hslots : ((((s.file T).news.filter fun info => info.fInTried) ++ (s.file T).trieds).map (s.triedSlot P)).Nodup := by
    rw [filter_eq_nil_iff.2 fun info hmem => by simp [hnotTried info hmem], nil_append, file, List.map_map]
    exact h.nodup_triedSlot
  obtain ⟨st₂, htrieds, h₂, htried₂, hvvNew, hnKey, hnNew, hnTried⟩ := h₁'.foldl_loadTried (fun _ => rfl) (s.file T).trieds
    (s.triedSlot P) (fun _ => rfl) (fun _ => rfl) (by
      intro slot m
      refine iff_of_false nofun ?_
      rintro ⟨info, hget, htried, -⟩
      rw [hnotTried info (mem_of_getElem? hget)] at htried
      cases htried)
    hcount (hrefs (List.mem_map.1 ·)) hnets hslots 0
  rw [← fileEntries_map_reloaded] at h₂ htried₂
  -- the positions
  have hfull : ∀ x m, (s.vvNew x).map s.rank = some m → (m : ℤ) < s.nNew ∧
      ∃ info, (s.fileEntries.map (reloaded T))[m]? = some info ∧ x = st₂.newSlot P info x.1 := by
    intro x m hx
    obtain ⟨n, hslot, rfl⟩ := map_eq_some_iff.1 hx
    obtain ⟨info, hn, hnew, hplace⟩ := h.new x n hslot
    refine ⟨h.rank_lt hn hnew, reloaded T ⟨n, info⟩, ?_, ?_⟩
    · rw [getElem?_map, s.getElem?_fileEntries.2 ⟨hn, rfl⟩, map_some]
    · rw [newSlot, hnKey]
      exact hplace
  have h₂' : Loaded (s.fileEntries.map (reloaded T)) { st₂ with nTried := st₂.nTried - (0 : ℕ) } :=
    ⟨h₂.infos, h₂.addrs, h₂.random⟩
  obtain ⟨mapInfo₃, vvNew₃, hpositions, h₃, htable⟩ := h₂'.foldl_loadPosition hbuckets (fun x => (s.vvNew x).map s.rank) hfull
    h.occ_rank_le (fun x m hx => by rw [show st₂.vvNew = fun _ => none from hvvNew] at hx; cases hx) (slots 1024) (nodup_slots 1024)
    (fun x _ => by rw [show st₂.vvNew = fun _ => none from hvvNew])
  refine ⟨_, ?_, h₃, ?_, ?_, hnKey, hnNew, ?_⟩
  · have hpos : (s.file T).positions =
        (slots 1024).filterMap fun x => ((s.vvNew x).map s.rank).map fun m : ℕ => (x.1.val, (m : ℤ)) := by
      simp only [file, Option.map_map]
      rfl
    rw [← hpos] at hpositions
    rw [load_eq hnews htrieds, hpositions]
  · intro slot m
    exact htried₂ slot m
  · intro x
    exact (htable x).trans (if_pos (mem_slots x))
  · rw [hnTried]
    simp

/-- An entry after the restart: what was not on disk is as in a new entry, its place as before. -/
def restored (T : SerType) (s : CAddrMan) (n : ℕ) (info : CAddrInfo) : CAddrInfo :=
  { info.stored T with fInTried := info.fInTried, nRandomPos := s.rank n, nRefCount := info.nRefCount }

section

variable (hst : Restored P T s st)
include hst

lemma Restored.lookup_eq_some (h : Consistent P s) {info' : CAddrInfo} : st.mapInfo.lookup m = some info' ↔
    ∃ n info, s.mapInfo.lookup n = some info ∧ s.rank n = m ∧ info' = restored T s n info := by
  have hocc {n : ℕ} {info : CAddrInfo} (hn : s.mapInfo.lookup n = some info) : (occ st.vvNew (s.rank n) : ℤ) = info.nRefCount := by
    rw [show st.vvNew = fun x => (s.vvNew x).map s.rank from funext hst.new, h.occ_rank hn, h.refs n info hn]
  have hrestored {n : ℕ} {info : CAddrInfo} (hn : s.mapInfo.lookup n = some info) :
      { reloaded T ⟨n, info⟩ with nRandomPos := s.rank n, nRefCount := occ st.vvNew (s.rank n) } = restored T s n info := by
    rw [hocc hn]
    rfl
  rw [hst.loaded.infos, getElem?_map, Option.map_map, map_eq_some_iff]
  constructor
  · rintro ⟨⟨n, info⟩, hm, rfl⟩
    obtain ⟨hn, rfl⟩ := s.getElem?_fileEntries.1 hm
    exact ⟨n, info, hn, rfl, hrestored hn⟩
  · rintro ⟨n, info, hn, rfl, rfl⟩
    exact ⟨⟨n, info⟩, s.getElem?_fileEntries.2 ⟨hn, rfl⟩, hrestored hn⟩

lemma Restored.vvTried_eq (h : Consistent P s) (slot : TriedBucket × BucketPos) :
    st.vvTried slot = (s.vvTried slot).map s.rank := by
  have hslot (info : CAddrInfo) (n : ℕ) : st.triedSlot P (reloaded T ⟨n, info⟩) = s.triedSlot P info := by
    rw [triedSlot, hst.nKey]
    rfl
  refine Option.ext fun m => ?_
  rw [hst.tried, map_eq_some_iff]
  constructor
  · rintro ⟨info', hm, hinTried, rfl⟩
    rw [getElem?_map, map_eq_some_iff] at hm
    obtain ⟨⟨n, info⟩, hm, rfl⟩ := hm
    obtain ⟨hn, rfl⟩ := s.getElem?_fileEntries.1 hm
    exact ⟨n, (h.tried _ n).2 ⟨info, hn, hinTried, hslot info n⟩, rfl⟩
  · rintro ⟨n, hvv, rfl⟩
    obtain ⟨info, hn, hinTried, rfl⟩ := (h.tried slot n).1 hvv
    refine ⟨reloaded T ⟨n, info⟩, ?_, hinTried, (hslot info n).symm⟩
    rw [getElem?_map, s.getElem?_fileEntries.2 ⟨hn, rfl⟩, map_some]

lemma Restored.tried_iff (slot : TriedBucket × BucketPos) (m : ℕ) : st.vvTried slot = some m ↔
    ∃ info, st.mapInfo.lookup m = some info ∧ info.fInTried = true ∧ slot = st.triedSlot P info := by
  rw [hst.tried, hst.loaded.infos]
  constructor
  · rintro ⟨info, hm, hinTried, hslot⟩
    exact ⟨_, map_eq_some_iff.2 ⟨info, hm, rfl⟩, hinTried, hslot⟩
  · rintro ⟨info', hm', hinTried, hslot⟩
    obtain ⟨info, hm, rfl⟩ := map_eq_some_iff.1 hm'
    exact ⟨info, hm, hinTried, hslot⟩

lemma Restored.countP_tried (h : Consistent P s) :
    st.mapInfo.entries.countP (fun e => e.2.fInTried) = s.mapInfo.entries.countP fun e => e.2.fInTried := by
  rw [← filled_vvTried hst.tried_iff, ← filled_vvTried h.tried]
  simp [filled, hst.vvTried_eq h]

lemma Restored.length_entries : st.mapInfo.entries.length = s.fileEntries.length := by
  have hperm : st.mapInfo.keys.Perm (range s.fileEntries.length) := by
    rw [perm_ext_iff_of_nodup st.mapInfo.keys_nodup nodup_range]
    intro m
    rw [← AList.mem_keys, ← AList.lookup_isSome, hst.loaded.infos, mem_range, isSome_map, isSome_iff_ne_none,
      ne_eq, List.getElem?_eq_none_iff, not_le, length_map]
  have hlen := hperm.length_eq
  rwa [length_range, AList.keys, List.keys, length_map] at hlen

end

lemma Consistent.length_fileEntries (h : Consistent P s) : (s.fileEntries.length : ℤ) = s.nTried + s.nNew := by
  rw [fileEntries, length_append, cast_add, h.length_newEntries, h.length_triedEntries]
  ring

/-- **The tables are consistent after the restart.** -/
theorem Restored.consistent (hst : Restored P T s st) (h : Consistent P s) : Consistent P st where
  total := by
    rw [hst.loaded.random, length_range, length_map, hst.nTried, hst.nNew, h.length_fileEntries]
  entry := by
    intro m info' hm
    obtain ⟨n, info, hn, rfl, rfl⟩ := (hst.lookup_eq_some h).1 hm
    have hentry := h.entry n info hn
    have hfile := s.getElem?_fileEntries.2 ⟨hn, rfl⟩
    refine ⟨hentry.ofTried, hentry.ofNew, ?_, ?_, le_refl _, hentry.nLastSuccess⟩
    · have haddr := (hst.loaded.addrs info.net (s.rank n)).2 ⟨reloaded T ⟨n, info⟩, by rw [getElem?_map, hfile]; rfl, rfl⟩
      show (st.mapAddr.lookup info.net).getD 0 = s.rank n
      rw [haddr, getD_some]
    · show st.vRandom[s.rank n]? = some (s.rank n)
      rw [hst.loaded.random, getElem?_range]
      rw [length_map]
      exact (List.getElem?_eq_some_iff.1 hfile).1
  nTried_eq := by rw [hst.nTried, h.nTried_eq, hst.countP_tried h]
  nNew_eq := by
    have hsplit := length_eq_countP_add_countP (l := st.mapInfo.entries) fun e => e.2.fInTried
    simp only [Bool.not_eq_true, Bool.decide_eq_false] at hsplit
    have htotal := h.length_fileEntries
    rw [← hst.length_entries, hsplit, hst.countP_tried h, cast_add, ← h.nTried_eq] at htotal
    rw [hst.nNew]
    omega
  tried := hst.tried_iff
  new := by
    intro slot m hslot
    rw [hst.new, map_eq_some_iff] at hslot
    obtain ⟨n, hvv, rfl⟩ := hslot
    obtain ⟨info, hn, hnew, hplace⟩ := h.new slot n hvv
    refine ⟨restored T s n info, (hst.lookup_eq_some h).2 ⟨n, info, hn, rfl, rfl⟩, hnew, ?_⟩
    rw [newSlot, hst.nKey]
    exact hplace
  refs := by
    intro m info' hm
    rw [hst.loaded.infos] at hm
    obtain ⟨info, -, rfl⟩ := map_eq_some_iff.1 hm
    rfl
  nKey_ne := by
    rw [hst.nKey]
    exact h.nKey_ne

lemma Consistent.foldlM_prune (h : Consistent P s) (ids : List ℕ) (nLostUnk : ℕ) :
    ids.foldlM prune (s, nLostUnk) = .ok (s, nLostUnk) := by
  induction ids with
  | nil => rfl
  | cons n ids ih =>
    have hstep : prune (s, nLostUnk) n = .ok (s, nLostUnk) := by
      unfold prune
      rcases hn : s.mapInfo.lookup n with _ | info
      · rfl
      · refine if_neg ?_
        rintro ⟨hnew, hzero⟩
        have hpos := ((h.entry n info hn).ofNew hnew).1
        omega
    rw [foldlM_cons, hstep]
    exact ih

lemma unserialize_eq {b rest : List UInt8} {nLost nLostUnk : ℕ} {s' : CAddrMan}
    (hread : readFile T b = .ok (file, rest)) (hload : load P nKey file = (st, nLost))
    (hprune : (st.infos.map fst).foldlM prune (st, 0) = .ok (s', nLostUnk)) :
    unserialize P T nKey b = .ok (s', nLost, nLostUnk, rest) := by
  simp [unserialize, hread, hload, hprune]

/-- **A restart**: what `Serialize` writes of tables that pass `Check_` is read by `Unserialize`, into tables that
pass it with the same addresses, references and slots; the ids are renumbered by `f`. -/
theorem reload_consistent (P : AddrManParams) (T : SerType) (s : CAddrMan) (hT : IntRange 4 T.nVersion)
    (hfits : ∀ n info, s.mapInfo.lookup n = some info → info.Fits) (hcheck : s.check P = .ok ()) (nKey : Uint256)
    (rest : List UInt8) :
    ∃ bytes s' f, s.serialize T = .ok bytes ∧ unserialize P T nKey (bytes ++ rest) = .ok (s', 0, 0, rest) ∧
      s'.check P = .ok () ∧ s'.nTried = s.nTried ∧ s'.nNew = s.nNew ∧ s'.nKey = s.nKey ∧
      Set.InjOn f { n | (s.mapInfo.lookup n).isSome } ∧
      (∀ m, (s'.mapInfo.lookup m).isSome ↔ ∃ n, (s.mapInfo.lookup n).isSome ∧ f n = m) ∧
      (∀ n info, s.mapInfo.lookup n = some info → ∃ info', s'.mapInfo.lookup (f n) = some info' ∧
        info'.service = info.service ∧ info'.source = info.source ∧ info'.addr.nServices = info.addr.nServices ∧
        info'.fInTried = info.fInTried ∧ info'.nRefCount = info.nRefCount ∧ info'.nLastSuccess = info.nLastSuccess ∧
        info'.nAttempts = info.nAttempts) ∧
      (∀ slot, s'.vvTried slot = (s.vvTried slot).map f) ∧ ∀ slot, s'.vvNew slot = (s.vvNew slot).map f := by
  have h := check_eq_ok_iff.1 hcheck
  obtain ⟨st, hload, hst⟩ := h.load_file T nKey
  have hst' := hst.consistent h
  refine ⟨s.fileBytes T, st, s.rank, h.serialize_eq, ?_, check_eq_ok_iff.2 hst', hst.nTried, hst.nNew, hst.nKey, ?_, ?_, ?_,
    hst.vvTried_eq h, hst.new⟩
  · exact unserialize_eq (h.reads_file hT hfits rest) hload (hst'.foldlM_prune _ 0)
  · intro n hn n' hn' hrank
    obtain ⟨info, hn⟩ := isSome_iff_exists.1 hn
    obtain ⟨info', hn'⟩ := isSome_iff_exists.1 hn'
    exact s.rank_inj hn hn' hrank
  · intro m
    simp only [isSome_iff_exists, hst.lookup_eq_some h]
    constructor
    · rintro ⟨_, n, info, hn, hm, -⟩
      exact ⟨n, ⟨info, hn⟩, hm⟩
    · rintro ⟨n, ⟨info, hn⟩, hm⟩
      exact ⟨_, n, info, hn, hm, rfl⟩
  · intro n info hn
    exact ⟨restored T s n info, (hst.lookup_eq_some h).2 ⟨n, info, hn, rfl, rfl⟩, rfl, rfl, rfl, rfl, rfl, rfl, rfl⟩

/-- One address has been tried, the other one is new and has two references. -/
def fewCalls : List AddrManOp :=
  [.add ⟨⟨1, 8333⟩, 1, 100⟩ 7 0 0 100, .good ⟨1, 8333⟩ 100 0, .add ⟨⟨2, 8333⟩, 1, 100⟩ 7 0 0 100,
    .add ⟨⟨2, 8333⟩, 1, 200⟩ 8 0 0 200]

/-- The two addresses are written and read. -/
theorem reload_consistent_fewCalls : ∃ s bytes s', fewCalls.foldlM (CAddrMan.step oneSlot) (clear 1) = .ok s ∧
    s.serialize ⟨true, false, 160000⟩ = .ok bytes ∧
    unserialize oneSlot ⟨true, false, 160000⟩ 5 (bytes ++ []) = .ok (s', 0, 0, []) ∧ s'.nTried = 1 ∧ s'.nNew = 1 := by
  have hclear : Inv oneSlot ∅ 0 (clear 1) := inv_clear (by decide)
  obtain ⟨s, hrun, h⟩ := hclear.run (show ∀ op ∈ fewCalls, op.Timely by simp [fewCalls, AddrManOp.Timely])
    (by decide +kernel)
  obtain ⟨_, hrun', htried, hnew, hinfo⟩ : ∃ s : CAddrMan, fewCalls.foldlM (CAddrMan.step oneSlot) (clear 1) = .ok s ∧
      s.nTried = 1 ∧ s.nNew = 1 ∧ ∀ x ∈ s.mapInfo.entries,
        x.2 = ⟨⟨⟨1, 8333⟩, 1, 100⟩, 7, 100, 0, 100, 0, 0, true, 0⟩ ∨
        x.2 = ⟨⟨⟨2, 8333⟩, 1, 100⟩, 7, 0, 0, 0, 0, 2, false, 1⟩ := by decide +kernel
  cases hrun.symm.trans hrun'
  have hfits : ∀ n info, s.mapInfo.lookup n = some info → info.Fits := by
    intro n info hn
    rcases hinfo _ (AList.mem_lookup_iff.1 hn) with rfl | rfl
    · exact ⟨by decide, by decide, by decide, by decide, by decide⟩
    · exact ⟨by decide, by decide, by decide, by decide, by decide⟩
  obtain ⟨bytes, s', -, hser, hunser, -, hnTried, hnNew, -⟩ := reload_consistent _ ⟨true, false, 160000⟩ _ (by decide)
    hfits (check_eq_ok_iff.2 h.consistent) 5 []
  exact ⟨s, bytes, s', hrun, hser, hunser, hnTried.trans htried, hnNew.trans hnew⟩

end CAddrMan

end Soferox
