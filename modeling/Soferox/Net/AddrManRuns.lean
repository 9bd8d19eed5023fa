import Soferox.Lib.Runs
import Soferox.Net.AddrManInvariant

/-!
# The calls of the address manager keep its invariant

* `CAddrMan.Inv.good`, `add`, `updateInfo`, `getAddr` — the calls;
* `CAddrMan.Inv.run` — a run.
-/

namespace Soferox

open Lib Option AList List CAddrMan

namespace CAddrMan

variable {P : AddrManParams} {loose : Set ℕ} {k : ℤ} {s : CAddrMan} {n : ℕ} {info : CAddrInfo} {net : CNetAddr}
  (addr : CAddress)

/-! ## Finding an entry -/

lemma find_eq_some (hfind : s.find net = some (n, info)) : s.mapInfo.lookup n = some info := by
  simp only [find, bind_eq_bind, bind_eq_some_iff] at hfind
  obtain ⟨n', -, info', hn, rfl, rfl⟩ := hfind
  exact hn

section

variable (h : Inv P loose k s)
include h

lemma Inv.find_eq_none (hfind : s.find net = none) (hn : s.mapInfo.lookup n = some info) : info.net ≠ net := by
  intro hnet
  have haddr := (h.addrs net n).2 ⟨info, hn, hnet⟩
  simp [find, haddr, hn] at hfind

/-! ## `Attempt_`, `Connected_`, `SetServices_` -/

/-- What a call may do to the data of an entry. -/
structure Updates (info info' : CAddrInfo) : Prop where
  service : info'.service = info.service
  nRandomPos : info'.nRandomPos = info.nRandomPos
  fInTried : info'.fInTried = info.fInTried
  nRefCount : info'.nRefCount = info.nRefCount
  nLastSuccess : info'.nLastSuccess = info.nLastSuccess ∨ 0 < info'.nLastSuccess
  nLastTry : info'.nLastTry = info.nLastTry ∨ 0 < info'.nLastTry

lemma Inv.update (hn : s.mapInfo.lookup n = some info) {info' : CAddrInfo}
    (hupd : Updates info info') : Inv P loose k (s.setInfo n info') :=
  h.setData hn hupd.service hupd.nRandomPos hupd.fInTried hupd.nRefCount hupd.nLastSuccess hupd.nLastTry

variable (addr : CService) {nTime : ℤ}

lemma Inv.updateInfo {f : CAddrInfo → CAddrInfo}
    (hf : ∀ info, Updates info (f info)) : Inv P loose k (s.updateInfo addr f) := by
  unfold CAddrMan.updateInfo
  rcases hfind : s.find addr.net with _ | ⟨n, info⟩
  · exact h
  · have hn := find_eq_some hfind
    show Inv P loose k (if _ then _ else _)
    split_ifs with hservice
    · exact h
    · exact h.update hn (hf info)

omit h in
lemma updates_setTime (info : CAddrInfo) (nTime : ℕ) : Updates info (info.setTime nTime) :=
  ⟨rfl, rfl, rfl, rfl, .inl rfl, .inl rfl⟩

omit h in
lemma Updates.refl (info : CAddrInfo) : Updates info info := ⟨rfl, rfl, rfl, rfl, .inl rfl, .inl rfl⟩

lemma Inv.attempt (fCountFailure : Bool) (ht : 0 < nTime) : Inv P loose k (s.attempt addr fCountFailure nTime) := by
  refine h.updateInfo addr fun info => ?_
  show Updates info (if _ then _ else _)
  split_ifs with hcount
  · exact ⟨rfl, rfl, rfl, rfl, .inl rfl, .inr ht⟩
  · exact ⟨rfl, rfl, rfl, rfl, .inl rfl, .inr ht⟩

lemma Inv.connected (nTime : ℤ) : Inv P loose k (s.connected addr nTime) := by
  refine h.updateInfo addr fun info => ?_
  split_ifs with hold
  · exact updates_setTime info _
  · exact Updates.refl info

lemma Inv.setServices (nServices : ℕ) : Inv P loose k (s.setServices addr nServices) :=
  h.updateInfo addr fun _ => ⟨rfl, rfl, rfl, rfl, .inl rfl, .inl rfl⟩

/-! ## `Good_` -/

lemma Inv.good (ht : 0 < nTime) (nRnd : ℕ) : ∃ s', s.good P addr nTime nRnd = .ok s' ∧ Inv P loose k s' := by
  have h₁ : Inv P loose k { s with nLastGood := nTime } := { h with }
  simp only [CAddrMan.good]
  generalize { s with nLastGood := nTime } = s₁ at h₁ ⊢
  rcases hfind : s₁.find addr.net with _ | ⟨n, info⟩
  · exact ⟨s₁, rfl, h₁⟩
  have hn := find_eq_some hfind
  by_cases hservice : info.service ≠ addr
  · exact ⟨s₁, if_pos hservice, h₁⟩
  simp only [if_neg hservice]
  have hupd : Updates info { info with nLastSuccess := nTime, nLastTry := nTime, nAttempts := 0 } :=
    ⟨rfl, rfl, rfl, rfl, .inr ht, .inr ht⟩
  have h₂ := h₁.update hn hupd
  split_ifs with htried hin
  · exact ⟨_, rfl, h₂⟩
  · have hn₂ : (s₁.setInfo n { info with nLastSuccess := nTime, nLastTry := nTime, nAttempts := 0 }).mapInfo.lookup n =
        some { info with nLastSuccess := nTime, nLastTry := nTime, nAttempts := 0 } := by
      rw [lookup_setInfo, if_pos rfl]
    exact h₂.makeTried hn₂ (Bool.eq_false_iff.2 htried) ht.ne'
  · exact ⟨_, rfl, h₂⟩

end

/-! ## `Add_` -/

section

variable (h : Inv P loose k s)
include h

lemma Inv.tighten (hn : s.mapInfo.lookup n = some info) (hpos : 0 < info.nRefCount) : Inv P (loose \ {n}) k s := by
  refine { h with entry := ?_ }
  intro m info' hm
  by_cases hmn : m = n
  · subst hmn
    rw [hn] at hm
    cases hm
    exact { h.entry m info hn with referenced := fun _ _ => hpos }
  · exact (h.entry m info' hm).mono fun hl => ⟨hl, hmn⟩

lemma Inv.setNew (nNew : ℤ) : Inv P loose (k + s.nNew - nNew) { s with nNew := nNew } := by
  refine { h with total := ?_ }
  have htotal := h.total
  show (s.vRandom.length : ℤ) = s.nTried + nNew + (k + s.nNew - nNew)
  omega

lemma Inv.created (source : CNetAddr) (hnet : ∀ n info, s.mapInfo.lookup n = some info → info.net ≠ addr.service.net) :
    Inv P (insert s.nIdCount loose) (k + 1) (s.created addr source) := by
  have hfresh : s.mapInfo.lookup s.nIdCount = none := by
    rw [eq_none_iff_forall_ne_some]
    intro info hinfo
    exact lt_irrefl _ (h.fresh _ _ hinfo)
  refine inv_of_names (fun m => ?_) ?_ h.nTried_eq ?_ h.nKey_ne
  · by_cases hm : m = s.nIdCount
    · subst hm
      -- the name is new
      have hnew (slot : NewBucket × BucketPos) : s.vvNew slot ≠ some s.nIdCount := fun hslot => by
        obtain ⟨info, hinfo, -⟩ := h.new slot _ hslot
        cases hfresh.symm.trans hinfo
      refine .of_entry (lookup_insert _) (fun net => ?_) (fun slot => ?_)
        (fun slot hslot => absurd hslot (hnew slot)) (Nat.lt_succ_self _) ?_ ?_
      · show (s.mapAddr.insert addr.service.net s.nIdCount).lookup net = some s.nIdCount ↔ addr.service.net = net
        rw [lookup_insert_eq_some, h.addrs, hfresh]
        simp [eq_comm]
      · refine iff_of_false (fun hslot => ?_) nofun
        obtain ⟨info, hinfo, -⟩ := (h.tried slot _).1 hslot
        cases hfresh.symm.trans hinfo
      · show (0 : ℤ) = occ s.vvNew s.nIdCount
        rw [occ_eq_zero_iff.2 hnew]
        rfl
      · exact ⟨fun _ hnot => absurd (Set.mem_insert _ loose) hnot, Int.ofNat_le.2 (Nat.zero_le 8), nofun, le_refl _,
          le_refl _⟩
    · refine (h.nameOk m).congr rfl (Nat.le_succ _) (congrArg _ (lookup_insert_ne hm)) (fun net => ?_)
        (fun _ => Iff.rfl) (fun _ => Iff.rfl) Or.inr
      show (s.mapAddr.insert addr.service.net s.nIdCount).lookup net = some m ↔ s.mapAddr.lookup net = some m
      rw [lookup_insert_eq_some, or_iff_right fun heq => hm heq.2]
      refine and_iff_right_of_imp ?_
      rintro haddr rfl
      obtain ⟨info, hinfo, hinfo'⟩ := (h.addrs _ m).1 haddr
      exact hnet m info hinfo hinfo'
  · refine (h.positions.push (Nat.zero_le _) (by rw [hfresh]; rfl)).congr fun m => ?_
    show ((s.mapInfo.insert s.nIdCount (.new addr source s.vRandom.length)).lookup m).map _ = _
    rw [lookup_insert_eq_ite, Function.update_apply]
    split_ifs <;> rfl
  · have htotal := h.total
    show ((s.vRandom ++ [s.nIdCount]).length : ℤ) = s.nTried + s.nNew + (k + 1)
    rw [length_append, length_singleton]
    omega

lemma Inv.insertsAt (info : CAddrInfo) (slot : NewBucket × BucketPos) (nNow : ℤ) :
    ∃ fInsert, s.insertsAt info slot nNow = .ok fInsert := by
  unfold CAddrMan.insertsAt
  rcases hslot : s.vvNew slot with _ | e
  · exact ⟨true, rfl⟩
  · obtain ⟨infoExisting, he, -⟩ := h.new slot e hslot
    simp only [getInfo, he]
    exact ⟨_, rfl⟩

end

lemma Inv.placeNew (h : Inv P {n} k s) (hn : s.mapInfo.lookup n = some info) (hnew : info.fInTried = false)
    (hlt : info.nRefCount < ADDRMAN_NEW_BUCKETS_PER_ADDRESS) (source : CNetAddr) (nNow : ℤ) :
    ∃ s', s.placeNew P n source nNow = .ok s' ∧ Inv P ∅ k s' := by
  have htight {t : CAddrMan} (ht : Inv P ({n} \ {n}) k t) : Inv P ∅ k t := by
    rwa [Set.sdiff_self] at ht
  have hget : s.getInfo n = .ok info := by rw [getInfo, hn]
  simp only [CAddrMan.placeNew, hget, bind, Except.bind]
  generalize hx : s.newSlot P info (P.getNewBucket s.nKey info.net source) = x
  have hxpos : x = s.newSlot P info x.1 := by
    rw [← hx]
    rfl
  have hrefs := h.refs n info hn
  by_cases hself : s.vvNew x = some n
  · -- it is there already
    rw [if_pos hself]
    have hocc : 0 < occ s.vvNew n := occ_pos_iff.2 ⟨x, hself⟩
    exact ⟨s, rfl, htight (h.tighten hn (by omega))⟩
  rw [if_neg hself]
  obtain ⟨fInsert, hinsert⟩ := h.insertsAt info x nNow
  simp only [hinsert]
  by_cases hfInsert : fInsert = true
  · rw [if_pos hfInsert]
    obtain ⟨s₂, hclear, h₂, hvvNew, -, hnKey, hkept⟩ := h.clearNew x
    obtain ⟨pos, hn₂⟩ := hkept n hself info hn
    have hget₂ : s₂.getInfo n = .ok { info with nRandomPos := pos } := by rw [getInfo, hn₂]
    have hempty : s₂.vvNew x = none := by rw [hvvNew, Function.update_self]
    have hxpos₂ : x = s₂.newSlot P { info with nRandomPos := pos } x.1 := by
      rw [newSlot, hnKey]
      exact hxpos
    have h₃ := htight ((h₂.ref hn₂ hempty hnew hxpos₂ hlt s₂.nNew).cast (by ring))
    simp only [hclear, hget₂]
    exact ⟨_, rfl, h₃⟩
  · rw [if_neg hfInsert]
    by_cases hzero : info.nRefCount = 0
    · obtain ⟨s', hdel, h', -⟩ := h.delete hn hnew hzero
      rw [if_pos hzero]
      exact ⟨s', hdel, htight h'⟩
    · rw [if_neg hzero]
      exact ⟨s, rfl, htight (h.tighten hn (by omega))⟩

lemma updates_refresh (info : CAddrInfo) (nTimePenalty nNow : ℤ) :
    Updates info (refresh addr info nTimePenalty nNow) := by
  unfold refresh
  dsimp only
  split_ifs with hinterval hold
  all_goals exact ⟨rfl, rfl, rfl, rfl, .inl rfl, .inl rfl⟩

lemma of_addsReference {addr : CAddress} {rnd : ℕ} (h : addsReference addr info rnd = true) :
    info.fInTried = false ∧ info.nRefCount ≠ ADDRMAN_NEW_BUCKETS_PER_ADDRESS := by
  unfold addsReference at h
  split_ifs at h with htime htried hcount
  · exact ⟨Bool.eq_false_iff.2 htried, hcount⟩

lemma Inv.add (h : Inv P ∅ k s) (addr : CAddress) (source : CNetAddr) (nTimePenalty : ℤ) (rnd : ℕ) (nNow : ℤ)
    (hid : s.HasId P (.add addr source nTimePenalty rnd nNow)) :
    ∃ s' fNew, s.add P addr source nTimePenalty rnd nNow = .ok (s', fNew) ∧ Inv P ∅ k s' := by
  unfold CAddrMan.add
  by_cases hroutable : (!P.isRoutable addr.service.net) = true
  · exact ⟨s, false, if_pos hroutable, h⟩
  rw [if_neg hroutable]
  replace hid := hid (by simpa using hroutable)
  generalize (if addr.service.net = source then 0 else nTimePenalty) = nTimePenalty
  rcases hfind : s.find addr.service.net with _ | ⟨n, info⟩
  · -- a new entry
    have h₁ : Inv P {s.nIdCount} (k + 1) (s.created addr source) := by
      have hcreated := h.created addr source fun n info => h.find_eq_none hfind
      rwa [insert_empty_eq] at hcreated
    have hcreate : s.create addr source = .ok (s.created addr source) := if_pos (hid hfind)
    have hn₁ : (s.created addr source).mapInfo.lookup s.nIdCount = some (.new addr source s.vRandom.length) :=
      lookup_insert _
    have hget₁ : (s.created addr source).getInfo s.nIdCount = .ok (.new addr source s.vRandom.length) := by
      rw [getInfo, hn₁]
    simp only [hcreate, hget₁, bind, Except.bind]
    generalize hinfo : CAddrInfo.setTime (.new addr source s.vRandom.length) _ = info
    have hupd : Updates (.new addr source s.vRandom.length) info := hinfo ▸ updates_setTime _ _
    have h₂ := h₁.update hn₁ hupd
    have hn₂ : ((s.created addr source).setInfo s.nIdCount info).mapInfo.lookup s.nIdCount = some info := by
      rw [lookup_setInfo, if_pos rfl]
    generalize (s.created addr source).setInfo s.nIdCount info = s₂ at h₂ hn₂ ⊢
    have h₃ := h₂.setNew (s₂.nNew + 1)
    have hlt : info.nRefCount < ADDRMAN_NEW_BUCKETS_PER_ADDRESS := by
      rw [hupd.nRefCount]
      show (0 : ℤ) < 8
      decide
    obtain ⟨s', hplace, h'⟩ := (h₃.cast (by ring : _ = k)).placeNew hn₂ hupd.fInTried hlt source nNow
    exact ⟨s', true, by simp only [hplace]; rfl, h'⟩
  · have hn := find_eq_some hfind
    have hupd := updates_refresh addr info nTimePenalty nNow
    dsimp only
    generalize refresh addr info nTimePenalty nNow = info' at hupd ⊢
    have h₁ := h.update hn hupd
    have hn₁ : (s.setInfo n info').mapInfo.lookup n = some info' := by rw [lookup_setInfo, if_pos rfl]
    by_cases hadds : addsReference addr info' rnd = true
    · obtain ⟨hnew, hne⟩ := of_addsReference hadds
      have hle := (h₁.entry n info' hn₁).nRefCount_le
      obtain ⟨s', hplace, h'⟩ :=
        (h₁.mono (Set.empty_subset {n})).placeNew hn₁ hnew (lt_of_le_of_ne hle hne) source nNow
      refine ⟨s', false, ?_, h'⟩
      simp only [if_pos hadds, hplace]
      rfl
    · exact ⟨_, false, if_neg hadds, h₁⟩

/-! ## `GetAddr_` -/

lemma Inv.getAddrLoop {nNodes : ℕ} {nNow : ℤ} {rnd : ℕ → ℕ} (left i : ℕ) (vAddr : List CAddress) (h : Inv P loose k s)
    (hlen : i + left = s.vRandom.length) :
    ∃ s' vAddr', getAddrLoop nNodes nNow rnd left i s vAddr = .ok (s', vAddr') ∧ Inv P loose k s' := by
  induction left generalizing i s vAddr with
  | zero => exact ⟨s, vAddr, rfl, h⟩
  | succ left ih =>
    unfold getAddrLoop
    by_cases hfull : vAddr.length ≥ nNodes
    · exact ⟨s, vAddr, if_pos hfull, h⟩
    have hi : i < s.vRandom.length := by omega
    have hj : rnd i % (s.vRandom.length - i) + i < s.vRandom.length := by
      have hmod := Nat.mod_lt (rnd i) (show 0 < s.vRandom.length - i by omega)
      omega
    obtain ⟨mapInfo, vRandom, hswap, h', hlen', -⟩ := h.swapRandom hi hj
    obtain ⟨m, hm⟩ : ∃ m, vRandom[i]? = some m := ⟨_, getElem?_eq_getElem (hlen'.symm ▸ hi)⟩
    obtain ⟨ai, hai, -⟩ := h'.lookup_of_getElem hm
    simp only [if_neg hfull, hswap, bind, Except.bind, hm, Option.bind, hai]
    exact ih (i + 1) _ h' (by show _ = vRandom.length; omega)

lemma Inv.getAddr (h : Inv P loose k s) (nNow : ℤ) (rnd : ℕ → ℕ) :
    ∃ s' vAddr, s.getAddr nNow rnd = .ok (s', vAddr) ∧ Inv P loose k s' :=
  h.getAddrLoop s.vRandom.length 0 [] (Nat.zero_add _)

/-! ## Runs -/

/-- **Every call for which there is an id succeeds and keeps the invariant.** -/
theorem Inv.step (h : Inv P ∅ 0 s) {op : AddrManOp} (hop : op.Timely) (hid : s.HasId P op) :
    ∃ s', s.step P op = .ok s' ∧ Inv P ∅ 0 s' := by
  cases op with
  | add addr source nTimePenalty rnd nNow =>
    obtain ⟨s', fNew, hadd, h'⟩ := h.add addr source nTimePenalty rnd nNow hid
    exact ⟨s', by rw [CAddrMan.step, hadd]; rfl, h'⟩
  | good addr nTime nRnd => exact h.good addr hop nRnd
  | attempt addr fCountFailure nTime => exact ⟨_, rfl, h.attempt addr fCountFailure hop⟩
  | connected addr nTime => exact ⟨_, rfl, h.connected addr nTime⟩
  | setServices addr nServices => exact ⟨_, rfl, h.setServices addr nServices⟩
  | getAddr nNow rnd =>
    obtain ⟨s', vAddr, hget, h'⟩ := h.getAddr nNow rnd
    exact ⟨s', by rw [CAddrMan.step, hget]; rfl, h'⟩

lemma hasId_of_step {s' : CAddrMan} {op : AddrManOp} (hstep : s.step P op = .ok s') : s.HasId P op := by
  cases op with
  | add addr source nTimePenalty rnd nNow =>
    intro hroutable hfind
    by_contra hid
    have hcreate : s.create addr source = .error .overflow := if_neg hid
    simp [CAddrMan.step, CAddrMan.add, hroutable, hfind, hcreate, bind, Except.bind] at hstep
  | good | attempt | connected | setServices | getAddr => trivial

/-- **A run with an id for every entry it creates succeeds and keeps the invariant.** -/
theorem Inv.run (h : Inv P ∅ 0 s) {ops : List AddrManOp} (hops : ∀ op ∈ ops, op.Timely)
    (hids : Meets (CAddrMan.step P) (HasId P) s ops) : ∃ s', ops.foldlM (CAddrMan.step P) s = .ok s' ∧ Inv P ∅ 0 s' :=
  hids.exists_foldlM (fun _ op hop h hid => h.step (hops op hop) hid) h

end CAddrMan

end Soferox
