import Soferox.Lib.Restrict
import Soferox.Lib.Runs
import Soferox.Net.BlocksInFlight

/-!
# The accounts of blocks in flight

The map of blocks in flight and the lists of the peers say the same, and every counter is the number that it stands for.

* `Accounts` — the invariant;
* `Accounts.received`, `Accounts.insertInFlight`, `Accounts.removeNode` — what the calls do to it;
* `run_accounts` — it holds after any calls, and no `assert` fails but the one for a peer that is not there.
-/

namespace Soferox

open Lib CNodeState List AList Option DownloadState

/-! ## Lists of blocks in flight -/

section Places

variable {l : List (ℕ × QueuedBlock)} {it : ℕ} {entry : QueuedBlock}

variable (hl : (l.map (·.1)).Nodup) (h : (it, entry) ∈ l)
include hl h

lemma dereference_eq : dereference l it = .ok entry := by
  have hfind : l.find? (·.1 = it) = some (it, entry) := by
    cases hf : l.find? (·.1 = it) with
    | none =>
      rw [find?_eq_none] at hf
      exact absurd (by simp) (hf _ h)
    | some found =>
      have hit : found.1 = it := by simpa using find?_some hf
      rw [inj_on_of_nodup_map hl (mem_of_find?_eq_some hf) h hit]
  rw [dereference, hfind]

lemma perm_eraseAt : l.Perm ((it, entry) :: eraseAt l it) := by
  obtain ⟨found, l₁, l₂, -, hfound, hsplit, herase⟩ := exists_of_eraseP (p := (·.1 = it)) h (by simp)
  have heq : found = (it, entry) := by
    apply inj_on_of_nodup_map hl _ h
    · simpa using hfound
    · rw [hsplit]
      simp
  rw [eraseAt, herase, ← heq]
  nth_rewrite 1 [hsplit]
  exact perm_middle

lemma mem_eraseAt {p : ℕ × QueuedBlock} : p ∈ eraseAt l it ↔ p ∈ l ∧ p.1 ≠ it := by
  have hperm := perm_eraseAt hl h
  have hnodup := (hperm.map (·.1)).nodup_iff.1 hl
  rw [map_cons, nodup_cons] at hnodup
  rw [hperm.mem_iff, mem_cons]
  constructor
  · intro hp
    refine ⟨.inr hp, ?_⟩
    rintro rfl
    exact hnodup.1 (List.mem_map.2 ⟨p, hp, rfl⟩)
  · rintro ⟨rfl | hp, hne⟩
    · exact absurd rfl hne
    · exact hp

end Places

namespace DownloadState

variable {s s' : DownloadState} {nodeid : NodeId} {state state' : CNodeState} {hash : Uint256} {it : ℕ}

/-! ## The invariant -/

/-- **The accounts are right.** -/
structure Accounts (s : DownloadState) : Prop where
  /-- the map has an entry for each element of a list, which points to it -/
  pointed {nodeid : NodeId} {state : CNodeState} {it : ℕ} {entry : QueuedBlock} :
    s.mapNodeState.lookup nodeid = some state → (it, entry) ∈ state.vBlocksInFlight →
    s.mapBlocksInFlight.lookup entry.hash = some (nodeid, it)
  /-- and no others -/
  listed {hash : Uint256} {nodeid : NodeId} {it : ℕ} : s.mapBlocksInFlight.lookup hash = some (nodeid, it) →
    ∃ state entry, s.mapNodeState.lookup nodeid = some state ∧ (it, entry) ∈ state.vBlocksInFlight ∧ entry.hash = hash
  /-- the elements of a list are at different places -/
  places {nodeid : NodeId} {state : CNodeState} :
    s.mapNodeState.lookup nodeid = some state → (state.vBlocksInFlight.map (·.1)).Nodup
  place_lt {nodeid : NodeId} {state : CNodeState} {it : ℕ} {entry : QueuedBlock} :
    s.mapNodeState.lookup nodeid = some state → (it, entry) ∈ state.vBlocksInFlight → it < s.nextPlace
  nBlocksInFlight {nodeid : NodeId} {state : CNodeState} :
    s.mapNodeState.lookup nodeid = some state → state.nBlocksInFlight = state.vBlocksInFlight.length
  nBlocksInFlightValidHeaders {nodeid : NodeId} {state : CNodeState} :
    s.mapNodeState.lookup nodeid = some state →
    state.nBlocksInFlightValidHeaders = state.vBlocksInFlight.countP (·.2.fValidatedHeaders)
  nPeersWithValidatedDownloads :
    s.nPeersWithValidatedDownloads = countValues (fun state => state.nBlocksInFlightValidHeaders != 0) s.mapNodeState
  nPreferredDownload : s.nPreferredDownload = countValues (·.fPreferredDownload) s.mapNodeState
  protected_eq : s.g_outbound_peers_with_protect_from_disconnect = countValues (·.m_protect) s.mapNodeState

lemma accounts_empty : Accounts empty where
  pointed h := nomatch h
  listed h := nomatch h
  places h := nomatch h
  place_lt h := nomatch h
  nBlocksInFlight h := nomatch h
  nBlocksInFlightValidHeaders h := nomatch h
  nPeersWithValidatedDownloads := rfl
  nPreferredDownload := rfl
  protected_eq := rfl

section

variable (h : Accounts s) {m : AList fun _ : NodeId => CNodeState} {f : Bool}
include h

lemma Accounts.unique {nodeid' : NodeId} {it' : ℕ} {entry entry' : QueuedBlock}
    (hstate : s.mapNodeState.lookup nodeid = some state) (hstate' : s.mapNodeState.lookup nodeid' = some state')
    (hmem : (it, entry) ∈ state.vBlocksInFlight) (hmem' : (it', entry') ∈ state'.vBlocksInFlight)
    (hhash : entry.hash = entry'.hash) : nodeid = nodeid' ∧ it = it' := by
  have hpointed := h.pointed hstate hmem
  rw [hhash, h.pointed hstate' hmem', some.injEq, Prod.mk.injEq] at hpointed
  exact ⟨hpointed.1.symm, hpointed.2.symm⟩

lemma Accounts.listed_at (hstate : s.mapNodeState.lookup nodeid = some state)
    (hlookup : s.mapBlocksInFlight.lookup hash = some (nodeid, it)) :
    ∃ entry, (it, entry) ∈ state.vBlocksInFlight ∧ entry.hash = hash := by
  obtain ⟨state', entry, hstate', hmem, hhash⟩ := h.listed hlookup
  rw [hstate, some.injEq] at hstate'
  exact ⟨entry, hstate' ▸ hmem, hhash⟩

/-- What the accounts say about the list and the counters of one peer. -/
structure PeerAccounts (nextPlace : ℕ) (state : CNodeState) : Prop where
  places : (state.vBlocksInFlight.map (·.1)).Nodup
  place_lt {it : ℕ} {entry : QueuedBlock} : (it, entry) ∈ state.vBlocksInFlight → it < nextPlace
  nBlocksInFlight : state.nBlocksInFlight = state.vBlocksInFlight.length
  nBlocksInFlightValidHeaders :
    state.nBlocksInFlightValidHeaders = state.vBlocksInFlight.countP (·.2.fValidatedHeaders)

/-- **The entry of one peer is written.** The map of blocks in flight changes for this peer only. -/
theorem Accounts.setPeer (hmap : s'.mapNodeState = s.mapNodeState.insert nodeid state')
    (hplace : s.nextPlace ≤ s'.nextPlace) (hpeer : PeerAccounts s'.nextPlace state')
    (hpointed : ∀ it entry, (it, entry) ∈ state'.vBlocksInFlight →
      s'.mapBlocksInFlight.lookup entry.hash = some (nodeid, it))
    (hothers : ∀ hash nodeid' it, nodeid' ≠ nodeid →
      (s'.mapBlocksInFlight.lookup hash = some (nodeid', it) ↔ s.mapBlocksInFlight.lookup hash = some (nodeid', it)))
    (hlisted : ∀ hash it, s'.mapBlocksInFlight.lookup hash = some (nodeid, it) →
      ∃ entry, (it, entry) ∈ state'.vBlocksInFlight ∧ entry.hash = hash)
    (hpeers : s'.nPeersWithValidatedDownloads =
      countValues (fun state => state.nBlocksInFlightValidHeaders != 0) (s.mapNodeState.insert nodeid state'))
    (hpreferred : s'.nPreferredDownload = countValues (·.fPreferredDownload) (s.mapNodeState.insert nodeid state'))
    (hprotected : s'.g_outbound_peers_with_protect_from_disconnect =
      countValues (·.m_protect) (s.mapNodeState.insert nodeid state')) :
    Accounts s' := by
  have hall {nodeid' : NodeId} {state₂ : CNodeState} (h₂ : s'.mapNodeState.lookup nodeid' = some state₂) :
      PeerAccounts s'.nextPlace state₂ := by
    rcases lookup_insert_eq_some.1 (hmap ▸ h₂) with ⟨-, rfl⟩ | ⟨-, h₂⟩
    · exact hpeer
    · exact ⟨h.places h₂, fun hmem => (h.place_lt h₂ hmem).trans_le hplace, h.nBlocksInFlight h₂,
        h.nBlocksInFlightValidHeaders h₂⟩
  constructor
  case pointed =>
    intro nodeid' state₂ it' entry' h₂ hmem
    rcases lookup_insert_eq_some.1 (hmap ▸ h₂) with ⟨rfl, rfl⟩ | ⟨hne, h₂⟩
    · exact hpointed it' entry' hmem
    · exact (hothers _ nodeid' it' hne).2 (h.pointed h₂ hmem)
  case listed =>
    intro hash nodeid' it' hlookup
    rw [hmap]
    by_cases heq : nodeid' = nodeid
    · subst heq
      obtain ⟨entry, hentry⟩ := hlisted hash it' hlookup
      exact ⟨state', entry, lookup_insert _, hentry⟩
    · rw [lookup_insert_ne heq]
      exact h.listed ((hothers hash nodeid' it' heq).1 hlookup)
  case places => exact fun h₂ => (hall h₂).places
  case place_lt => exact fun h₂ => (hall h₂).place_lt
  case nBlocksInFlight => exact fun h₂ => (hall h₂).nBlocksInFlight
  case nBlocksInFlightValidHeaders => exact fun h₂ => (hall h₂).nBlocksInFlightValidHeaders
  case nPeersWithValidatedDownloads => rw [hpeers, hmap]
  case nPreferredDownload => rw [hpreferred, hmap]
  case protected_eq => rw [hprotected, hmap]

omit h in
lemma countValues_same {p : CNodeState → Bool} (hstate : m.lookup nodeid = some state) (hp : p state' = p state) :
    countValues p m = countValues p (m.insert nodeid state') := by
  have hreplace := countValues_replace (p := p) (d := state') hstate
  rw [hp] at hreplace
  omega

/-! ## Received -/

omit h in
lemma ite_eq_toNat (f : Bool) : (if f = true then 1 else 0) = f.toNat := by
  cases f with
  | false => rfl
  | true => rfl

omit h in
lemma peers_received {n n' left : ℕ} {peers valid : ℤ} (hvalid : valid = (left + f.toNat : ℕ))
    (hreplace : n' + (valid != 0).toNat = n + (valid - f.toNat != 0).toNat) (hpeers : peers = n) :
    (if valid - f.toNat = 0 ∧ f then peers - 1 else peers) = n' := by
  subst hvalid hpeers
  cases f with
  | false =>
    simp at hreplace ⊢
    omega
  | true =>
    by_cases hleft : left = 0
    · simp [hleft] at hreplace ⊢
      omega
    · have hnext : ((left : ℤ) + 1 != 0) = true := by
        rw [bne_iff_ne]
        omega
      have hbne : ((left : ℤ) != 0) = true := by simpa using hleft
      simp [hnext, hbne, hleft] at hreplace ⊢
      omega

omit h in
lemma peers_requested {n n' valid : ℕ} {peers : ℤ}
    (hreplace : n' + ((valid : ℤ) != 0).toNat = n + ((valid : ℤ) + f.toNat != 0).toNat) (hpeers : peers = n) :
    (if (valid : ℤ) + f.toNat = 1 ∧ f then peers + 1 else peers) = n' := by
  cases f with
  | false =>
    simp at hreplace ⊢
    omega
  | true =>
    have hnext : ((valid : ℤ) + 1 != 0) = true := by
      rw [bne_iff_ne]
      omega
    by_cases hvalid : valid = 0
    · simp [hvalid] at hreplace ⊢
      omega
    · have hbne : ((valid : ℤ) != 0) = true := by simpa using hvalid
      simp [hnext, hbne, hvalid] at hreplace ⊢
      omega

lemma Accounts.received {entry : QueuedBlock} (hstate : s.mapNodeState.lookup nodeid = some state)
    (hmem : (it, entry) ∈ state.vBlocksInFlight) (now : ℤ) :
    Accounts { s with
      mapNodeState := s.mapNodeState.insert nodeid (state.received it entry now)
      mapBlocksInFlight := s.mapBlocksInFlight.erase entry.hash
      nPeersWithValidatedDownloads :=
        if (state.received it entry now).nBlocksInFlightValidHeaders = 0 ∧ entry.fValidatedHeaders then
          s.nPeersWithValidatedDownloads - 1
        else s.nPeersWithValidatedDownloads } := by
  have hplaces := h.places hstate
  have hperm := perm_eraseAt hplaces hmem
  have hlength := hperm.length_eq
  have hcount := hperm.countP_eq (·.2.fValidatedHeaders)
  rw [length_cons] at hlength
  rw [countP_cons] at hcount
  refine h.setPeer rfl le_rfl ?peer ?pointed ?others ?listed ?peers ?preferred ?protect
  case peer =>
    refine ⟨(nodup_cons.1 ((hperm.map (·.1)).nodup_iff.1 hplaces)).2, fun hmem' => ?_, ?_, ?_⟩
    · exact h.place_lt hstate ((mem_eraseAt hplaces hmem).1 hmem').1
    · simp only [CNodeState.received, h.nBlocksInFlight hstate]
      omega
    · simp only [CNodeState.received, h.nBlocksInFlightValidHeaders hstate, hcount]
      cases entry.fValidatedHeaders <;> simp
  case pointed =>
    intro it' entry' hmem'
    obtain ⟨hmem', hplace⟩ := (mem_eraseAt hplaces hmem).1 hmem'
    have hhash : entry'.hash ≠ entry.hash := fun heq => hplace (h.unique hstate hstate hmem' hmem heq).2
    rw [lookup_erase_ne hhash]
    exact h.pointed hstate hmem'
  case others =>
    intro hash nodeid' it' hne
    refine lookup_erase_eq_some.trans (and_iff_right_of_imp ?_)
    rintro hlookup rfl
    rw [h.pointed hstate hmem] at hlookup
    exact hne (Prod.mk.inj (some.inj hlookup)).1.symm
  case listed =>
    intro hash it' hlookup
    obtain ⟨hhash, hlookup⟩ := lookup_erase_eq_some.1 hlookup
    obtain ⟨entry', hmem', rfl⟩ := h.listed_at hstate hlookup
    refine ⟨entry', (mem_eraseAt hplaces hmem).2 ⟨hmem', ?_⟩, rfl⟩
    rintro rfl
    exact hhash (congrArg QueuedBlock.hash (Prod.mk.inj (inj_on_of_nodup_map hplaces hmem' hmem rfl)).2)
  case peers =>
    have hvalid := h.nBlocksInFlightValidHeaders hstate
    rw [hcount, ite_eq_toNat] at hvalid
    exact peers_received hvalid (countValues_replace hstate) h.nPeersWithValidatedDownloads
  case preferred => exact h.nPreferredDownload.trans (congrArg _ (countValues_same hstate rfl))
  case protect => exact h.protected_eq.trans (congrArg _ (countValues_same hstate rfl))

lemma Accounts.markBlockAsReceived (hash : Uint256) (now : ℤ) :
    ∃ b s', s.markBlockAsReceived hash now = .ok (b, s') ∧ Accounts s' ∧ s'.mapBlocksInFlight.lookup hash = none ∧
      ∀ nodeid, (s'.mapNodeState.lookup nodeid).isSome = (s.mapNodeState.lookup nodeid).isSome := by
  unfold DownloadState.markBlockAsReceived
  cases hlookup : s.mapBlocksInFlight.lookup hash with
  | none => exact ⟨false, s, rfl, h, hlookup, fun _ => rfl⟩
  | some p =>
    obtain ⟨nodeid, it⟩ := p
    obtain ⟨state, entry, hstate, hmem, rfl⟩ := h.listed hlookup
    simp only [hstate, dereference_eq (h.places hstate) hmem]
    refine ⟨true, _, rfl, h.received hstate hmem now, lookup_erase _ _, fun nodeid' => ?_⟩
    rw [lookup_insert_eq_ite]
    split_ifs with heq
    · rw [heq, hstate]
      rfl
    · rfl

/-! ## Requested -/

lemma Accounts.insertInFlight (hstate : s.mapNodeState.lookup nodeid = some state)
    (hnone : s.mapBlocksInFlight.lookup hash = none) (pindex : Option Uint256) (pit : Bool) (now : ℤ) :
    ∃ s', s.insertInFlight nodeid hash pindex pit now = .ok s' ∧ Accounts s' := by
  have hget : s.state nodeid = .ok state := by rw [DownloadState.state, hstate]
  rw [DownloadState.insertInFlight, hget]
  refine ⟨_, rfl, ?_⟩
  have hnew {p : ℕ × QueuedBlock} (hmem : p ∈ state.vBlocksInFlight ++ [(s.nextPlace, ⟨hash, pindex, pindex.isSome, pit⟩)]) :
      p ∈ state.vBlocksInFlight ∨ p = (s.nextPlace, ⟨hash, pindex, pindex.isSome, pit⟩) := by
    simpa using hmem
  -- a block that is in flight is not the new one
  have hother {it' : ℕ} {entry' : QueuedBlock} (hstate' : s.mapNodeState.lookup nodeid = some state)
      (hmem' : (it', entry') ∈ state.vBlocksInFlight) : entry'.hash ≠ hash := by
    intro heq
    have hpointed := h.pointed hstate' hmem'
    rw [heq, hnone] at hpointed
    cases hpointed
  refine h.setPeer rfl (Nat.le_succ _) ?peer ?pointed ?others ?listed ?peers ?preferred ?protect
  case peer =>
    refine ⟨?_, fun hmem' => ?_, by simp [requested, h.nBlocksInFlight hstate], ?_⟩
    · rw [requested, map_append, map_cons, map_nil, nodup_append]
      refine ⟨h.places hstate, nodup_singleton _, ?_⟩
      intro it' hit' new hfresh heq
      rw [mem_singleton] at hfresh
      obtain ⟨⟨_, entry'⟩, hmem', rfl⟩ := List.mem_map.1 hit'
      have hlt := h.place_lt hstate hmem'
      simp only at heq
      omega
    · rcases hnew hmem' with hmem' | heq
      · exact Nat.lt_succ_of_lt (h.place_lt hstate hmem')
      · rw [(Prod.mk.inj heq).1]
        exact Nat.lt_succ_self _
    · simp only [requested, h.nBlocksInFlightValidHeaders hstate, countP_append, countP_singleton,
        ite_eq_toNat]
      rfl
  case pointed =>
    intro it' entry' hmem'
    rcases hnew hmem' with hmem' | heq
    · rw [lookup_insert_ne (hother hstate hmem'), h.pointed hstate hmem']
    · obtain ⟨rfl, rfl⟩ := heq
      exact lookup_insert _
  case others =>
    intro hash' nodeid' it' hne
    rw [lookup_insert_eq_ite]
    split_ifs with hhash
    · rw [hhash, hnone, some.injEq, Prod.mk.injEq]
      exact iff_of_false (fun heq => hne heq.1.symm) nofun
    · rfl
  case listed =>
    intro hash' it' hlookup
    rcases lookup_insert_eq_some.1 hlookup with ⟨rfl, heq⟩ | ⟨-, hlookup⟩
    · obtain ⟨-, rfl⟩ := heq
      exact ⟨_, mem_append_right _ mem_cons_self, rfl⟩
    · obtain ⟨entry', hmem', rfl⟩ := h.listed_at hstate hlookup
      exact ⟨entry', mem_append_left _ hmem', rfl⟩
  case peers =>
    have hreplace := countValues_replace (p := fun state => state.nBlocksInFlightValidHeaders != 0)
      (d := state.requested s.nextPlace ⟨hash, pindex, pindex.isSome, pit⟩ now) hstate
    simp only [requested, h.nBlocksInFlightValidHeaders hstate] at hreplace ⊢
    exact peers_requested hreplace h.nPeersWithValidatedDownloads
  case preferred => exact h.nPreferredDownload.trans (congrArg _ (countValues_same hstate rfl))
  case protect => exact h.protected_eq.trans (congrArg _ (countValues_same hstate rfl))

lemma Accounts.markBlockAsInFlight (hstate : s.mapNodeState.lookup nodeid = some state) (hash : Uint256)
    (pindex : Option Uint256) (pit : Bool) (now : ℤ) :
    ∃ b s', s.markBlockAsInFlight nodeid hash pindex pit now = .ok (b, s') ∧ Accounts s' := by
  unfold DownloadState.markBlockAsInFlight DownloadState.state
  rw [hstate]
  by_cases hsame : (s.mapBlocksInFlight.lookup hash).map (·.1) = some nodeid
  · exact ⟨false, s, if_pos hsame, h⟩
  · obtain ⟨b, s₁, hreceived, h₁, hnone, hsome⟩ := h.markBlockAsReceived hash now
    have hstate₁ := hsome nodeid
    rw [hstate, isSome_some, isSome_iff_exists] at hstate₁
    obtain ⟨state₁, hstate₁⟩ := hstate₁
    obtain ⟨s₂, hinsert, h₂⟩ := h₁.insertInFlight hstate₁ hnone pindex pit now
    refine ⟨true, s₂, ?_, h₂⟩
    simp only [ok_bind, if_neg hsame, hreceived, hinsert]
    rfl

/-! ## Peers that come and go -/

lemma Accounts.initializeNode (nodeid : NodeId) : Accounts (s.initializeNode nodeid) := by
  unfold DownloadState.initializeNode
  cases hstate : s.mapNodeState.lookup nodeid with
  | some state => exact h
  | none =>
    have hcount (p : CNodeState → Bool) (hp : p {} = false) :
        countValues p s.mapNodeState = countValues p (s.mapNodeState.insert nodeid {}) := by
      rw [countValues_insert, countValues_erase_of_none hstate, hp]
      rfl
    have hfresh : PeerAccounts s.nextPlace {} :=
      { places := nodup_nil, place_lt := nofun, nBlocksInFlight := rfl, nBlocksInFlightValidHeaders := rfl }
    refine h.setPeer rfl le_rfl hfresh (fun _ _ hmem => nomatch hmem) (fun _ _ _ _ => Iff.rfl) ?_ ?_ ?_ ?_
    · intro hash it hlookup
      obtain ⟨state, -, hstate', -⟩ := h.listed hlookup
      rw [hstate] at hstate'
      cases hstate'
    · exact h.nPeersWithValidatedDownloads.trans (congrArg _ (hcount _ rfl))
    · exact h.nPreferredDownload.trans (congrArg _ (hcount _ rfl))
    · exact h.protected_eq.trans (congrArg _ (hcount _ rfl))

omit h in
lemma count_erase {p : CNodeState → Bool} {n : ℤ} (hn : n = countValues p s.mapNodeState)
    (hstate : s.mapNodeState.lookup nodeid = some state) :
    n - (p state).toNat = countValues p (s.mapNodeState.erase nodeid) := by
  rw [hn, countValues_erase hstate]
  omega

lemma Accounts.removeNode (hstate : s.mapNodeState.lookup nodeid = some state) :
    Accounts (s.removeNode nodeid state) := by
  have hkept {nodeid' : NodeId} {state' : CNodeState} (hstate' : (s.mapNodeState.erase nodeid).lookup nodeid' = some state') :
      nodeid' ≠ nodeid ∧ s.mapNodeState.lookup nodeid' = some state' := lookup_erase_eq_some.1 hstate'
  constructor
  case pointed =>
    intro nodeid' state' it' entry' hstate' hmem'
    obtain ⟨hne, hstate'⟩ := hkept hstate'
    rw [DownloadState.removeNode, lookup_foldl_erase, if_neg]
    · exact h.pointed hstate' hmem'
    · intro hin
      obtain ⟨⟨it, entry⟩, hmem, hhash⟩ := List.mem_map.1 hin
      exact hne (h.unique hstate hstate' hmem hmem' hhash).1.symm
  case listed =>
    intro hash nodeid' it' hlookup
    rw [DownloadState.removeNode, lookup_foldl_erase] at hlookup
    split_ifs at hlookup with hnot
    obtain ⟨state', entry', hstate', hmem', rfl⟩ := h.listed hlookup
    refine ⟨state', entry', lookup_erase_eq_some.2 ⟨?_, hstate'⟩, hmem', rfl⟩
    rintro rfl
    rw [hstate, some.injEq] at hstate'
    subst hstate'
    exact hnot (mem_map_of_mem hmem')
  case places => exact fun hstate' => h.places (hkept hstate').2
  case place_lt => exact fun hstate' hmem' => h.place_lt (hkept hstate').2 hmem'
  case nBlocksInFlight => exact fun hstate' => h.nBlocksInFlight (hkept hstate').2
  case nBlocksInFlightValidHeaders => exact fun hstate' => h.nBlocksInFlightValidHeaders (hkept hstate').2
  case nPeersWithValidatedDownloads => exact count_erase h.nPeersWithValidatedDownloads hstate
  case nPreferredDownload => exact count_erase h.nPreferredDownload hstate
  case protected_eq => exact count_erase h.protected_eq hstate

lemma Accounts.checkLast : s.checkLast = .ok () := by
  unfold DownloadState.checkLast
  split_ifs with hpeers hblocks hpreferred hdownloads hprotected
  · rfl
  · exfalso
    rw [not_not] at hpeers
    obtain ⟨⟨hash, nodeid, it⟩, rest, hentries⟩ := exists_cons_of_ne_nil hblocks
    have hlookup : s.mapBlocksInFlight.lookup hash = some (nodeid, it) := by
      rw [mem_lookup_iff.2]
      rw [hentries]
      exact mem_cons_self
    obtain ⟨state, -, hstate, -⟩ := h.listed hlookup
    have hmem := mem_lookup_iff.1 hstate
    rw [hpeers] at hmem
    cases hmem
  all_goals rw [not_not] at hpeers
  · rw [h.nPreferredDownload, countValues_eq_zero hpeers] at hpreferred
    exact hpreferred rfl
  · rw [h.nPeersWithValidatedDownloads, countValues_eq_zero hpeers] at hdownloads
    exact hdownloads rfl
  · rw [h.protected_eq, countValues_eq_zero hpeers] at hprotected
    exact hprotected rfl

lemma Accounts.finalizeNode (hstate : s.mapNodeState.lookup nodeid = some state) :
    ∃ b s', s.finalizeNode nodeid = .ok (b, s') ∧ Accounts s' := by
  have h' := h.removeNode hstate
  have hpeers : ¬ (s.removeNode nodeid state).nPeersWithValidatedDownloads < 0 := by
    rw [h'.nPeersWithValidatedDownloads]
    omega
  have hprotected : ¬ (s.removeNode nodeid state).g_outbound_peers_with_protect_from_disconnect < 0 := by
    rw [h'.protected_eq]
    omega
  refine ⟨decide (state.nMisbehavior = 0 ∧ state.fCurrentlyConnected), s.removeNode nodeid state, ?_, h'⟩
  rw [DownloadState.finalizeNode, DownloadState.state, hstate]
  simp only [ok_bind, if_neg hpeers, if_neg hprotected, h'.checkLast]
  rfl

lemma Accounts.setFlags (hstate : s.mapNodeState.lookup nodeid = some state)
    (hmap : s'.mapNodeState = s.mapNodeState.insert nodeid state')
    (hlist : state'.vBlocksInFlight = state.vBlocksInFlight) (hblocks : state'.nBlocksInFlight = state.nBlocksInFlight)
    (hvalid : state'.nBlocksInFlightValidHeaders = state.nBlocksInFlightValidHeaders) (hinFlight : s'.mapBlocksInFlight = s.mapBlocksInFlight)
    (hplace : s'.nextPlace = s.nextPlace) (hpeers : s'.nPeersWithValidatedDownloads = s.nPeersWithValidatedDownloads)
    (hpreferred : s'.nPreferredDownload = s.nPreferredDownload - state.fPreferredDownload.toNat + state'.fPreferredDownload.toNat)
    (hprotected : s'.g_outbound_peers_with_protect_from_disconnect =
      s.g_outbound_peers_with_protect_from_disconnect - state.m_protect.toNat + state'.m_protect.toNat) :
    Accounts s' := by
  have hpeer : PeerAccounts s'.nextPlace state' := by
    refine ⟨?_, fun hmem => ?_, ?_, ?_⟩
    · exact hlist ▸ h.places hstate
    · exact hplace ▸ h.place_lt hstate (hlist ▸ hmem)
    · rw [hlist, hblocks, h.nBlocksInFlight hstate]
    · rw [hlist, hvalid, h.nBlocksInFlightValidHeaders hstate]
  refine h.setPeer hmap hplace.ge hpeer ?_ (fun _ _ _ _ => by rw [hinFlight]) ?_ ?_ ?_ ?_
  · intro it entry hmem
    rw [hinFlight]
    exact h.pointed hstate (hlist ▸ hmem)
  · intro hash it hlookup
    rw [hinFlight] at hlookup
    exact hlist ▸ h.listed_at hstate hlookup
  · rw [hpeers, h.nPeersWithValidatedDownloads]
    exact congrArg _ (countValues_same hstate (by rw [hvalid]))
  · have hreplace := countValues_replace (p := (·.fPreferredDownload)) (d := state') hstate
    have hcount := h.nPreferredDownload
    omega
  · have hreplace := countValues_replace (p := (·.m_protect)) (d := state') hstate
    have hcount := h.protected_eq
    omega

/-! ## Runs -/

omit h

/-- The peer that a call cannot do without. -/
def Call.peer : Call → Option NodeId
  | .markBlockAsInFlight nodeid .. | .finalizeNode nodeid | .updatePreferredDownload nodeid ..
  | .protectFromDisconnect nodeid | .setOtherFields nodeid .. => some nodeid
  | .initializeNode _ | .markBlockAsReceived .. => none

/-- The call is not for a peer that is not there. -/
def Known (s : DownloadState) (call : Call) : Prop := ∀ nodeid ∈ call.peer, nodeid ∈ s.mapNodeState

lemma step_unknown {call : Call} (hcall : ¬ Known s call) : s.step call = .error .unknownPeer := by
  unfold Known at hcall
  push Not at hcall
  obtain ⟨nodeid, hpeer, hnot⟩ := hcall
  have hstate : s.state nodeid = .error .unknownPeer := by rw [DownloadState.state, lookup_eq_none.2 hnot]
  cases call <;> cases hpeer <;> simp only [DownloadState.step, DownloadState.markBlockAsInFlight,
    DownloadState.finalizeNode, updatePreferredDownload, protectFromDisconnect, setOtherFields, hstate] <;> rfl

include h

lemma Accounts.step {call : Call} (hcall : Known s call) : ∃ s', s.step call = .ok s' ∧ Accounts s' := by
  have hpeer (nodeid : NodeId) (hn : nodeid ∈ call.peer) : ∃ state, s.mapNodeState.lookup nodeid = some state :=
    isSome_iff_exists.1 (lookup_isSome.2 (hcall nodeid hn))
  cases call with
  | initializeNode nodeid => exact ⟨_, rfl, h.initializeNode nodeid⟩
  | markBlockAsInFlight nodeid hash pindex pit now =>
    obtain ⟨state, hstate⟩ := hpeer nodeid rfl
    obtain ⟨b, s', hok, h'⟩ := h.markBlockAsInFlight hstate hash pindex pit now
    exact ⟨s', congrArg (Except.map Prod.snd) hok, h'⟩
  | markBlockAsReceived hash now =>
    obtain ⟨b, s', hok, h', -⟩ := h.markBlockAsReceived hash now
    exact ⟨s', congrArg (Except.map Prod.snd) hok, h'⟩
  | finalizeNode nodeid =>
    obtain ⟨state, hstate⟩ := hpeer nodeid rfl
    obtain ⟨b, s', hok, h'⟩ := h.finalizeNode hstate
    exact ⟨s', congrArg (Except.map Prod.snd) hok, h'⟩
  | updatePreferredDownload nodeid fInbound fWhitelisted fOneShot fClient =>
    obtain ⟨state, hstate⟩ := hpeer nodeid rfl
    rw [DownloadState.step, updatePreferredDownload, DownloadState.state, hstate]
    exact ⟨_, rfl, h.setFlags hstate rfl rfl rfl rfl rfl rfl rfl rfl (by simp)⟩
  | protectFromDisconnect nodeid =>
    obtain ⟨state, hstate⟩ := hpeer nodeid rfl
    rw [DownloadState.step, protectFromDisconnect, DownloadState.state, hstate]
    simp only [ok_bind]
    split_ifs with hprotect
    · refine ⟨_, rfl, h.setFlags hstate rfl rfl rfl rfl rfl rfl rfl (by simp) ?_⟩
      have hnot : state.m_protect = false := by simpa using hprotect.2
      simp [hnot]
    · exact ⟨s, rfl, h⟩
  | setOtherFields nodeid fCurrentlyConnected nMisbehavior fSyncStarted =>
    obtain ⟨state, hstate⟩ := hpeer nodeid rfl
    rw [DownloadState.step, setOtherFields, DownloadState.state, hstate]
    exact ⟨_, rfl, h.setFlags hstate rfl rfl rfl rfl rfl rfl rfl (by simp) (by simp)⟩

lemma Accounts.run (calls : List Call) :
    ¬ Meets DownloadState.step Known s calls ∧ calls.foldlM DownloadState.step s = .error .unknownPeer ∨
      ∃ s', calls.foldlM DownloadState.step s = .ok s' ∧ Accounts s' := by
  induction calls generalizing s with
  | nil => exact .inr ⟨s, rfl, h⟩
  | cons call calls ih =>
    rw [foldlM_cons, Meets]
    by_cases hcall : Known s call
    · obtain ⟨s₁, hok, h₁⟩ := h.step hcall
      rw [hok]
      exact (ih h₁).imp_left fun hrun => ⟨fun hmeets => hrun.1 hmeets.2, hrun.2⟩
    · rw [step_unknown hcall]
      exact .inl ⟨fun hmeets => hcall hmeets.1, rfl⟩

end

/-- **The accounts are right after any calls**, and no block is in flight twice, or a call was for a peer that is not
there, the only `assert` that fails. -/
theorem run_accounts (calls : List Call) :
    ¬ Meets DownloadState.step Known empty calls ∧ calls.foldlM DownloadState.step empty = .error .unknownPeer ∨
      ∃ s, calls.foldlM DownloadState.step empty = .ok s ∧ Accounts s ∧
        ∀ nodeid nodeid' state state' it it' entry entry', s.mapNodeState.lookup nodeid = some state →
          s.mapNodeState.lookup nodeid' = some state' → (it, entry) ∈ state.vBlocksInFlight →
          (it', entry') ∈ state'.vBlocksInFlight → entry.hash = entry'.hash → nodeid = nodeid' ∧ it = it' := by
  rcases accounts_empty.run calls with herror | ⟨s, hok, h⟩
  · exact .inl herror
  · refine .inr ⟨s, hok, h, ?_⟩
    intro nodeid nodeid' state state' it it' entry entry' hstate hstate' hmem hmem' hhash
    exact h.unique hstate hstate' hmem hmem' hhash

end DownloadState

end Soferox
