import Soferox.Lib.Keyed
import Soferox.Primitives.Transaction

/-!
# Blocks in flight

`net_processing.cpp`: which block is being downloaded from which peer, `MarkBlockAsInFlight`, `MarkBlockAsReceived`,
`InitializeNode` and `FinalizeNode`.

A list of blocks in flight has, with each element, the place in memory where it is, and an iterator is such a place. Using
an iterator of an element that is no longer in the list is an error, as is a failed `assert`. Orphan transactions, which
`FinalizeNode` erases as well, are not in the model.

* `QueuedBlock`, `CNodeState`, `DownloadState` — the variables, which `cs_main` protects;
* `DownloadState.step` — one call.
-/

namespace Soferox

abbrev NodeId := ℤ

def MAX_OUTBOUND_PEERS_TO_PROTECT_FROM_DISCONNECT : ℤ := 4

/-- `QueuedBlock`: a block is given by its hash, and of `partialBlock` only whether it is there. -/
structure QueuedBlock where
  hash : Uint256
  pindex : Option Uint256
  fValidatedHeaders : Bool
  partialBlock : Bool
  deriving DecidableEq

/-- The fields of `CNodeState` that are used here. -/
structure CNodeState where
  fCurrentlyConnected : Bool := false
  nMisbehavior : ℤ := 0
  fSyncStarted : Bool := false
  nStallingSince : ℤ := 0
  vBlocksInFlight : List (ℕ × QueuedBlock) := []
  nDownloadingSince : ℤ := 0
  nBlocksInFlight : ℤ := 0
  nBlocksInFlightValidHeaders : ℤ := 0
  fPreferredDownload : Bool := false
  m_protect : Bool := false
  deriving DecidableEq

/-- The variables of `net_processing.cpp` that are used here, and the next free place in memory. -/
structure DownloadState where
  mapBlocksInFlight : AList fun _ : Uint256 => NodeId × ℕ
  mapNodeState : AList fun _ : NodeId => CNodeState
  nSyncStarted : ℤ
  nPreferredDownload : ℤ
  nPeersWithValidatedDownloads : ℤ
  g_outbound_peers_with_protect_from_disconnect : ℤ
  nextPlace : ℕ

inductive DownloadError
  /-- `assert(state != nullptr)`, for the peer that the call is about -/
  | unknownPeer
  /-- `assert(state != nullptr)` in `MarkBlockAsReceived`, for the peer that the block is in flight from -/
  | inFlightFromUnknownPeer
  /-- an iterator of an element that is not in the list -/
  | invalidIterator
  /-- `assert(nPeersWithValidatedDownloads >= 0)` -/
  | negativeDownloads
  /-- `assert(g_outbound_peers_with_protect_from_disconnect >= 0)` -/
  | negativeProtected
  /-- `assert(mapBlocksInFlight.empty())` -/
  | blocksLeft
  /-- `assert(nPreferredDownload == 0)` -/
  | preferredLeft
  /-- `assert(nPeersWithValidatedDownloads == 0)` -/
  | downloadsLeft
  /-- `assert(g_outbound_peers_with_protect_from_disconnect == 0)` -/
  | protectedLeft
  deriving DecidableEq, Repr

/-- `*it`. -/
def dereference (vBlocksInFlight : List (ℕ × QueuedBlock)) (it : ℕ) : Except DownloadError QueuedBlock :=
  match vBlocksInFlight.find? (·.1 = it) with
  | some entry => .ok entry.2
  | none => .error .invalidIterator

/-- `vBlocksInFlight.erase(it)`. -/
def eraseAt (vBlocksInFlight : List (ℕ × QueuedBlock)) (it : ℕ) : List (ℕ × QueuedBlock) :=
  vBlocksInFlight.eraseP (·.1 = it)

namespace CNodeState

/-- What `MarkBlockAsReceived` does to the peer that `entry`, at `it`, is in flight from. -/
def received (state : CNodeState) (it : ℕ) (entry : QueuedBlock) (now : ℤ) : CNodeState :=
  { state with
    nStallingSince := 0
    vBlocksInFlight := eraseAt state.vBlocksInFlight it
    nDownloadingSince :=
      if state.vBlocksInFlight.head?.map (·.1) = some it then max state.nDownloadingSince now else state.nDownloadingSince
    nBlocksInFlight := state.nBlocksInFlight - 1
    nBlocksInFlightValidHeaders := state.nBlocksInFlightValidHeaders - entry.fValidatedHeaders.toNat }

/-- What `MarkBlockAsInFlight` does to the peer that `entry`, which gets the place `it`, is requested from. -/
def requested (state : CNodeState) (it : ℕ) (entry : QueuedBlock) (now : ℤ) : CNodeState :=
  { state with
    vBlocksInFlight := state.vBlocksInFlight ++ [(it, entry)]
    nDownloadingSince := if state.nBlocksInFlight + 1 = 1 then now else state.nDownloadingSince
    nBlocksInFlight := state.nBlocksInFlight + 1
    nBlocksInFlightValidHeaders := state.nBlocksInFlightValidHeaders + entry.fValidatedHeaders.toNat }

end CNodeState

namespace DownloadState

/-- No peers. -/
def empty : DownloadState := ⟨∅, ∅, 0, 0, 0, 0, 0⟩

/-- `State`, with `assert(state != nullptr)`. -/
def state (s : DownloadState) (nodeid : NodeId) : Except DownloadError CNodeState :=
  match s.mapNodeState.lookup nodeid with
  | some state => .ok state
  | none => .error .unknownPeer

/-- `MarkBlockAsReceived`, where `GetTimeMicros()` is `now`. -/
def markBlockAsReceived (s : DownloadState) (hash : Uint256) (now : ℤ) : Except DownloadError (Bool × DownloadState) :=
  match s.mapBlocksInFlight.lookup hash with
  | none => .ok (false, s)
  | some (nodeid, it) =>
    match s.mapNodeState.lookup nodeid with
    | none => .error .inFlightFromUnknownPeer
    | some state => do
      let entry ← dereference state.vBlocksInFlight it
      let state' := state.received it entry now
      return (true, { s with
        mapNodeState := s.mapNodeState.insert nodeid state'
        mapBlocksInFlight := s.mapBlocksInFlight.erase hash
        nPeersWithValidatedDownloads :=
          if state'.nBlocksInFlightValidHeaders = 0 ∧ entry.fValidatedHeaders then s.nPeersWithValidatedDownloads - 1
          else s.nPeersWithValidatedDownloads })

/-- The part of `MarkBlockAsInFlight` after the block has been taken from another peer. -/
def insertInFlight (s : DownloadState) (nodeid : NodeId) (hash : Uint256) (pindex : Option Uint256) (pit : Bool) (now : ℤ) :
    Except DownloadError DownloadState := do
  let state ← s.state nodeid
  let state' := state.requested s.nextPlace ⟨hash, pindex, pindex.isSome, pit⟩ now
  return { s with
    mapNodeState := s.mapNodeState.insert nodeid state'
    mapBlocksInFlight := s.mapBlocksInFlight.insert hash (nodeid, s.nextPlace)
    nPeersWithValidatedDownloads :=
      if state'.nBlocksInFlightValidHeaders = 1 ∧ pindex.isSome then s.nPeersWithValidatedDownloads + 1
      else s.nPeersWithValidatedDownloads
    nextPlace := s.nextPlace + 1 }

/-- `MarkBlockAsInFlight`; `pit` says whether the caller asks for the iterator. -/
def markBlockAsInFlight (s : DownloadState) (nodeid : NodeId) (hash : Uint256) (pindex : Option Uint256) (pit : Bool)
    (now : ℤ) : Except DownloadError (Bool × DownloadState) := do
  let _ ← s.state nodeid
  if (s.mapBlocksInFlight.lookup hash).map (·.1) = some nodeid then return (false, s)
  else do
    let (_, s) ← s.markBlockAsReceived hash now
    let s ← s.insertInFlight nodeid hash pindex pit now
    return (true, s)

/-- `InitializeNode`: `emplace_hint` leaves a peer that is there as it is. -/
def initializeNode (s : DownloadState) (nodeid : NodeId) : DownloadState :=
  match s.mapNodeState.lookup nodeid with
  | some _ => s
  | none => { s with mapNodeState := s.mapNodeState.insert nodeid {} }

/-- The consistency check after the last peer is removed. -/
def checkLast (s : DownloadState) : Except DownloadError Unit :=
  if s.mapNodeState.entries ≠ [] then .ok ()
  else if s.mapBlocksInFlight.entries ≠ [] then .error .blocksLeft
  else if s.nPreferredDownload ≠ 0 then .error .preferredLeft
  else if s.nPeersWithValidatedDownloads ≠ 0 then .error .downloadsLeft
  else if s.g_outbound_peers_with_protect_from_disconnect ≠ 0 then .error .protectedLeft
  else .ok ()

/-- What `FinalizeNode` changes. -/
def removeNode (s : DownloadState) (nodeid : NodeId) (state : CNodeState) : DownloadState where
  mapBlocksInFlight := state.vBlocksInFlight.foldl (fun m entry => m.erase entry.2.hash) s.mapBlocksInFlight
  mapNodeState := s.mapNodeState.erase nodeid
  nSyncStarted := if state.fSyncStarted then s.nSyncStarted - 1 else s.nSyncStarted
  nPreferredDownload := s.nPreferredDownload - state.fPreferredDownload.toNat
  nPeersWithValidatedDownloads := s.nPeersWithValidatedDownloads - (state.nBlocksInFlightValidHeaders != 0).toNat
  g_outbound_peers_with_protect_from_disconnect := s.g_outbound_peers_with_protect_from_disconnect - state.m_protect.toNat
  nextPlace := s.nextPlace

/-- `FinalizeNode`, with `fUpdateConnectionTime`. -/
def finalizeNode (s : DownloadState) (nodeid : NodeId) : Except DownloadError (Bool × DownloadState) := do
  let state ← s.state nodeid
  let s := s.removeNode nodeid state
  if s.nPeersWithValidatedDownloads < 0 then .error .negativeDownloads
  else if s.g_outbound_peers_with_protect_from_disconnect < 0 then .error .negativeProtected
  else do
    s.checkLast
    return (state.nMisbehavior = 0 ∧ state.fCurrentlyConnected, s)

def updatePreferredDownload (s : DownloadState) (nodeid : NodeId) (fInbound fWhitelisted fOneShot fClient : Bool) :
    Except DownloadError DownloadState := do
  let state ← s.state nodeid
  let fPreferredDownload := (!fInbound || fWhitelisted) && !fOneShot && !fClient
  return { s with
    mapNodeState := s.mapNodeState.insert nodeid { state with fPreferredDownload }
    nPreferredDownload := s.nPreferredDownload - state.fPreferredDownload.toNat + fPreferredDownload.toNat }

/-- The end of `ProcessHeadersMessage`, for an outbound peer whose best known block has enough work. -/
def protectFromDisconnect (s : DownloadState) (nodeid : NodeId) : Except DownloadError DownloadState := do
  let state ← s.state nodeid
  if s.g_outbound_peers_with_protect_from_disconnect < MAX_OUTBOUND_PEERS_TO_PROTECT_FROM_DISCONNECT ∧ !state.m_protect then
    return { s with
      mapNodeState := s.mapNodeState.insert nodeid { state with m_protect := true }
      g_outbound_peers_with_protect_from_disconnect := s.g_outbound_peers_with_protect_from_disconnect + 1 }
  else return s

/-- What the handling of messages writes in the other fields that `FinalizeNode` reads. -/
def setOtherFields (s : DownloadState) (nodeid : NodeId) (fCurrentlyConnected : Bool) (nMisbehavior : ℤ)
    (fSyncStarted : Bool) : Except DownloadError DownloadState := do
  let state ← s.state nodeid
  return { s with
    mapNodeState := s.mapNodeState.insert nodeid { state with fCurrentlyConnected, nMisbehavior, fSyncStarted }
    nSyncStarted := s.nSyncStarted - state.fSyncStarted.toNat + fSyncStarted.toNat }

inductive Call
  | initializeNode (nodeid : NodeId)
  | markBlockAsInFlight (nodeid : NodeId) (hash : Uint256) (pindex : Option Uint256) (pit : Bool) (now : ℤ)
  | markBlockAsReceived (hash : Uint256) (now : ℤ)
  | finalizeNode (nodeid : NodeId)
  | updatePreferredDownload (nodeid : NodeId) (fInbound fWhitelisted fOneShot fClient : Bool)
  | protectFromDisconnect (nodeid : NodeId)
  | setOtherFields (nodeid : NodeId) (fCurrentlyConnected : Bool) (nMisbehavior : ℤ) (fSyncStarted : Bool)

def step (s : DownloadState) : Call → Except DownloadError DownloadState
  | .initializeNode nodeid => .ok (s.initializeNode nodeid)
  | .markBlockAsInFlight nodeid hash pindex pit now => (·.2) <$> s.markBlockAsInFlight nodeid hash pindex pit now
  | .markBlockAsReceived hash now => (·.2) <$> s.markBlockAsReceived hash now
  | .finalizeNode nodeid => (·.2) <$> s.finalizeNode nodeid
  | .updatePreferredDownload nodeid fInbound fWhitelisted fOneShot fClient =>
    s.updatePreferredDownload nodeid fInbound fWhitelisted fOneShot fClient
  | .protectFromDisconnect nodeid => s.protectFromDisconnect nodeid
  | .setOtherFields nodeid fCurrentlyConnected nMisbehavior fSyncStarted =>
    s.setOtherFields nodeid fCurrentlyConnected nMisbehavior fSyncStarted

end DownloadState

end Soferox
