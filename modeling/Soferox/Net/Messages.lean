import Soferox.Primitives.Serialize

/-!
# Messages from the network

`CNode::ReceiveMsgBytes` with `CNetMessage::readHeader`, `CNetMessage::readData` and the hasher they feed.

* `SoferoContext.core_eq_foldl` — the hasher takes its data in blocks, and does not see how it was cut into pieces;
* `CMessageHeader.unserialize_eq_ok` — 24 bytes are always a header;
* `CNetMessage.readHeader`, `CNetMessage.readData` — a message is filled over several calls;
* `Receiving.next`, `CNode.receiveMsgBytes`, `CNode.receive` — the loop over a piece of the stream, and the socket thread.
-/

namespace Soferox

open Lib List

/-! ## The hasher -/

/-- `sph_sofero512_context`: the state `S`, the bytes of an unfinished block, and the number of blocks. -/
structure SoferoContext (S : Type) where
  state : S
  buf : List UInt8
  count : ℕ
  ptr_lt : buf.length < 128

namespace SoferoContext

variable {S : Type} (compress : S → List UInt8 → S)

/-- `sph_sofero512_init`. -/
def init (iv : S) : SoferoContext S := ⟨iv, [], 0, by decide⟩

/-- The end of a round: a full block goes into the state. -/
def fill (sc : SoferoContext S) (block : List UInt8) (h : block.length ≤ 128) : SoferoContext S :=
  if hfull : block.length = 128 then ⟨compress sc.state block, [], (sc.count + 1) % 2 ^ 64, by decide⟩
  else ⟨sc.state, block, sc.count, by omega⟩

/-- The loop of `sofero_big_core`. -/
def coreLoop (sc : SoferoContext S) (data : List UInt8) : SoferoContext S :=
  if hdata : data = [] then sc
  else
    let clen := min (128 - sc.buf.length) data.length
    coreLoop (sc.fill compress (sc.buf ++ data.take clen) (by
      have hptr := sc.ptr_lt
      simp only [List.length_append, List.length_take]
      omega)) (data.drop clen)
termination_by data.length
decreasing_by
  have hptr := sc.ptr_lt
  have hpos := List.length_pos_iff.2 hdata
  simp only [List.length_drop]
  omega

/-- `sofero_big_core`, which is `SoferoHasher::Write`: less than a block is only copied. -/
def core (sc : SoferoContext S) (data : List UInt8) : SoferoContext S :=
  if h : data.length < 128 - sc.buf.length then
    ⟨sc.state, sc.buf ++ data, sc.count, by
      have hptr := sc.ptr_lt
      simp only [List.length_append]
      omega⟩
  else sc.coreLoop compress data

/-- One byte. -/
def push (sc : SoferoContext S) (b : UInt8) : SoferoContext S :=
  sc.fill compress (sc.buf ++ [b]) (by
    have hptr := sc.ptr_lt
    simp only [List.length_append, List.length_singleton]
    omega)

variable {compress} {sc : SoferoContext S}

lemma foldl_push {data : List UInt8} (hdata : data ≠ []) (h : (sc.buf ++ data).length ≤ 128) :
    data.foldl (push compress) sc = sc.fill compress (sc.buf ++ data) h := by
  induction data generalizing sc with
  | nil => contradiction
  | cons b data ih =>
    rw [foldl_cons]
    by_cases hnil : data = []
    · subst hnil
      rfl
    · -- before the last byte the block is not full
      have hlen := length_pos_iff.2 hnil
      simp only [length_append, length_cons] at h
      have hpush : sc.push compress b = ⟨sc.state, sc.buf ++ [b], sc.count, by simp; omega⟩ := by
        rw [push, fill, dif_neg]
        simp only [length_append, length_singleton]
        omega
      rw [hpush, ih hnil (by simp; omega)]
      simp [fill]

lemma coreLoop_eq_foldl (sc : SoferoContext S) (data : List UInt8) :
    sc.coreLoop compress data = data.foldl (push compress) sc := by
  induction hn : data.length using Nat.strong_induction_on generalizing sc data with
  | _ n ih =>
    rw [coreLoop]
    split_ifs with hnil
    · rw [hnil]
      rfl
    · have hptr := sc.ptr_lt
      have hpos := length_pos_iff.2 hnil
      set clen := min (128 - sc.buf.length) data.length with hclen
      have hdrop : (data.drop clen).length < n := by
        simp only [length_drop]
        omega
      have htake : data.take clen ≠ [] := by
        rw [← length_pos_iff, length_take]
        omega
      have hle : (sc.buf ++ data.take clen).length ≤ 128 := by
        simp only [length_append, length_take]
        omega
      rw [ih _ hdrop _ _ rfl, ← foldl_push htake hle, ← foldl_append, take_append_drop]

/-- **Writing to the hasher is writing byte by byte.** -/
theorem core_eq_foldl (sc : SoferoContext S) (data : List UInt8) :
    sc.core compress data = data.foldl (push compress) sc := by
  rw [core]
  split
  · by_cases hdata : data = []
    · simp [hdata]
    · rw [foldl_push hdata (by simp only [length_append]; omega), fill, dif_neg]
      simp only [length_append]
      omega
  · exact coreLoop_eq_foldl sc data

end SoferoContext

/-! ## Messages -/

def MAX_PROTOCOL_MESSAGE_LENGTH : ℕ := 4 * 1000 * 1000

structure CMessageHeader where
  pchMessageStart : List UInt8
  pchCommand : List UInt8
  nMessageSize : ℕ
  pchChecksum : List UInt8
  deriving DecidableEq, Repr

namespace CMessageHeader

def HEADER_SIZE : ℕ := 24

/-- `CMessageHeader::CMessageHeader(pchMessageStartIn)`. -/
def new (pchMessageStartIn : List UInt8) : CMessageHeader :=
  ⟨pchMessageStartIn, List.replicate 12 0, 2 ^ 32 - 1, List.replicate 4 0⟩

/-- `CMessageHeader::SerializationOp`, for reading. -/
def unserialize : Stream CMessageHeader := do
  let pchMessageStart ← readBytes 4
  let pchCommand ← readBytes 12
  let nMessageSize ← serReaddata 4
  let pchChecksum ← readBytes 4
  return ⟨pchMessageStart, pchCommand, nMessageSize, pchChecksum⟩

/-- The header at the front of some bytes. -/
def ofBytes (b : List UInt8) : CMessageHeader :=
  ⟨b.take 4, (b.drop 4).take 12, CScriptNum.leNat ((b.drop 16).take 4), (b.drop 20).take 4⟩

lemma unserialize_eq_ok {b : List UInt8} (h : b.length = 24) : unserialize b = .ok (ofBytes b, []) := by
  have hread (n : ℕ) (w : List UInt8) (hn : n ≤ w.length) : readBytes n w = .ok (w.take n, w.drop n) := by
    refine (codes_readBytes n _ _ _).2 ⟨?_, (take_append_drop n w).symm⟩
    simpa using hn
  have hnum (w : List UInt8) (hn : 4 ≤ w.length) : serReaddata 4 w = .ok (CScriptNum.leNat (w.take 4), w.drop 4) := by
    rw [serReaddata, map_eq_pure_bind, run_bind_eq_ok]
    exact ⟨_, _, hread 4 w hn, rfl⟩
  simp only [unserialize, run_bind_eq_ok, run_pure_eq_ok]
  refine ⟨_, _, hread 4 b ?_, _, _, hread 12 _ ?_, _, _, hnum _ ?_, _, _, hread 4 _ ?_, ?_, ?_⟩
  all_goals simp [ofBytes, h]

lemma ofBytes_append {b xs : List UInt8} (h : 24 ≤ b.length) : ofBytes (b ++ xs) = ofBytes b := by
  have htake (n k : ℕ) (hnk : n + k ≤ 24) : ((b ++ xs).drop n).take k = (b.drop n).take k := by
    rw [drop_append_of_le_length (by omega), take_append_of_le_length (by simp; omega)]
  have hstart := htake 0 4 (by omega)
  simp only [drop_zero] at hstart
  rw [ofBytes, ofBytes, hstart, htake 4 12 (by omega), htake 16 4 (by omega), htake 20 4 (by omega)]

end CMessageHeader

/-- What a message is made with: the magic bytes of the network, and the hash function. -/
structure MessageParams (S : Type) where
  pchMessageStart : List UInt8
  iv : S
  compress : S → List UInt8 → S

structure CNetMessage (S : Type) where
  hasher : SoferoContext S
  in_data : Bool
  hdrbuf : List UInt8
  hdr : CMessageHeader
  nHdrPos : ℕ
  vRecv : List UInt8
  nDataPos : ℕ
  nTime : ℤ

/-- `memcpy(&buf[pos], src, src.length)`. -/
def memcpy (buf : List UInt8) (pos : ℕ) (src : List UInt8) : List UInt8 :=
  buf.take pos ++ src ++ buf.drop (pos + src.length)

namespace CNetMessage

variable {S : Type} (P : MessageParams S)

/-- `CNetMessage::CNetMessage`. -/
def new : CNetMessage S where
  hasher := .init P.iv
  in_data := false
  hdrbuf := List.replicate 24 0
  hdr := .new P.pchMessageStart
  nHdrPos := 0
  vRecv := []
  nDataPos := 0
  nTime := 0

def complete (msg : CNetMessage S) : Bool :=
  if msg.in_data = false then false else msg.hdr.nMessageSize = msg.nDataPos

/-- `CNetMessage::readHeader`, with the number of bytes handled; `none` for `-1`. -/
def readHeader (msg : CNetMessage S) (pch : List UInt8) : CNetMessage S × Option ℕ :=
  let nRemaining := 24 - msg.nHdrPos
  let nCopy := min nRemaining pch.length
  let hdrbuf := memcpy msg.hdrbuf msg.nHdrPos (pch.take nCopy)
  let nHdrPos := msg.nHdrPos + nCopy
  if nHdrPos < 24 then ({ msg with hdrbuf := hdrbuf, nHdrPos := nHdrPos }, some nCopy)
  else
    match CMessageHeader.unserialize hdrbuf with
    | .error _ => ({ msg with hdrbuf := hdrbuf, nHdrPos := nHdrPos }, none)
    | .ok (hdr, rest) =>
      let msg := { msg with hdrbuf := rest, hdr := hdr, nHdrPos := nHdrPos }
      if hdr.nMessageSize > MAX_SIZE then (msg, none) else ({ msg with in_data := true }, some nCopy)

/-- `CNetMessage::readData`: the buffer is allocated up to 256 KiB ahead. -/
def readData (msg : CNetMessage S) (pch : List UInt8) : CNetMessage S × Option ℕ :=
  let nRemaining := msg.hdr.nMessageSize - msg.nDataPos
  let nCopy := min nRemaining pch.length
  let vRecv :=
    if msg.vRecv.length < msg.nDataPos + nCopy then
      msg.vRecv.takeD (min msg.hdr.nMessageSize (msg.nDataPos + nCopy + 256 * 1024)) 0
    else msg.vRecv
  ({ msg with
      hasher := msg.hasher.core P.compress (pch.take nCopy)
      vRecv := memcpy vRecv msg.nDataPos (pch.take nCopy)
      nDataPos := msg.nDataPos + nCopy }, some nCopy)

/-- The part of a message that was received: all but its time and the buffer allocated ahead. -/
def received (msg : CNetMessage S) : CNetMessage S := { msg with vRecv := msg.vRecv.take msg.nDataPos, nTime := 0 }

end CNetMessage

/-- The local state of `CNode::ReceiveMsgBytes`; `rejected` when it has returned `false`. -/
structure Receiving (S : Type) where
  vRecvMsg : List (CNetMessage S)
  pch : List UInt8
  complete : Bool
  rejected : Bool

namespace Receiving

variable {S : Type} (P : MessageParams S)

/-- The current incomplete message, or a new one, with the messages before it. -/
def current (vRecvMsg : List (CNetMessage S)) : List (CNetMessage S) × CNetMessage S :=
  match vRecvMsg.getLast? with
  | none => (vRecvMsg, .new P)
  | some msg => if msg.complete then (vRecvMsg, .new P) else (vRecvMsg.dropLast, msg)

/-- The loop of `CNode::ReceiveMsgBytes`, once. -/
def next (nTimeMicros : ℤ) (r : Receiving S) : Receiving S :=
  if r.pch = [] ∨ r.rejected then r
  else
    let (front, msg) := current P r.vRecvMsg
    let (msg, handled) := if msg.in_data = false then msg.readHeader r.pch else msg.readData P r.pch
    match handled with
    | none => { r with vRecvMsg := front ++ [msg], rejected := true }
    | some handled =>
      if msg.in_data ∧ msg.hdr.nMessageSize > MAX_PROTOCOL_MESSAGE_LENGTH then
        { r with vRecvMsg := front ++ [msg], rejected := true }
      else
        { r with
          vRecvMsg := front ++ [if msg.complete then { msg with nTime := nTimeMicros } else msg]
          pch := r.pch.drop handled
          complete := r.complete || msg.complete }

end Receiving

/-- A node, as far as it receives messages. -/
structure CNode (S : Type) where
  vRecvMsg : List (CNetMessage S)
  vProcessMsg : List (CNetMessage S)
  fDisconnect : Bool

namespace CNode

variable {S : Type} (P : MessageParams S)

/-- `CNode::ReceiveMsgBytes`: a round of the loop takes at least one byte. -/
def receiveMsgBytes (nTimeMicros : ℤ) (node : CNode S) (pch : List UInt8) : Receiving S :=
  (Receiving.next P nTimeMicros)^[pch.length] ⟨node.vRecvMsg, pch, false, false⟩

/-- The part of `CConnman::ThreadSocketHandler` that receives, and hands on the complete messages. -/
def receive (node : CNode S) (chunk : ℤ × List UInt8) : CNode S :=
  if node.fDisconnect then node
  else
    let r := receiveMsgBytes P chunk.1 node chunk.2
    let taken := if r.complete then r.vRecvMsg.takeWhile CNetMessage.complete else []
    ⟨r.vRecvMsg.drop taken.length, node.vProcessMsg ++ taken, r.rejected⟩

def new : CNode S := ⟨[], [], false⟩

end CNode

end Soferox
