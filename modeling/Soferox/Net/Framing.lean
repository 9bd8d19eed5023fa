import Soferox.Net.Messages

/-!
# Message framing

The stream of a peer comes in pieces; the messages do not depend on how it was cut.

* `Framing` — a stream cut into messages, one byte at a time;
* `CNetMessage.read_holds` — reading a header or data, in terms of the bytes that the message holds;
* `next_follows`, `iterate_follows` — a round of the loop, and any number of them, follow the framing;
* `receiveAll_follows` — whatever pieces the stream comes in, the messages are those of the framing;
* `receiveMsgBytes_independent` — so two ways to cut a stream give the same messages, or are rejected at the same header.
-/

namespace Soferox

open CMessageHeader CNode List

/-! ## Framing -/

/-- The size that a header announces. -/
abbrev messageSize (b : List UInt8) : ℕ := (CMessageHeader.ofBytes b).nMessageSize

/-- The bytes of a whole message. -/
def Whole (b : List UInt8) : Prop := messageSize b ≤ MAX_PROTOCOL_MESSAGE_LENGTH ∧ b.length = 24 + messageSize b

/-- The header of a message that is too long. -/
def Oversized (b : List UInt8) : Prop := b.length = 24 ∧ MAX_PROTOCOL_MESSAGE_LENGTH < messageSize b

/-- The first bytes of a message, and not all of them. -/
def Unfinished (b : List UInt8) : Prop :=
  b.length < 24 ∨ messageSize b ≤ MAX_PROTOCOL_MESSAGE_LENGTH ∧ 24 ≤ b.length ∧ b.length < 24 + messageSize b

instance (b : List UInt8) : Decidable (Whole b) := inferInstanceAs (Decidable (_ ∧ _))

instance (b : List UInt8) : Decidable (Oversized b) := inferInstanceAs (Decidable (_ ∧ _))

/-- **A stream cut into messages**: the whole ones, and the bytes after them. -/
structure Framing where
  done : List (List UInt8)
  current : List UInt8
  rejected : Bool

namespace Framing

/-- The bytes after the last whole message. -/
def settle (done : List (List UInt8)) (b : List UInt8) : Framing :=
  if Oversized b then ⟨done, b, true⟩ else if Whole b then ⟨done ++ [b], [], false⟩ else ⟨done, b, false⟩

/-- One byte. -/
def push (f : Framing) (byte : UInt8) : Framing := if f.rejected then f else settle f.done (f.current ++ [byte])
def ofStream (stream : List UInt8) : Framing := stream.foldl push ⟨[], [], false⟩

/-- The bytes of each message, the last one unfinished perhaps. -/
def frames (f : Framing) : List (List UInt8) := f.done ++ if f.current = [] then [] else [f.current]

/-- What holds of a framing. -/
structure Valid (f : Framing) : Prop where
  whole : ∀ b ∈ f.done, Whole b
  unfinished : f.rejected = false → Unfinished f.current
  oversized : f.rejected = true → Oversized f.current

variable {f : Framing} {done : List (List UInt8)} {b xs : List UInt8}

lemma Valid.of_mem_current (h : f.Valid) (hb : b ∈ if f.current = [] then [] else [f.current]) :
    Unfinished b ∨ Oversized b := by
  have hcur : b = f.current := by
    split at hb
    · simp at hb
    · exact mem_singleton.1 hb
  rcases hrej : f.rejected with _ | _
  · exact .inl (hcur ▸ h.unfinished hrej)
  · exact .inr (hcur ▸ h.oversized hrej)

lemma settle_unfinished (h : Unfinished b) : settle done b = ⟨done, b, false⟩ := by
  unfold Unfinished at h
  rw [settle, if_neg (by unfold Oversized; omega), if_neg (by unfold Whole; omega)]

lemma unfinished_nil : Unfinished [] := .inl (by decide)

lemma foldl_push_eq_settle (done : List (List UInt8)) (hxs : xs ≠ []) (h : ∀ k < xs.length, Unfinished (b ++ xs.take k)) :
    xs.foldl push ⟨done, b, false⟩ = settle done (b ++ xs) := by
  induction xs generalizing b with
  | nil => contradiction
  | cons x xs ih =>
    have hpush : push ⟨done, b, false⟩ x = settle done (b ++ [x]) := by simp [push]
    rw [foldl_cons, hpush]
    by_cases hnil : xs = []
    · subst hnil
      rfl
    · have hone : Unfinished (b ++ [x]) := by
        have := h 1 (by simpa [length_pos_iff] using hnil)
        simpa using this
      rw [settle_unfinished hone, ih hnil]
      · simp
      · intro k hk
        have := h (k + 1) (by simpa using hk)
        simpa using this

lemma Valid.settle (hdone : ∀ b ∈ done, Whole b) (h : Oversized b ∨ Whole b ∨ Unfinished b) :
    (Framing.settle done b).Valid := by
  unfold Framing.settle
  split_ifs with hover hwhole
  · exact ⟨hdone, by simp, fun _ => hover⟩
  · exact ⟨forall_mem_append.2 ⟨hdone, forall_mem_singleton.2 hwhole⟩, fun _ => unfinished_nil, by simp⟩
  · exact ⟨hdone, fun _ => (h.resolve_left hover).resolve_left hwhole, by simp⟩

lemma messageSize_append (h : 24 ≤ b.length) : messageSize (b ++ xs) = messageSize b := by
  rw [messageSize, ofBytes_append h]

/-- The bytes up to the end of the header, or of the message. -/
def missing (b : List UInt8) : ℕ := if b.length < 24 then 24 - b.length else 24 + messageSize b - b.length

lemma missing_pos (h : Unfinished b) : 0 < missing b := by
  unfold Unfinished at h
  unfold missing
  split <;> omega

lemma unfinished_append (h : Unfinished b) (hxs : xs.length ≤ missing b) :
    (Oversized (b ++ xs) ∨ Whole (b ++ xs) ∨ Unfinished (b ++ xs)) ∧ (xs.length < missing b → Unfinished (b ++ xs)) := by
  simp only [Oversized, Whole, Unfinished, missing, length_append] at h hxs ⊢
  rcases h with h | ⟨hsize, hlen, hlt⟩
  · rw [if_pos h] at hxs ⊢
    omega
  · rw [if_neg (by omega)] at hxs ⊢
    rw [messageSize_append hlen]
    omega

lemma Valid.push (h : f.Valid) (byte : UInt8) : (f.push byte).Valid := by
  unfold Framing.push
  split_ifs with hopen
  · exact h
  · have hb := h.unfinished (by simpa using hopen)
    exact Valid.settle h.whole (unfinished_append hb (show [byte].length ≤ _ from missing_pos hb)).1

lemma Valid.foldl (h : f.Valid) (stream : List UInt8) : (stream.foldl Framing.push f).Valid := by
  induction stream generalizing f with
  | nil => exact h
  | cons byte stream ih => exact ih (h.push byte)

lemma foldl_push_rejected (h : f.rejected = true) (stream : List UInt8) : stream.foldl push f = f := by
  induction stream with
  | nil => rfl
  | cons byte stream ih => rw [foldl_cons, push, if_pos h, ih]

/-- The messages before a part of the stream do not matter to it. -/
theorem foldl_push_append (stream : List UInt8) (pre done : List (List UInt8)) (b : List UInt8) (rejected : Bool) :
    stream.foldl push ⟨pre ++ done, b, rejected⟩ =
      { stream.foldl push ⟨done, b, rejected⟩ with done := pre ++ (stream.foldl push ⟨done, b, rejected⟩).done } := by
  induction stream generalizing done b rejected with
  | nil => rfl
  | cons byte stream ih =>
    have hpush : push ⟨pre ++ done, b, rejected⟩ byte =
        { push ⟨done, b, rejected⟩ byte with done := pre ++ (push ⟨done, b, rejected⟩ byte).done } := by
      unfold push settle
      split_ifs <;> simp
    rw [foldl_cons, foldl_cons, hpush]
    exact ih _ _ _

/-- The bytes that were cut into messages. -/
def bytes (f : Framing) : List UInt8 := f.done.flatten ++ f.current

lemma bytes_push (h : f.rejected = false) (byte : UInt8) : (f.push byte).bytes = f.bytes ++ [byte] := by
  unfold push settle bytes
  rw [if_neg (by simp [h])]
  split_ifs <;> simp

/-- Nothing of a stream is left out, up to a header that is rejected. -/
theorem exists_rest (f : Framing) (stream : List UInt8) :
    ∃ rest, f.bytes ++ stream = (stream.foldl push f).bytes ++ rest ∧
      ((stream.foldl push f).rejected = false → rest = []) ∧
      (f.rejected = false → stream ≠ [] → rest.length < stream.length) := by
  induction stream generalizing f with
  | nil => exact ⟨[], by simp, by simp, by simp⟩
  | cons byte stream ih =>
    rcases hf : f.rejected with _ | _
    · obtain ⟨rest, hrest, hnil, hlt⟩ := ih (f.push byte)
      refine ⟨rest, ?_, hnil, fun _ _ => ?_⟩
      · rw [foldl_cons, ← hrest, bytes_push hf]
        simp
      · have hle := congrArg List.length hrest
        have hpref : (f.push byte).bytes.length ≤ ((stream.foldl push (f.push byte))).bytes.length := by
          rcases hp : (f.push byte).rejected with _ | _
          · by_cases hs : stream = []
            · simp [hs]
            · have := hlt hp hs
              simp only [length_append] at hle
              omega
          · rw [foldl_push_rejected hp]
        simp only [length_append, length_cons] at hle ⊢
        omega
    · rw [foldl_push_rejected hf]
      exact ⟨byte :: stream, rfl, by simp [hf], by simp⟩

lemma rejected_take_iff {p q : List UInt8} (h : (ofStream (p ++ q)).rejected = true) :
    (ofStream p).rejected = true ↔ (ofStream (p ++ q)).bytes.length ≤ p.length := by
  have hsplit : ofStream (p ++ q) = q.foldl push (ofStream p) := by rw [ofStream, foldl_append, ofStream]
  obtain ⟨rest, hp, hnil, -⟩ := exists_rest ⟨[], [], false⟩ p
  have hp' : p = (ofStream p).bytes ++ rest := by simpa [bytes, ofStream] using hp
  constructor
  · intro hrej
    rw [hsplit, foldl_push_rejected hrej]
    have hlen := congrArg List.length hp'
    simp only [length_append] at hlen
    omega
  · intro hle
    by_contra hopen
    simp only [Bool.not_eq_true] at hopen
    have hq : q ≠ [] := by
      rintro rfl
      simp [hopen] at h
    obtain ⟨rest', hall, -, hlt⟩ := exists_rest (ofStream p) q
    rw [← hsplit] at hall
    have hlen := congrArg List.length hall
    have hlenp := congrArg List.length hp'
    have := hlt hopen hq
    rw [hnil hopen] at hlenp
    simp only [length_append, length_nil] at hlen hlenp
    omega

end Framing

/-! ## The messages of a framing -/

namespace CNetMessage

open Framing (missing)

variable {S : Type} (P : MessageParams S)

/-- The message of which the bytes `b` were received. -/
def ofBytes (b : List UInt8) : CNetMessage S :=
  if b.length < 24 then { new P with hdrbuf := b ++ List.replicate (24 - b.length) 0, nHdrPos := b.length }
  else
    { hasher := (b.drop 24).foldl (SoferoContext.push P.compress) (.init P.iv)
      in_data := messageSize b ≤ MAX_SIZE
      hdrbuf := []
      hdr := .ofBytes b
      nHdrPos := 24
      vRecv := b.drop 24
      nDataPos := b.length - 24
      nTime := 0 }

/-- `msg` holds the bytes `b`, and its buffer is not far ahead. -/
structure Holds (msg : CNetMessage S) (b : List UInt8) : Prop where
  eq : msg.received = ofBytes P b
  pos_le : msg.nDataPos ≤ msg.vRecv.length
  le_ahead : msg.vRecv.length ≤ msg.nDataPos + 256 * 1024
  le_size : msg.vRecv.length ≤ msg.hdr.nMessageSize
  header : b.length ≤ 24 → msg.vRecv = []

variable {P} {msg : CNetMessage S} {b pch : List UInt8}

lemma holds_new : Holds P (new P) [] where
  eq := by simp [ofBytes, received, new]
  pos_le := by simp [new]
  le_ahead := by simp [new]
  le_size := by simp [new]
  header _ := rfl

section

variable (h : Holds P msg b) {vRecv : List UInt8}
include h

lemma Holds.setTime (nTime : ℤ) : Holds P { msg with nTime := nTime } b :=
  { h with }

omit h in
/-- The bytes of a header that are received, after the ones before them. -/
theorem memcpy_header {xs : List UInt8} (h : b.length + xs.length ≤ 24) :
    memcpy (b ++ replicate (24 - b.length) 0) b.length xs = b ++ xs ++ replicate (24 - (b ++ xs).length) 0 := by
  rw [memcpy, take_left, drop_append, drop_eq_nil_of_le (by omega)]
  simp only [drop_replicate, nil_append, length_append, append_assoc]
  congr 3
  omega

lemma Holds.inHeader (hb : b.length < 24) :
    msg.in_data = false ∧ msg.hdrbuf = b ++ replicate (24 - b.length) 0 ∧ msg.nHdrPos = b.length ∧
      msg.nDataPos = 0 ∧ msg.hdr = .new P.pchMessageStart ∧ msg.hasher = .init P.iv := by
  have heq := h.eq
  rw [ofBytes, if_pos hb, received, new, CNetMessage.mk.injEq] at heq
  obtain ⟨hhash, hin, hbuf, hhdr, hpos, -, hdata, -⟩ := heq
  exact ⟨hin, hbuf, hpos, hdata, hhdr, hhash⟩

lemma Holds.inData (hb : 24 ≤ b.length) :
    msg.in_data = decide (messageSize b ≤ MAX_SIZE) ∧ msg.hdrbuf = [] ∧ msg.nHdrPos = 24 ∧
      msg.nDataPos = b.length - 24 ∧ msg.hdr = .ofBytes b ∧ msg.vRecv.take msg.nDataPos = b.drop 24 ∧
      msg.hasher = (b.drop 24).foldl (SoferoContext.push P.compress) (.init P.iv) := by
  have heq := h.eq
  rw [ofBytes, if_neg (by omega), received, CNetMessage.mk.injEq] at heq
  obtain ⟨hhash, hin, hbuf, hhdr, hpos, hrecv, hdata, -⟩ := heq
  exact ⟨hin, hbuf, hpos, hdata, hhdr, hrecv, hhash⟩

omit h in
/-- **Reading a header**: it is rejected when the message is longer than any object may be. -/
theorem readHeader_holds (pch : List UInt8) (h : Holds P msg b) (hb : b.length < 24) :
    (msg.readHeader pch).2 =
        (if (b ++ pch.take (24 - b.length)).length = 24 ∧ MAX_SIZE < messageSize (b ++ pch.take (24 - b.length)) then none
          else some (min (24 - b.length) pch.length)) ∧
      Holds P (msg.readHeader pch).1 (b ++ pch.take (24 - b.length)) := by
  obtain ⟨hin, hbuf, hpos, hdata, hhdr, hhash⟩ := h.inHeader hb
  have hnil := h.header hb.le
  have htake : pch.take (min (24 - b.length) pch.length) = pch.take (24 - b.length) := by
    rw [take_eq_take_iff]
    omega
  set xs := pch.take (24 - b.length) with hxs
  have hlen : xs.length = min (24 - b.length) pch.length := by simp [hxs]
  have hcopy : memcpy msg.hdrbuf msg.nHdrPos (pch.take (min (24 - b.length) pch.length)) =
      b ++ xs ++ replicate (24 - (b ++ xs).length) 0 := by
    rw [htake, hbuf, hpos, memcpy_header (by omega)]
  have happ : (b ++ xs).length = b.length + min (24 - b.length) pch.length := by rw [length_append, hlen]
  unfold readHeader
  simp only [hpos] at hcopy ⊢
  rw [hcopy, ← happ]
  by_cases hshort : (b ++ xs).length < 24
  · rw [if_pos hshort, if_neg (by omega)]
    refine ⟨rfl, ?_⟩
    refine ⟨?_, by simp [hdata], by simp [hnil], by simp [hnil], fun _ => hnil⟩
    rw [ofBytes, if_pos hshort]
    simp [received, new, hin, hhdr, hhash, hdata]
  · -- the header is complete
    have hfull : (b ++ xs).length = 24 := by omega
    have hbytes : b ++ xs ++ replicate (24 - (b ++ xs).length) 0 = b ++ xs := by simp [hfull]
    rw [if_neg hshort, hbytes, unserialize_eq_ok hfull]
    have hcontent : (b ++ xs).drop 24 = [] := drop_eq_nil_of_le hfull.le
    by_cases hbig : MAX_SIZE < messageSize (b ++ xs)
    · rw [if_pos ⟨hfull, hbig⟩]
      simp only [hbig, if_true, true_and]
      refine ⟨?_, by simp [hdata], by simp [hnil], by simp [hnil], fun _ => hnil⟩
      rw [ofBytes, hcontent]
      simp [received, hin, hhash, hdata, hfull, hbig]
    · rw [if_neg (fun hc => hbig hc.2)]
      simp only [hbig, if_false, true_and]
      refine ⟨?_, by simp [hdata], by simp [hnil], by simp [hnil], fun _ => hnil⟩
      rw [ofBytes, hcontent]
      simp [received, hhash, hdata, hfull, not_lt.1 hbig]

omit h in
lemma memcpy_inside {buf xs : List UInt8} {pos : ℕ} (h : pos + xs.length ≤ buf.length) :
    (memcpy buf pos xs).length = buf.length ∧ (memcpy buf pos xs).take (pos + xs.length) = buf.take pos ++ xs := by
  have htake : (buf.take pos).length = pos := by
    rw [length_take]
    omega
  constructor
  · simp only [memcpy, length_append, length_drop]
    omega
  · rw [memcpy, take_append_of_le_length (by simp [htake]), take_of_length_le (by simp)]

omit h in
lemma take_takeD {k n : ℕ} (hk : k ≤ vRecv.length) (hn : k ≤ n) : (vRecv.takeD n 0).take k = vRecv.take k := by
  induction k generalizing n vRecv with
  | zero => simp
  | succ k ih =>
    obtain ⟨byte, vRecv, rfl⟩ := exists_cons_of_length_pos (show 0 < vRecv.length by omega)
    obtain ⟨n, rfl⟩ := Nat.exists_eq_succ_of_ne_zero (show n ≠ 0 by omega)
    simp only [length_cons] at hk
    rw [takeD_succ, take_succ_cons, tail_cons, ih (by omega) (by omega)]
    rfl

omit h in
lemma resized {pos n size : ℕ} (hpos : pos ≤ vRecv.length) (hahead : vRecv.length ≤ pos + 256 * 1024)
    (hsize : vRecv.length ≤ size) (hn : pos + n ≤ size) {buf : List UInt8}
    (hbuf : buf = if vRecv.length < pos + n then vRecv.takeD (min size (pos + n + 256 * 1024)) 0 else vRecv) :
    pos + n ≤ buf.length ∧ buf.length ≤ pos + n + 256 * 1024 ∧ buf.length ≤ size ∧ buf.take pos = vRecv.take pos := by
  split at hbuf
  · have hlen : buf.length = min size (pos + n + 256 * 1024) := by
      rw [hbuf, takeD_length]
    refine ⟨by omega, by omega, by omega, ?_⟩
    rw [hbuf, take_takeD hpos (by omega)]
  · subst hbuf
    refine ⟨by omega, by omega, hsize, rfl⟩

lemma readData_holds (hb : 24 ≤ b.length) (hlt : b.length < 24 + messageSize b) (hpch : pch ≠ []) :
    (msg.readData P pch).2 = some (min (24 + messageSize b - b.length) pch.length) ∧
      Holds P (msg.readData P pch).1 (b ++ pch.take (24 + messageSize b - b.length)) := by
  obtain ⟨hin, hbuf, hpos, hdata, hhdr, hrecv, hhash⟩ := h.inData hb
  have hsize : msg.hdr.nMessageSize = messageSize b := by rw [hhdr]
  have hrem : msg.hdr.nMessageSize - msg.nDataPos = 24 + messageSize b - b.length := by omega
  have hpos' := length_pos_iff.2 hpch
  have htake : pch.take (min (24 + messageSize b - b.length) pch.length) = pch.take (24 + messageSize b - b.length) := by
    rw [take_eq_take_iff]
    omega
  set xs := pch.take (24 + messageSize b - b.length) with hxs
  have hlen : min (24 + messageSize b - b.length) pch.length = xs.length := by simp [hxs]
  have hle : msg.nDataPos + xs.length ≤ msg.hdr.nMessageSize := by omega
  unfold readData
  simp only [hrem, htake]
  rw [hlen]
  generalize hbuf' : (if msg.vRecv.length < msg.nDataPos + xs.length then
    msg.vRecv.takeD (min msg.hdr.nMessageSize (msg.nDataPos + xs.length + 256 * 1024)) 0 else msg.vRecv) = buf
  obtain ⟨hfit, hahead, hmax, hold⟩ := resized h.pos_le h.le_ahead h.le_size hle hbuf'.symm
  obtain ⟨hcopied, hcontent⟩ := memcpy_inside hfit
  refine ⟨trivial, ?_, ?_, ?_, ?_, ?_⟩
  · rw [ofBytes, if_neg (by rw [length_append]; omega), messageSize,
      ofBytes_append hb, drop_append_of_le_length hb, foldl_append, length_append]
    simp only [received, SoferoContext.core_eq_foldl]
    rw [hcontent, hold, hrecv, hhash, hhdr, hpos]
    congr 1
    omega
  · exact hcopied.symm ▸ hfit
  · exact hcopied.symm ▸ hahead
  · exact hcopied.symm ▸ hmax
  · intro hshort
    rw [length_append] at hshort
    omega

lemma Holds.complete_of_whole (hb : Whole b) : msg.complete = true := by
  obtain ⟨hmax, hlen⟩ := hb
  obtain ⟨hin, -, -, hdata, hhdr, -⟩ := h.inData (by omega)
  have hsize : msg.hdr.nMessageSize = messageSize b := by rw [hhdr]
  have hsmall : messageSize b ≤ MAX_SIZE := hmax.trans (by decide)
  simp only [complete, hin, hsmall]
  simp only [decide_true, Bool.true_eq_false, if_false, decide_eq_true_eq]
  omega

lemma Holds.not_complete (hb : Unfinished b ∨ Oversized b) : msg.complete = false := by
  by_cases hshort : b.length < 24
  · simp [complete, (h.inHeader hshort).1]
  · obtain ⟨hin, -, -, hdata, hhdr, -⟩ := h.inData (by omega)
    have hsize : msg.hdr.nMessageSize = messageSize b := by rw [hhdr]
    have hne : msg.hdr.nMessageSize ≠ msg.nDataPos := by
      unfold Unfinished Oversized at hb
      omega
    simp [complete, hne]

lemma read_holds (hb : Unfinished b) (hpch : pch ≠ []) {read : CNetMessage S × Option ℕ}
    (hread : read = if msg.in_data = false then msg.readHeader pch else msg.readData P pch) :
    read.2 = (if Oversized (b ++ pch.take (missing b)) ∧ MAX_SIZE < messageSize (b ++ pch.take (missing b)) then none
        else some (min (missing b) pch.length)) ∧
      Holds P read.1 (b ++ pch.take (missing b)) := by
  by_cases hshort : b.length < 24
  · have hin := (h.inHeader hshort).1
    obtain ⟨hhandled, hholds⟩ := readHeader_holds pch h hshort
    rw [hread, if_pos hin, missing, if_pos hshort]
    refine ⟨hhandled.trans (if_congr ?_ rfl rfl), hholds⟩
    have hmax : MAX_PROTOCOL_MESSAGE_LENGTH ≤ MAX_SIZE := by decide
    unfold Oversized
    omega
  · obtain ⟨hsize, hlen, hlt⟩ := hb.resolve_left hshort
    have hin : ¬msg.in_data = false := by
      have hsmall : messageSize b ≤ MAX_SIZE := hsize.trans (by decide)
      rw [(h.inData hlen).1]
      simp [hsmall]
    obtain ⟨hhandled, hholds⟩ := readData_holds h hlen hlt hpch
    rw [hread, if_neg hin, missing, if_neg hshort]
    refine ⟨hhandled.trans (if_neg ?_).symm, hholds⟩
    rintro ⟨hover, -⟩
    unfold Oversized at hover
    rw [Framing.messageSize_append hlen] at hover
    omega

end

lemma Holds.buffer (h : Holds P msg b) (hb : Oversized b ∨ Whole b ∨ Unfinished b) :
    msg.vRecv.length ≤ MAX_PROTOCOL_MESSAGE_LENGTH ∧ msg.vRecv.length ≤ msg.nDataPos + 256 * 1024 := by
  refine ⟨?_, h.le_ahead⟩
  by_cases hlen : b.length ≤ 24
  · simp [h.header hlen]
  · have hsize : msg.hdr.nMessageSize = messageSize b := by rw [(h.inData (by omega)).2.2.2.2.1]
    have hle := h.le_size
    unfold Oversized Whole Unfinished at hb
    omega

end CNetMessage

/-! ## Receiving -/

section Receive

open CNetMessage Receiving
open Framing (push settle ofStream settle_unfinished foldl_push_rejected missing missing_pos unfinished_append)

variable {S : Type} {P : MessageParams S} {r : Receiving S} {f : Framing} {done : List (List UInt8)} {b : List UInt8}
  {vRecvMsg : List (CNetMessage S)} {frames : List (List UInt8)} {node : CNode S} {msg : CNetMessage S}

lemma exists_holds_of_mem (h : List.Forall₂ (Holds P) vRecvMsg frames)
    (hmsg : msg ∈ vRecvMsg) : ∃ c ∈ frames, Holds P msg c := by
  induction h with
  | nil => simp at hmsg
  | cons hhead _ ih =>
    rcases mem_cons.1 hmsg with rfl | hmsg
    · exact ⟨_, mem_cons_self, hhead⟩
    · obtain ⟨c, hc, hholds⟩ := ih hmsg
      exact ⟨c, mem_cons_of_mem _ hc, hholds⟩

lemma exists_holds_append {frames' : List (List UInt8)} (h : List.Forall₂ (Holds P) vRecvMsg (frames ++ frames')) :
    ∃ front back, vRecvMsg = front ++ back ∧ List.Forall₂ (Holds P) front frames ∧ List.Forall₂ (Holds P) back frames' :=
  ⟨_, _, (take_append_drop frames.length vRecvMsg).symm, forall₂_take_append _ _ _ h, forall₂_drop_append _ _ _ h⟩

lemma current_holds (h : List.Forall₂ (Holds P) vRecvMsg (Framing.frames ⟨done, b, false⟩)) (hdone : ∀ c ∈ done, Whole c)
    (hb : Unfinished b) :
    List.Forall₂ (Holds P) (current P vRecvMsg).1 done ∧ Holds P (current P vRecvMsg).2 b := by
  unfold current
  by_cases hnil : b = []
  · subst hnil
    simp only [Framing.frames, if_true, append_nil] at h
    rcases eq_nil_or_concat vRecvMsg with rfl | ⟨front, msg, rfl⟩
    · exact ⟨h, holds_new⟩
    · obtain ⟨c, hc, hmsg⟩ := exists_holds_of_mem h (concat_eq_append ▸ mem_concat_self)
      simp only [concat_eq_append, getLast?_append, getLast?_singleton, Option.some_or]
      rw [if_pos (hmsg.complete_of_whole (hdone c hc))]
      exact ⟨by simpa using h, holds_new⟩
  · simp only [Framing.frames, if_neg hnil] at h
    obtain ⟨front, back, rfl, hfront, hback⟩ := exists_holds_append h
    obtain ⟨msg, rest, hmsg, hrest, rfl⟩ := forall₂_cons_right_iff.1 hback
    obtain rfl := forall₂_nil_right_iff.1 hrest
    simp only [getLast?_append, getLast?_singleton, Option.some_or, dropLast_concat]
    rw [if_neg (by simp [hmsg.not_complete (.inl hb)])]
    exact ⟨hfront, hmsg⟩

/-- The messages that are being received are those of a framing. -/
structure Follows (P : MessageParams S) (r : Receiving S) (f : Framing) : Prop where
  holds : List.Forall₂ (Holds P) r.vRecvMsg f.frames
  rejected : r.rejected = f.rejected

variable (nTimeMicros : ℤ)

lemma next_follows (h : Follows P r f) (hf : f.Valid) (hpch : r.pch ≠ []) (hopen : f.rejected = false) :
    ∃ k, 0 < k ∧ k ≤ r.pch.length ∧ Follows P (r.next P nTimeMicros) ((r.pch.take k).foldl push f) ∧
      (((r.pch.take k).foldl push f).rejected = false → (r.next P nTimeMicros).pch = r.pch.drop k) ∧
      ((r.next P nTimeMicros).complete = false →
        r.complete = false ∧ ((r.pch.take k).foldl push f).done = f.done) := by
  obtain ⟨done, b, rejected⟩ := f
  obtain rfl : rejected = false := hopen
  have hb : Unfinished b := hf.unfinished rfl
  have hpos := length_pos_iff.2 hpch
  have hmissing := missing_pos hb
  obtain ⟨hfront, hcur⟩ := current_holds h.holds hf.whole hb
  refine ⟨min (missing b) r.pch.length, by omega, Nat.min_le_right _ _, ?_⟩
  have htake : r.pch.take (min (missing b) r.pch.length) = r.pch.take (missing b) := by
    rw [take_eq_take_iff]
    omega
  rw [htake]
  have hxs : r.pch.take (missing b) ≠ [] := by
    rw [← length_pos_iff, length_take]
    omega
  have hle := length_take_le (missing b) r.pch
  have hsettle := Framing.foldl_push_eq_settle done hxs fun k hk => by
    have hlt : ((r.pch.take (missing b)).take k).length < missing b := by
      rw [length_take]
      omega
    exact (unfinished_append hb hlt.le).2 hlt
  rw [hsettle]
  have htri := (unfinished_append hb hle).1
  generalize hread : (if (current P r.vRecvMsg).2.in_data = false then (current P r.vRecvMsg).2.readHeader r.pch
    else (current P r.vRecvMsg).2.readData P r.pch) = read
  obtain ⟨hhandled, hholds⟩ := read_holds hcur hb hpch hread.symm
  have hne : b ++ r.pch.take (missing b) ≠ [] := by simp [hxs]
  generalize b ++ r.pch.take (missing b) = b' at hhandled hholds htri hne
  obtain ⟨msg, handled⟩ := read
  simp only at hhandled hholds
  subst hhandled
  have hgo : ¬(r.pch = [] ∨ r.rejected = true) := by simp [hpch, h.rejected]
  simp only [Receiving.next, if_neg hgo, hread]
  by_cases hover : Oversized b'
  · -- the header is rejected, here or by `readHeader`
    obtain ⟨hin, -, -, -, hhdr, -⟩ := hholds.inData hover.1.ge
    have hset : settle done b' = ⟨done, b', true⟩ := if_pos hover
    have hfollows : Follows P ⟨(current P r.vRecvMsg).1 ++ [msg], r.pch, r.complete, true⟩ ⟨done, b', true⟩ := by
      refine ⟨?_, rfl⟩
      simp only [Framing.frames, if_neg hne]
      exact rel_append hfront (.cons hholds .nil)
    rw [hset]
    by_cases hmax : MAX_SIZE < messageSize b'
    · rw [if_pos ⟨hover, hmax⟩]
      exact ⟨hfollows, by simp, fun hc => ⟨hc, rfl⟩⟩
    · have hdata : msg.in_data = true ∧ msg.hdr.nMessageSize > MAX_PROTOCOL_MESSAGE_LENGTH := by
        rw [hin, hhdr]
        exact ⟨decide_eq_true (not_lt.1 hmax), hover.2⟩
      rw [if_neg (fun hc => hmax hc.2)]
      simp only [if_pos hdata]
      exact ⟨hfollows, by simp, fun hc => ⟨hc, trivial⟩⟩
  · have hsize : ¬(msg.in_data = true ∧ msg.hdr.nMessageSize > MAX_PROTOCOL_MESSAGE_LENGTH) := by
      rintro ⟨hin, hbig⟩
      by_cases hlen : b'.length < 24
      · simp [(hholds.inHeader hlen).1] at hin
      · have hbig' : MAX_PROTOCOL_MESSAGE_LENGTH < messageSize b' := by
          rwa [(hholds.inData (not_lt.1 hlen)).2.2.2.2.1] at hbig
        have hrest := htri.resolve_left hover
        unfold Whole Unfinished at hrest
        omega
    rw [if_neg (fun hc => hover hc.1)]
    simp only [if_neg hsize]
    by_cases hwhole : Whole b'
    · have hset : settle done b' = ⟨done ++ [b'], [], false⟩ := by
        rw [settle, if_neg hover, if_pos hwhole]
      have hcomplete := hholds.complete_of_whole hwhole
      rw [hset, hcomplete]
      refine ⟨⟨?_, h.rejected⟩, fun _ => trivial, by simp⟩
      simp only [Framing.frames, if_true, append_nil]
      exact rel_append hfront (.cons (hholds.setTime nTimeMicros) .nil)
    · have hunf := (htri.resolve_left hover).resolve_left hwhole
      have hcomplete := hholds.not_complete (.inl hunf)
      rw [settle_unfinished hunf, hcomplete]
      refine ⟨⟨?_, h.rejected⟩, fun _ => trivial, by simp⟩
      simp only [Framing.frames, if_neg hne]
      exact rel_append hfront (.cons hholds .nil)

/-- **The loop**: after any number of rounds, the messages are those of the bytes read so far. -/
theorem iterate_follows (h : Follows P r f) (hf : f.Valid) (n : ℕ) :
    ∃ k, Follows P ((next P nTimeMicros)^[n] r) ((r.pch.take k).foldl push f) ∧
      (((r.pch.take k).foldl push f).rejected = false →
        ((next P nTimeMicros)^[n] r).pch = r.pch.drop k ∧ (n ≤ k ∨ r.pch.length ≤ k)) ∧
      (((next P nTimeMicros)^[n] r).complete = false → ((r.pch.take k).foldl push f).done = f.done) := by
  induction n with
  | zero => exact ⟨0, h, fun _ => ⟨rfl, .inl le_rfl⟩, fun _ => rfl⟩
  | succ n ih =>
    obtain ⟨k, hfollows, hpch, hdone⟩ := ih
    rw [Function.iterate_succ_apply']
    generalize (next P nTimeMicros)^[n] r = r' at hfollows hpch hdone
    generalize hf' : (r.pch.take k).foldl push f = f' at hfollows hpch hdone
    have hvalid : f'.Valid := hf' ▸ hf.foldl _
    by_cases hstop : r'.pch = [] ∨ r'.rejected = true
    · -- the loop has ended
      have hsame : r'.next P nTimeMicros = r' := if_pos hstop
      rw [hsame]
      refine ⟨k, hf'.symm ▸ hfollows, ?_, hf'.symm ▸ hdone⟩
      rw [hf']
      intro hrej
      obtain ⟨hrest, -⟩ := hpch hrej
      refine ⟨hrest, .inr ?_⟩
      have hnil := hstop.resolve_right (by simp [hfollows.rejected, hrej])
      exact drop_eq_nil_iff.1 (hrest.symm.trans hnil)
    · obtain ⟨hne, hrej⟩ := not_or.1 hstop
      have hopen' : f'.rejected = false := by simpa [hfollows.rejected] using hrej
      obtain ⟨hrest, hk⟩ := hpch hopen'
      obtain ⟨j, hjpos, hjle, hnext, hpch', hdone'⟩ := next_follows nTimeMicros hfollows hvalid hne hopen'
      have hfold : (r'.pch.take j).foldl push f' = (r.pch.take (k + j)).foldl push f := by
        rw [← hf', ← foldl_append, hrest, ← take_add]
      rw [hfold] at hnext hpch' hdone'
      refine ⟨k + j, hnext, fun hrej' => ⟨?_, ?_⟩, fun hc => ?_⟩
      · rw [hpch' hrej', hrest, drop_drop]
      · omega
      · obtain ⟨hc', hsame⟩ := hdone' hc
        exact hsame.trans (hdone hc')

/-- **`ReceiveMsgBytes` returns**, and has read all it was given, up to a header that it rejects. -/
theorem receiveMsgBytes_follows {pch : List UInt8} (h : Follows P ⟨node.vRecvMsg, pch, false, false⟩ f)
    (hf : f.Valid) :
    Follows P (node.receiveMsgBytes P nTimeMicros pch) (pch.foldl push f) ∧
      ((node.receiveMsgBytes P nTimeMicros pch).pch = [] ∨ (node.receiveMsgBytes P nTimeMicros pch).rejected = true) ∧
      ((node.receiveMsgBytes P nTimeMicros pch).complete = false → (pch.foldl push f).done = f.done) := by
  obtain ⟨k, hfollows, hrest, hdone⟩ := iterate_follows nTimeMicros h hf pch.length
  rw [← receiveMsgBytes] at hfollows hrest hdone
  simp only at hfollows hrest hdone
  rcases hrej : ((pch.take k).foldl push f).rejected with _ | _
  · obtain ⟨hpch, hk⟩ := hrest hrej
    have hle : pch.length ≤ k := by omega
    rw [take_of_length_le hle] at hfollows hdone
    exact ⟨hfollows, .inl (hpch.trans (drop_eq_nil_iff.2 hle)), hdone⟩
  · have hall : pch.foldl push f = (pch.take k).foldl push f := by
      conv_lhs => rw [← take_append_drop k pch]
      rw [foldl_append, foldl_push_rejected hrej]
    rw [hall]
    exact ⟨hfollows, .inr (hfollows.rejected.trans hrej), hdone⟩

lemma takeWhile_complete (hf : f.Valid) (h : List.Forall₂ (Holds P) vRecvMsg f.frames) :
    List.Forall₂ (Holds P) (vRecvMsg.takeWhile CNetMessage.complete) f.done ∧
      List.Forall₂ (Holds P) (vRecvMsg.drop (vRecvMsg.takeWhile CNetMessage.complete).length)
        (if f.current = [] then [] else [f.current]) := by
  obtain ⟨front, back, rfl, hfront, hback⟩ := exists_holds_append h
  have hwhole : ∀ msg ∈ front, msg.complete = true := by
    intro msg hmsg
    obtain ⟨c, hc, hholds⟩ := exists_holds_of_mem hfront hmsg
    exact hholds.complete_of_whole (hf.whole c hc)
  have hcur : back.takeWhile CNetMessage.complete = [] := by
    rcases back with _ | ⟨msg, back⟩
    · rfl
    · obtain ⟨c, hc, hholds⟩ := exists_holds_of_mem hback mem_cons_self
      exact takeWhile_cons_of_neg (by simp [hholds.not_complete (hf.of_mem_current hc)])
  rw [takeWhile_append_of_pos hwhole, hcur, append_nil, drop_left]
  exact ⟨hfront, hback⟩

/-- The messages of a node are those of a framing. -/
structure NodeFollows (P : MessageParams S) (node : CNode S) (f : Framing) : Prop where
  processed : List.Forall₂ (Holds P) node.vProcessMsg f.done
  current : List.Forall₂ (Holds P) node.vRecvMsg (if f.current = [] then [] else [f.current])
  disconnected : node.fDisconnect = f.rejected

/-- A call begins with the bytes of the message that is unfinished. -/
theorem NodeFollows.start (h : NodeFollows P node f) (hf : f.Valid) (hopen : f.rejected = false) (pch : List UInt8) :
    Follows P ⟨node.vRecvMsg, pch, false, false⟩ ⟨[], f.current, false⟩ ∧ Framing.Valid ⟨[], f.current, false⟩ :=
  ⟨⟨by simpa [Framing.frames] using h.current, rfl⟩, ⟨by simp, fun _ => hf.unfinished hopen, by simp⟩⟩

lemma NodeFollows.receive (h : NodeFollows P node f) (hf : f.Valid) (chunk : ℤ × List UInt8) :
    NodeFollows P (node.receive P chunk) (chunk.2.foldl push f) := by
  unfold CNode.receive
  split_ifs with hrej
  · rwa [foldl_push_rejected (h.disconnected ▸ hrej)]
  · have hrej : f.rejected = false := by simpa [h.disconnected] using hrej
    obtain ⟨hstart, hvalid⟩ := h.start hf hrej chunk.2
    obtain ⟨hfollows, -, hdone⟩ := receiveMsgBytes_follows chunk.1 hstart hvalid
    have happend := Framing.foldl_push_append chunk.2 f.done [] f.current false
    rw [append_nil, ← hrej] at happend
    have hframe : chunk.2.foldl push f =
        { chunk.2.foldl push ⟨[], f.current, false⟩ with
          done := f.done ++ (chunk.2.foldl push ⟨[], f.current, false⟩).done } := by
      rw [← hrej]
      exact happend
    have hvalid' := hvalid.foldl chunk.2
    generalize chunk.2.foldl push ⟨[], f.current, false⟩ = g at *
    generalize node.receiveMsgBytes P chunk.1 chunk.2 = r at *
    obtain ⟨htaken, hleft⟩ := takeWhile_complete hvalid' hfollows.holds
    rw [hframe]
    rcases hc : r.complete with _ | _
    · -- nothing was completed
      have hnil := hdone hc
      have hholds := hfollows.holds
      rw [Framing.frames, hnil] at hholds
      refine ⟨?_, ?_, hfollows.rejected⟩
      · simpa [hc, hnil] using h.processed
      · simpa [hc] using hholds
    · simp only [hc]
      exact ⟨rel_append h.processed htaken, hleft, hfollows.rejected⟩

/-- The node after these pieces, each with the time it came in. -/
def CNode.receiveAll (P : MessageParams S) (chunks : List (ℤ × List UInt8)) : CNode S :=
  chunks.foldl (CNode.receive P) .new

/-- The stream that comes in these pieces. -/
def streamOf (chunks : List (ℤ × List UInt8)) : List UInt8 := (chunks.map Prod.snd).flatten

/-- **Whatever pieces a stream comes in**, the messages of the node are those of the framing. -/
theorem receiveAll_follows (chunks : List (ℤ × List UInt8)) :
    NodeFollows P (receiveAll P chunks) (ofStream (streamOf chunks)) ∧
      (ofStream (streamOf chunks)).Valid := by
  induction chunks using reverseRecOn with
  | nil =>
    refine ⟨⟨.nil, .nil, rfl⟩, ?_, fun _ => Framing.unfinished_nil, ?_⟩
    · simp [ofStream, streamOf]
    · simp [ofStream, streamOf]
  | append_singleton chunks chunk ih =>
    obtain ⟨hnode, hvalid⟩ := ih
    have hstream : ofStream (streamOf (chunks ++ [chunk])) =
        chunk.2.foldl push (ofStream (streamOf chunks)) := by
      simp [ofStream, streamOf]
    rw [receiveAll, foldl_append, hstream]
    exact ⟨hnode.receive hvalid chunk, hvalid.foldl _⟩

/-- What messages hold decides all of them but their times and the buffers allocated ahead. -/
theorem map_received_eq (h : List.Forall₂ (Holds P) vRecvMsg frames) :
    vRecvMsg.map received = frames.map (CNetMessage.ofBytes P) := by
  induction h with
  | nil => rfl
  | cons hhead _ ih => rw [map_cons, map_cons, hhead.eq, ih]

/-- The header at `pos` is too long, and the connection ends with the piece that completes it. -/
structure RejectedAt (P : MessageParams S) (chunks : List (ℤ × List UInt8)) (pos : ℕ) : Prop where
  header_le : pos + CMessageHeader.HEADER_SIZE ≤ (streamOf chunks).length
  oversized : MAX_PROTOCOL_MESSAGE_LENGTH < (CMessageHeader.ofBytes ((streamOf chunks).drop pos)).nMessageSize
  stops : ∀ k, (CNode.receiveAll P (chunks.take k)).fDisconnect = true ↔
    pos + CMessageHeader.HEADER_SIZE ≤ (streamOf (chunks.take k)).length

lemma rejectedAt_of_framing {chunks : List (ℤ × List UInt8)} (h : (ofStream (streamOf chunks)).rejected = true) :
    RejectedAt P chunks (ofStream (streamOf chunks)).done.flatten.length := by
  have hover := (receiveAll_follows (P := P) chunks).2.oversized h
  obtain ⟨rest, hrest, -, -⟩ := Framing.exists_rest ⟨[], [], false⟩ (streamOf chunks)
  have hstream : streamOf chunks = (ofStream (streamOf chunks)).done.flatten ++
      ((ofStream (streamOf chunks)).current ++ rest) := by
    simpa [Framing.bytes, ofStream] using hrest
  have hbytes : (ofStream (streamOf chunks)).bytes.length =
      (ofStream (streamOf chunks)).done.flatten.length + 24 := by
    rw [Framing.bytes, length_append, hover.1]
  generalize hf : ofStream (streamOf chunks) = f at *
  refine ⟨?_, ?_, ?_⟩
  · rw [hstream, length_append, length_append, hover.1, CMessageHeader.HEADER_SIZE]
    omega
  · rw [hstream, drop_left, ofBytes_append hover.1.ge]
    exact hover.2
  · intro k
    have hsplit : streamOf chunks = streamOf (chunks.take k) ++ streamOf (chunks.drop k) := by
      rw [streamOf, streamOf, streamOf, ← flatten_append, ← map_append, take_append_drop]
    rw [(receiveAll_follows (chunks.take k)).1.disconnected, CMessageHeader.HEADER_SIZE, ← hbytes, ← hf, hsplit]
    exact Framing.rejected_take_iff (by rw [← hsplit, hf]; exact h)

lemma Follows.buffer (h : Follows P r f) (hf : f.Valid) (hmsg : msg ∈ r.vRecvMsg) :
    msg.vRecv.length ≤ MAX_PROTOCOL_MESSAGE_LENGTH ∧ msg.vRecv.length ≤ msg.nDataPos + 256 * 1024 := by
  obtain ⟨c, hc, hholds⟩ := exists_holds_of_mem h.holds hmsg
  apply hholds.buffer
  rcases mem_append.1 hc with hc | hc
  · exact .inr (.inl (hf.whole c hc))
  · have hcur := hf.of_mem_current hc
    tauto

lemma exact_of_whole (h : Holds P msg b) (hb : Whole b) :
    msg.vRecv.length = msg.hdr.nMessageSize ∧ msg.hdr.nMessageSize ≤ MAX_PROTOCOL_MESSAGE_LENGTH := by
  obtain ⟨hmax, hlen⟩ := hb
  obtain ⟨-, -, -, hdata, hhdr, -⟩ := h.inData (by omega)
  have hsize : msg.hdr.nMessageSize = messageSize b := by rw [hhdr]
  have hpos := h.pos_le
  have hle := h.le_size
  omega

/-- **Message framing does not depend on packet boundaries.** Two ways to cut a stream give the same messages or are
rejected at the same header; a message has the bytes that its header announces; the buffers are within their bounds.
-/
theorem receiveMsgBytes_independent (P : MessageParams S) (chunks chunks' : List (ℤ × List UInt8))
    (h : streamOf chunks = streamOf chunks') :
    (CNode.receiveAll P chunks).vProcessMsg.map received = (CNode.receiveAll P chunks').vProcessMsg.map received ∧
    (CNode.receiveAll P chunks).vRecvMsg.map received = (CNode.receiveAll P chunks').vRecvMsg.map received ∧
    ((CNode.receiveAll P chunks).fDisconnect = false ∧ (CNode.receiveAll P chunks').fDisconnect = false ∨
      ∃ pos, RejectedAt P chunks pos ∧ RejectedAt P chunks' pos) ∧
    (∀ msg ∈ (CNode.receiveAll P chunks).vProcessMsg, msg.complete = true ∧
      msg.vRecv.length = msg.hdr.nMessageSize ∧ msg.hdr.nMessageSize ≤ MAX_PROTOCOL_MESSAGE_LENGTH) ∧
    (∀ msg ∈ (CNode.receiveAll P chunks).vRecvMsg, msg.complete = false) ∧
    (∀ k nTimeMicros pch, (CNode.receiveAll P (chunks.take k)).fDisconnect = false →
      (((CNode.receiveAll P (chunks.take k)).receiveMsgBytes P nTimeMicros pch).pch = [] ∨
        ((CNode.receiveAll P (chunks.take k)).receiveMsgBytes P nTimeMicros pch).rejected = true) ∧
      ∀ n, ∀ msg ∈ ((Receiving.next P nTimeMicros)^[n]
          ⟨(CNode.receiveAll P (chunks.take k)).vRecvMsg, pch, false, false⟩).vRecvMsg,
        msg.vRecv.length ≤ MAX_PROTOCOL_MESSAGE_LENGTH ∧ msg.vRecv.length ≤ msg.nDataPos + 256 * 1024) := by
  obtain ⟨hnode, hvalid⟩ := receiveAll_follows (P := P) chunks
  obtain ⟨hnode', -⟩ := receiveAll_follows (P := P) chunks'
  rw [← h] at hnode'
  refine ⟨?_, ?_, ?_, ?_, ?_, ?_⟩
  · rw [map_received_eq hnode.processed, map_received_eq hnode'.processed]
  · rw [map_received_eq hnode.current, map_received_eq hnode'.current]
  · rcases hrej : (ofStream (streamOf chunks)).rejected with _ | _
    · exact .inl ⟨hnode.disconnected.trans hrej, hnode'.disconnected.trans hrej⟩
    · refine .inr ⟨_, rejectedAt_of_framing hrej, ?_⟩
      rw [h] at hrej ⊢
      exact rejectedAt_of_framing hrej
  · intro msg hmsg
    obtain ⟨c, hc, hholds⟩ := exists_holds_of_mem hnode.processed hmsg
    exact ⟨hholds.complete_of_whole (hvalid.whole c hc), exact_of_whole hholds (hvalid.whole c hc)⟩
  · intro msg hmsg
    obtain ⟨c, hc, hholds⟩ := exists_holds_of_mem hnode.current hmsg
    exact hholds.not_complete (hvalid.of_mem_current hc)
  · intro k nTimeMicros pch hopen
    obtain ⟨hpre, hprevalid⟩ := receiveAll_follows (P := P) (chunks.take k)
    obtain ⟨hstart, hstartvalid⟩ := hpre.start hprevalid (hpre.disconnected.symm.trans hopen) pch
    refine ⟨(receiveMsgBytes_follows nTimeMicros hstart hstartvalid).2.1, ?_⟩
    intro n msg hmsg
    obtain ⟨j, hfollows, -, -⟩ := iterate_follows nTimeMicros hstart hstartvalid n
    exact hfollows.buffer (hstartvalid.foldl _) hmsg

/-- A message of one byte, cut inside its header and at its end, with the first byte of the next. -/
def oneByteHeader : List UInt8 := [1, 2, 3, 4] ++ List.replicate 12 0 ++ [1, 0, 0, 0] ++ List.replicate 4 0
def twoChunks : List (ℤ × List UInt8) := [(1, oneByteHeader ++ [7]), (2, [1])]
def threeChunks : List (ℤ × List UInt8) := [(1, oneByteHeader.take 3), (2, oneByteHeader.drop 3), (3, [7, 1])]
def countBytes : MessageParams ℕ := ⟨[1, 2, 3, 4], 0, fun n block => n + block.length⟩

theorem receiveMsgBytes_independent_oneByte :
    streamOf twoChunks = streamOf threeChunks ∧
      ((CNode.receiveAll countBytes twoChunks).vProcessMsg.map CNetMessage.vRecv = [[7]]) ∧
      (CNode.receiveAll countBytes twoChunks).vProcessMsg.map received =
        (CNode.receiveAll countBytes threeChunks).vProcessMsg.map received :=
  ⟨by decide, by decide +kernel, (receiveMsgBytes_independent countBytes twoChunks threeChunks (by decide)).1⟩

end Receive

end Soferox
