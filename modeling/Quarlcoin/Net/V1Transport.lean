import Quarlcoin.Common.Buffering
import Quarlcoin.Net.Message
/-!
# The first transport

`V1Transport` of `net.cpp`: every message is sent as its header and its payload. How far
ahead memory is allocated is not modelled. `V1Recv.Reads` says what the receiver is in the
middle of; a call of `ReceivedBytes` takes it further (`V1Recv.Reads.receivedBytes`).
-/

namespace Quarlcoin.Net

open Codec Buffering List

/-- How a transport can fail. -/
inductive TransportError where
  /-- `ReceivedBytes` returns false. -/
  | invalid
  /-- An `Assume` or `assert` does not hold. -/
  | assumption
  /-- A loop makes no progress. -/
  | stuck
  /-- A write beyond the end of a buffer. -/
  | outOfBounds
  deriving DecidableEq

def assume (holds : Bool) : Except TransportError Unit :=
  if holds then .ok () else .error .assumption

theorem assume_of {holds : Bool} (h : holds = true) : assume holds = .ok () := if_pos h

/-! ## Receiving -/

/-- The receiver: `nHdrPos` and `nDataPos` count its bytes of the header and of the payload. -/
structure V1Recv where
  inData : Bool := false
  hdrbuf : List UInt8 := []
  hdr : MessageHeader := MessageHeader.empty
  vRecv : List UInt8 := []
  deriving DecidableEq

namespace V1Recv

variable (params : NetParams) (s : V1Recv) (bytes : List UInt8)

/-- `readHeader`: how many bytes it took. -/
def readHeader : Except TransportError (ℕ × V1Recv) :=
  let nCopy := copyCount headerSize s.hdrbuf bytes
  let hdrbuf := s.hdrbuf ++ bytes.take nCopy
  if hdrbuf.length < headerSize then .ok (nCopy, { s with hdrbuf })
  else
    let hdr := parseHeader hdrbuf
    if hdr.pchMessageStart ≠ params.magic then .error .invalid
    else if hdr.nMessageSize > Serialize.maxSize ∨ hdr.nMessageSize > maxProtocolMessageLength then
      .error .invalid
    else .ok (nCopy, { s with hdrbuf, hdr, inData := true })

def readData : ℕ × V1Recv :=
  let nCopy := copyCount s.hdr.nMessageSize s.vRecv bytes
  (nCopy, { s with vRecv := s.vRecv ++ bytes.take nCopy })

/-- `ReceivedBytes`: the receiver and the bytes that are left. -/
def receivedBytes : Except TransportError (V1Recv × List UInt8) :=
  if s.inData then .ok ((s.readData bytes).2, bytes.drop (s.readData bytes).1)
  else (s.readHeader params bytes).map fun r => (r.2, bytes.drop r.1)

def complete : Bool := s.inData && s.hdr.nMessageSize == s.vRecv.length

def getReceivedMessage : Except TransportError (Option NetMsg × V1Recv) := do
  assume s.complete
  if checksum params s.vRecv ≠ s.hdr.pchChecksum ∨ ¬ isMessageTypeValid s.hdr.mMsgType then
    pure (none, {})
  else pure (some { mType := s.hdr.getMessageType, data := s.vRecv }, {})

end V1Recv

/-! ## Sending -/

structure V1Send where
  headerToSend : List UInt8 := []
  messageToSend : NetMsg := { mType := [], data := [] }
  sendingHeader : Bool := false
  bytesSent : ℕ := 0
  deriving DecidableEq

structure BytesToSend where
  toSend : List UInt8
  more : Bool
  mType : List UInt8

namespace V1Send

variable (params : NetParams) (s : V1Send)

/-- `SetMessageToSend`: none if a message is still being sent. -/
def setMessageToSend (msg : NetMsg) : Except TransportError (Option V1Send) :=
  if s.sendingHeader ∨ s.bytesSent < s.messageToSend.data.length then .ok none
  else
    match MessageHeader.ofMsg params msg with
    | none => .error .assumption
    | some hdr => .ok (some
      { headerToSend := serHeader hdr
        messageToSend := msg
        sendingHeader := true
        bytesSent := 0 })

def getBytesToSend (haveNextMessage : Bool) : BytesToSend :=
  if s.sendingHeader then
    { toSend := s.headerToSend.drop s.bytesSent
      more := haveNextMessage || !s.messageToSend.data.isEmpty
      mType := s.messageToSend.mType }
  else
    { toSend := s.messageToSend.data.drop s.bytesSent
      more := haveNextMessage
      mType := s.messageToSend.mType }

def markBytesSent (bytesSent : ℕ) : V1Send :=
  let sent := s.bytesSent + bytesSent
  if s.sendingHeader ∧ sent = s.headerToSend.length then
    { s with sendingHeader := false, bytesSent := 0 }
  else if ¬ s.sendingHeader ∧ sent = s.messageToSend.data.length then
    { s with messageToSend := { s.messageToSend with data := [] }, bytesSent := 0 }
  else { s with bytesSent := sent }

end V1Send

structure V1Transport where
  recv : V1Recv := {}
  send : V1Send := {}

/-! ## Frames -/

variable (params : NetParams)

def frame (msg : NetMsg) : List UInt8 :=
  serHeader (headerOf params msg) ++ msg.data

def frames (msgs : List NetMsg) : List UInt8 := msgs.flatMap (frame params)

/-- A message that the first transport carries. -/
structure V1Sendable (msg : NetMsg) : Prop where
  mType : validType msg.mType = true
  data : msg.data.length ≤ maxProtocolMessageLength

variable {params : NetParams}

theorem V1Sendable.nMessageSize {msg : NetMsg} (h : V1Sendable msg) :
    (headerOf params msg).nMessageSize = msg.data.length :=
  Nat.mod_eq_of_lt (lt_of_le_of_lt h.data (by decide))

@[simp] theorem frames_nil : frames params [] = [] := rfl

theorem frames_cons (msg : NetMsg) (msgs : List NetMsg) : frames params (msg :: msgs) =
      serHeader (headerOf params msg) ++ (msg.data ++ frames params msgs) := by
  rw [frames, flatMap_cons, frame, append_assoc]
  rfl

theorem frames_append (msgs msgs' : List NetMsg) :
    frames params (msgs ++ msgs') = frames params msgs ++ frames params msgs' :=
  flatMap_append

/-! ### The sender -/

variable {haveNextMessage : Bool} {bytes : List UInt8}

namespace V1Send

variable (s : V1Send)

def pending : List UInt8 :=
  if s.sendingHeader then s.headerToSend.drop s.bytesSent ++ s.messageToSend.data
  else s.messageToSend.data.drop s.bytesSent

/-- `m_bytes_sent` is a position in what is being sent. -/
structure Ok : Prop where
  header : s.sendingHeader = true → s.bytesSent < s.headerToSend.length
  data : s.sendingHeader = false → s.bytesSent ≤ s.messageToSend.data.length

theorem ok_initial : Ok {} := ⟨by simp, by simp⟩

/-- `GetBytesToSend` shows a first part of what is pending. -/
theorem toSend_isPrefix (haveNextMessage : Bool) :
    (s.getBytesToSend haveNextMessage).toSend <+: s.pending := by
  unfold getBytesToSend pending
  split
  · exact prefix_append _ _
  · exact prefix_rfl

theorem pending_eq_nil {s : V1Send} (hok : Ok s)
    (h : (s.getBytesToSend haveNextMessage).toSend = []) : s.pending = [] := by
  unfold getBytesToSend at h
  unfold pending
  split_ifs at h with hheader
  · exact absurd (drop_eq_nil_iff.1 h) (not_le.2 (hok.header hheader))
  · rw [if_neg hheader]
    exact h

/-- **Sending** takes what was sent from the front of what is pending. -/
theorem markBytesSent_spec {s : V1Send} (hok : Ok s) {n : ℕ}
    (hn : n ≤ (s.getBytesToSend haveNextMessage).toSend.length) :
    Ok (s.markBytesSent n) ∧ (s.markBytesSent n).pending = s.pending.drop n := by
  unfold getBytesToSend at hn
  unfold markBytesSent
  cases hheader : s.sendingHeader with
  | true =>
    have hpos := hok.header hheader
    rw [if_pos hheader, length_drop] at hn
    simp only [true_and, not_true_eq_false, false_and, if_false]
    split
    · refine ⟨⟨by simp, by simp⟩, ?_⟩
      have hlen : (s.headerToSend.drop s.bytesSent).length = n := by
        rw [length_drop]
        omega
      simp only [pending, hheader, if_true, drop_zero]
      rw [if_neg (by simp), drop_left' hlen]
    · refine ⟨⟨fun _ => ?_, by simp⟩, ?_⟩
      · dsimp only
        omega
      · simp only [pending, hheader, if_true]
        rw [drop_append_of_le_length (by rw [length_drop]; omega), drop_drop]
  | false =>
    have hpos := hok.data hheader
    rw [if_neg (by simp [hheader]), length_drop] at hn
    simp only [Bool.false_eq_true, false_and, if_false]
    split
    · refine ⟨⟨by simp, by simp⟩, ?_⟩
      simp only [pending, hheader, Bool.false_eq_true, if_false, drop_drop]
      exact (drop_eq_nil_iff.2 (by omega)).symm
    · refine ⟨⟨by simp, fun _ => ?_⟩, ?_⟩
      · dsimp only
        omega
      · simp [pending, hheader]

/-- **A message is taken** when nothing is pending, and then all of its frame
is. -/
theorem setMessageToSend_spec {msg : NetMsg} (hmsg : V1Sendable msg) :
    s.setMessageToSend params msg = .ok none ∨
      ∃ s', s.setMessageToSend params msg = .ok (some s') ∧ Ok s' ∧ s.pending = [] ∧
        s'.pending = frame params msg := by
  unfold setMessageToSend
  split_ifs with hfree
  · exact .inl rfl
  rw [not_or] at hfree
  refine .inr ⟨_, by rw [ofMsg_of_validType params hmsg.mType], ⟨fun _ => ?_, by simp⟩, ?_, rfl⟩
  · dsimp only
    rw [length_serHeader params hmsg.mType]
    decide
  · rw [pending, if_neg hfree.1]
    exact drop_eq_nil_iff.2 (not_lt.1 hfree.2)

theorem setMessageToSend_of_pending (params : NetParams) {s : V1Send} (hok : Ok s)
    (hnil : s.pending = []) {msg : NetMsg} (hmsg : V1Sendable msg) :
    ∃ s', s.setMessageToSend params msg = .ok (some s') ∧ s'.pending = frame params msg := by
  have hfree : ¬ (s.sendingHeader = true ∨ s.bytesSent < s.messageToSend.data.length) := by
    rw [pending] at hnil
    rintro (hheader | hdata)
    · rw [if_pos hheader, append_eq_nil_iff, drop_eq_nil_iff] at hnil
      exact absurd hnil.1 (not_le.2 (hok.header hheader))
    · split at hnil
      · rw [(append_eq_nil_iff.1 hnil).2] at hdata
        exact absurd hdata (Nat.not_lt_zero _)
      · exact absurd (drop_eq_nil_iff.1 hnil) (not_le.2 hdata)
  rw [setMessageToSend, if_neg hfree, ofMsg_of_validType params hmsg.mType]
  exact ⟨_, rfl, rfl⟩

end V1Send

/-! ### The receiver -/

namespace V1Recv

/-- What the receiver is in the middle of, when `rest` is still to come with `todo` in it. -/
inductive Reads (params : NetParams) : V1Recv → List UInt8 → List NetMsg → Prop where
  | header {s : V1Recv} {rest : List UInt8} {todo : List NetMsg}
      (inData : s.inData = false) (vRecv : s.vRecv = []) (short : s.hdrbuf.length < headerSize)
      (stream : s.hdrbuf ++ rest = frames params todo) : Reads params s rest todo
  | data {s : V1Recv} {rest : List UInt8} {msg : NetMsg} {todo : List NetMsg}
      (inData : s.inData = true) (hdr : s.hdr = headerOf params msg)
      (short : s.vRecv.length < msg.data.length)
      (stream : s.vRecv ++ rest = msg.data ++ frames params todo) :
      Reads params s rest (msg :: todo)

structure Holds (params : NetParams) (s : V1Recv) (msg : NetMsg) : Prop where
  inData : s.inData = true
  hdr : s.hdr = headerOf params msg
  vRecv : s.vRecv = msg.data

/-- What a call of `ReceivedBytes` leaves: it goes on reading, or it has the
next message. -/
def After (params : NetParams) (s : V1Recv) (rest : List UInt8) (todo : List NetMsg) : Prop :=
  s.complete = false ∧ Reads params s rest todo ∨
    ∃ msg todo', todo = msg :: todo' ∧ Holds params s msg ∧ rest = frames params todo'

theorem reads_initial : Reads params {} [] [] := .header rfl rfl (by decide) rfl

variable {s : V1Recv} {msg : NetMsg} {rest : List UInt8} {todo : List NetMsg}

theorem Holds.complete (h : Holds params s msg) (hmsg : V1Sendable msg) : s.complete = true := by
  simp [V1Recv.complete, h.inData, h.hdr, h.vRecv, hmsg.nMessageSize]

/-- **The message is given out**, and the receiver starts again. -/
theorem Holds.getReceivedMessage (h : Holds params s msg) (hmsg : V1Sendable msg) :
    s.getReceivedMessage params = .ok (some msg, {}) := by
  have hsum : ¬ (checksum params s.vRecv ≠ s.hdr.pchChecksum ∨
      ¬ isMessageTypeValid s.hdr.mMsgType = true) := by
    rw [not_or, not_not, not_not, h.hdr, h.vRecv]
    exact ⟨rfl, isMessageTypeValid_padType hmsg.mType⟩
  have hmType : s.hdr.getMessageType = msg.mType := by
    rw [h.hdr]
    exact takeWhile_padType hmsg.mType
  rw [V1Recv.getReceivedMessage, h.complete hmsg, if_neg hsum, hmType, h.vRecv]
  rfl

theorem after_of_data (hmsg : V1Sendable msg) (inData : s.inData = true)
    (hdr : s.hdr = headerOf params msg)
    (hcases : s.vRecv.length < msg.data.length ∧ s.vRecv ++ rest = msg.data ++ frames params todo ∨
      s.vRecv = msg.data ∧ rest = frames params todo) : After params s rest (msg :: todo) := by
  rcases hcases with ⟨hshort, hstream⟩ | ⟨hall, hrest⟩
  · refine .inl ⟨?_, .data inData hdr hshort hstream⟩
    simp [V1Recv.complete, hdr, hmsg.nMessageSize, hshort.ne']
  · exact .inr ⟨msg, todo, rfl, ⟨inData, hdr, hall⟩, hrest⟩

/-- **A header that is complete** is the next message's, and passes. -/
theorem readHeader_of_stream (hmsg : V1Sendable msg)
    (hfull : s.hdrbuf ++ bytes.take (copyCount headerSize s.hdrbuf bytes) =
      serHeader (headerOf params msg)) :
    s.readHeader params bytes = .ok (copyCount headerSize s.hdrbuf bytes,
      { s with hdrbuf := serHeader (headerOf params msg), hdr := headerOf params msg,
               inData := true }) := by
  have hmax := hmsg.data
  simp only [readHeader, hfull]
  rw [if_neg (by rw [length_serHeader params hmsg.mType]; decide),
    parseHeader_ser params hmsg.mType, if_neg (by simp [headerOf]), if_neg]
  rw [hmsg.nMessageSize, not_or, not_lt, not_lt]
  exact ⟨hmax.trans (by decide), hmax⟩

/-- **`ReceivedBytes` on a piece of the stream.** It succeeds, and takes at
least one byte. -/
theorem Reads.receivedBytes (h : Reads params s (bytes ++ rest) todo)
    (hbytes : bytes ≠ []) (htodo : ∀ msg ∈ todo, V1Sendable msg) :
    ∃ s' left, s.receivedBytes params bytes = .ok (s', left) ∧ left.length < bytes.length ∧
      After params s' (left ++ rest) todo := by
  cases h with
  | header inData vRecv short stream =>
    rw [V1Recv.receivedBytes, if_neg (by simp [inData])]
    set k := copyCount headerSize s.hdrbuf bytes with hk
    have hleft : (bytes.drop k).length < bytes.length := length_drop_copy short hbytes
    -- the stream has a byte, so it has a message and all of its header
    cases todo with
    | nil =>
      rw [frames_nil, append_eq_nil_iff, append_eq_nil_iff] at stream
      exact absurd stream.2.1 hbytes
    | cons msg todo =>
      have hmsg := htodo msg (by simp)
      have hlen := length_serHeader params hmsg.mType
      rw [frames_cons] at stream
      rcases copy_cases (hlen ▸ short.le) stream with hshort | ⟨hfull, hrest⟩
      · rw [hlen, ← hk] at hshort
        refine ⟨{ s with hdrbuf := s.hdrbuf ++ bytes.take k }, bytes.drop k, ?_, hleft,
          .inl ⟨?_, ?_⟩⟩
        · simp only [readHeader, ← hk, if_pos hshort]
          rfl
        · simp [V1Recv.complete, inData]
        · refine .header inData vRecv hshort ?_
          rw [copy_append, stream, frames_cons]
      · rw [hlen] at hfull hrest
        rw [readHeader_of_stream hmsg hfull]
        refine ⟨_, bytes.drop k, rfl, hleft, after_of_data hmsg rfl rfl ?_⟩
        simp only [vRecv]
        rcases Nat.eq_zero_or_pos msg.data.length with hzero | hpos
        · have hnil := eq_nil_of_length_eq_zero hzero
          exact .inr ⟨hnil.symm, by rw [hrest, hnil, nil_append]⟩
        · exact .inl ⟨hpos, hrest⟩
  | data inData hdr short stream =>
    have hmsg := htodo _ mem_cons_self
    have hsize := (congrArg MessageHeader.nMessageSize hdr).trans hmsg.nMessageSize
    rw [V1Recv.receivedBytes, if_pos inData]
    simp only [readData, hsize]
    refine ⟨_, _, rfl, length_drop_copy short hbytes, after_of_data hmsg inData hdr ?_⟩
    rcases copy_cases short.le stream with hshort | hfull
    · exact .inl ⟨hshort, by rw [copy_append, stream]⟩
    · exact .inr hfull

theorem Reads.append (h : Reads params s rest todo) (msgs : List NetMsg) :
    Reads params s (rest ++ frames params msgs) (todo ++ msgs) := by
  cases h with
  | header inData vRecv short stream =>
    refine .header inData vRecv short ?_
    rw [← append_assoc, stream, frames_append]
  | data inData hdr short stream =>
    refine .data inData hdr short ?_
    rw [← append_assoc, stream, append_assoc, ← frames_append]
    rfl

/-- **At the end of the stream** no message is left. -/
theorem Reads.eq_nil (h : Reads params s [] todo) (htodo : ∀ msg ∈ todo, V1Sendable msg) :
    todo = [] := by
  cases h with
  | header inData vRecv short stream =>
    cases todo with
    | nil => rfl
    | cons msg todo =>
      have hlen := congrArg length stream
      rw [append_nil, frames_cons, length_append,
        length_serHeader params (htodo msg (by simp)).mType] at hlen
      omega
  | data inData hdr short stream =>
    have hlen := congrArg length stream
    rw [append_nil, length_append] at hlen
    omega

theorem reads_of_rest (h : rest = frames params todo) : Reads params {} rest todo :=
  .header rfl rfl (by decide) h

end V1Recv

end Quarlcoin.Net
