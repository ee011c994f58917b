import Mathlib.Data.List.TakeWhile
import Quarlcoin.Primitives.Serialize
/-!
# Messages and their headers

`CMessageHeader` of `protocol.h` stands in front of every message of the first transport:
the start characters of the network, the type, the size of the payload and four bytes of its
hash.
-/

namespace Quarlcoin.Net

open Arith Codec List

/-- `CSerializedNetMsg`, and what a `CNetMessage` keeps of it. -/
structure NetMsg where
  mType : List UInt8
  data : List UInt8
  deriving DecidableEq

/-- What both transports read of the network. -/
structure NetParams where
  magic : List UInt8
  magic_length : magic.length = 4
  hash : List UInt8 → Uint256

def messageTypeSize : ℕ := 12

def headerSize : ℕ := 24

def checksumSize : ℕ := 4

def maxProtocolMessageLength : ℕ := 32000000

def ascii (name : List Char) : List UInt8 := name.map fun c => UInt8.ofNat c.toNat

def versionType : List UInt8 := ascii ['v', 'e', 'r', 's', 'i', 'o', 'n']

/-! ## Headers -/

/-- `CMessageHeader`. -/
structure MessageHeader where
  pchMessageStart : List UInt8
  mMsgType : List UInt8
  nMessageSize : ℕ
  pchChecksum : List UInt8
  deriving DecidableEq

def MessageHeader.empty : MessageHeader where
  pchMessageStart := replicate 4 0
  mMsgType := replicate messageTypeSize 0
  nMessageSize := 0xffffffff
  pchChecksum := replicate checksumSize 0

variable (mType : List UInt8)

/-- The type as the constructor copies it: a C string, and zeros behind it. -/
def padType : List UInt8 :=
  let name := mType.takeWhile (· ≠ 0)
  name ++ replicate (messageTypeSize - name.length) 0

def MessageHeader.getMessageType (hdr : MessageHeader) : List UInt8 :=
  hdr.mMsgType.takeWhile (· ≠ 0)

/-- `IsMessageTypeValid`, from one character on. -/
def isMessageTypeValid : List UInt8 → Bool
  | [] => true
  | c :: rest =>
    if c = 0 then rest.all (· == 0)
    else if c < 0x20 ∨ 0x7e < c then false
    else isMessageTypeValid rest

variable (params : NetParams)

/-- The first bytes of the hash of a payload. -/
def checksum (data : List UInt8) : List UInt8 :=
  (Serialize.serUint256 (params.hash data)).take checksumSize

/-- The header of a message; none if the assertion on the length of the type
fails. -/
def MessageHeader.ofMsg (msg : NetMsg) : Option MessageHeader :=
  if messageTypeSize < (msg.mType.takeWhile (· ≠ 0)).length then none
  else some
    { pchMessageStart := params.magic
      mMsgType := padType msg.mType
      nMessageSize := msg.data.length % 2 ^ 32
      pchChecksum := checksum params msg.data }

def serHeader (hdr : MessageHeader) : List UInt8 :=
  hdr.pchMessageStart ++ (hdr.mMsgType ++ (leBytes 4 hdr.nMessageSize ++ hdr.pchChecksum))

def parseHeader (bytes : List UInt8) : MessageHeader where
  pchMessageStart := bytes.take 4
  mMsgType := (bytes.drop 4).take messageTypeSize
  nMessageSize := leValue ((bytes.drop 16).take 4)
  pchChecksum := (bytes.drop 20).take checksumSize

/-! ## Valid types -/

/-- A type of at most twelve printable characters. -/
def validType : Bool :=
  decide (mType.length ≤ messageTypeSize) && mType.all fun c => decide (0x20 ≤ c ∧ c ≤ 0x7e)

theorem validType_iff {mType : List UInt8} : validType mType = true ↔
    mType.length ≤ messageTypeSize ∧ ∀ c ∈ mType, 0x20 ≤ c ∧ c ≤ 0x7e := by
  simp [validType]

section

variable {mType : List UInt8} (h : validType mType = true)
include h

theorem takeWhile_of_validType : mType.takeWhile (· ≠ 0) = mType := by
  refine takeWhile_eq_self_iff.2 fun c hc => ?_
  have hle := ((validType_iff.1 h).2 c hc).1
  simp only [decide_not, Bool.not_eq_eq_eq_not, Bool.not_true, decide_eq_false_iff_not]
  rintro rfl
  exact absurd hle (by decide)

theorem length_padType : (padType mType).length = messageTypeSize := by
  have hlen := (validType_iff.1 h).1
  simp only [padType, takeWhile_of_validType h, length_append, length_replicate]
  omega

theorem takeWhile_padType : (padType mType).takeWhile (· ≠ 0) = mType := by
  have hself := takeWhile_of_validType h
  simp only [padType, hself]
  rw [takeWhile_append_of_pos fun c hc => takeWhile_eq_self_iff.1 hself c hc]
  cases messageTypeSize - mType.length with
  | zero => simp
  | succ n => simp

theorem isMessageTypeValid_padType : isMessageTypeValid (padType mType) = true := by
  simp only [padType, takeWhile_of_validType h]
  have hchars := (validType_iff.1 h).2
  generalize messageTypeSize - mType.length = n
  clear h
  induction mType with
  | nil =>
    cases n with
    | zero => rfl
    | succ n => simp [replicate_succ, isMessageTypeValid]
  | cons c rest ih =>
    obtain ⟨hc, hrest⟩ := forall_mem_cons.1 hchars
    have hne : c ≠ 0 := by
      rintro rfl
      exact absurd hc.1 (by decide)
    rw [cons_append, isMessageTypeValid, if_neg hne, if_neg, ih hrest]
    rw [not_or]
    exact ⟨UInt8.not_lt.2 hc.1, UInt8.not_lt.2 hc.2⟩

end

/-! ## Headers that are read back -/

variable (params : NetParams)

theorem length_checksum (data : List UInt8) : (checksum params data).length = checksumSize := by
  simp [checksum, checksumSize, Serialize.serUint256]

def headerOf (msg : NetMsg) : MessageHeader where
  pchMessageStart := params.magic
  mMsgType := padType msg.mType
  nMessageSize := msg.data.length % 2 ^ 32
  pchChecksum := checksum params msg.data

theorem ofMsg_of_validType {msg : NetMsg} (h : validType msg.mType = true) :
    MessageHeader.ofMsg params msg = some (headerOf params msg) := by
  refine if_neg (not_lt.2 ?_)
  rw [takeWhile_of_validType h]
  exact (validType_iff.1 h).1

theorem length_serHeader {msg : NetMsg} (h : validType msg.mType = true) :
    (serHeader (headerOf params msg)).length = headerSize := by
  simp [serHeader, headerOf, params.magic_length, length_padType h, length_checksum,
    messageTypeSize, checksumSize, headerSize]

/-- **A header is read back from its bytes.** -/
theorem parseHeader_ser {msg : NetMsg} (h : validType msg.mType = true) :
    parseHeader (serHeader (headerOf params msg)) = headerOf params msg := by
  have hmagic := params.magic_length
  have htype := length_padType h
  have hsum := length_checksum params msg.data
  unfold messageTypeSize at htype
  have hsize : (leBytes 4 (msg.data.length % 2 ^ 32)).length = 4 := length_leBytes ..
  have hvalue : leValue (leBytes 4 (msg.data.length % 2 ^ 32)) = msg.data.length % 2 ^ 32 :=
    leValue_leBytes (Nat.mod_lt _ (by decide))
  simp only [parseHeader, serHeader, headerOf, MessageHeader.mk.injEq]
  refine ⟨take_left' hmagic, ?_, ?_, ?_⟩
  · rw [drop_left' hmagic]
    exact take_left' htype
  · rw [show 16 = 4 + 12 from rfl, ← drop_drop, drop_left' hmagic,
      drop_left' htype, take_left' hsize, hvalue]
  · rw [show 20 = 4 + 12 + 4 from rfl, ← drop_drop, ← drop_drop, drop_left' hmagic,
      drop_left' htype]
    exact take_of_length_le hsum.le

end Quarlcoin.Net
