import Quarlcoin.Net.V2Transport
/-!
# Packets of the second transport

A side sends its key, its garbage, the terminator, the packet with the version and a packet
for every message. A receiver that is somewhere in a packet is taken further by every pass
of the loop of `ReceivedBytes` (`packetPass`), if the contents are shorter than `2 ^ 24`
bytes.
-/

namespace Quarlcoin.Net

open Codec Buffering List Nat UInt8

/-! ## The contents of a packet -/

/-- What a packet holds for a message with a valid type. -/
def contentsOf (msg : NetMsg) : List UInt8 :=
  match v2MessageMap msg.mType with
  | some id => ofNat id :: msg.data
  | none => 0 :: (padType msg.mType ++ msg.data)

theorem getElem_of_v2MessageMap {mType : List UInt8} {id : ℕ} (h : v2MessageMap mType = some id) :
    0 < id ∧ id < v2MessageIds.length ∧ v2MessageIds[id]? = some mType := by
  obtain ⟨i, hi, rfl⟩ := Option.map_eq_some_iff.1 h
  obtain ⟨hlt, heq, -⟩ := idxOf?_eq_some_iff.1 hi
  rw [length_drop] at hlt
  refine ⟨i.succ_pos, by omega, ?_⟩
  rw [getElem_drop] at heq
  rw [getElem?_eq_getElem (by omega), Option.some.injEq, ← heq]
  congr 1
  omega

section

variable {msg : NetMsg} (h : validType msg.mType = true)
include h

theorem messageContents_of_validType : messageContents msg = .ok (contentsOf msg) := by
  have hlen := (validType_iff.1 h).1
  have hpad : msg.mType ++ replicate (messageTypeSize - msg.mType.length) 0 =
      padType msg.mType := by
    simp only [padType, takeWhile_of_validType h]
  unfold messageContents contentsOf
  cases v2MessageMap msg.mType with
  | some id => rfl
  | none =>
    rw [if_neg (by omega), hpad, take_of_length_le (length_padType h).le]

theorem longType_padType : longType (padType msg.mType) = some msg.mType := by
  have hchars := (validType_iff.1 h).2
  have hnone : ¬ (msg.mType.any fun c => c < 0x20 || 0x7f < c) = true := by
    rw [any_eq_true]
    rintro ⟨c, hc, hbad⟩
    obtain ⟨hlow, hhigh⟩ := hchars c hc
    simp only [Bool.or_eq_true, decide_eq_true_eq, lt_iff_toNat_lt] at hbad
    rw [le_iff_toNat_le] at hlow hhigh
    simp only [toNat_ofNat] at hlow hhigh hbad
    omega
  have hdrop : (padType msg.mType).drop msg.mType.length =
      replicate (messageTypeSize - msg.mType.length) 0 := by
    simp only [padType, takeWhile_of_validType h, drop_left]
  rw [longType, takeWhile_padType h, if_neg hnone, hdrop, if_pos (by simp)]

/-- **The type and the payload are read back.** -/
theorem getMessageType_contentsOf :
    getMessageType (contentsOf msg) = some (msg.mType, msg.data) := by
  unfold contentsOf
  cases hid : v2MessageMap msg.mType with
  | some id =>
    obtain ⟨hpos, hlt, hget⟩ := getElem_of_v2MessageMap hid
    have hbyte : (ofNat id).toNat = id := toNat_ofNat_of_lt' (hlt.trans (by decide))
    have hne : ofNat id ≠ 0 := by
      intro hzero
      rw [hzero] at hbyte
      exact hpos.ne hbyte
    rw [getMessageType, if_pos hne, hbyte, hget]
    rfl
  | none =>
    have hlen := length_padType h
    rw [getMessageType, if_neg (by simp), if_neg (by rw [length_append]; omega),
      take_left' hlen, drop_left' hlen, longType_padType h]
    rfl

end

/-- A message that both transports carry. -/
structure Sendable (msg : NetMsg) : Prop where
  mType : validType msg.mType = true
  size : (contentsOf msg).length < 2 ^ 24

theorem length_data_le_contentsOf (msg : NetMsg) : msg.data.length ≤ (contentsOf msg).length := by
  unfold contentsOf
  cases v2MessageMap msg.mType with
  | some id => simp
  | none =>
    simp only [length_cons, length_append]
    omega

theorem Sendable.v1 {msg : NetMsg} (h : Sendable msg) : V1Sendable msg where
  mType := h.mType
  data := by
    have hle := length_data_le_contentsOf msg
    have hsize := h.size
    unfold maxProtocolMessageLength
    omega

/-! ## Streams of packets -/

/-- What one side sends with: its public key, its garbage, its terminator and
its cipher. -/
structure PeerStream where
  key : List UInt8
  garbage : List UInt8
  terminator : List UInt8
  cipher : Direction

namespace PeerStream

variable (p : PeerStream)

def versionPacket : List UInt8 := p.cipher.packet 0 versionContents p.garbage

/-- The packets of messages, numbered from `n` on. -/
def packets : ℕ → List NetMsg → List UInt8
  | _, [] => []
  | n, msg :: msgs => p.cipher.packet n (contentsOf msg) [] ++ packets (n + 1) msgs

variable (msgs : List NetMsg)

/-- Everything from the terminator on. -/
def afterGarbage : List UInt8 :=
  p.terminator ++ (p.versionPacket ++ p.packets 1 msgs)

def stream : List UInt8 := p.key ++ (p.garbage ++ p.afterGarbage msgs)

/-- The assumptions on a stream: the lengths of its parts, and no early
terminator. -/
structure Fair : Prop where
  length_key : p.key.length = pubkeySize
  length_garbage : p.garbage.length ≤ maxGarbageLen
  length_terminator : p.terminator.length = garbageTerminatorLen
  terminator : ∀ n < p.garbage.length,
    ((p.garbage ++ p.terminator).drop n).take garbageTerminatorLen ≠ p.terminator

variable (msgs msgs' : List NetMsg)

theorem packets_append : ∀ n,
    p.packets n (msgs ++ msgs') = p.packets n msgs ++ p.packets (n + msgs.length) msgs' := by
  induction msgs with
  | nil =>
    intro n
    rfl
  | cons msg msgs ih =>
    intro n
    rw [cons_append, packets, packets, ih, append_assoc, length_cons, add_right_comm n, add_assoc n]

theorem packets_singleton (n : ℕ) (msg : NetMsg) :
    p.packets n [msg] = p.cipher.packet n (contentsOf msg) [] :=
  append_nil _

theorem stream_append :
    p.stream (msgs ++ msgs') = p.stream msgs ++ p.packets (1 + msgs.length) msgs' := by
  simp only [stream, afterGarbage, packets_append, append_assoc]

end PeerStream

/-! ## Where a receiver is -/

/-- The part of a transport that sends. -/
structure SendSide where
  ourPubkey : List UInt8
  sendCipher : Option Direction
  sendCount : ℕ
  sendBuffer : List UInt8
  sendPos : ℕ
  sendGarbage : List UInt8
  sendState : SendState

def V2Transport.sendSide (t : V2Transport) : SendSide where
  ourPubkey := t.cipher.ourPubkey
  sendCipher := t.cipher.sendCipher
  sendCount := t.cipher.sendCount
  sendBuffer := t.sendBuffer
  sendPos := t.sendPos
  sendGarbage := t.sendGarbage
  sendState := t.sendState

/-- The receiver is in packet `n`, whose contents have some size. -/
structure InPacket (d : Direction) (t : V2Transport) (n size : ℕ) : Prop where
  cipher : t.cipher.recvCipher = some d
  count : t.cipher.recvCount = n
  short : t.recvBuffer.length < size + expansion
  lenCount : t.cipher.recvLenCount = if t.recvBuffer.length < lengthLen then n else n + 1
  len : lengthLen ≤ t.recvBuffer.length → t.recvLen = size

/-- The receiver has opened packet `n`. -/
structure Opened (d : Direction) (t : V2Transport) (n : ℕ) (contents : List UInt8) : Prop where
  cipher : t.cipher.recvCipher = some d
  count : t.cipher.recvCount = n + 1
  lenCount : t.cipher.recvLenCount = n + 1
  buffer : t.recvBuffer = []
  aad : t.recvAad = []
  decoded : t.recvState = .appReady → t.recvDecodeBuffer = contents

theorem inPacket_of_nil {d : Direction} {t : V2Transport} {n : ℕ} (size : ℕ)
    (cipher : t.cipher.recvCipher = some d) (count : t.cipher.recvCount = n)
    (lenCount : t.cipher.recvLenCount = n) (buffer : t.recvBuffer = []) : InPacket d t n size where
  cipher := cipher
  count := count
  short := by
    rw [buffer]
    exact lt_of_lt_of_le (by decide) (le_add_left _ _)
  lenCount := by
    rw [buffer, lenCount]
    rfl
  len := by
    rw [buffer]
    exact fun h => absurd h (by decide)

/-- What a pass leaves as it was, unless it changes what is sent. -/
structure Kept (t t' : V2Transport) : Prop where
  send : t'.sendSide = t.sendSide
  initiating : t'.initiating = t.initiating

/-! ### Packets -/

variable {env : NetEnv} {t t' : V2Transport} {d : Direction} {n m : ℕ}
  {contents aad bytes rest more : List UInt8}

/-- What follows the version packet and what follows a message. -/
def V2Transport.packetNext : RecvState → RecvState
  | .version => .app
  | _ => .appReady

section

open V2Transport

def V2Transport.InPackets (t : V2Transport) : Prop := t.recvState = .version ∨ t.recvState = .app

theorem V2Transport.InPackets.assume (h : t.InPackets) :
    Net.assume (t.recvState == .version || t.recvState == .app) = .ok () := by
  rcases h with h | h <;> rw [h] <;> rfl

theorem packetState_of_inPackets (h : t.InPackets) :
    t.packetState = .ok { t with recvState := packetNext t.recvState } := by
  rcases h with h | h <;> simp only [packetState, setReceiveState, h] <;> rfl

variable (hstate : t.InPackets)
include hstate

theorem processReceivedPacketBytes_wait (hlen : t.recvBuffer.length ≠ lengthLen)
    (hfull : lengthLen < t.recvBuffer.length → t.recvBuffer.length ≠ t.recvLen + expansion) :
    t.processReceivedPacketBytes = .ok t := by
  rw [processReceivedPacketBytes, hstate.assume, if_neg hlen, if_neg fun h => hfull h.1 h.2]
  rfl

variable (hcipher : t.cipher.recvCipher = some d)
include hcipher

theorem processReceivedPacketBytes_length (hcount : t.cipher.recvLenCount = n)
    (hbuffer : t.recvBuffer = (d.packet n contents aad).take lengthLen)
    (hsize : contents.length < 2 ^ 24) : t.processReceivedPacketBytes = .ok { t with
      cipher := { t.cipher with recvLenCount := n + 1 }
      recvLen := contents.length } := by
  have hlen : t.recvBuffer.length = lengthLen := by
    rw [hbuffer, length_take, length_packet]
    exact min_eq_left (le_trans (by decide) (le_add_left expansion _))
  have hmax : ¬ contents.length > maxContentsLen := by
    have : 2 ^ 24 ≤ maxContentsLen := by decide
    omega
  rw [processReceivedPacketBytes, hstate.assume, if_pos hlen, hbuffer,
    decryptLength_packet d n contents aad hcipher hcount, mod_eq_of_lt hsize]
  simp only [ok_bind, hmax]
  rfl

theorem processReceivedPacketBytes_full (hcount : t.cipher.recvCount = n)
    (hlenCount : t.cipher.recvLenCount = n + 1)
    (hbuffer : t.recvBuffer = d.packet n contents aad) (haad : t.recvAad = aad)
    (hlen : t.recvLen = contents.length) : ∃ t', t.processReceivedPacketBytes = .ok t' ∧ Kept t t' ∧
      t'.recvState = packetNext t.recvState ∧ Opened d t' n contents := by
  have hlength : t.recvBuffer.length = t.recvLen + expansion := by rw [hbuffer, length_packet, hlen]
  have hlt : lengthLen < expansion := by decide
  have hopen := decrypt_packet d n contents aad hcipher hcount
  rw [← hbuffer, ← haad] at hopen
  rw [processReceivedPacketBytes, hstate.assume, if_neg (by omega),
    if_pos ⟨by omega, hlength⟩, hopen]
  refine ⟨{ t with
    cipher := { t.cipher with recvCount := n + 1 }
    recvAad := []
    recvBuffer := []
    recvState := packetNext t.recvState
    recvDecodeBuffer := if packetNext t.recvState = .appReady then contents else [] },
    ?_, ⟨rfl, rfl⟩, rfl, hcipher, rfl, hlenCount, rfl, rfl, fun h => if_pos h⟩
  simp only [ok_bind]
  rw [packetState_of_inPackets]
  · rfl
  · exact hstate

end

/-! ### Passes -/

/-- The transport when bytes have been copied to a buffer that is to hold `m`. -/
def V2Transport.copied (t : V2Transport) (m : ℕ) (bytes : List UInt8) : V2Transport :=
  { t with recvBuffer := t.recvBuffer ++ bytes.take (copyCount m t.recvBuffer bytes) }

section

open V2Transport

variable {P : V2Transport → List UInt8 → Prop}

theorem receivePass_of_copied {stop : Bool}
    (hmax : t.getMaxBytesToProcess = .ok (m - t.recvBuffer.length))
    (hshort : t.recvBuffer.length < m) (hbytes : bytes ≠ [])
    (hproc : (t.copied m bytes).processReceived env = .ok (t', stop)) :
    t.receivePass env bytes = .ok (t', bytes.drop (copyCount m t.recvBuffer bytes), stop) := by
  have hcount : min bytes.length (m - t.recvBuffer.length) = copyCount m t.recvBuffer bytes :=
    min_comm ..
  have hpos := copyCount_pos hshort hbytes
  rw [copied] at hproc
  rw [receivePass, hmax]
  simp only [ok_bind, hcount, hproc, hpos, decide_true, Bool.or_true]
  rfl

/-- What a pass leads to that takes bytes and does not return. -/
def Passes (env : NetEnv) (t : V2Transport) (bytes rest : List UInt8)
    (P : V2Transport → List UInt8 → Prop) : Prop :=
  ∃ t' left, t.receivePass env bytes = .ok (t', left, false) ∧ left.length < bytes.length ∧
    P t' (left ++ rest)

theorem Passes.imp {Q : V2Transport → List UInt8 → Prop} (h : Passes env t bytes rest P)
    (hPQ : ∀ t' rest, P t' rest → Q t' rest) : Passes env t bytes rest Q :=
  let ⟨t', left, hpass, hleft, hP⟩ := h
  ⟨t', left, hpass, hleft, hPQ t' _ hP⟩

theorem passes_of_copied (hmax : t.getMaxBytesToProcess = .ok (m - t.recvBuffer.length))
    (hshort : t.recvBuffer.length < m) (hbytes : bytes ≠ [])
    (hproc : (t.copied m bytes).processReceived env = .ok (t', false))
    (h : P t' (bytes.drop (copyCount m t.recvBuffer bytes) ++ rest)) : Passes env t bytes rest P :=
  ⟨t', _, receivePass_of_copied hmax hshort hbytes hproc, length_drop_copy hshort hbytes, h⟩

theorem processReceived_of_inPackets (hstate : t.InPackets)
    (h : t.processReceivedPacketBytes = .ok t') : t.processReceived env = .ok (t', false) := by
  rcases hstate with hstate | hstate <;> simp only [processReceived, hstate, h] <;> rfl

theorem getMaxBytesToProcess_of_inPackets (hstate : t.InPackets) : t.getMaxBytesToProcess =
    .ok ((if t.recvBuffer.length < lengthLen then lengthLen else t.recvLen + expansion) -
      t.recvBuffer.length) := by
  rcases hstate with hstate | hstate <;>
    simp only [getMaxBytesToProcess, hstate, add_comm expansion] <;> split <;> rfl

/-- What a pass in a packet leads to: it goes on, or the packet is opened. -/
def PacketAfter (d : Direction) (t t' : V2Transport) (n : ℕ)
    (contents aad rest more : List UInt8) : Prop :=
  (t'.recvState = t.recvState ∧ t'.recvAad = aad ∧ InPacket d t' n contents.length ∧
      t'.recvBuffer ++ rest = d.packet n contents aad ++ more) ∨
    t'.recvState = packetNext t.recvState ∧ Opened d t' n contents ∧ rest = more

variable (env)

/-- **A pass in a packet.** -/
theorem packetPass (hstate : t.InPackets) (haad : t.recvAad = aad)
    (hin : InPacket d t n contents.length) (hsize : contents.length < 2 ^ 24) (hbytes : bytes ≠ [])
    (hstream : t.recvBuffer ++ (bytes ++ rest) = d.packet n contents aad ++ more) :
    Passes env t bytes rest fun t' rest =>
      Kept t t' ∧ PacketAfter d t t' n contents aad rest more := by
  have hmax := getMaxBytesToProcess_of_inPackets hstate
  have hexp : lengthLen < expansion := by decide
  have hcopied : ∀ m, (t.copied m bytes).InPackets := fun _ => hstate
  have hlenCount := hin.lenCount
  by_cases hlow : t.recvBuffer.length < lengthLen
  · -- the length comes first
    rw [if_pos hlow] at hmax hlenCount
    have hcut : t.recvBuffer ++ (bytes ++ rest) = (d.packet n contents aad).take lengthLen ++
        ((d.packet n contents aad).drop lengthLen ++ more) := by
      rw [hstream, ← append_assoc (take _ _), take_append_drop]
    have hlen : ((d.packet n contents aad).take lengthLen).length = lengthLen := by
      rw [length_take, length_packet]
      omega
    have hcases := copy_cases (by rw [hlen]; exact hlow.le) hcut
    rw [hlen] at hcases
    rcases hcases with hshort | ⟨hfull, -⟩
    · refine passes_of_copied hmax hlow hbytes (processReceived_of_inPackets (hcopied _)
        (processReceivedPacketBytes_wait (hcopied _) hshort.ne
          fun h => absurd h (not_lt.2 hshort.le)))
        ⟨⟨rfl, rfl⟩, .inl ⟨rfl, haad, ⟨hin.cipher, hin.count, ?_,
          hlenCount.trans (if_pos hshort).symm, fun h => absurd h (not_le.2 hshort)⟩,
          (copy_append _).trans hstream⟩⟩
      change (t.recvBuffer ++ _).length < _
      omega
    · have hfull' : (t.copied lengthLen bytes).recvBuffer.length = lengthLen :=
        (congrArg length hfull).trans hlen
      refine passes_of_copied hmax hlow hbytes (processReceived_of_inPackets (hcopied _)
        (processReceivedPacketBytes_length (hcopied _) hin.cipher hlenCount hfull hsize))
        ⟨⟨rfl, rfl⟩, .inl ⟨rfl, haad, ⟨hin.cipher, hin.count, ?_,
          (if_neg hfull'.not_lt).symm, fun _ => rfl⟩, (copy_append _).trans hstream⟩⟩
      rw [hfull']
      omega
  · -- then the rest, as much as the length says
    have hrecvLen := hin.len (not_lt.1 hlow)
    rw [if_neg hlow] at hmax hlenCount
    rw [hrecvLen] at hmax
    have hpos := copyCount_pos hin.short hbytes
    have hcases := copy_cases (by rw [length_packet]; exact hin.short.le) hstream
    rw [length_packet] at hcases
    have hgrow : lengthLen < (t.copied (contents.length + expansion) bytes).recvBuffer.length := by
      change _ < (t.recvBuffer ++ _).length
      rw [length_append, length_take]
      have := length_pos_iff.2 hbytes
      omega
    rcases hcases with hshort | ⟨hfull, hrest⟩
    · refine passes_of_copied hmax hin.short hbytes (processReceived_of_inPackets (hcopied _)
        (processReceivedPacketBytes_wait (hcopied _) hgrow.ne' fun _ => ?_))
        ⟨⟨rfl, rfl⟩, .inl ⟨rfl, haad, ⟨hin.cipher, hin.count, hshort,
          hlenCount.trans (if_neg hgrow.not_gt).symm, fun _ => hrecvLen⟩,
          (copy_append _).trans hstream⟩⟩
      change _ ≠ t.recvLen + expansion
      rw [hrecvLen]
      exact hshort.ne
    · obtain ⟨t', hproc, hkept, hnext, hopened⟩ :=
        processReceivedPacketBytes_full (hcopied (contents.length + expansion))
          hin.cipher hin.count hlenCount hfull haad hrecvLen
      exact passes_of_copied hmax hin.short hbytes
        (processReceived_of_inPackets (hcopied _) hproc)
        ⟨⟨hkept.send, hkept.initiating⟩, .inr ⟨hnext, hopened, hrest⟩⟩

end

end Quarlcoin.Net
