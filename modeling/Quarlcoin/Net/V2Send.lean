import Quarlcoin.Net.V2Receive
/-!
# Sending over the second transport

A message is taken when nothing is left to send, what is shown is a first part of what is
left, and what is marked as sent is taken from it. Receiving is not affected.
-/

namespace Quarlcoin.Net

open Codec Buffering V2Transport List

section

variable {env : NetEnv} {own peer : PeerStream} {initiating : Bool} {t : V2Transport}
  {sent : List NetMsg} {out : List UInt8} {received : ℕ} {rest : List UInt8} {todo : List NetMsg}

structure SameRecv (t t' : V2Transport) : Prop where
  state : t'.recvState = t.recvState
  initiating : t'.initiating = t.initiating
  buffer : t'.recvBuffer = t.recvBuffer
  aad : t'.recvAad = t.recvAad
  len : t'.recvLen = t.recvLen
  cipher : t'.cipher.recvCipher = t.cipher.recvCipher
  terminator : t'.cipher.recvGarbageTerminator = t.cipher.recvGarbageTerminator
  count : t'.cipher.recvCount = t.cipher.recvCount
  lenCount : t'.cipher.recvLenCount = t.cipher.recvLenCount

variable {n : ℕ} {s : SendSide}

theorem InPacket.congr {t' : V2Transport} {d : Direction} {size : ℕ} (hsame : SameRecv t t')
    (h : InPacket d t n size) : InPacket d t' n size where
  cipher := hsame.cipher.trans h.cipher
  count := hsame.count.trans h.count
  short := hsame.buffer ▸ h.short
  lenCount := hsame.buffer ▸ hsame.lenCount.trans h.lenCount
  len := by
    rw [hsame.buffer, hsame.len]
    exact h.len

theorem V2Reads.congr {t' : V2Transport} (hsame : SameRecv t t')
    (h : V2Reads peer t received rest todo) : V2Reads peer t' received rest todo := by
  cases h with
  | keyMaybeV1 state responder short stream =>
    exact .keyMaybeV1 (hsame.state.trans state) (hsame.initiating.trans responder)
      (hsame.buffer ▸ short) (hsame.buffer ▸ stream)
  | key state short stream =>
    exact .key (hsame.state.trans state) (hsame.buffer ▸ short) (hsame.buffer ▸ stream)
  | garbGarbterm state cipher terminator count lenCount short stream =>
    exact .garbGarbterm (hsame.state.trans state) (hsame.cipher.trans cipher)
      (hsame.terminator.trans terminator) (hsame.count.trans count)
      (hsame.lenCount.trans lenCount) (hsame.buffer ▸ short) (hsame.buffer ▸ stream)
  | version state aad packet stream =>
    exact .version (hsame.state.trans state) (hsame.aad.trans aad) (packet.congr hsame)
      (hsame.buffer ▸ stream)
  | app state aad packet stream =>
    exact .app (hsame.state.trans state) (hsame.aad.trans aad) (packet.congr hsame)
      (hsame.buffer ▸ stream)

theorem V2Inv.sendState_ne_v1 (h : V2Inv own peer initiating t sent out received rest todo) :
    t.sendState ≠ .v1 := by
  rw [h.phase]
  have hne := h.reads.ne_v1.1
  cases hstate : t.recvState <;> simp_all [sendStateOf]

theorem V2Sends.of_ready (state : s.sendState = .ready) (cipher : s.sendCipher = some own.cipher)
    (count : s.sendCount = 1 + sent.length) (pos : s.PosOk)
    (hout : s.sendBuffer.drop s.sendPos = out) : V2Sends own s sent out :=
  hout ▸ .ready state cipher count pos

theorem V2Inv.setMessage_of_ready (env : NetEnv)
    (h : V2Inv own peer initiating t sent out received rest todo)
    {msg : NetMsg} (hmsg : Sendable msg) (hready : t.sendState = .ready)
    (hbuffer : t.sendBuffer = []) : ∃ t', t.setMessageToSend env msg = .ok (some t') ∧ out = [] ∧
      V2Inv own peer initiating t' (sent ++ [msg]) (own.packets (1 + sent.length) [msg]) received
        rest todo := by
  cases h.sends with
  | ready state cipher count pos => ?_
  | _ state => exact absurd (hready.symm.trans state) (by simp)
  have hpos : t.sendPos = 0 := (pos.eq_nil (by
    rw [show t.sendSide.sendBuffer = [] from hbuffer, drop_nil])).2
  have hproc : t.setMessageToSend env msg = .ok (some { t with
      cipher := { t.cipher with sendCount := 1 + sent.length + 1 }
      sendBuffer := own.cipher.packet (1 + sent.length) (contentsOf msg) []
      sendType := msg.mType }) := by
    rw [setMessageToSend, if_neg h.sendState_ne_v1,
      if_neg (not_not.2 ⟨hready, hbuffer⟩), messageContents_of_validType hmsg.mType]
    simp only [ok_bind]
    rw [encrypt_packet own.cipher (1 + sent.length) _ _ cipher count]
    rfl
  refine ⟨_, hproc, ?_, h.initiating, h.phase, ?_, h.reads.congr ?_⟩
  · rw [show t.sendSide.sendBuffer = [] from hbuffer, drop_nil]
  · refine .of_ready state cipher ?_ (.inl ?_) ?_
    · rw [length_append]
      rfl
    · change t.sendPos < (own.cipher.packet (1 + sent.length) (contentsOf msg) []).length
      rw [hpos, length_packet]
      exact Nat.lt_of_lt_of_le (show 0 < expansion by decide) (Nat.le_add_left _ _)
    · change (own.cipher.packet (1 + sent.length) (contentsOf msg) []).drop t.sendPos = _
      rw [hpos, drop_zero, PeerStream.packets_singleton]
  · exact ⟨rfl, rfl, rfl, rfl, rfl, rfl, rfl, rfl, rfl⟩

/-- **`SetMessageToSend`** refuses, or puts the packet of the message where
nothing was left. -/
theorem V2Inv.setMessage (h : V2Inv own peer initiating t sent out received rest todo)
    {msg : NetMsg} (hmsg : Sendable msg) : t.setMessageToSend env msg = .ok none ∨
      ∃ t', t.setMessageToSend env msg = .ok (some t') ∧ out = [] ∧
        V2Inv own peer initiating t' (sent ++ [msg]) (own.packets (1 + sent.length) [msg]) received
          rest todo := by
  by_cases hready : t.sendState = .ready ∧ t.sendBuffer = []
  · exact .inr (h.setMessage_of_ready env hmsg hready.1 hready.2)
  · left
    rw [setMessageToSend, if_neg h.sendState_ne_v1, if_pos hready]

theorem V2Sends.pos_le (h : V2Sends own s sent out) : s.sendPos ≤ s.sendBuffer.length := by
  cases h with
  | maybeV1 state pubkey garbage buffer pos => exact pos.le.trans (Nat.zero_le _)
  | awaitingKey state pubkey garbage pos => exact pos.le
  | ready state cipher count pos => exact pos.le

/-- **`GetBytesToSend`** shows a first part of what is left. -/
theorem V2Inv.getBytesToSend (h : V2Inv own peer initiating t sent out received rest todo)
    (haveNextMessage : Bool) : ∃ shown, t.getBytesToSend haveNextMessage = .ok shown ∧
      shown.toSend = t.sendBuffer.drop t.sendPos ∧ shown.toSend <+: out := by
  have hpos : t.sendPos ≤ t.sendBuffer.length := h.sends.pos_le
  have hempty : (t.sendState != .maybeV1 || t.sendBuffer.isEmpty) = true := by
    cases h.sends with
    | maybeV1 state pubkey garbage buffer pos =>
      rw [show t.sendBuffer = [] from buffer, isEmpty_nil, Bool.or_true]
    | awaitingKey state => simp [show t.sendState = .awaitingKey from state]
    | ready state => simp [show t.sendState = .ready from state]
  refine ⟨{ toSend := t.sendBuffer.drop t.sendPos
            more := haveNextMessage && t.sendState == .ready
            mType := t.sendType }, ?_, rfl, ?_⟩
  · rw [V2Transport.getBytesToSend, if_neg h.sendState_ne_v1, hempty, decide_eq_true hpos]
    rfl
  · cases h.sends with
    | maybeV1 state pubkey garbage buffer pos =>
      rw [show t.sendBuffer = [] from buffer, drop_nil]
      exact nil_prefix
    | awaitingKey => exact prefix_append _ _
    | ready => exact prefix_rfl

/-- What `MarkBytesSent` leaves of the buffer. -/
def SendSide.marked (s : SendSide) (n : ℕ) : SendSide :=
  if s.sendPos + n = s.sendBuffer.length then { s with sendPos := 0, sendBuffer := [] }
  else { s with sendPos := s.sendPos + n }

theorem SendSide.marked_spec (hpos : s.PosOk) (hn : n ≤ (s.sendBuffer.drop s.sendPos).length) :
    (s.marked n).PosOk ∧ (s.marked n).sendBuffer.drop (s.marked n).sendPos =
      (s.sendBuffer.drop s.sendPos).drop n := by
  rw [length_drop] at hn
  unfold SendSide.marked
  split_ifs with hall
  · refine ⟨.inr ⟨rfl, rfl⟩, ?_⟩
    rw [drop_drop]
    exact (drop_eq_nil_iff.2 hall.ge).symm
  · refine ⟨.inl ?_, drop_drop.symm⟩
    have := hpos.le
    change s.sendPos + n < s.sendBuffer.length
    omega

theorem V2Sends.marked (h : V2Sends own s sent out)
    (hn : n ≤ (s.sendBuffer.drop s.sendPos).length) :
    V2Sends own (s.marked n) sent (out.drop n) := by
  have hstate : (s.marked n).sendState = s.sendState ∧ (s.marked n).ourPubkey = s.ourPubkey ∧
      (s.marked n).sendGarbage = s.sendGarbage ∧ (s.marked n).sendCipher = s.sendCipher ∧
      (s.marked n).sendCount = s.sendCount := by
    unfold SendSide.marked
    split <;> exact ⟨rfl, rfl, rfl, rfl, rfl⟩
  obtain ⟨hstate, hpubkey, hgarbage, hcipher, hcount⟩ := hstate
  cases h with
  | maybeV1 state pubkey garbage buffer pos =>
    rw [buffer, drop_nil] at hn
    obtain rfl : n = 0 := Nat.le_zero.1 hn
    refine .maybeV1 (hstate.trans state) (hpubkey.trans pubkey) (hgarbage.trans garbage) ?_ ?_
    · rw [SendSide.marked, pos, buffer, if_pos (by rfl)]
    · rw [SendSide.marked, pos, buffer, if_pos (by rfl)]
  | awaitingKey state pubkey garbage pos =>
    obtain ⟨hpos, hdrop⟩ := SendSide.marked_spec pos hn
    rw [drop_append_of_le_length hn, ← hdrop]
    exact .awaitingKey (hstate.trans state) (hpubkey.trans pubkey) (hgarbage.trans garbage) hpos
  | ready state cipher count pos =>
    obtain ⟨hpos, hdrop⟩ := SendSide.marked_spec pos hn
    rw [← hdrop]
    exact .ready (hstate.trans state) (hcipher.trans cipher) (hcount.trans count) hpos

/-- **`MarkBytesSent`** takes what was sent from what is left. -/
theorem V2Inv.markBytesSent (h : V2Inv own peer initiating t sent out received rest todo)
    (hn : n ≤ (t.sendBuffer.drop t.sendPos).length) : ∃ t', t.markBytesSent n = .ok t' ∧
      V2Inv own peer initiating t' sent (out.drop n) received rest todo := by
  have hsends := h.sends.marked hn
  have hle : t.sendPos ≤ t.sendBuffer.length := h.sends.pos_le
  rw [length_drop] at hn
  rw [V2Transport.markBytesSent, if_neg h.sendState_ne_v1]
  simp only [assume_of (decide_eq_true (show t.sendPos + n ≤ t.sendBuffer.length by omega))]
  unfold SendSide.marked at hsends
  split
  · rename_i hall
    rw [if_pos (show t.sendSide.sendPos + n = t.sendSide.sendBuffer.length from hall)] at hsends
    refine ⟨_, rfl, h.initiating, h.phase, hsends, h.reads.congr ?_⟩
    exact ⟨rfl, rfl, rfl, rfl, rfl, rfl, rfl, rfl, rfl⟩
  · rename_i hmore
    rw [if_neg (show t.sendSide.sendPos + n ≠ t.sendSide.sendBuffer.length from hmore)] at hsends
    refine ⟨_, rfl, h.initiating, h.phase, hsends, h.reads.congr ?_⟩
    exact ⟨rfl, rfl, rfl, rfl, rfl, rfl, rfl, rfl, rfl⟩

end

end Quarlcoin.Net
