import Quarlcoin.Net.V2Packets
/-!
# A side of the second transport

`V2Reads` says what a receiver is in the middle of and `V2Sends` what its sender still has
to send; a key that is received lets the sender go on, so `V2Inv` follows both. The
assumptions on the peer are in `V2Setting`: its terminator does not occur early, and its key
does not look like a `version` message to a responder.
-/

namespace Quarlcoin.Net

open Codec Buffering List V2Transport PeerStream Nat

/-! ## Where a side is

`own` is what this side sends and `peer` what the other side does.
-/

def nextSize : List NetMsg → ℕ
  | [] => 0
  | msg :: _ => (contentsOf msg).length

/-- What the receiver is in the middle of, when `rest` is still to come with `todo` in it. -/
inductive V2Reads (peer : PeerStream) (t : V2Transport) : ℕ → List UInt8 → List NetMsg → Prop where
  | keyMaybeV1 {rest : List UInt8} {todo : List NetMsg} (state : t.recvState = .keyMaybeV1)
      (responder : t.initiating = false) (short : t.recvBuffer.length < v1PrefixLen)
      (stream : t.recvBuffer ++ rest = peer.stream todo) : V2Reads peer t 0 rest todo
  | key {rest : List UInt8} {todo : List NetMsg} (state : t.recvState = .key)
      (short : t.recvBuffer.length < pubkeySize)
      (stream : t.recvBuffer ++ rest = peer.stream todo) : V2Reads peer t 0 rest todo
  | garbGarbterm {rest : List UInt8} {todo : List NetMsg} (state : t.recvState = .garbGarbterm)
      (cipher : t.cipher.recvCipher = some peer.cipher)
      (terminator : t.cipher.recvGarbageTerminator = peer.terminator)
      (count : t.cipher.recvCount = 0) (lenCount : t.cipher.recvLenCount = 0)
      (short : t.recvBuffer.length < peer.garbage.length + garbageTerminatorLen)
      (stream : t.recvBuffer ++ rest = peer.garbage ++ peer.afterGarbage todo) :
      V2Reads peer t 0 rest todo
  | version {rest : List UInt8} {todo : List NetMsg} (state : t.recvState = .version)
      (aad : t.recvAad = peer.garbage)
      (packet : InPacket peer.cipher t 0 versionContents.length)
      (stream : t.recvBuffer ++ rest = peer.versionPacket ++ peer.packets 1 todo) :
      V2Reads peer t 0 rest todo
  | app {received : ℕ} {rest : List UInt8} {todo : List NetMsg} (state : t.recvState = .app)
      (aad : t.recvAad = []) (packet : InPacket peer.cipher t (1 + received) (nextSize todo))
      (stream : t.recvBuffer ++ rest = peer.packets (1 + received) todo) :
      V2Reads peer t received rest todo

/-- A position in the send buffer, which is empty once everything is sent. -/
def SendSide.PosOk (s : SendSide) : Prop :=
  s.sendPos < s.sendBuffer.length ∨ s.sendBuffer = [] ∧ s.sendPos = 0

theorem SendSide.PosOk.le {s : SendSide} (h : s.PosOk) : s.sendPos ≤ s.sendBuffer.length := by
  rcases h with h | ⟨-, h⟩
  · exact h.le
  · rw [h]
    exact zero_le _

theorem SendSide.PosOk.eq_nil {s : SendSide} (h : s.PosOk)
    (hnil : s.sendBuffer.drop s.sendPos = []) : s.sendBuffer = [] ∧ s.sendPos = 0 :=
  h.resolve_left (not_lt.2 (drop_eq_nil_iff.1 hnil))

/-- Where the sender is that took `sent`: `out` is what it still has to send, also after the
handshake. -/
inductive V2Sends (own : PeerStream) (s : SendSide) : List NetMsg → List UInt8 → Prop where
  | maybeV1 (state : s.sendState = .maybeV1) (pubkey : s.ourPubkey = own.key)
      (garbage : s.sendGarbage = own.garbage) (buffer : s.sendBuffer = []) (pos : s.sendPos = 0) :
      V2Sends own s [] (own.stream [])
  | awaitingKey (state : s.sendState = .awaitingKey) (pubkey : s.ourPubkey = own.key)
      (garbage : s.sendGarbage = own.garbage) (pos : s.PosOk) :
      V2Sends own s [] (s.sendBuffer.drop s.sendPos ++ own.afterGarbage [])
  | ready {sent : List NetMsg} (state : s.sendState = .ready)
      (cipher : s.sendCipher = some own.cipher) (count : s.sendCount = 1 + sent.length)
      (pos : s.PosOk) : V2Sends own s sent (s.sendBuffer.drop s.sendPos)

/-- The send state that goes with a receive state. -/
def sendStateOf : RecvState → SendState
  | .keyMaybeV1 => .maybeV1
  | .key => .awaitingKey
  | .v1 => .v1
  | _ => .ready

/-- Both keys lead this side to the ciphers and the terminators of the two
streams. -/
def Agreed (env : NetEnv) (own peer : PeerStream) (initiating : Bool) : Prop :=
  ∀ c : Bip324Cipher, c.ourPubkey = own.key → c.initializeWith env peer.key initiating =
    { ourPubkey := own.key
      sendCipher := some own.cipher
      recvCipher := some peer.cipher
      sendGarbageTerminator := own.terminator
      recvGarbageTerminator := peer.terminator }

/-- The setting of a side: what is assumed of the stream that it receives. -/
structure V2Setting (env : NetEnv) (own peer : PeerStream) (initiating : Bool) : Prop where
  agreed : Agreed env own peer initiating
  ownKey : own.key ≠ []
  fair : peer.Fair
  /-- The key does not look like a `version` message to a responder. -/
  key : initiating = false → (peer.key.drop 4).take messageTypeSize ≠ versionMatch

variable (own peer : PeerStream) (initiating : Bool) (t : V2Transport) (sent : List NetMsg)

/-- **The invariant of a side.** -/
structure V2Inv (out : List UInt8) (received : ℕ) (rest : List UInt8)
    (todo : List NetMsg) : Prop where
  initiating : t.initiating = initiating
  phase : t.sendState = sendStateOf t.recvState
  sends : V2Sends own t.sendSide sent out
  reads : V2Reads peer t received rest todo

/-- The next message can be given out. -/
structure V2Ready (out : List UInt8) (received : ℕ) (rest : List UInt8)
    (msg : NetMsg) (todo : List NetMsg) : Prop where
  initiating : t.initiating = initiating
  state : t.recvState = .appReady
  phase : t.sendState = .ready
  sends : V2Sends own t.sendSide sent out
  opened : Opened peer.cipher t (1 + received) (contentsOf msg)
  rest : rest = peer.packets (1 + (received + 1)) todo

def V2After (out : List UInt8) (received : ℕ) (rest : List UInt8) (todo : List NetMsg) : Prop :=
  V2Inv own peer initiating t sent out received rest todo ∨
    ∃ msg todo', todo = msg :: todo' ∧
      V2Ready own peer initiating t sent out received rest msg todo'

section

variable {env : NetEnv} {own peer : PeerStream} {initiating : Bool} {t : V2Transport}
  {sent : List NetMsg} {out : List UInt8} {received : ℕ} {bytes rest : List UInt8}
  {todo : List NetMsg}

open V2Transport

theorem reads_app_of_opened {n : ℕ} {contents : List UInt8} (state : t.recvState = .app)
    (opened : Opened peer.cipher t n contents) (hn : n + 1 = 1 + received)
    (hrest : rest = peer.packets (1 + received) todo) : V2Reads peer t received rest todo := by
  refine .app state opened.aad (inPacket_of_nil _ opened.cipher (opened.count.trans hn)
    (opened.lenCount.trans hn) opened.buffer) ?_
  rw [opened.buffer, hrest, nil_append]

variable {t' : V2Transport} {msg : NetMsg}

theorem V2Inv.kept {rest' : List UInt8}
    (h : V2Inv own peer initiating t sent out received rest todo) (hkept : Kept t t')
    (hphase : sendStateOf t.recvState = sendStateOf t'.recvState)
    (hreads : V2Reads peer t' received rest' todo) :
    V2Inv own peer initiating t' sent out received rest' todo :=
  ⟨hkept.initiating.trans h.initiating,
    ((congrArg SendSide.sendState hkept.send).trans h.phase).trans hphase,
    hkept.send ▸ h.sends, hreads⟩

/-- **A pass in the application phase** goes on with the packet of the next
message, or opens it. -/
theorem V2Reads.appPass (env : NetEnv) (h : V2Reads peer t received (bytes ++ rest) todo)
    (hstate : t.recvState = .app) (hbytes : bytes ≠ []) (htodo : ∀ msg ∈ todo, Sendable msg) :
    Passes env t bytes rest fun t' rest => Kept t t' ∧
      (t'.recvState = .app ∧ V2Reads peer t' received rest todo ∨
        ∃ msg todo', todo = msg :: todo' ∧ t'.recvState = .appReady ∧
          Opened peer.cipher t' (1 + received) (contentsOf msg) ∧
          rest = peer.packets (1 + (received + 1)) todo') := by
  cases h with
  | app _ aad packet stream =>
    cases todo with
    | nil =>
      rw [packets, append_eq_nil_iff, append_eq_nil_iff] at stream
      exact absurd stream.2.1 hbytes
    | cons msg todo =>
      refine (packetPass env (.inr hstate) aad packet (htodo msg (by simp)).size hbytes stream).imp
        fun t' _ hpass => ⟨hpass.1, ?_⟩
      rcases hpass.2 with ⟨hsame, haad, hin, hstream⟩ | ⟨hnext, hopened, hrest⟩
      · rw [hstate] at hsame
        exact .inl ⟨hsame, .app hsame haad hin hstream⟩
      · rw [hstate] at hnext
        exact .inr ⟨msg, todo, rfl, hnext, hopened, hrest⟩
  | _ state => exact absurd (hstate.symm.trans state) (by simp)

/-! ### What a side does with the bytes of the handshake -/

variable (hstate : t.recvState = .keyMaybeV1)
include hstate

theorem receivePass_maybeV1 (hshort : t.recvBuffer.length < v1PrefixLen) (hbytes : bytes ≠ [])
    (hproc : (t.copied v1PrefixLen bytes).processReceivedMaybeV1Bytes env = .ok t') :
    t.receivePass env bytes =
      .ok (t', bytes.drop (copyCount v1PrefixLen t.recvBuffer bytes), t'.recvState == .v1) := by
  refine receivePass_of_copied ?_ hshort hbytes ?_
  · simp only [getMaxBytesToProcess, hstate, assume_of (decide_eq_true hshort.le)]
    rfl
  · simp only [processReceived, show (t.copied v1PrefixLen bytes).recvState = _ from hstate, hproc]
    rfl

theorem processReceivedMaybeV1Bytes_wait
    (hshort : t.recvBuffer.length < v1PrefixLen) (hstart : t.recvBuffer <+: v1Prefix env) :
    t.processReceivedMaybeV1Bytes env = .ok t := by
  rw [processReceivedMaybeV1Bytes, assume_of (beq_iff_eq.2 hstate),
    assume_of (decide_eq_true hshort.le)]
  rw [if_neg (not_not.2 hstart), if_neg hshort.ne]
  rfl

omit hstate

theorem V2Setting.not_match (hset : V2Setting env own peer initiating) {buffer more : List UInt8}
    (hstream : buffer ++ more = peer.stream todo) (hlen : buffer.length ≤ pubkeySize)
    (hresponder : initiating = false) (hlong : 4 + messageTypeSize ≤ buffer.length) :
    (buffer.drop 4).take messageTypeSize ≠ versionMatch := by
  have htake : buffer = peer.key.take buffer.length :=
    prefix_iff_eq_take.1 (prefix_of_prefix_length_le ⟨_, hstream⟩
      (prefix_append _ _) (hset.fair.length_key ▸ hlen))
  rw [htake, drop_take, take_take, min_eq_left (by omega)]
  exact hset.key hresponder

theorem V2Sends.initialized (h : V2Sends own t.sendSide sent out)
    (hstate : t.sendState = .awaitingKey)
    (hbuffer : t'.sendBuffer = t.sendBuffer ++ own.terminator ++ own.versionPacket)
    (hpos : t'.sendPos = t.sendPos) (hstate' : t'.sendState = .ready)
    (hcipher : t'.cipher.sendCipher = some own.cipher) (hcount : t'.cipher.sendCount = 1) :
    V2Sends own t'.sendSide sent out := by
  cases h with
  | awaitingKey state pubkey garbage pos =>
    have pos : t.sendPos ≤ t.sendBuffer.length := pos.le
    have hout : t'.sendBuffer.drop t'.sendPos =
        t.sendBuffer.drop t.sendPos ++ own.afterGarbage [] := by
      rw [hbuffer, hpos, append_assoc, drop_append_of_le_length pos,
        afterGarbage, packets, append_nil]
    change V2Sends own t'.sendSide [] (t.sendBuffer.drop t.sendPos ++ own.afterGarbage [])
    rw [← hout]
    refine .ready hstate' hcipher hcount (.inl ?_)
    change t'.sendPos < t'.sendBuffer.length
    rw [hbuffer, length_append, length_append, versionPacket, length_packet]
    have : 0 < expansion := by decide
    omega
  | _ state => exact absurd (hstate.symm.trans state) (by simp)

theorem V2Sends.started (h : V2Sends own t.sendSide sent out) (hstate : t.sendState = .maybeV1)
    (hkey : own.key ≠ []) : t.sendBuffer = [] ∧ V2Sends own { t.sendSide with
      sendState := .awaitingKey, sendBuffer := t.cipher.ourPubkey ++ t.sendGarbage } sent out := by
  cases h with
  | maybeV1 state pubkey garbage buffer pos =>
    refine ⟨buffer, ?_⟩
    have hout : own.stream [] = (t.cipher.ourPubkey ++ t.sendGarbage).drop t.sendPos ++
        own.afterGarbage [] := by
      rw [show t.sendPos = 0 from pos, show t.cipher.ourPubkey = own.key from pubkey,
        show t.sendGarbage = own.garbage from garbage, drop_zero, append_assoc,
        stream]
    rw [hout]
    refine .awaitingKey rfl pubkey garbage (.inl ?_)
    change t.sendPos < (t.cipher.ourPubkey ++ t.sendGarbage).length
    rw [show t.sendPos = 0 from pos, show t.cipher.ourPubkey = own.key from pubkey, length_append]
    have := length_pos_iff.2 hkey
    omega
  | _ state => exact absurd (hstate.symm.trans state) (by simp)

/-! ### The passes of a side -/

section

variable (hset : V2Setting env own peer initiating)
  (h : V2Inv own peer initiating t sent out received (bytes ++ rest) todo) (hbytes : bytes ≠ [])
include h hbytes

theorem V2Inv.appPass (hstate : t.recvState = .app) (htodo : ∀ msg ∈ todo, Sendable msg) :
    Passes env t bytes rest fun t' rest =>
      V2After own peer initiating t' sent out received rest todo := by
  refine (h.reads.appPass env hstate hbytes htodo).imp fun t' rest hpass => ?_
  obtain ⟨hkept, hafter⟩ := hpass
  rcases hafter with ⟨hsame, hreads⟩ | ⟨msg, todo', htodo', hnext, hopened, hrest⟩
  · exact .inl (h.kept hkept (by rw [hstate, hsame]) hreads)
  · have hphase := h.phase
    rw [hstate] at hphase
    exact .inr ⟨msg, todo', htodo', hkept.initiating.trans h.initiating, hnext,
      (congrArg SendSide.sendState hkept.send).trans hphase, hkept.send ▸ h.sends, hopened, hrest⟩

/-- **A pass at the version packet.** -/
theorem V2Inv.versionPass (hstate : t.recvState = .version) : Passes env t bytes rest fun t' rest =>
      V2Inv own peer initiating t' sent out received rest todo := by
  cases h.reads with
  | version _ aad packet stream =>
    refine (packetPass env (.inl hstate) aad packet (by decide) hbytes stream).imp
      fun t' rest hpass => ?_
    obtain ⟨hkept, hafter⟩ := hpass
    rcases hafter with ⟨hsame, haad, hin, hstream⟩ | ⟨hnext, hopened, hrest⟩
    · rw [hstate] at hsame
      exact h.kept hkept (by rw [hstate, hsame]) (.version hsame haad hin hstream)
    · rw [hstate] at hnext
      exact h.kept hkept (by rw [hstate, hnext]; rfl) (reads_app_of_opened hnext hopened rfl hrest)
  | _ state => exact absurd (hstate.symm.trans state) (by simp)

include hset

/-- **A pass in the garbage** takes one byte. -/
theorem V2Inv.garbagePass (hstate : t.recvState = .garbGarbterm) :
    Passes env t bytes rest fun t' rest =>
      V2Inv own peer initiating t' sent out received rest todo := by
  have hterm := hset.fair.length_terminator
  have hgarbage := hset.fair.length_garbage
  cases h.reads with
  | garbGarbterm _ cipher terminator count lenCount short stream => ?_
  | _ state => exact absurd (hstate.symm.trans state) (by simp)
  have hmax : t.getMaxBytesToProcess = .ok (t.recvBuffer.length + 1 - t.recvBuffer.length) := by
    rw [Nat.add_sub_cancel_left]
    simp only [getMaxBytesToProcess, hstate]
    rfl
  have hroom := lt_succ_self t.recvBuffer.length
  set t₁ := t.copied (t.recvBuffer.length + 1) bytes with ht₁
  have hstate₁ : t₁.recvState = .garbGarbterm := hstate
  have hlen : t₁.recvBuffer.length = t.recvBuffer.length + 1 := by
    change (t.recvBuffer ++ _).length = _
    rw [length_append, length_take, copyCount]
    have := length_pos_iff.2 hbytes
    omega
  have hstream : t₁.recvBuffer ++ (bytes.drop (copyCount (t.recvBuffer.length + 1) t.recvBuffer
      bytes) ++ rest) = peer.garbage ++ peer.terminator ++
        (peer.versionPacket ++ peer.packets 1 todo) :=
    ((copy_append _).trans stream).trans (append_assoc ..).symm
  have hitem : (peer.garbage ++ peer.terminator).length =
      peer.garbage.length + garbageTerminatorLen := by
    rw [length_append, hterm]
  have htake : t₁.recvBuffer = (peer.garbage ++ peer.terminator).take t₁.recvBuffer.length :=
    prefix_iff_eq_take.1 (prefix_of_prefix_length_le ⟨_, hstream⟩ (prefix_append _ _) (by omega))
  have hpass : ∀ {t'}, t₁.processReceivedGarbageBytes = .ok t' →
      t₁.processReceived env = .ok (t', false) := fun {t'} hproc => by
    simp only [processReceived, hstate₁, hproc]
    rfl
  have hassume := assume_of (beq_iff_eq.2 hstate₁)
  have hbound := assume_of (decide_eq_true (show t₁.recvBuffer.length ≤
    maxGarbageLen + garbageTerminatorLen by omega))
  rcases lt_or_ge (t.recvBuffer.length + 1) (peer.garbage.length + garbageTerminatorLen) with
    hmore | hall
  · -- the terminator is not there yet
    have hproc : t₁.processReceivedGarbageBytes = .ok t₁ := by
      rw [processReceivedGarbageBytes, hassume, hbound]
      split
      · rename_i hlong
        rw [if_neg, if_neg (by omega)]
        · rfl
        · rw [show t₁.cipher.recvGarbageTerminator = peer.terminator from terminator, htake,
            length_take, drop_take]
          have hwindow := hset.fair.terminator (t₁.recvBuffer.length - garbageTerminatorLen)
            (by omega)
          rwa [Nat.min_eq_left (by omega), Nat.sub_sub_self hlong]
      · rfl
    exact passes_of_copied hmax hroom hbytes (hpass hproc) (h.kept ⟨rfl, rfl⟩ rfl
      (.garbGarbterm hstate cipher terminator count lenCount (by omega)
        ((copy_append _).trans stream)))
  · -- all of the garbage and the terminator
    have hfull : t₁.recvBuffer.length = peer.garbage.length + garbageTerminatorLen := by omega
    have hbuffer : t₁.recvBuffer = peer.garbage ++ peer.terminator := by
      rw [htake, take_of_length_le (by omega)]
    have hrest := (append_inj hstream (hfull.trans hitem.symm)).2
    have hproc : t₁.processReceivedGarbageBytes = .ok { t₁ with
        recvAad := peer.garbage, recvBuffer := [], recvState := .version } := by
      rw [processReceivedGarbageBytes, hbound]
      rw [if_pos (by omega), if_pos]
      · rw [hfull, Nat.add_sub_cancel, hbuffer, take_left, hstate₁]
        rfl
      · rw [hfull, Nat.add_sub_cancel, hbuffer, drop_left]
        exact terminator.symm
    exact passes_of_copied hmax hroom hbytes (hpass hproc) (h.kept ⟨rfl, rfl⟩ (by rw [hstate]; rfl)
      (.version rfl rfl (inPacket_of_nil _ cipher count lenCount rfl) hrest))

/-- **A pass in the key.** -/
theorem V2Inv.keyPass (hstate : t.recvState = .key) : Passes env t bytes rest fun t' rest =>
      V2Inv own peer initiating t' sent out received rest todo := by
  have hphase := h.phase
  rw [hstate] at hphase
  have hkey := hset.fair.length_key
  cases h.reads with
  | key _ short stream => ?_
  | _ state => exact absurd (hstate.symm.trans state) (by simp)
  have hmax : t.getMaxBytesToProcess = .ok (pubkeySize - t.recvBuffer.length) := by
    simp only [getMaxBytesToProcess, hstate, assume_of (decide_eq_true short.le)]
    rfl
  set t₁ := t.copied pubkeySize bytes with ht₁
  have hstate₁ : t₁.recvState = .key := hstate
  have hstream : t₁.recvBuffer ++ (bytes.drop (copyCount pubkeySize t.recvBuffer bytes) ++ rest) =
      peer.stream todo := (copy_append _).trans stream
  have hlen : t₁.recvBuffer.length ≤ pubkeySize := length_copy short.le
  have hassume := assume_of (beq_iff_eq.2 hstate₁)
  have hbound := assume_of (decide_eq_true hlen)
  -- a responder takes bytes that look like a v1 `version` for a peer of another network
  have hmatch : ¬ (!t₁.initiating && decide (4 + messageTypeSize ≤ t₁.recvBuffer.length) &&
      (t₁.recvBuffer.drop 4).take messageTypeSize == versionMatch) = true := by
    simp only [Bool.and_eq_true, Bool.not_eq_true', decide_eq_true_eq, beq_iff_eq]
    rintro ⟨⟨hresponder, hlong⟩, hmatch⟩
    exact hset.not_match hstream hlen (h.initiating.symm.trans hresponder) hlong hmatch
  have hpass : ∀ {t'}, t₁.processReceivedKeyBytes env = .ok t' →
      t₁.processReceived env = .ok (t', false) := fun {t'} hproc => by
    simp only [processReceived, hstate₁, hproc]
    rfl
  have hcases := copy_cases (hkey ▸ short.le) stream
  rw [hkey] at hcases
  -- the copy stops inside the key, or completes it and the ciphers are set up
  change t₁.recvBuffer.length < pubkeySize ∨ t₁.recvBuffer = peer.key ∧ _ at hcases
  rcases hcases with hshort | ⟨hfull, hrest⟩
  · have hproc : t₁.processReceivedKeyBytes env = .ok t₁ := by
      rw [processReceivedKeyBytes, hassume, hbound]
      rw [if_neg hmatch, if_neg hshort.ne]
      rfl
    exact passes_of_copied hmax short hbytes (hpass hproc)
      (h.kept ⟨rfl, rfl⟩ rfl (.key hstate hshort hstream))
  · have hown : t.cipher.ourPubkey = own.key ∧ t.sendGarbage = own.garbage := by
      cases h.sends with
      | awaitingKey _ pubkey garbage _ => exact ⟨pubkey, garbage⟩
      | _ state => exact absurd (hphase.symm.trans state) (by simp [sendStateOf])
    have hproc : t₁.processReceivedKeyBytes env = .ok { t₁ with
        cipher :=
          { ourPubkey := own.key
            sendCipher := some own.cipher
            recvCipher := some peer.cipher
            sendGarbageTerminator := own.terminator
            recvGarbageTerminator := peer.terminator
            sendCount := 1 }
        recvBuffer := []
        recvState := .garbGarbterm
        sendState := .ready
        sendBuffer := t.sendBuffer ++ own.terminator ++ own.versionPacket
        sendGarbage := [] } := by
      rw [processReceivedKeyBytes, hbound]
      simp only [bind]
      rw [if_neg hmatch, if_pos (by rw [hfull, hkey]), hfull,
        show t₁.initiating = initiating from h.initiating, hset.agreed t₁.cipher hown.1]
      simp only [hstate₁, show t₁.sendState = .awaitingKey from hphase,
        show t₁.sendGarbage = own.garbage from hown.2]
      rfl
    refine passes_of_copied hmax short hbytes (hpass hproc) ⟨h.initiating, rfl,
      h.sends.initialized hphase rfl rfl rfl rfl rfl, .garbGarbterm rfl rfl rfl rfl rfl ?_ hrest⟩
    exact lt_of_lt_of_le (show 0 < garbageTerminatorLen by decide) (le_add_left _ _)

/-- **A pass while the other side may speak the first transport.** It does
not, so the key is sent sooner or later. -/
theorem V2Inv.maybeV1Pass (hstate : t.recvState = .keyMaybeV1) :
    Passes env t bytes rest fun t' rest =>
      V2Inv own peer initiating t' sent out received rest todo := by
  have hphase := h.phase
  rw [hstate] at hphase
  cases h.reads with
  | keyMaybeV1 _ responder short stream => ?_
  | _ state => exact absurd (hstate.symm.trans state) (by simp)
  set t₁ := t.copied v1PrefixLen bytes with ht₁
  have hstate₁ : t₁.recvState = .keyMaybeV1 := hstate
  have hstream : t₁.recvBuffer ++ (bytes.drop (copyCount v1PrefixLen t.recvBuffer bytes) ++ rest) =
      peer.stream todo := (copy_append _).trans stream
  have hlen : t₁.recvBuffer.length ≤ v1PrefixLen := length_copy short.le
  by_cases hprefix : t₁.recvBuffer <+: v1Prefix env
  · have hshort : t₁.recvBuffer.length < v1PrefixLen := by
      refine lt_of_le_of_ne hlen fun hfull => ?_
      have heq := hprefix.eq_of_length (hfull.trans (by simp [v1Prefix, env.magic_length]; rfl))
      refine hset.not_match hstream (hlen.trans (by decide)) (h.initiating.symm.trans responder)
        (hfull ▸ by decide) ?_
      rw [heq, v1Prefix, drop_left' env.magic_length]
      rfl
    have hpass := receivePass_maybeV1 hstate short hbytes
      (processReceivedMaybeV1Bytes_wait hstate₁ hshort hprefix)
    rw [hstate₁] at hpass
    exact ⟨t₁, _, hpass, length_drop_copy short hbytes,
      h.kept ⟨rfl, rfl⟩ rfl (.keyMaybeV1 hstate responder hshort hstream)⟩
  · obtain ⟨hbuffer, hsends⟩ := h.sends.started hphase hset.ownKey
    have hproc : t₁.processReceivedMaybeV1Bytes env = .ok { t₁ with
        recvState := .key
        sendState := .awaitingKey
        sendBuffer := t.cipher.ourPubkey ++ t.sendGarbage } := by
      rw [processReceivedMaybeV1Bytes, assume_of (decide_eq_true hlen)]
      rw [if_pos hprefix]
      simp only [setReceiveState, hstate₁, show t₁.sendState = .maybeV1 from hphase,
        show t₁.sendBuffer = [] from hbuffer]
      rfl
    exact ⟨_, _, receivePass_maybeV1 hstate short hbytes hproc, length_drop_copy short hbytes,
      h.initiating, rfl, hsends, .key rfl (lt_of_le_of_lt hlen (by decide)) hstream⟩

/-- **Every pass takes the receiver further.** -/
theorem V2Inv.pass (htodo : ∀ msg ∈ todo, Sendable msg) : Passes env t bytes rest fun t' rest =>
      V2After own peer initiating t' sent out received rest todo := by
  cases h.reads with
  | keyMaybeV1 state => exact (h.maybeV1Pass hset hbytes state).imp fun _ _ => .inl
  | key state => exact (h.keyPass hset hbytes state).imp fun _ _ => .inl
  | garbGarbterm state => exact (h.garbagePass hset hbytes state).imp fun _ _ => .inl
  | version state => exact (h.versionPass hbytes state).imp fun _ _ => .inl
  | app state => exact h.appPass hbytes state htodo

end

/-! ### The loop -/

theorem receivePass_of_appReady (hstate : t.recvState = .appReady) :
    t.receivePass env bytes = .ok (t, bytes, true) := by
  simp only [receivePass, getMaxBytesToProcess, hstate, ok_bind, pure, Except.pure,
    min_zero, take_zero, append_nil, drop_zero, processReceived, Net.assume,
    Bool.true_or, if_true]
  rw [← hstate]

theorem receiveLoop_nil (passes : ℕ) : receiveLoop env passes t [] = .ok (t, []) := by
  cases passes <;> rw [receiveLoop]

theorem receiveLoop_cons {passes : ℕ} {b : UInt8} {bs left : List UInt8} {stop : Bool}
    (hpass : t.receivePass env (b :: bs) = .ok (t', left, stop)) :
    receiveLoop env (passes + 1) t (b :: bs) =
      if stop then .ok (t', left) else receiveLoop env passes t' left := by
  rw [receiveLoop, hpass]
  · cases stop <;> rfl
  · simp

/-- **The rule for the loop of `ReceivedBytes`**, by induction on its passes:
if every pass keeps an invariant or leaves a message, so does the loop. -/
theorem receiveLoop_rule (env : NetEnv) (Inv Ready : V2Transport → List UInt8 → Prop)
    (hpass : ∀ {t bytes}, bytes ≠ [] → Inv t (bytes ++ rest) →
      Passes env t bytes rest fun t' rest => Inv t' rest ∨ Ready t' rest)
    (hready : ∀ {t left}, Ready t left → t.recvState = .appReady) :
    ∀ (passes : ℕ) {t : V2Transport} {bytes : List UInt8}, bytes.length < passes →
    Inv t (bytes ++ rest) → ∃ t' left, receiveLoop env passes t bytes = .ok (t', left) ∧
      (bytes ≠ [] → left.length < bytes.length) ∧ (Inv t' (left ++ rest) ∨ Ready t' (left ++ rest))
  | 0, _, _, hpasses, _ => absurd hpasses (not_lt_zero _)
  | passes + 1, t, [], _, h =>
    ⟨t, [], receiveLoop_nil _, fun hne => absurd rfl hne, .inl h⟩
  | passes + 1, t, b :: bs, hpasses, h => by
    obtain ⟨t₁, left₁, hrun₁, hleft, hafter⟩ := hpass (by simp) h
    have hloop : receiveLoop env (passes + 1) t (b :: bs) = receiveLoop env passes t₁ left₁ :=
      receiveLoop_cons hrun₁
    rcases hafter with hinv | hmessage
    · obtain ⟨t', left, hrun, hless, hafter'⟩ := receiveLoop_rule env Inv Ready hpass hready passes
        (lt_of_lt_of_le hleft (le_of_lt_succ hpasses)) hinv
      refine ⟨t', left, hloop.trans hrun, fun _ => ?_, hafter'⟩
      rcases eq_or_ne left₁ [] with hnil | hne
      · -- nothing was left, and so nothing is
        rw [hnil, receiveLoop_nil, Except.ok.injEq, Prod.mk.injEq] at hrun
        rw [← hrun.2]
        simp
      · exact (hless hne).trans hleft
    · refine ⟨t₁, left₁, hloop.trans ?_, fun _ => hleft, .inr hmessage⟩
      cases left₁ with
      | nil => exact receiveLoop_nil _
      | cons c cs =>
        have hpos : 0 < passes := by omega
        obtain ⟨passes, rfl⟩ := exists_eq_succ_of_ne_zero hpos.ne'
        exact receiveLoop_cons (receivePass_of_appReady (hready hmessage))

theorem V2Reads.ne_v1 (h : V2Reads peer t received rest todo) :
    t.recvState ≠ .v1 ∧ t.recvState ≠ .appReady := by
  cases h with
  | _ state => simp [state]

/-- **`ReceivedBytes` on a piece of the stream.** -/
theorem V2Inv.receivedBytes (hset : V2Setting env own peer initiating)
    (h : V2Inv own peer initiating t sent out received (bytes ++ rest) todo)
    (hbytes : bytes ≠ []) (htodo : ∀ msg ∈ todo, Sendable msg) :
    ∃ t' left, t.receivedBytes env bytes = .ok (t', left) ∧ left.length < bytes.length ∧
      V2After own peer initiating t' sent out received (left ++ rest) todo := by
  obtain ⟨t', left, hrun, hless, hafter⟩ := receiveLoop_rule env
    (fun t rest => V2Inv own peer initiating t sent out received rest todo)
    (fun t rest => ∃ msg todo', todo = msg :: todo' ∧
      V2Ready own peer initiating t sent out received rest msg todo')
    (fun {_ _} hne hinv => V2Inv.pass hset hinv hne htodo)
    (fun {_ _} ⟨_, _, _, hready⟩ => hready.state) _ (lt_succ_self bytes.length) h
  refine ⟨t', left, ?_, hless hbytes, hafter⟩
  rw [V2Transport.receivedBytes, if_neg h.reads.ne_v1.1]
  exact hrun

theorem V2Inv.not_complete (h : V2Inv own peer initiating t sent out received rest todo) :
    t.receivedMessageComplete = false := by
  rw [receivedMessageComplete, if_neg h.reads.ne_v1.1]
  exact beq_eq_false_iff_ne.2 h.reads.ne_v1.2

theorem V2Ready.complete (h : V2Ready own peer initiating t sent out received rest msg todo) :
    t.receivedMessageComplete = true := by
  simp [receivedMessageComplete, h.state]

theorem Opened.getReceivedMessage (env : NetEnv) {d : Direction} {n : ℕ}
    (hmsg : validType msg.mType = true) (h : Opened d t n (contentsOf msg))
    (hstate : t.recvState = .appReady) : t.getReceivedMessage env =
        .ok (some msg, { t with recvDecodeBuffer := [], recvState := .app }) ∧
      Opened d { t with recvDecodeBuffer := [], recvState := .app } n (contentsOf msg) := by
  refine ⟨?_, h.cipher, h.count, h.lenCount, h.buffer, h.aad, by simp⟩
  rw [V2Transport.getReceivedMessage]
  simp only [hstate, h.decoded hstate, getMessageType_contentsOf hmsg]
  rfl

/-- **The message is given out.** -/
theorem V2Ready.getReceivedMessage (hmsg : Sendable msg)
    (h : V2Ready own peer initiating t sent out received rest msg todo) :
    ∃ t', t.getReceivedMessage env = .ok (some msg, t') ∧
      V2Inv own peer initiating t' sent out (received + 1) rest todo := by
  obtain ⟨hget, hopened⟩ := h.opened.getReceivedMessage env hmsg.mType h.state
  exact ⟨_, hget, h.initiating, h.phase, h.sends, reads_app_of_opened rfl hopened (by omega) h.rest⟩

theorem V2Reads.append (h : V2Reads peer t received rest todo) (msgs : List NetMsg) :
    V2Reads peer t received (rest ++ peer.packets (1 + (received + todo.length)) msgs)
      (todo ++ msgs) := by
  cases h with
  | keyMaybeV1 state responder short stream =>
    refine .keyMaybeV1 state responder short ?_
    rw [← append_assoc, stream, stream_append, zero_add]
  | key state short stream =>
    refine .key state short ?_
    rw [← append_assoc, stream, stream_append, zero_add]
  | garbGarbterm state cipher terminator count lenCount short stream =>
    refine .garbGarbterm state cipher terminator count lenCount short ?_
    rw [← append_assoc, stream, zero_add]
    simp [afterGarbage, packets_append]
  | version state aad packet stream =>
    refine .version state aad packet ?_
    rw [← append_assoc, stream, packets_append, append_assoc, zero_add]
  | app state aad packet stream =>
    refine .app state aad ?_ ?_
    · cases todo with
      | nil =>
        rw [packets, append_eq_nil_iff] at stream
        have hlenCount := packet.lenCount
        rw [stream.1] at hlenCount
        exact inPacket_of_nil _ packet.cipher packet.count hlenCount stream.1
      | cons msg todo => exact packet
    · rw [← append_assoc, stream, packets_append, add_assoc]

/-- **At the end of the stream** no message is left. -/
theorem V2Reads.eq_nil (hfair : peer.Fair) (h : V2Reads peer t received [] todo) :
    t.recvState = .app ∧ todo = [] := by
  have hlong : t.recvBuffer ++ [] = peer.stream todo → pubkeySize ≤ t.recvBuffer.length := by
    intro hstream
    rw [← append_nil t.recvBuffer, hstream, stream, length_append, hfair.length_key]
    omega
  cases h with
  | keyMaybeV1 _ _ short stream =>
    exact absurd (hlong stream) (not_le.2 (short.trans (by decide)))
  | key _ short stream => exact absurd (hlong stream) (not_le.2 short)
  | garbGarbterm state cipher terminator count lenCount short stream =>
    rw [append_nil] at stream
    rw [stream, afterGarbage, length_append, length_append, hfair.length_terminator] at short
    omega
  | version state aad packet stream =>
    have hshort := packet.short
    rw [append_nil] at stream
    rw [stream, versionPacket, length_append, length_packet] at hshort
    omega
  | app state aad packet stream =>
    refine ⟨state, ?_⟩
    cases todo with
    | nil => rfl
    | cons msg todo =>
      have hshort := packet.short
      rw [append_nil] at stream
      rw [stream, packets, length_append, length_packet, nextSize] at hshort
      omega

end

end Quarlcoin.Net
