import Quarlcoin.Net.Faithful
/-!
# Large messages

Over the first transport every payload up to `MAX_PROTOCOL_MESSAGE_LENGTH` is received. A
packet of the second says the length of its contents in three bytes, while the receiver's
limit is above `2 ^ 24`: longer contents are cut (`delivers_iff`). That needs no assumption
on what the cipher makes of a cut packet, for it counts bytes only (`Lags`).
-/

namespace Quarlcoin.Net

open Codec Buffering V2Transport List Nat
variable {env : NetEnv} {d : Direction} {a b t t' : V2Transport} {msg : NetMsg}
  {bytes left rest : List UInt8}

/-- **An established connection, in one direction**: nothing is left to send, and the next packet
has the same number on both sides. -/
structure InStep (d : Direction) (a b : V2Transport) : Prop where
  sendState : a.sendState = .ready
  sendBuffer : a.sendBuffer = []
  sendPos : a.sendPos = 0
  sendCipher : a.cipher.sendCipher = some d
  established : 0 < a.cipher.sendCount
  recvState : b.recvState = .app
  recvBuffer : b.recvBuffer = []
  recvAad : b.recvAad = []
  recvCipher : b.cipher.recvCipher = some d
  recvCount : b.cipher.recvCount = a.cipher.sendCount
  recvLenCount : b.cipher.recvLenCount = a.cipher.sendCount

/-- One direction, when the sender is ready and the receiver has all that was sent. -/
theorem InStep.of_inv {own peer : PeerStream} {initA initB : Bool} {n : ℕ}
    {sent sent' todo todo' : List NetMsg} (invA : V2Inv own peer initA a sent [] n [] todo)
    (invB : V2Inv peer own initB b sent' [] sent.length [] todo')
    (ready : a.sendState = .ready ∧ a.sendBuffer = []) (hfair : own.Fair) :
    InStep own.cipher a b := by
  obtain ⟨hstate, rfl⟩ := invB.reads.eq_nil hfair
  obtain ⟨hcipher, hsendCount, hpos⟩ : a.cipher.sendCipher = some own.cipher ∧
      a.cipher.sendCount = 1 + sent.length ∧ a.sendPos = 0 := by
    generalize hout : ([] : List UInt8) = out at invA
    cases invA.sends with
    | ready state cipher count pos =>
      refine ⟨cipher, count, ?_⟩
      rcases pos with hlt | ⟨-, hzero⟩
      · rw [show a.sendSide.sendBuffer = [] from ready.2] at hlt
        exact absurd hlt (not_lt_zero _)
      · exact hzero
    | _ state => exact absurd (ready.1.symm.trans state) (by simp)
  generalize sent.length = received at invB hsendCount
  cases invB.reads with
  | app state aad packet stream =>
    rw [append_nil] at stream
    have hlenCount := packet.lenCount
    rw [show b.recvBuffer = [] from stream, if_pos (by decide)] at hlenCount
    refine ⟨ready.1, ready.2, hpos, hcipher, ?_, state, stream, aad, packet.cipher, ?_, ?_⟩
    · omega
    · rw [packet.count, hsendCount]
    · rw [hlenCount, hsendCount]
  | _ state => exact absurd (hstate.symm.trans state) (by simp)

/-- **A connection of the second transport with nothing on the way is
established**, in both directions. -/
theorem PairInv.inStep {own peer : PeerStream} {a b : Side}
    (h : PairInv env (.v2 own peer true) (.v2 peer own false) a b) (ha : a.Quiet)
    (hb : b.Quiet) : ∃ tA tB, a.transport = .v2 tA ∧ b.transport = .v2 tB ∧
      InStep own.cipher tA tB ∧ InStep peer.cipher tB tA := by
  obtain ⟨tA, tB, hrest⟩ := h.rest_v2 ha hb
  obtain ⟨_, invA⟩ := hrest.invA
  obtain ⟨_, invB⟩ := hrest.invB
  rw [h.symm.received_eq hb] at invA
  rw [h.received_eq ha] at invB
  exact ⟨tA, tB, hrest.transportA, hrest.transportB, .of_inv invA invB hrest.readyA
    hrest.settingB.fair, .of_inv invB invA hrest.readyB hrest.settingA.fair⟩

/-- The sender, when it has sent packets up to some number. -/
def V2Transport.sentUpTo (a : V2Transport) (n : ℕ) (mType : List UInt8) : V2Transport :=
  { a with
    cipher := { a.cipher with sendCount := n }
    sendBuffer := []
    sendPos := 0
    sendType := mType }

/-- The sender takes a message of any size, and sends its packet. -/
theorem InStep.send (env : NetEnv) (h : InStep d a b) (htype : validType msg.mType = true) :
    ∃ a', a.setMessageToSend env msg = .ok (some a') ∧
      a'.sendBuffer = d.packet a.cipher.sendCount (contentsOf msg) [] ∧
      a'.markBytesSent a'.sendBuffer.length =
        .ok (a.sentUpTo (a.cipher.sendCount + 1) msg.mType) := by
  refine ⟨{ a with
    cipher := { a.cipher with sendCount := a.cipher.sendCount + 1 }
    sendBuffer := d.packet a.cipher.sendCount (contentsOf msg) []
    sendType := msg.mType }, ?_, rfl, ?_⟩
  · rw [setMessageToSend, if_neg (by simp [h.sendState]),
      if_neg (not_not.2 ⟨h.sendState, h.sendBuffer⟩), messageContents_of_validType htype]
    simp only [ok_bind]
    rw [encrypt_packet d _ _ _ h.sendCipher rfl]
    rfl
  · rw [markBytesSent, if_neg (by simp [h.sendState])]
    simp only [h.sendPos, zero_add, le_refl]
    rfl

/-! ## Messages that are received -/

/-- What the receiver of an established connection reads. -/
def appStream (d : Direction) : PeerStream where
  key := []
  garbage := []
  terminator := []
  cipher := d

/-- A receiver in the application phase, with `total` messages in all. -/
def AppReads (d : Direction) (total : ℕ) (t : Transport) (rest : List UInt8)
    (todo : List NetMsg) : Prop :=
  (∀ msg ∈ todo, Sendable msg) ∧ ∃ b received, t = .v2 b ∧ b.recvState = .app ∧
    received + todo.length = total ∧ V2Reads (appStream d) b received rest todo

theorem appReads_keeps (env : NetEnv) (d : Direction) (total : ℕ) :
    Transport.Keeps env (AppReads d total) := by
  rintro t bytes rest todo hbytes ⟨htodo, b, received, rfl, hstate, htotal, hreads⟩
  obtain ⟨b', left, hrun, hless, hafter⟩ := receiveLoop_rule env
    (fun b rest => b.recvState = .app ∧ V2Reads (appStream d) b received rest todo)
    (fun b rest => b.recvState = .appReady ∧ ∃ msg todo', todo = msg :: todo' ∧
      Opened d b (1 + received) (contentsOf msg) ∧
      rest = (appStream d).packets (1 + (received + 1)) todo')
    (by
      rintro b bytes hne ⟨hstate, hreads⟩
      obtain ⟨b', left, hpass, hleft, -, hafter⟩ := hreads.appPass env hstate hne htodo
      refine ⟨b', left, hpass, hleft, ?_⟩
      rcases hafter with hgoes | ⟨msg, todo', htodo', hready, hopened, hrest⟩
      · exact .inl hgoes
      · exact .inr ⟨hready, msg, todo', htodo', hopened, hrest⟩)
    (fun {_ _} hready => hready.1) _ (lt_succ_self bytes.length) ⟨hstate, hreads⟩
  refine ⟨.v2 b', left, ?_, hless hbytes, ?_⟩
  · rw [Transport.receivedBytes, receivedBytes, if_neg (by simp [hstate]), hrun]
    rfl
  · rcases hafter with ⟨hstate', hreads'⟩ | ⟨hready, msg, todo', rfl, hopened, hrest⟩
    · refine .inl ⟨?_, htodo, b', received, rfl, hstate', htotal, hreads'⟩
      simp [Transport.receivedMessageComplete, receivedMessageComplete, hstate']
    · obtain ⟨hget, hopened'⟩ :=
        hopened.getReceivedMessage env (htodo msg mem_cons_self).mType hready
      refine .inr ⟨?_, msg, todo', _, rfl, by rw [Transport.getReceivedMessage, hget]; rfl,
        fun m hm => htodo m (mem_cons_of_mem _ hm), _, received + 1, rfl, rfl, ?_,
        reads_app_of_opened rfl hopened' (by omega) hrest⟩
      · simp [Transport.receivedMessageComplete, receivedMessageComplete, hready]
      · rw [length_cons] at htotal
        omega

/-- **A message that is small enough is received**, and both sides are in step
for the next. -/
theorem InStep.delivers (h : InStep d a b) (htype : validType msg.mType = true)
    (hsize : (contentsOf msg).length < 2 ^ 24) {pieces : List (List UInt8)}
    (hpieces : pieces.flatten = d.packet a.cipher.sendCount (contentsOf msg) []) :
    ∃ b', Transport.receivePieces env (.v2 b) pieces = .ok (.v2 b', [msg]) ∧
      InStep d (a.sentUpTo (a.cipher.sendCount + 1) msg.mType) b' := by
  obtain ⟨received, hcount⟩ : ∃ received, a.cipher.sendCount = 1 + received :=
    ⟨a.cipher.sendCount - 1, by have := h.established; omega⟩
  have hstart : AppReads d (received + 1) (.v2 b) (pieces.flatten ++ []) [msg] := by
    refine ⟨?_, b, received, rfl, h.recvState, rfl, .app h.recvState h.recvAad
      (inPacket_of_nil _ h.recvCipher (h.recvCount.trans hcount) (h.recvLenCount.trans hcount)
        h.recvBuffer) ?_⟩
    · intro m hm
      rw [mem_singleton.1 hm]
      exact ⟨htype, hsize⟩
    · rw [h.recvBuffer, hpieces, append_nil, PeerStream.packets_singleton, hcount]
      rfl
  obtain ⟨t', msgs, todo', hrun, htodo, hend⟩ :=
    Transport.receivePieces_rule (appReads_keeps env d _) pieces hstart
  obtain ⟨hsendable, b', received', rfl, hstate, htotal, hreads⟩ := hend
  -- nothing is left of the stream, so the message was given out
  cases hreads with
  | app _ aad packet stream => ?_
  | _ state => exact absurd (hstate.symm.trans state) (by simp)
  rw [append_nil] at stream
  have hnil : todo' = [] := by
    cases todo' with
    | nil => rfl
    | cons m ms =>
      have hshort := packet.short
      rw [stream, PeerStream.packets, length_append, length_packet, nextSize] at hshort
      omega
  subst hnil
  rw [append_nil] at htodo
  subst htodo
  refine ⟨b', hrun, ?_⟩
  have hreceived : 1 + received' = a.cipher.sendCount + 1 := by
    simp only [length_nil] at htotal
    omega
  have hlenCount := packet.lenCount
  rw [show b'.recvBuffer = [] from stream] at hlenCount
  exact ⟨h.sendState, rfl, rfl, h.sendCipher, succ_pos _, hstate, stream, aad,
    packet.cipher, packet.count.trans hreceived, hlenCount.trans hreceived⟩

/-! ## Whatever is received

The rules above are for streams that are received as they were sent. Here a
receiver may be out of step: an invariant is only asked to hold where nothing
fails.
-/

/-- An invariant that holds after whatever succeeds. -/
structure Stable (env : NetEnv) (J : V2Transport → List UInt8 → Prop) : Prop where
  not_v1 : ∀ t rest, J t rest → t.recvState ≠ .v1
  pass : ∀ t bytes rest t' left stop, J t (bytes ++ rest) →
    t.receivePass env bytes = .ok (t', left, stop) → J t' (left ++ rest)
  message : ∀ t rest msg t', J t rest → t.getReceivedMessage env = .ok (msg, t') → J t' rest

namespace Stable

variable {J : V2Transport → List UInt8 → Prop}

theorem receiveLoop (h : Stable env J) : ∀ (passes : ℕ) {t t' : V2Transport}
    {bytes left : List UInt8}, J t (bytes ++ rest) →
    receiveLoop env passes t bytes = .ok (t', left) → J t' (left ++ rest)
  | passes, t, t', [], left, hJ, hrun => by
    cases passes <;>
      · cases hrun
        exact hJ
  | 0, _, _, _ :: _, _, _, hrun => by
    rw [V2Transport.receiveLoop] at hrun
    · cases hrun
    · simp
  | passes + 1, t, t', b :: bs, left, hJ, hrun => by
    rw [V2Transport.receiveLoop] at hrun
    · obtain ⟨⟨t₁, left₁, stop⟩, hpass, hrun⟩ := bind_eq_ok_iff.1 hrun
      have hJ₁ := h.pass _ _ _ _ _ _ hJ hpass
      cases stop with
      | true =>
        cases hrun
        exact hJ₁
      | false => exact receiveLoop h passes hJ₁ hrun
    · simp

theorem receivedBytes (h : Stable env J)
    (hJ : J t (bytes ++ rest)) (hrun : t.receivedBytes env bytes = .ok (t', left)) :
    J t' (left ++ rest) := by
  rw [V2Transport.receivedBytes, if_neg (h.not_v1 _ _ hJ)] at hrun
  exact h.receiveLoop _ hJ hrun

theorem receiveMsgLoop (h : Stable env J) : ∀ (passes : ℕ) {t : V2Transport} {t' : Transport}
    {bytes : List UInt8} {msgs : List NetMsg}, J t (bytes ++ rest) →
    Transport.receiveMsgLoop env passes (.v2 t) bytes = .ok (t', msgs) → ∃ b, t' = .v2 b ∧ J b rest
  | passes, t, t', [], msgs, hJ, hrun => by
    cases passes <;>
      · cases hrun
        exact ⟨t, rfl, hJ⟩
  | 0, _, _, _ :: _, _, _, hrun => by
    rw [Transport.receiveMsgLoop] at hrun
    · cases hrun
    · simp
  | passes + 1, t, t', b :: bs, msgs, hJ, hrun => by
    rw [Transport.receiveMsgLoop] at hrun
    · obtain ⟨_, hbytes, hrun⟩ := bind_eq_ok_iff.1 hrun
      obtain ⟨⟨t₁, left⟩, hbytes', rfl⟩ := map_eq_ok_iff.1 hbytes
      have hJ₁ := h.receivedBytes hJ hbytes'
      dsimp only at hrun
      split at hrun
      · obtain ⟨_, hget, hrun⟩ := bind_eq_ok_iff.1 hrun
        obtain ⟨⟨msg, t₂⟩, hget', rfl⟩ := map_eq_ok_iff.1 hget
        obtain ⟨⟨t₃, msgs₃⟩, hloop, hrun⟩ := bind_eq_ok_iff.1 hrun
        cases hrun
        exact receiveMsgLoop h passes (h.message _ _ _ _ hJ₁ hget') hloop
      · exact receiveMsgLoop h passes hJ₁ hrun
    · simp

/-- **Pieces of a stream**, as long as nothing fails. -/
theorem receivePieces (h : Stable env J) : ∀ (pieces : List (List UInt8)) {t : V2Transport}
    {t' : Transport} {msgs : List NetMsg}, J t (pieces.flatten ++ rest) →
    Transport.receivePieces env (.v2 t) pieces = .ok (t', msgs) → ∃ b, t' = .v2 b ∧ J b rest
  | [], t, t', msgs, hJ, hrun => by
    cases hrun
    exact ⟨t, rfl, hJ⟩
  | piece :: pieces, t, t', msgs, hJ, hrun => by
    rw [flatten_cons, append_assoc] at hJ
    obtain ⟨⟨t₁, msgs₁⟩, hpiece, hrun⟩ := bind_eq_ok_iff.1 hrun
    obtain ⟨b₁, rfl, hJ₁⟩ := h.receiveMsgLoop _ hJ hpiece
    obtain ⟨⟨t₂, msgs₂⟩, hpieces, hrun⟩ := bind_eq_ok_iff.1 hrun
    cases hrun
    exact receivePieces h pieces hJ₁ hpieces

end Stable

/-! ## Messages that are not received -/

/-- Where a receiver can be that was given the packet `n`: in its length, in what the length says,
behind that, or further on. -/
structure Lags (d : Direction) (n : ℕ) (contents : List UInt8) (t : V2Transport)
    (rest : List UInt8) : Prop where
  cipher : t.cipher.recvCipher = some d
  state : t.recvState = .app ∨ t.recvState = .appReady
  cases : t.recvState = .app ∧ t.cipher.recvCount = n ∧ t.cipher.recvLenCount = n ∧
        t.recvBuffer.length < lengthLen ∧ t.recvBuffer ++ rest = d.packet n contents [] ∨
      t.recvState = .app ∧ t.cipher.recvCount = n ∧ t.recvLen = contents.length % 2 ^ 24 ∧
        lengthLen ≤ t.recvBuffer.length ∧ t.recvBuffer.length < t.recvLen + expansion ∧
        t.recvBuffer.length + rest.length = contents.length + expansion ∨
      t.cipher.recvCount = n + 1 ∧
        t.recvBuffer.length + rest.length + contents.length % 2 ^ 24 = contents.length ∨
      n + 1 < t.cipher.recvCount

/-- What a pass does with a buffer: it decrypts a length, opens a packet or does nothing. -/
inductive AppPass (d : Direction) (t t' : V2Transport) : Prop where
  | length (full : t.recvBuffer.length = lengthLen) (cipher : t'.cipher.recvCipher = some d)
      (count : t'.cipher.recvCount = t.cipher.recvCount) (buffer : t'.recvBuffer = t.recvBuffer)
      (len : t'.recvLen = leValue (d.crypt t.cipher.recvLenCount t.recvBuffer))
      (state : t'.recvState = .app)
  | opened (long : lengthLen < t.recvBuffer.length)
      (full : t.recvBuffer.length = t.recvLen + expansion)
      (cipher : t'.cipher.recvCipher = some d)
      (count : t'.cipher.recvCount = t.cipher.recvCount + 1) (buffer : t'.recvBuffer = [])
      (state : t'.recvState = .app ∨ t'.recvState = .appReady)
  | wait (short : t.recvBuffer.length ≠ lengthLen)
      (less : lengthLen < t.recvBuffer.length → t.recvBuffer.length ≠ t.recvLen + expansion)
      (eq : t' = t)

section

variable {n : ℕ} {contents : List UInt8} {stop : Bool}

theorem appPass_of_ok (hcipher : t.cipher.recvCipher = some d) (hstate : t.recvState = .app)
    (hrun : t.processReceivedPacketBytes = .ok t') : AppPass d t t' := by
  have hin : t.InPackets := .inr hstate
  rw [processReceivedPacketBytes, hin.assume] at hrun
  simp only [bind, Except.bind] at hrun
  split at hrun
  · rename_i hfull
    rw [Bip324Cipher.decryptLength, hcipher] at hrun
    simp only [hfull, beq_self_eq_true, Net.assume, if_true, ok_bind, pure, Except.pure] at hrun
    split at hrun
    · cases hrun
    · cases hrun
      exact .length hfull rfl rfl rfl rfl hstate
  · rename_i hshort
    split at hrun
    · rename_i hfull
      rw [Bip324Cipher.decrypt, hcipher] at hrun
      simp only at hrun
      cases hopen : d.aeadDecrypt t.cipher.recvCount (t.recvBuffer.drop lengthLen) t.recvAad with
      | none =>
        rw [hopen] at hrun
        cases hrun
      | some r =>
        rw [hopen] at hrun
        simp only [Option.map_some] at hrun
        split at hrun
        · cases hrun
          exact .opened hfull.1 hfull.2 rfl rfl rfl (.inl hstate)
        · rw [packetState_of_inPackets] at hrun
          · cases hrun
            exact .opened hfull.1 hfull.2 rfl rfl rfl (.inr (congrArg packetNext hstate))
          · exact hin
    · rename_i hmore
      cases hrun
      exact .wait hshort (fun hlong hfull => hmore ⟨hlong, hfull⟩) rfl

/-- A pass that succeeds in the application phase has copied at least a byte. -/
theorem receivePass_inv (hstate : t.recvState = .app) {m : ℕ}
    (hm : m = if t.recvBuffer.length < lengthLen then lengthLen else t.recvLen + expansion)
    (hrun : t.receivePass env bytes = .ok (t', left, stop)) :
    (t.copied m bytes).processReceivedPacketBytes = .ok t' ∧
      left = bytes.drop (copyCount m t.recvBuffer bytes) ∧ 0 < copyCount m t.recvBuffer bytes := by
  have hcount : min bytes.length (m - t.recvBuffer.length) = copyCount m t.recvBuffer bytes :=
    min_comm ..
  rw [receivePass, getMaxBytesToProcess_of_inPackets (.inr hstate), ← hm] at hrun
  simp only [ok_bind, hcount] at hrun
  have hproc : processReceived env { t with
      recvBuffer := t.recvBuffer ++ bytes.take (copyCount m t.recvBuffer bytes) } =
      (t.copied m bytes).processReceivedPacketBytes.map fun t => (t, false) := by
    change processReceived env (t.copied m bytes) = _
    simp only [processReceived, show (t.copied m bytes).recvState = .app from hstate]
  rw [hproc] at hrun
  cases hpacket : (t.copied m bytes).processReceivedPacketBytes with
  | error e =>
    rw [hpacket] at hrun
    cases hrun
  | ok t₁ =>
    rw [hpacket] at hrun
    by_cases hpos : 0 < copyCount m t.recvBuffer bytes
    · simp only [decide_eq_true hpos] at hrun
      cases hrun
      exact ⟨rfl, rfl, hpos⟩
    · simp only [decide_eq_false hpos] at hrun
      cases hrun

theorem Lags.message {got : Option NetMsg} (h : Lags d n contents t rest)
    (hget : t.getReceivedMessage env = .ok (got, t')) : Lags d n contents t' rest := by
  rw [getReceivedMessage, if_neg] at hget
  · rcases h.state with hstate | hstate
    · rw [hstate] at hget
      cases hget
    · simp only [hstate] at hget
      cases hget
      refine ⟨h.cipher, .inl rfl, ?_⟩
      rcases h.cases with ⟨hne, -⟩ | ⟨hne, -⟩ | hbehind | hfurther
      · exact absurd (hstate.symm.trans hne) (by simp)
      · exact absurd (hstate.symm.trans hne) (by simp)
      · exact .inr (.inr (.inl hbehind))
      · exact .inr (.inr (.inr hfurther))
  · rcases h.state with hstate | hstate <;> simp [hstate]

/-- **The bytes that are taken for the packet** are as many as its length says
modulo `2 ^ 24`. -/
theorem Lags.pass (h : Lags d n contents t (bytes ++ rest))
    (hrun : t.receivePass env bytes = .ok (t', left, stop)) :
    Lags d n contents t' (left ++ rest) := by
  rcases h.state with hstate | hstate
  case inr =>
    rw [receivePass_of_appReady hstate] at hrun
    cases hrun
    exact h
  obtain ⟨hproc, rfl, hpos⟩ := receivePass_inv hstate rfl hrun
  set m := if t.recvBuffer.length < lengthLen then lengthLen else t.recvLen + expansion with hm
  set k := copyCount m t.recvBuffer bytes with hk
  have hlen : (t.copied m bytes).recvBuffer.length = t.recvBuffer.length + k := by
    change (t.recvBuffer ++ bytes.take k).length = _
    have hle : k ≤ bytes.length := min_le_right _ _
    rw [length_append, length_take, min_eq_left hle]
  have hle : k ≤ m - t.recvBuffer.length := min_le_left _ _
  have hrest : (bytes.drop k ++ rest).length + k = (bytes ++ rest).length := by
    have hle : k ≤ bytes.length := min_le_right _ _
    rw [length_append, length_append, length_drop]
    omega
  have hpass := appPass_of_ok (t := t.copied m bytes) h.cipher hstate hproc
  have hexp : lengthLen < expansion := by decide
  rcases h.cases with ⟨-, hcount, hlenCount, hlow, hstream⟩ |
    ⟨-, hcount, hrecvLen, hlow, hshort, htotal⟩ | ⟨hcount, htotal⟩ | hfurther
  · -- the length of the packet
    rw [if_pos hlow] at hm
    have hstream' : (t.copied m bytes).recvBuffer ++ (bytes.drop k ++ rest) =
        d.packet n contents [] := (copy_append k).trans hstream
    have hlength := congrArg length hstream'
    rw [length_append, length_packet] at hlength
    cases hpass with
    | length full cipher count buffer len state =>
      have htake : (t.copied m bytes).recvBuffer = (d.packet n contents []).take lengthLen := by
        rw [← hstream', take_left' full]
      have hval : t'.recvLen = contents.length % 2 ^ 24 := by
        rw [len, htake, take_packet, show (t.copied m bytes).cipher.recvLenCount = n from hlenCount,
          d.crypt_crypt, leValue_lengthLen]
      refine ⟨cipher, .inl state, .inr (.inl ⟨state, count.trans hcount, hval, ?_, ?_, ?_⟩)⟩
      · rw [buffer, full]
      · rw [buffer]
        omega
      · rw [buffer]
        exact hlength
    | opened long full cipher count buffer state =>
      omega
    | wait short less eq =>
      subst eq
      refine ⟨h.cipher, .inl hstate, .inl ⟨hstate, hcount, hlenCount, ?_, hstream'⟩⟩
      omega
  · -- what the length says
    rw [if_neg (not_lt.2 hlow)] at hm
    cases hpass with
    | length full cipher count buffer len state =>
      omega
    | opened long full cipher count buffer state =>
      refine ⟨cipher, state, .inr (.inr (.inl ⟨?_, ?_⟩))⟩
      · rw [count]
        exact congrArg (· + 1) hcount
      · rw [buffer, length_nil]
        change _ = t.recvLen + expansion at full
        omega
    | wait short less eq =>
      subst eq
      refine ⟨h.cipher, .inl hstate, .inr (.inl ⟨hstate, hcount, hrecvLen, ?_, ?_, ?_⟩)⟩
      · omega
      · have hne := less (by rw [hlen]; omega)
        change _ ≠ t.recvLen + expansion at hne
        change _ < t.recvLen + expansion
        omega
      · omega
  · -- the rest of the packet, taken for another
    cases hpass with
    | length full cipher count buffer len state =>
      refine ⟨cipher, .inl state, .inr (.inr (.inl ⟨count.trans hcount, ?_⟩))⟩
      rw [buffer]
      omega
    | opened long full cipher count buffer state =>
      refine ⟨cipher, state, .inr (.inr (.inr ?_))⟩
      rw [count]
      change n + 1 < t.cipher.recvCount + 1
      omega
    | wait short less eq =>
      subst eq
      refine ⟨h.cipher, .inl hstate, .inr (.inr (.inl ⟨hcount, ?_⟩))⟩
      omega
  · cases hpass with
    | length full cipher count buffer len state =>
      exact ⟨cipher, .inl state, .inr (.inr (.inr (count.symm ▸ hfurther)))⟩
    | opened long full cipher count buffer state =>
      refine ⟨cipher, state, .inr (.inr (.inr ?_))⟩
      rw [count]
      exact lt_succ_of_lt hfurther
    | wait short less eq =>
      subst eq
      exact ⟨h.cipher, .inl hstate, .inr (.inr (.inr hfurther))⟩

theorem lags_stable (env : NetEnv) (d : Direction) (n : ℕ) (contents : List UInt8) :
    Stable env (Lags d n contents) where
  not_v1 := by
    intro t rest h
    rcases h.state with hstate | hstate <;> simp [hstate]
  message _ _ _ _ := Lags.message
  pass _ _ _ _ _ _ := Lags.pass

/-- **A message that is too large is not received** by a receiver that stays in
step. -/
theorem InStep.not_delivers {b' : V2Transport} (h : InStep d a b)
    (hsize : 2 ^ 24 ≤ (contentsOf msg).length) {pieces : List (List UInt8)}
    (hpieces : pieces.flatten = d.packet a.cipher.sendCount (contentsOf msg) [])
    {msgs : List NetMsg} (hrun : Transport.receivePieces env (.v2 b) pieces = .ok (.v2 b', msgs)) :
    ¬ InStep d (a.sentUpTo (a.cipher.sendCount + 1) msg.mType) b' := by
  have hstart : Lags d a.cipher.sendCount (contentsOf msg) b (pieces.flatten ++ []) := by
    refine ⟨h.recvCipher, .inl h.recvState, .inl ⟨h.recvState, h.recvCount, h.recvLenCount, ?_, ?_⟩⟩
    · rw [h.recvBuffer]
      decide
    · rw [h.recvBuffer, hpieces, nil_append, append_nil]
  obtain ⟨b₁, hb₁, hlags⟩ := (lags_stable env d _ _).receivePieces pieces hstart hrun
  obtain rfl : b' = b₁ := Transport.v2.inj hb₁
  intro hend
  have hcount : b'.cipher.recvCount = a.cipher.sendCount + 1 := hend.recvCount
  rcases hlags.cases with ⟨-, heq, -⟩ | ⟨-, heq, -⟩ | ⟨-, htotal⟩ | hfurther
  · omega
  · omega
  · rw [hend.recvBuffer, length_nil] at htotal
    omega
  · omega

end

/-! ## Over the first transport -/

theorem v1Reads_keeps (env : NetEnv) (send : V1Send) : Transport.Keeps env fun t rest todo =>
    (∀ msg ∈ todo, V1Sendable msg) ∧ ∃ recv, t = .v1 { recv, send } ∧
      V1Recv.Reads env.toNetParams recv rest todo := by
  rintro t bytes rest todo hbytes ⟨htodo, recv, rfl, hreads⟩
  obtain ⟨recv', left, hrun, hleft, hafter⟩ := hreads.receivedBytes hbytes htodo
  refine ⟨.v1 { recv := recv', send }, left, by rw [Transport.receivedBytes, hrun]; rfl, hleft, ?_⟩
  rcases hafter with ⟨hcomplete, hreads'⟩ | ⟨msg, todo', rfl, hholds, hrest⟩
  · exact .inl ⟨hcomplete, htodo, recv', rfl, hreads'⟩
  have hmsg := htodo msg mem_cons_self
  refine .inr ⟨hholds.complete hmsg, msg, todo', .v1 { recv := {}, send }, rfl, ?_,
    fun m hm => htodo m (mem_cons_of_mem _ hm), {}, rfl, V1Recv.reads_of_rest hrest⟩
  rw [Transport.getReceivedMessage, hholds.getReceivedMessage hmsg]
  rfl

/-! ## Which messages are received -/

/-- **Which messages are received** over the second transport, however the bytes are cut: those
whose contents are shorter than `2 ^ 24` bytes. Over the first every message within the limit is.
-/
theorem delivers_iff (env : NetEnv) {d : Direction} {a b : V2Transport} (h : InStep d a b)
    {msg : NetMsg} (htype : validType msg.mType = true)
    (hdata : msg.data.length ≤ maxProtocolMessageLength) :
    (∃ a' a'', a.setMessageToSend env msg = .ok (some a') ∧
      a'.markBytesSent a'.sendBuffer.length = .ok a'' ∧
      ∀ pieces : List (List UInt8), pieces.flatten = a'.sendBuffer →
        ((∃ b', Transport.receivePieces env (.v2 b) pieces = .ok (.v2 b', [msg]) ∧
            InStep d a'' b') ↔ (contentsOf msg).length < 2 ^ 24)) ∧
    ∀ s r : V1Transport, s.send.Ok → s.send.pending = [] →
      V1Recv.Reads env.toNetParams r.recv [] [] →
      ∃ send, s.send.setMessageToSend env.toNetParams msg = .ok (some send) ∧
        ∀ pieces : List (List UInt8), pieces.flatten = send.pending →
          ∃ recv, Transport.receivePieces env (.v1 r) pieces = .ok (.v1 { r with recv }, [msg]) ∧
            V1Recv.Reads env.toNetParams recv [] [] := by
  refine ⟨?_, fun s r hok hpending hidle => ?_⟩
  · obtain ⟨a', hset, hbuffer, hmark⟩ := h.send env htype
    refine ⟨a', _, hset, hmark, fun pieces hpieces => ?_⟩
    rw [hbuffer] at hpieces
    constructor
    · rintro ⟨b', hrun, hend⟩
      by_contra hlarge
      exact h.not_delivers (not_lt.1 hlarge) hpieces hrun hend
    · intro hsize
      exact h.delivers htype hsize hpieces
  -- a receiver between messages reads the frame, and is between messages again
  have hmsg : V1Sendable msg := ⟨htype, hdata⟩
  obtain ⟨send, hset, hframe⟩ :=
    V1Send.setMessageToSend_of_pending env.toNetParams hok hpending hmsg
  refine ⟨send, hset, fun pieces hpieces => ?_⟩
  have hstart : V1Recv.Reads env.toNetParams r.recv (pieces.flatten ++ []) [msg] := by
    have := hidle.append [msg]
    rwa [frames, flatMap_singleton, ← hframe, ← hpieces, ← append_nil pieces.flatten] at this
  obtain ⟨t', msgs, todo', hrun, htodo, hsendable, recv, rfl, hreads⟩ :=
    Transport.receivePieces_rule (v1Reads_keeps env r.send) pieces
      ⟨fun m hm => (mem_singleton.1 hm).symm ▸ hmsg, r.recv, rfl, hstart⟩
  obtain rfl := hreads.eq_nil hsendable
  rw [append_nil] at htodo
  subst htodo
  exact ⟨recv, hrun, hreads⟩

/-- A sender that is ready for its second packet. -/
def plainSender : V2Transport where
  cipher := { ourPubkey := plainKey, sendCipher := some plainDirection, sendCount := 1 }
  initiating := true
  recvState := .app
  sendGarbage := []
  sendState := .ready

def plainReceiver : V2Transport where
  cipher :=
    { ourPubkey := plainKey
      recvCipher := some plainDirection
      recvCount := 1
      recvLenCount := 1 }
  initiating := false
  recvState := .app
  sendGarbage := []
  sendState := .ready

theorem plain_inStep : InStep plainDirection plainSender plainReceiver :=
  ⟨rfl, rfl, rfl, rfl, one_pos, rfl, rfl, rfl, rfl, rfl, rfl⟩

/-- A small message is received over either transport. -/
theorem delivers_iff_ping :
    (∃ a' a'', plainSender.setMessageToSend plainEnv pingMsg = .ok (some a') ∧
      a'.markBytesSent a'.sendBuffer.length = .ok a'' ∧
      ∀ pieces : List (List UInt8), pieces.flatten = a'.sendBuffer →
        ((∃ b', Transport.receivePieces plainEnv (.v2 plainReceiver) pieces =
            .ok (.v2 b', [pingMsg]) ∧ InStep plainDirection a'' b') ↔
          (contentsOf pingMsg).length < 2 ^ 24)) ∧
    ∀ s r : V1Transport, s.send.Ok → s.send.pending = [] →
      V1Recv.Reads plainEnv.toNetParams r.recv [] [] →
      ∃ send, s.send.setMessageToSend plainEnv.toNetParams pingMsg = .ok (some send) ∧
        ∀ pieces : List (List UInt8), pieces.flatten = send.pending →
          ∃ recv, Transport.receivePieces plainEnv (.v1 r) pieces =
              .ok (.v1 { r with recv }, [pingMsg]) ∧ V1Recv.Reads plainEnv.toNetParams recv [] [] :=
  delivers_iff plainEnv plain_inStep (by decide) (by decide)

/-- A `block` message of `2 ^ 24` bytes. -/
def largeBlock : NetMsg where
  mType := ascii ['b', 'l', 'o', 'c', 'k']
  data := List.replicate (2 ^ 24) 0

/-- **A block of `2 ^ 24` bytes**, well within the limit, is sent and not
received. -/
theorem largeBlock_not_delivered :
    InStep plainDirection plainSender plainReceiver ∧ validType largeBlock.mType = true ∧
      largeBlock.data.length ≤ maxProtocolMessageLength ∧
      ∃ a' a'', plainSender.setMessageToSend plainEnv largeBlock = .ok (some a') ∧
        a'.markBytesSent a'.sendBuffer.length = .ok a'' ∧
        ∀ pieces : List (List UInt8), pieces.flatten = a'.sendBuffer →
          ¬ ∃ b', Transport.receivePieces plainEnv (.v2 plainReceiver) pieces =
              .ok (.v2 b', [largeBlock]) ∧ InStep plainDirection a'' b' := by
  have htype : validType largeBlock.mType = true := by decide
  have hlength : largeBlock.data.length = 2 ^ 24 := length_replicate
  refine ⟨plain_inStep, htype, ?_, ?_⟩
  · rw [hlength]
    decide
  · obtain ⟨a', hset, hbuffer, hmark⟩ := plain_inStep.send plainEnv htype
    refine ⟨a', _, hset, hmark, ?_⟩
    rintro pieces hpieces ⟨b', hrun, hend⟩
    have hsize := length_data_le_contentsOf largeBlock
    rw [hlength] at hsize
    exact plain_inStep.not_delivers hsize (hpieces.trans hbuffer) hrun hend

/-! ## Connections that came about -/

/-- **A quiet connection is established**: when nothing is on the way the next packet has the same
number on both sides. -/
theorem established_of_quiet (env : NetEnv) (key garbage key' garbage' : List UInt8)
    (hlink : (Link.v2v2 key garbage key' garbage').Fair env) (events : List Event)
    (hmsgs : ∀ party msg, .setMessage party msg ∈ events → Sendable msg) :
    ∃ start s, (Link.v2v2 key garbage key' garbage').start = .ok start ∧
      start.run env events = .ok s ∧ (s.Quiet → ∃ tA tB, s.initiator.transport = .v2 tA ∧
        s.responder.transport = .v2 tB ∧ InStep (env.session key key').initiator tA tB ∧
          InStep (env.session key key').responder tB tA) := by
  obtain ⟨start, hstart, -, hinv⟩ := Link.start_inv hlink
  obtain ⟨s, hrun, hinv'⟩ := run_inv events hinv hmsgs nofun
  exact ⟨start, s, hstart, hrun, fun hquiet => hinv'.inStep hquiet.1 hquiet.2⟩

/-- A key, then all that the responder sends, then the rest of the initiator. -/
def handshakeEvents : List Event :=
  [.send .initiator false 64, .deliver .initiator 64, .send .responder false 100,
    .deliver .responder 100, .send .initiator false 36, .deliver .initiator 36]

theorem established_of_quiet_handshake : ∃ start s,
    (Link.v2v2 plainKey [] plainKey []).start = .ok start ∧
      start.run plainEnv handshakeEvents = .ok s ∧ s.Quiet ∧ ∃ tA tB,
        s.initiator.transport = .v2 tA ∧ s.responder.transport = .v2 tB ∧
          InStep plainDirection tA tB ∧ InStep plainDirection tB tA := by
  obtain ⟨start, s, hstart, hrun, hstep⟩ := established_of_quiet plainEnv plainKey [] plainKey []
    ⟨rfl, by decide, rfl, by decide, nofun, nofun, by decide⟩ handshakeEvents
    (by simp [handshakeEvents])
  cases hstart
  cases hrun
  exact ⟨_, _, rfl, rfl, ⟨⟨rfl, _, rfl, rfl⟩, rfl, _, rfl, rfl⟩,
    hstep ⟨⟨rfl, _, rfl, rfl⟩, rfl, _, rfl, rfl⟩⟩

end Quarlcoin.Net
