import Quarlcoin.Net.Connection
import Quarlcoin.Net.V2Send
/-!
# One side of a connection

A side speaks the first transport, or the second with a peer that does too, or it is a
responder of the second that falls back to the first. `SideInv` is one invariant for the
three; every operation and every piece of the stream keeps it (`SideInv.receiveMsgBytes`).
-/

namespace Quarlcoin.Net

open Codec Buffering V2Transport List

/-- How a side talks to the other. -/
inductive SideSpec where
  /-- The first transport. -/
  | v1
  /-- A responder of the second transport, to an initiator of the first. -/
  | v2v1
  /-- The second transport on both sides. -/
  | v2 (own peer : PeerStream) (initiating : Bool)

namespace SideSpec

variable (params : NetParams)

/-- What a side sends for its message number `n`. -/
def encode : SideSpec → ℕ → NetMsg → List UInt8
  | .v1, _, msg => frames params [msg]
  | .v2v1, _, msg => frames params [msg]
  | .v2 own _ _, n, msg => own.packets (1 + n) [msg]

/-- What a side expects for message number `n` of the other. -/
def expect : SideSpec → ℕ → NetMsg → List UInt8
  | .v1, _, msg => frames params [msg]
  | .v2v1, _, msg => frames params [msg]
  | .v2 _ peer _, n, msg => peer.packets (1 + n) [msg]

end SideSpec

/-- The first of these messages, if there is one, is a `version` message. -/
def FirstVersion (msgs : List NetMsg) : Prop := ∀ msg ∈ msgs.head?, msg.mType = versionType

/-- **The invariant of a side**: it took `sent` and has `out` left to send; it gave out
`received`, `rest` is still to come and has `todo` in it. -/
inductive SideInv (env : NetEnv) : SideSpec → Transport → List NetMsg → List UInt8 → ℕ →
    List UInt8 → List NetMsg → Prop where
  | v1 {t : V1Transport} {sent : List NetMsg} {received : ℕ} {rest : List UInt8}
      {todo : List NetMsg} (ok : t.send.Ok) (fresh : sent = [] → t.send.pending = [])
      (reads : V1Recv.Reads env.toNetParams t.recv rest todo) :
      SideInv env .v1 (.v1 t) sent t.send.pending received rest todo
  | maybeV1 {t : V2Transport} {rest : List UInt8} {todo : List NetMsg}
      (state : t.recvState = .keyMaybeV1) (sendState : t.sendState = .maybeV1)
      (buffer : t.sendBuffer = []) (pos : t.sendPos = 0) (fallback : t.v1Fallback = {})
      (short : t.recvBuffer.length < v1PrefixLen)
      (stream : t.recvBuffer ++ rest = frames env.toNetParams todo) :
      SideInv env .v2v1 (.v2 t) [] [] 0 rest todo
  | fallback {t : V2Transport} {sent : List NetMsg} {received : ℕ} {rest : List UInt8}
      {todo : List NetMsg} (state : t.recvState = .v1) (sendState : t.sendState = .v1)
      (ok : t.v1Fallback.send.Ok)
      (reads : V1Recv.Reads env.toNetParams t.v1Fallback.recv rest todo) :
      SideInv env .v2v1 (.v2 t) sent t.v1Fallback.send.pending received rest todo
  | v2 {own peer : PeerStream} {initiating : Bool} {t : V2Transport} {sent : List NetMsg}
      {out : List UInt8} {received : ℕ} {rest : List UInt8} {todo : List NetMsg}
      (setting : V2Setting env own peer initiating)
      (inv : V2Inv own peer initiating t sent out received rest todo) :
      SideInv env (.v2 own peer initiating) (.v2 t) sent out received rest todo

variable {env : NetEnv} {spec : SideSpec} {t : Transport} {sent : List NetMsg}
  {out : List UInt8} {received : ℕ} {bytes rest : List UInt8} {todo : List NetMsg}

theorem SideInv.exists_v2 {own peer : PeerStream} {initiating : Bool}
    (h : SideInv env (.v2 own peer initiating) t sent out received rest todo) :
    ∃ t', t = .v2 t' ∧ V2Setting env own peer initiating ∧
      V2Inv own peer initiating t' sent out received rest todo := by
  cases h with
  | v2 setting inv => exact ⟨_, rfl, setting, inv⟩

/-! ## Sending -/

variable (h : SideInv env spec t sent out received rest todo)
include h

/-- **`SetMessageToSend`** refuses, or takes the message when nothing is left. -/
theorem SideInv.setMessage {msg : NetMsg}
    (hmsg : Sendable msg) : t.setMessageToSend env msg = .ok none ∨
      ∃ t', t.setMessageToSend env msg = .ok (some t') ∧ out = [] ∧
        SideInv env spec t' (sent ++ [msg]) (spec.encode env.toNetParams sent.length msg) received
          rest todo := by
  have hframes : frames env.toNetParams [msg] = frame env.toNetParams msg := append_nil _
  cases h with
  | v1 ok fresh reads =>
    rename_i t
    rcases V1Send.setMessageToSend_spec t.send hmsg.v1 with hset | ⟨send, hset, hok, hnil, hpending⟩
    · left
      rw [Transport.setMessageToSend, hset]
      rfl
    · refine .inr ⟨.v1 { t with send }, by rw [Transport.setMessageToSend, hset]; rfl, hnil, ?_⟩
      rw [SideSpec.encode, hframes, ← hpending]
      exact .v1 hok (by simp) reads
  | maybeV1 state sendState buffer pos fallback short stream =>
    left
    rw [Transport.setMessageToSend, setMessageToSend, if_neg (by simp [sendState]),
      if_pos (by simp [sendState])]
    rfl
  | fallback state sendState ok reads =>
    rename_i t
    rcases V1Send.setMessageToSend_spec t.v1Fallback.send hmsg.v1 with
      hset | ⟨send, hset, hok, hnil, hpending⟩
    · left
      rw [Transport.setMessageToSend, setMessageToSend, if_pos sendState, hset]
      rfl
    refine .inr ⟨.v2 { t with v1Fallback := { t.v1Fallback with send } }, ?_, hnil, ?_⟩
    · rw [Transport.setMessageToSend, setMessageToSend, if_pos sendState, hset]
      rfl
    · rw [SideSpec.encode, hframes, ← hpending]
      exact .fallback state sendState hok reads
  | v2 setting inv =>
    rcases inv.setMessage hmsg with hset | ⟨t', hset, hnil, hinv⟩
    · left
      rw [Transport.setMessageToSend, hset]
      rfl
    · refine .inr ⟨.v2 t', ?_, hnil, .v2 setting hinv⟩
      rw [Transport.setMessageToSend, hset]
      rfl

/-- **`GetBytesToSend` and `MarkBytesSent`**: what is shown is a first part of
what is left, and what is marked is taken from it. -/
theorem SideInv.send (haveNextMessage : Bool) :
    ∃ shown, t.getBytesToSend haveNextMessage = .ok shown ∧ shown.toSend <+: out ∧
      ∀ n ≤ shown.toSend.length, ∃ t', t.markBytesSent n = .ok t' ∧
        SideInv env spec t' sent (out.drop n) received rest todo := by
  cases h with
  | v1 ok fresh reads =>
    refine ⟨_, rfl, V1Send.toSend_isPrefix _ _, fun n hn => ⟨_, rfl, ?_⟩⟩
    obtain ⟨hok, hpending⟩ := V1Send.markBytesSent_spec ok hn
    rw [← hpending]
    refine .v1 hok (fun hsent => ?_) reads
    rw [hpending, fresh hsent, drop_nil]
  | maybeV1 state sendState buffer pos fallback short stream =>
    rename_i t
    refine ⟨{ toSend := [], more := false, mType := t.sendType }, ?_, nil_prefix,
      fun n hn => ⟨.v2 { t with sendPos := 0, sendBuffer := [] }, ?_, ?_⟩⟩
    · simp only [Transport.getBytesToSend, getBytesToSend, sendState, buffer, pos]
      cases haveNextMessage <;> rfl
    · obtain rfl : n = 0 := Nat.le_zero.1 hn
      simp only [Transport.markBytesSent, markBytesSent, sendState, buffer, pos]
      rfl
    · rw [drop_nil]
      exact .maybeV1 state sendState rfl rfl fallback short stream
  | fallback state sendState ok reads =>
    rename_i t
    refine ⟨t.v1Fallback.send.getBytesToSend haveNextMessage, ?_, V1Send.toSend_isPrefix _ _,
      fun n hn => ⟨.v2 { t with v1Fallback :=
        { t.v1Fallback with send := t.v1Fallback.send.markBytesSent n } }, ?_, ?_⟩⟩
    · rw [Transport.getBytesToSend, getBytesToSend, if_pos sendState]
    · rw [Transport.markBytesSent, markBytesSent, if_pos sendState]
      rfl
    · obtain ⟨hok, hpending⟩ := V1Send.markBytesSent_spec ok hn
      rw [← hpending]
      exact .fallback state sendState hok reads
  | v2 setting inv =>
    obtain ⟨shown, hshown, htoSend, hprefix⟩ := inv.getBytesToSend haveNextMessage
    refine ⟨shown, hshown, hprefix, fun n hn => ?_⟩
    obtain ⟨t', hmark, hinv⟩ := inv.markBytesSent (htoSend ▸ hn)
    refine ⟨.v2 t', ?_, .v2 setting hinv⟩
    rw [Transport.markBytesSent, hmark]
    rfl

omit h

/-! ## Receiving -/

/-- What a call of `ReceivedBytes` leaves: the side goes on reading, or has the next message. -/
def SideAfter (env : NetEnv) (spec : SideSpec) (sent : List NetMsg) (out : List UInt8)
    (received : ℕ) (t : Transport) (rest : List UInt8) (todo : List NetMsg) : Prop :=
  t.receivedMessageComplete = false ∧ SideInv env spec t sent out received rest todo ∨
    t.receivedMessageComplete = true ∧ ∃ msg todo' t', todo = msg :: todo' ∧
      t.getReceivedMessage env = .ok (some msg, t') ∧
      SideInv env spec t' sent out (received + 1) rest todo'

/-- A `version` message starts with the bytes a responder looks for. -/
theorem frames_of_firstVersion {msgs : List NetMsg} (hne : frames env.toNetParams msgs ≠ [])
    (hfirst : FirstVersion msgs) : ∃ more, frames env.toNetParams msgs = v1Prefix env ++ more := by
  cases msgs with
  | nil => exact absurd rfl hne
  | cons msg msgs =>
    have hmType : msg.mType = versionType := hfirst msg rfl
    refine ⟨leBytes 4 (msg.data.length % 2 ^ 32) ++ checksum env.toNetParams msg.data ++
      (msg.data ++ frames env.toNetParams msgs), ?_⟩
    simp only [frames_cons, serHeader, headerOf, v1Prefix, versionMatch, hmType, append_assoc]

theorem length_v1Prefix (env : NetEnv) : (v1Prefix env).length = v1PrefixLen := by
  rw [v1Prefix, length_append, env.magic_length]
  rfl

/-- The fallback takes the start of a `version` message. -/
theorem receivedBytes_v1Prefix (env : NetEnv) :
    V1Recv.receivedBytes env.toNetParams {} (v1Prefix env) =
      .ok ({ hdrbuf := v1Prefix env }, []) := by
  have hlen := length_v1Prefix env
  have hcount : copyCount headerSize [] (v1Prefix env) = (v1Prefix env).length := by
    rw [copyCount, hlen]
    rfl
  have hshort : (v1Prefix env).length < headerSize := by
    rw [hlen]
    decide
  rw [V1Recv.receivedBytes]
  simp only [V1Recv.readHeader, hcount, take_length, nil_append, hshort]
  simp [Except.map]

/-- **While the transport is not known**, the responder waits for the start of
a `version` message, and then falls back. -/
theorem SideInv.maybeV1_receivedBytes {t : V2Transport} (state : t.recvState = .keyMaybeV1)
    (sendState : t.sendState = .maybeV1) (buffer : t.sendBuffer = []) (pos : t.sendPos = 0)
    (fallback : t.v1Fallback = {}) (short : t.recvBuffer.length < v1PrefixLen)
    (stream : t.recvBuffer ++ (bytes ++ rest) = frames env.toNetParams todo)
    (hbytes : bytes ≠ []) (hfirst : FirstVersion todo) :
    ∃ t' left, t.receivedBytes env bytes = .ok (t', left) ∧ left.length < bytes.length ∧
      t'.receivedMessageComplete = false ∧
      SideInv env .v2v1 (.v2 t') [] [] 0 (left ++ rest) todo := by
  have hne : frames env.toNetParams todo ≠ [] := by
    rw [← stream]
    simp [hbytes]
  obtain ⟨more, hmore⟩ := frames_of_firstVersion hne hfirst
  have hlen := length_v1Prefix env
  set t₁ := t.copied v1PrefixLen bytes with ht₁
  have hstate : t₁.recvState = .keyMaybeV1 := state
  have hsendState : t₁.sendState = .maybeV1 := sendState
  obtain ⟨b, bs, rfl⟩ := exists_cons_of_ne_nil hbytes
  have hrun : ∀ {t'}, t₁.processReceivedMaybeV1Bytes env = .ok t' →
      t.receivedBytes env (b :: bs) = if t'.recvState == .v1 then .ok (t', _)
        else receiveLoop env (b :: bs).length t' _ := fun {t'} hproc => by
    rw [receivedBytes, if_neg (by simp [state])]
    exact receiveLoop_cons (receivePass_maybeV1 state short hbytes hproc)
  rw [hmore] at stream
  have hcases := copy_cases (hlen.symm ▸ short.le) stream
  rw [hlen] at hcases
  -- the start of the message is still incomplete, or v1 takes over with it
  change t₁.recvBuffer.length < v1PrefixLen ∨ t₁.recvBuffer = v1Prefix env ∧ _ at hcases
  rcases hcases with hshort | ⟨hfull, hrest⟩
  · have hstream : t₁.recvBuffer ++ ((b :: bs).drop (copyCount v1PrefixLen t.recvBuffer (b :: bs)) ++
        rest) = v1Prefix env ++ more := (copy_append _).trans stream
    have hprefix : t₁.recvBuffer <+: v1Prefix env :=
      prefix_of_prefix_length_le ⟨_, hstream⟩ (prefix_append _ _) (hlen.symm ▸ hshort.le)
    have hnil : (b :: bs).drop (copyCount v1PrefixLen t.recvBuffer (b :: bs)) = [] :=
      drop_eq_nil_of_length_copy hshort
    rw [hnil] at hstream
    refine ⟨t₁, [], ?_, by simp, ?_, ?_⟩
    · rw [hrun (processReceivedMaybeV1Bytes_wait hstate hshort hprefix), hstate, hnil]
      rfl
    · simp [receivedMessageComplete, hstate]
    · exact .maybeV1 hstate hsendState buffer pos fallback hshort (hstream.trans hmore.symm)
  · have hproc : t₁.processReceivedMaybeV1Bytes env = .ok { t₁ with
        v1Fallback := { recv := { hdrbuf := v1Prefix env } }
        recvState := .v1
        sendState := .v1
        recvBuffer := []
        sendBuffer := [] } := by
      rw [processReceivedMaybeV1Bytes,
        assume_of (decide_eq_true (show t₁.recvBuffer.length ≤ v1PrefixLen from
          length_copy short.le))]
      rw [if_neg (by rw [hfull]; simp), if_pos (by rw [hfull, hlen]), hfull,
        show t₁.v1Fallback = {} from fallback, receivedBytes_v1Prefix]
      simp only [hstate, hsendState]
      rfl
    refine ⟨_, _, (hrun hproc).trans rfl, length_drop_copy short hbytes, rfl, ?_⟩
    refine .fallback rfl rfl V1Send.ok_initial (.header rfl rfl ?_ ?_)
    · rw [hlen]
      decide
    · rw [hrest, hmore]

theorem SideInv.v1_receivedBytes {s : V1Recv}
    (reads : V1Recv.Reads env.toNetParams s (bytes ++ rest) todo) (hbytes : bytes ≠ [])
    (htodo : ∀ msg ∈ todo, Sendable msg) :
    ∃ s' left, s.receivedBytes env.toNetParams bytes = .ok (s', left) ∧ left.length < bytes.length ∧
      (s'.complete = false ∧ V1Recv.Reads env.toNetParams s' (left ++ rest) todo ∨
        s'.complete = true ∧ ∃ msg todo', todo = msg :: todo' ∧
          s'.getReceivedMessage env.toNetParams = .ok (some msg, {}) ∧
          V1Recv.Reads env.toNetParams {} (left ++ rest) todo') := by
  obtain ⟨s', left, hrun, hleft, hafter⟩ :=
    reads.receivedBytes hbytes fun msg hmem => (htodo msg hmem).v1
  refine ⟨s', left, hrun, hleft, ?_⟩
  rcases hafter with hreads | ⟨msg, todo', rfl, hholds, hrest⟩
  · exact .inl hreads
  · have hmsg := (htodo msg mem_cons_self).v1
    exact .inr ⟨hholds.complete hmsg, msg, todo', rfl, hholds.getReceivedMessage hmsg,
      V1Recv.reads_of_rest hrest⟩

/-- **`ReceivedBytes` on a piece of the stream.** -/
theorem SideInv.receivedBytes (h : SideInv env spec t sent out received (bytes ++ rest) todo)
    (hbytes : bytes ≠ []) (htodo : ∀ msg ∈ todo, Sendable msg)
    (hfirst : spec = .v2v1 → received = 0 → FirstVersion todo) :
    ∃ t' left, t.receivedBytes env bytes = .ok (t', left) ∧ left.length < bytes.length ∧
      SideAfter env spec sent out received t' (left ++ rest) todo := by
  cases h with
  | v1 ok fresh reads =>
    rename_i t
    obtain ⟨s, left, hrun, hleft, hafter⟩ := SideInv.v1_receivedBytes reads hbytes htodo
    refine ⟨.v1 { t with recv := s }, left, by rw [Transport.receivedBytes, hrun]; rfl, hleft, ?_⟩
    rcases hafter with ⟨hcomplete, hreads⟩ | ⟨hcomplete, msg, todo', htodo', hget, hreads⟩
    · exact .inl ⟨hcomplete, .v1 ok fresh hreads⟩
    · refine .inr ⟨hcomplete, msg, todo', .v1 { t with recv := {} }, htodo', ?_, .v1 ok fresh hreads⟩
      rw [Transport.getReceivedMessage, hget]
      rfl
  | maybeV1 state sendState buffer pos fallback short stream =>
    obtain ⟨t', left, hrun, hleft, hcomplete, hinv⟩ := SideInv.maybeV1_receivedBytes state sendState
      buffer pos fallback short stream hbytes (hfirst rfl rfl)
    refine ⟨.v2 t', left, ?_, hleft, .inl ⟨hcomplete, hinv⟩⟩
    rw [Transport.receivedBytes, hrun]
    rfl
  | fallback state sendState ok reads =>
    rename_i t
    obtain ⟨s, left, hrun, hleft, hafter⟩ := SideInv.v1_receivedBytes reads hbytes htodo
    refine ⟨.v2 { t with v1Fallback := { t.v1Fallback with recv := s } }, left, ?_, hleft, ?_⟩
    · rw [Transport.receivedBytes, receivedBytes, if_pos state, hrun]
      rfl
    · have hmode : ∀ s, Transport.receivedMessageComplete
          (.v2 { t with v1Fallback := { t.v1Fallback with recv := s } }) = s.complete :=
        fun s => if_pos state
      rcases hafter with ⟨hcomplete, hreads⟩ | ⟨hcomplete, msg, todo', htodo', hget, hreads⟩
      · exact .inl ⟨(hmode s).trans hcomplete, .fallback state sendState ok hreads⟩
      refine .inr ⟨(hmode s).trans hcomplete, msg, todo',
        .v2 { t with v1Fallback := { t.v1Fallback with recv := {} } }, htodo', ?_,
        .fallback state sendState ok hreads⟩
      rw [Transport.getReceivedMessage, getReceivedMessage, if_pos state, hget]
      rfl
  | v2 setting inv =>
    obtain ⟨t', left, hrun, hleft, hafter⟩ := inv.receivedBytes setting hbytes htodo
    refine ⟨.v2 t', left, by rw [Transport.receivedBytes, hrun]; rfl, hleft, ?_⟩
    rcases hafter with hinv | ⟨msg, todo', rfl, hready⟩
    · exact .inl ⟨hinv.not_complete, .v2 setting hinv⟩
    · obtain ⟨t₂, hget, hinv⟩ := hready.getReceivedMessage (htodo msg mem_cons_self)
      refine .inr ⟨hready.complete, msg, todo', .v2 t₂, rfl, ?_, .v2 setting hinv⟩
      rw [Transport.getReceivedMessage, hget]
      rfl

/-- **`ReceiveMsgBytes` on a piece of the stream** gives out the next
messages. -/
theorem SideInv.receiveMsgBytes (h : SideInv env spec t sent out received (bytes ++ rest) todo)
    (htodo : ∀ msg ∈ todo, Sendable msg)
    (hfirst : spec = .v2v1 → received = 0 → FirstVersion todo) :
    ∃ t' msgs todo', t.receiveMsgBytes env bytes = .ok (t', msgs) ∧ todo = msgs ++ todo' ∧
      SideInv env spec t' sent out (received + msgs.length) rest todo' := by
  -- the messages that were given out are a first part of all that were left
  have hcall : Transport.Keeps env fun t rest todo' => ∃ given, todo = given ++ todo' ∧
      SideInv env spec t sent out (received + given.length) rest todo' := by
    rintro t bytes rest todo' hbytes ⟨given, rfl, hinv⟩
    obtain ⟨t', left, hrun, hleft, hafter⟩ := hinv.receivedBytes hbytes
      (fun msg hmem => htodo msg (mem_append_right _ hmem)) fun hspec hzero => by
        obtain ⟨hreceived, hgiven⟩ := Nat.add_eq_zero_iff.1 hzero
        have hall := hfirst hspec hreceived
        rwa [eq_nil_of_length_eq_zero hgiven] at hall
    refine ⟨t', left, hrun, hleft, ?_⟩
    rcases hafter with ⟨hcomplete, hinv'⟩ | ⟨hcomplete, msg, todo₂, t₂, rfl, hget, hinv'⟩
    · exact .inl ⟨hcomplete, given, rfl, hinv'⟩
    · refine .inr ⟨hcomplete, msg, todo₂, t₂, rfl, hget, given ++ [msg], by simp, ?_⟩
      rw [length_append]
      exact hinv'
  obtain ⟨t', msgs, todo', hrun, htodo', given, hgiven, hinv⟩ :=
    Transport.receiveMsgBytes_rule hcall ⟨[], rfl, h⟩
  obtain rfl : given = msgs := append_cancel_right (hgiven.symm.trans htodo')
  exact ⟨t', given, todo', hrun, htodo', hinv⟩

theorem SideInv.append (h : SideInv env spec t sent out received rest todo) (msg : NetMsg) :
    SideInv env spec t sent out received
      (rest ++ spec.expect env.toNetParams (received + todo.length) msg) (todo ++ [msg]) := by
  cases h with
  | v1 ok fresh reads => exact .v1 ok fresh (reads.append [msg])
  | maybeV1 state sendState buffer pos fallback short stream =>
    refine .maybeV1 state sendState buffer pos fallback short ?_
    rw [← append_assoc, stream, frames_append]
    rfl
  | fallback state sendState ok reads => exact .fallback state sendState ok (reads.append [msg])
  | v2 setting inv =>
    exact .v2 setting ⟨inv.initiating, inv.phase, inv.sends, inv.reads.append [msg]⟩

/-- **At the end of the stream** every message has been given out. -/
theorem SideInv.eq_nil (h : SideInv env spec t sent out received [] todo)
    (htodo : ∀ msg ∈ todo, Sendable msg) : todo = [] := by
  cases h with
  | v1 ok fresh reads => exact reads.eq_nil fun msg hmem => (htodo msg hmem).v1
  | maybeV1 state sendState buffer pos fallback short stream =>
    -- a frame is longer than what the responder waits for
    have reads : V1Recv.Reads env.toNetParams { hdrbuf := _ } [] todo :=
      .header rfl rfl (short.trans (by decide)) stream
    exact reads.eq_nil fun msg hmem => (htodo msg hmem).v1
  | fallback state sendState ok reads => exact reads.eq_nil fun msg hmem => (htodo msg hmem).v1
  | v2 setting inv => exact (inv.reads.eq_nil setting.fair).2

end Quarlcoin.Net
