import Quarlcoin.Net.Sides
/-!
# Transports are faithful

Whatever the cuts and the interleaving, a run of a connection never fails, and each side has
received a first part of the messages that the other took for sending, all of them once
nothing is on the way (`run_faithful`). `PairInv` follows both sides.

A responder of the second transport knows an initiator of the first by its `version`
message. If that starts with another one, the connection fails (`ping_before_version`).
-/

namespace Quarlcoin.Net

open Codec Buffering V2Transport List Option PeerStream V1Recv Nat Except

variable {env : NetEnv}

/-! ## Both sides -/

/-- **The invariant of a connection**, seen from one of its sides. -/
structure PairAt (env : NetEnv) (specA specB : SideSpec) (a b : Side) (outA outB : List UInt8)
    (todoA todoB : List NetMsg) : Prop where
  invA : SideInv env specA a.transport a.sent outA a.received.length (b.wire ++ outB) todoA
  invB : SideInv env specB b.transport b.sent outB b.received.length (a.wire ++ outA) todoB
  sentA : a.sent = b.received ++ todoB
  sentB : b.sent = a.received ++ todoA
  sendableA : ∀ msg ∈ a.sent, Sendable msg
  sendableB : ∀ msg ∈ b.sent, Sendable msg
  firstA : specB = .v2v1 → FirstVersion a.sent
  firstB : specA = .v2v1 → FirstVersion b.sent

def PairInv (env : NetEnv) (specA specB : SideSpec) (a b : Side) : Prop :=
  ∃ outA outB todoA todoB, PairAt env specA specB a b outA outB todoA todoB

/-- Each side expects what the other sends. -/
structure Matched (env : NetEnv) (specA specB : SideSpec) : Prop where
  ab : ∀ n msg, specA.encode env.toNetParams n msg = specB.expect env.toNetParams n msg
  ba : ∀ n msg, specB.encode env.toNetParams n msg = specA.expect env.toNetParams n msg

variable {specA specB : SideSpec} {link : Link} {a b : Side} {own peer : PeerStream}
  {initiating : Bool} {t : V2Transport} {sent todo : List NetMsg} {out rest : List UInt8}
  {received : ℕ}

theorem Matched.symm (h : Matched env specA specB) : Matched env specB specA := ⟨h.ba, h.ab⟩

theorem PairInv.symm (h : PairInv env specA specB a b) : PairInv env specB specA b a := by
  obtain ⟨outA, outB, todoA, todoB, h⟩ := h
  exact ⟨outB, outA, todoB, todoA, h.invB, h.invA, h.sentB, h.sentA, h.sendableB, h.sendableA,
    h.firstB, h.firstA⟩

/-! ### Steps -/

/-- **A message is offered**: it is refused, or it is the next to send. -/
theorem PairInv.setMessage (hmatch : Matched env specA specB) (h : PairInv env specA specB a b)
    {msg : NetMsg} (hmsg : Sendable msg)
    (hfirst : specB = .v2v1 → a.sent = [] → msg.mType = versionType) :
    ∃ a', a.setMessage env msg = .ok a' ∧ PairInv env specA specB a' b ∧
      (a'.sent = [] → a.transport.setMessageToSend env msg = .ok none) := by
  obtain ⟨outA, outB, todoA, todoB, h⟩ := h
  rcases h.invA.setMessage hmsg with hset | ⟨t', hset, hnil, hinv⟩
  · refine ⟨a, ?_, ⟨outA, outB, todoA, todoB, h⟩, fun _ => hset⟩
    rw [Side.setMessage, hset]
    rfl
  refine ⟨{ a with transport := t', sent := a.sent ++ [msg] }, ?_,
    ⟨specA.encode env.toNetParams a.sent.length msg, outB, todoA, todoB ++ [msg], ?_⟩,
    fun hsent => absurd hsent (by simp)⟩
  · rw [Side.setMessage, hset]
    rfl
  · have hB := h.invB.append msg
    rw [hnil, append_nil] at hB
    refine ⟨hinv, ?_, ?_, h.sentB, ?_, h.sendableB, ?_, h.firstB⟩
    · rw [hmatch.ab, show a.sent.length = b.received.length + todoB.length by
        rw [h.sentA, length_append]]
      exact hB
    · rw [h.sentA, append_assoc]
    · intro m hm
      rcases mem_append.1 hm with hm | hm
      · exact h.sendableA m hm
      · rw [mem_singleton.1 hm]
        exact hmsg
    · intro hspec
      cases hsent : a.sent with
      | nil =>
        intro m hm
        obtain rfl : msg = m := by simpa using hm
        exact hfirst hspec hsent
      | cons m ms =>
        have := h.firstA hspec
        rw [hsent] at this
        exact this

/-- **Bytes are sent**: they move from what is left to what is on the way. -/
theorem PairInv.sendBytes (h : PairInv env specA specB a b) (haveNextMessage : Bool) (n : ℕ) :
    ∃ a', a.sendBytes haveNextMessage n = .ok a' ∧ PairInv env specA specB a' b ∧
      a'.sent = a.sent := by
  obtain ⟨outA, outB, todoA, todoB, h⟩ := h
  obtain ⟨shown, hshown, hprefix, hmark⟩ := h.invA.send haveNextMessage
  obtain ⟨t', ht', hinv⟩ := hmark _ (min_le_right n shown.toSend.length)
  set count := min n shown.toSend.length with hcount
  refine ⟨{ a with transport := t', wire := a.wire ++ shown.toSend.take count }, ?_,
    ⟨outA.drop count, outB, todoA, todoB, hinv, ?_, h.sentA, h.sentB, h.sendableA, h.sendableB,
      h.firstA, h.firstB⟩, rfl⟩
  · rw [Side.sendBytes, hshown]
    simp only [ok_bind, ← hcount, ht']
    rfl
  · have htake : shown.toSend.take count = outA.take count := by
      obtain ⟨more, rfl⟩ := hprefix
      exact (take_append_of_le_length (min_le_right _ _)).symm
    rw [htake, append_assoc, take_append_drop]
    exact h.invB

/-- **Bytes arrive**: the messages that are given out are the next ones. -/
theorem PairInv.arrive (h : PairInv env specA specB a b) (n : ℕ) :
    ∃ b', b.arrive env (a.wire.take n) = .ok b' ∧
      PairInv env specA specB { a with wire := a.wire.drop n } b' ∧ b'.sent = b.sent := by
  obtain ⟨outA, outB, todoA, todoB, h⟩ := h
  have hinv := h.invB
  rw [← take_append_drop n a.wire, append_assoc] at hinv
  have htodo : ∀ msg ∈ todoB, Sendable msg := fun msg hmem =>
    h.sendableA msg (h.sentA ▸ mem_append_right _ hmem)
  obtain ⟨t', msgs, todo', hrun, htodo', hinv'⟩ := hinv.receiveMsgBytes htodo fun hspec hzero => by
    have hfirst := h.firstA hspec
    rwa [h.sentA, eq_nil_of_length_eq_zero hzero] at hfirst
  refine ⟨{ b with transport := t', received := b.received ++ msgs }, ?_,
    ⟨outA, outB, todoA, todo', h.invA, ?_, ?_, h.sentB, h.sendableA, h.sendableB, h.firstA,
      h.firstB⟩, rfl⟩
  · rw [Side.arrive, hrun]
    rfl
  · rw [length_append]
    exact hinv'
  · rw [h.sentA, htodo', append_assoc]

/-! ## When nothing is on the way -/

/-- Nothing of a side is on the way, and it has nothing to send. -/
def Side.Quiet (s : Side) : Prop :=
  s.wire = [] ∧ ∃ shown, s.transport.getBytesToSend false = .ok shown ∧ shown.toSend = []

/-- Nothing is on the way, and nobody has anything to send. -/
def System.Quiet (s : System) : Prop := s.initiator.Quiet ∧ s.responder.Quiet

/-- A side that shows nothing has sent all of its messages, if it has any. -/
theorem SideInv.sent_or_out {spec : SideSpec} {t : Transport}
    (h : SideInv env spec t sent out received rest todo)
    (hquiet : ∃ shown, t.getBytesToSend false = .ok shown ∧ shown.toSend = []) :
    sent = [] ∨ out = [] := by
  obtain ⟨shown, hshown, hnil⟩ := hquiet
  cases h with
  | v1 ok fresh reads =>
    cases hshown
    exact .inr (V1Send.pending_eq_nil ok hnil)
  | maybeV1 => exact .inl rfl
  | fallback state sendState ok reads =>
    rw [Transport.getBytesToSend, getBytesToSend, if_pos sendState] at hshown
    cases hshown
    exact .inr (V1Send.pending_eq_nil ok hnil)
  | v2 setting inv =>
    obtain ⟨shown', hshown', htoSend, -⟩ := inv.getBytesToSend false
    obtain rfl : shown' = shown := ok.inj (hshown'.symm.trans hshown)
    cases inv.sends with
    | maybeV1 => exact .inl rfl
    | awaitingKey => exact .inl rfl
    | ready => exact .inr (htoSend.symm.trans hnil)

/-- **When nothing is on the way, everything was received.** -/
theorem PairInv.received_eq (h : PairInv env specA specB a b) (hquiet : a.Quiet) :
    b.received = a.sent := by
  obtain ⟨outA, outB, todoA, todoB, h⟩ := h
  rcases h.invA.sent_or_out hquiet.2 with hsent | hout
  · have hnil := h.sentA.symm.trans hsent
    rw [hsent, (append_eq_nil_iff.1 hnil).1]
  · have hinv := h.invB
    rw [hquiet.1, hout] at hinv
    have hnil := hinv.eq_nil fun msg hmem => h.sendableA msg (h.sentA ▸ mem_append_right _ hmem)
    rw [h.sentA, hnil, append_nil]

/-! ### Nobody waits -/

/-- A side of the second transport that shows nothing is ready, or waits for
the other side. -/
theorem V2Inv.quiet_cases (h : V2Inv own peer initiating t sent out received rest todo)
    (hnil : t.sendBuffer.drop t.sendPos = []) :
    t.sendState = .ready ∧ t.sendBuffer = [] ∧ out = [] ∨
      t.sendState = .awaitingKey ∧ out = own.afterGarbage [] ∨ initiating = false := by
  cases h.sends with
  | maybeV1 state =>
    have hphase := h.phase.symm.trans (show t.sendState = .maybeV1 from state)
    cases h.reads with
    | keyMaybeV1 _ responder => exact .inr (.inr (h.initiating.symm.trans responder))
    | _ hstate =>
      rw [hstate] at hphase
      exact absurd hphase (by simp [sendStateOf])
  | awaitingKey state => exact .inr (.inl ⟨state, by
      change t.sendBuffer.drop t.sendPos ++ _ = _
      rw [hnil, nil_append]⟩)
  | ready state cipher count pos =>
    exact .inl ⟨state, (pos.eq_nil hnil).1, hnil⟩

theorem length_afterGarbage_le (peer : PeerStream) (msgs : List NetMsg) :
    (peer.afterGarbage []).length ≤ (peer.afterGarbage msgs).length := by
  simp only [afterGarbage, length_append, packets, length_nil]
  omega

/-- A side to which at most the end of the handshake is still to come has the
key of its peer. -/
theorem V2Inv.ready_of_rest (h : V2Inv own peer initiating t sent out received rest todo)
    (hfair : peer.Fair) (hrest : rest.length ≤ (peer.afterGarbage []).length) :
    t.sendState = .ready := by
  have hlong : ∀ buffer : List UInt8, buffer ++ rest = peer.stream todo →
      ¬ buffer.length < pubkeySize := by
    intro buffer hstream hshort
    have hlen := congrArg length hstream
    have hle := length_afterGarbage_le peer todo
    rw [stream, length_append, length_append, length_append, hfair.length_key] at hlen
    omega
  rw [h.phase]
  cases h.reads with
  | keyMaybeV1 state responder short stream =>
    exact absurd (short.trans (by decide)) (hlong _ stream)
  | key state short stream => exact absurd short (hlong _ stream)
  | _ state =>
    rw [state]
    rfl

/-! ## Links -/

/-- No part of the garbage and the terminator is the terminator, but its end. -/
def NoEarlyTerminator (garbage terminator : List UInt8) : Prop :=
  ∀ n < garbage.length,
    ((garbage ++ terminator).drop n).take garbageTerminatorLen ≠ terminator

namespace Link

def initiatorStream (env : NetEnv) (key garbage responderKey : List UInt8) : PeerStream where
  key := key
  garbage := garbage
  terminator := (env.session key responderKey).initiatorTerminator
  cipher := (env.session key responderKey).initiator

def responderStream (env : NetEnv) (key responderKey responderGarbage : List UInt8) :
    PeerStream where
  key := responderKey
  garbage := responderGarbage
  terminator := (env.session key responderKey).responderTerminator
  cipher := (env.session key responderKey).responder

/-- What is assumed of two sides with the second transport. -/
structure V2Fair (env : NetEnv) (key garbage responderKey responderGarbage : List UInt8) :
    Prop where
  length_key : key.length = pubkeySize
  length_garbage : garbage.length ≤ maxGarbageLen
  length_responderKey : responderKey.length = pubkeySize
  length_responderGarbage : responderGarbage.length ≤ maxGarbageLen
  terminator : NoEarlyTerminator garbage (env.session key responderKey).initiatorTerminator
  responderTerminator :
    NoEarlyTerminator responderGarbage (env.session key responderKey).responderTerminator
  /-- The key of the initiator does not look like a `version` message. -/
  key : (key.drop 4).take messageTypeSize ≠ versionMatch

def Fair (env : NetEnv) : Link → Prop
  | .v1v1 => True
  | .v1v2 _ garbage => garbage.length ≤ maxGarbageLen
  | .v2v2 key garbage responderKey responderGarbage =>
    V2Fair env key garbage responderKey responderGarbage

/-- A responder of the second transport has an initiator of the first. -/
def isV1V2 : Link → Bool
  | .v1v2 _ _ => true
  | _ => false

def initiatorSpec (env : NetEnv) : Link → SideSpec
  | .v1v1 => .v1
  | .v1v2 _ _ => .v1
  | .v2v2 key garbage responderKey responderGarbage =>
    .v2 (initiatorStream env key garbage responderKey)
      (responderStream env key responderKey responderGarbage) true

def responderSpec (env : NetEnv) : Link → SideSpec
  | .v1v1 => .v1
  | .v1v2 _ _ => .v2v1
  | .v2v2 key garbage responderKey responderGarbage =>
    .v2 (responderStream env key responderKey responderGarbage)
      (initiatorStream env key garbage responderKey) false

theorem initiatorSpec_ne (link : Link) : link.initiatorSpec env ≠ .v2v1 := by
  cases link <;> simp [initiatorSpec]

section

variable {key garbage responderKey responderGarbage : List UInt8}
  (h : V2Fair env key garbage responderKey responderGarbage)
include h

theorem V2Fair.initiatorFair : (initiatorStream env key garbage responderKey).Fair where
  length_key := h.length_key
  length_garbage := h.length_garbage
  length_terminator := (env.session key responderKey).length_initiatorTerminator
  terminator := h.terminator

theorem V2Fair.responderFair : (responderStream env key responderKey responderGarbage).Fair where
  length_key := h.length_responderKey
  length_garbage := h.length_responderGarbage
  length_terminator := (env.session key responderKey).length_responderTerminator
  terminator := h.responderTerminator

omit h

theorem ne_nil_of_pubkeySize {bytes : List UInt8} (h : bytes.length = pubkeySize) : bytes ≠ [] := by
  rintro rfl
  exact absurd h (by decide)

variable (h : V2Fair env key garbage responderKey responderGarbage)
include h

theorem V2Fair.initiatorSetting : V2Setting env (initiatorStream env key garbage responderKey)
      (responderStream env key responderKey responderGarbage) true where
  agreed := by
    rintro c rfl
    rfl
  ownKey := ne_nil_of_pubkeySize h.length_key
  fair := h.responderFair
  key := by simp

theorem V2Fair.responderSetting :
    V2Setting env (responderStream env key responderKey responderGarbage)
      (initiatorStream env key garbage responderKey) false where
  agreed := by
    rintro c rfl
    rfl
  ownKey := ne_nil_of_pubkeySize h.length_responderKey
  fair := h.initiatorFair
  key := fun _ => h.key

end

/-- **A connection starts** in the invariant. -/
theorem start_inv (h : link.Fair env) : ∃ s, link.start = .ok s ∧ s.initiator.sent = [] ∧
    PairInv env (link.initiatorSpec env) (link.responderSpec env) s.initiator s.responder := by
  cases link with
  | v1v1 =>
    refine ⟨_, rfl, rfl, [], [], [], [], ?_⟩
    exact ⟨.v1 V1Send.ok_initial (fun _ => rfl) reads_initial,
      .v1 V1Send.ok_initial (fun _ => rfl) reads_initial, rfl, rfl, by simp, by simp,
      by simp [responderSpec], by simp [initiatorSpec]⟩
  | v1v2 key garbage =>
    have h : garbage.length ≤ maxGarbageLen := h
    have hassume : Net.assume (decide (garbage.length ≤ maxGarbageLen)) = .ok () :=
      if_pos (decide_eq_true h)
    refine ⟨_, by rw [start, create, hassume]; rfl, rfl, [], [], [], [], ?_⟩
    exact ⟨.v1 V1Send.ok_initial (fun _ => rfl) reads_initial,
      .maybeV1 rfl rfl rfl rfl rfl (show 0 < v1PrefixLen by decide) rfl, rfl, rfl, by simp, by simp,
      fun _ _ hmem => absurd hmem (by simp), by simp [initiatorSpec]⟩
  | v2v2 key garbage responderKey responderGarbage =>
    have hassume : Net.assume (decide (garbage.length ≤ maxGarbageLen)) = .ok () :=
      if_pos (decide_eq_true h.length_garbage)
    have hassume' : Net.assume (decide (responderGarbage.length ≤ maxGarbageLen)) = .ok () :=
      if_pos (decide_eq_true h.length_responderGarbage)
    have hkey : 0 < key.length := by
      rw [h.length_key]
      decide
    refine ⟨_, by rw [start, create, create, hassume, hassume']; rfl, rfl,
      (initiatorStream env key garbage responderKey).stream [],
      (responderStream env key responderKey responderGarbage).stream [], [], [], ?_⟩
    refine ⟨.v2 h.initiatorSetting ⟨rfl, rfl, ?_, .key rfl (show 0 < pubkeySize by decide) rfl⟩,
      .v2 h.responderSetting ⟨rfl, rfl, .maybeV1 rfl rfl rfl rfl rfl,
        .keyMaybeV1 rfl rfl (show 0 < v1PrefixLen by decide) rfl⟩,
      rfl, rfl, by simp, by simp, by simp [responderSpec], by simp [initiatorSpec]⟩
    rw [stream, ← append_assoc]
    refine .awaitingKey rfl rfl rfl (.inl ?_)
    change 0 < (key ++ garbage).length
    rw [length_append]
    omega

end Link

/-! ## Runs -/

def messagesOf (party : Party) (events : List Event) : List NetMsg :=
  events.filterMap fun
    | .setMessage p msg => if p = party then some msg else none
    | _ => none

theorem SideInv.accepts_first {t : Transport}
    (h : SideInv env .v1 t [] out received rest todo) {msg : NetMsg} (hmsg : Sendable msg) :
    t.setMessageToSend env msg ≠ .ok none := by
  cases h with
  | v1 ok fresh reads =>
    obtain ⟨s', hset, -⟩ :=
      V1Send.setMessageToSend_of_pending env.toNetParams ok (fresh rfl) hmsg.v1
    rw [Transport.setMessageToSend, hset]
    simp [Except.map]

theorem Link.initiatorSpec_of_isV1V2 (h : link.isV1V2 = true) : link.initiatorSpec env = .v1 := by
  cases link <;> simp_all [Link.initiatorSpec, Link.isV1V2]

/-- **One event keeps the invariant.** The initiator still has its first
message before it, or it has taken one. -/
theorem step_inv {s : System}
    (h : PairInv env (link.initiatorSpec env) (link.responderSpec env) s.initiator s.responder)
    {e : Event} (hmsg : ∀ party msg, e = .setMessage party msg → Sendable msg)
    (hfirst : link.isV1V2 = true → s.initiator.sent = [] → FirstVersion (messagesOf .initiator [e])) :
    ∃ s', s.step env e = .ok s' ∧
      PairInv env (link.initiatorSpec env) (link.responderSpec env) s'.initiator s'.responder ∧
      (link.isV1V2 = true → s'.initiator.sent = [] →
        s.initiator.sent = [] ∧ messagesOf .initiator [e] = []) := by
  have hmatch : Matched env (link.initiatorSpec env) (link.responderSpec env) := by
    cases link <;> exact ⟨fun _ _ => rfl, fun _ _ => rfl⟩
  cases e with
  | setMessage party msg =>
    have hsend := hmsg party msg rfl
    cases party with
    | initiator =>
      obtain ⟨a, hset, hinv, hrefused⟩ := h.setMessage hmatch hsend fun hspec hnil =>
        hfirst (by cases link <;> simp_all [Link.responderSpec, Link.isV1V2]) hnil msg rfl
      refine ⟨{ s with initiator := a }, by rw [System.step, hset]; rfl, hinv, fun hlink hnil => ?_⟩
      -- the first message is never refused
      obtain ⟨outA, outB, todoA, todoB, hat⟩ := h
      have hnone := hrefused hnil
      have ha : a = s.initiator := by
        rw [Side.setMessage, hnone] at hset
        exact (ok.inj hset).symm
      have hA := hat.invA
      rw [Link.initiatorSpec_of_isV1V2 hlink, ← ha, hnil] at hA
      rw [← ha] at hnone
      exact absurd hnone (hA.accepts_first hsend)
    | responder =>
      obtain ⟨b, hset, hinv, -⟩ := h.symm.setMessage hmatch.symm hsend fun hspec =>
        absurd hspec link.initiatorSpec_ne
      exact ⟨{ s with responder := b }, by rw [System.step, hset]; rfl, hinv.symm,
        fun _ hnil => ⟨hnil, rfl⟩⟩
  | send party haveNextMessage n =>
    cases party with
    | initiator =>
      obtain ⟨a, hsend, hinv, hsent⟩ := h.sendBytes haveNextMessage n
      exact ⟨{ s with initiator := a }, by rw [System.step, hsend]; rfl, hinv,
        fun _ hnil => ⟨hsent.symm.trans hnil, rfl⟩⟩
    | responder =>
      obtain ⟨b, hsend, hinv, -⟩ := h.symm.sendBytes haveNextMessage n
      exact ⟨{ s with responder := b }, by rw [System.step, hsend]; rfl, hinv.symm,
        fun _ hnil => ⟨hnil, rfl⟩⟩
  | deliver party n =>
    cases party with
    | initiator =>
      obtain ⟨b, harrive, hinv, -⟩ := h.arrive n
      refine ⟨{ initiator := { s.initiator with wire := s.initiator.wire.drop n }, responder := b },
        ?_, hinv, fun _ hnil => ⟨hnil, rfl⟩⟩
      rw [System.step, harrive]
      rfl
    | responder =>
      obtain ⟨a, harrive, hinv, hsent⟩ := h.symm.arrive n
      refine ⟨{ initiator := a, responder := { s.responder with wire := s.responder.wire.drop n } },
        ?_, hinv.symm, fun _ hnil => ⟨hsent.symm.trans hnil, rfl⟩⟩
      rw [System.step, harrive]
      rfl

theorem messagesOf_cons (party : Party) (e : Event) (events : List Event) :
    messagesOf party (e :: events) = messagesOf party [e] ++ messagesOf party events :=
  filterMap_append (l := [e])

/-- **Every run keeps the invariant**, by induction on its events. -/
theorem run_inv : ∀ (events : List Event) {s : System},
    PairInv env (link.initiatorSpec env) (link.responderSpec env) s.initiator s.responder →
    (∀ party msg, .setMessage party msg ∈ events → Sendable msg) →
    (link.isV1V2 = true → s.initiator.sent = [] → FirstVersion (messagesOf .initiator events)) →
    ∃ s', s.run env events = .ok s' ∧
      PairInv env (link.initiatorSpec env) (link.responderSpec env) s'.initiator s'.responder
  | [], s, h, _, _ => ⟨s, rfl, h⟩
  | e :: events, s, h, hmsg, hfirst => by
    obtain ⟨s₁, hstep, hinv, hsent⟩ := step_inv h
      (fun party msg he => hmsg party msg (he ▸ mem_cons_self)) fun hlink hnil => by
        have hall := hfirst hlink hnil
        rw [messagesOf_cons] at hall
        intro msg hmem
        refine hall msg ?_
        rw [head?_append, mem_def.1 hmem]
        rfl
    obtain ⟨s', hrun, hinv'⟩ := run_inv events hinv
      (fun party msg he => hmsg party msg (mem_cons_of_mem _ he)) fun hlink hnil => by
        obtain ⟨hnil', hno⟩ := hsent hlink hnil
        have hall := hfirst hlink hnil'
        rwa [messagesOf_cons, hno] at hall
    refine ⟨s', ?_, hinv'⟩
    rw [System.run, hstep]
    exact hrun

/-- What holds of both sides of a connection. -/
structure Faithful (env : NetEnv) (link : Link) (s : System) : Prop where
  /-- The initiator has received a first part of what the responder sent. -/
  initiatorReceived : s.initiator.received <+: s.responder.sent
  /-- And the other way round. -/
  responderReceived : s.responder.received <+: s.initiator.sent
  /-- Everything, when nothing is on the way. -/
  quiet : s.Quiet →
    s.initiator.received = s.responder.sent ∧ s.responder.received = s.initiator.sent
  /-- The responder ends in the mode of an initiator of the first transport. -/
  v1Mode : link.initiatorV1 = true → s.Quiet → s.initiator.sent ≠ [] →
    s.responder.transport.inV1Mode
  /-- With one of the second it never is in that mode. -/
  v2Mode : link.initiatorV1 = false → ¬ s.responder.transport.inV1Mode
  /-- When nothing is on the way, both sides take the next message. -/
  accepts : s.Quiet → (link.initiatorV1 = true → s.initiator.sent ≠ []) → ∀ msg, Sendable msg →
    (∃ t, s.initiator.transport.setMessageToSend env msg = .ok (some t)) ∧
      ∃ t, s.responder.transport.setMessageToSend env msg = .ok (some t)

variable (h : PairInv env specA specB a b)
include h

theorem PairInv.received_prefix : b.received <+: a.sent := by
  obtain ⟨outA, outB, todoA, todoB, h⟩ := h
  exact h.sentA ▸ prefix_append _ _

/-- A responder that has received something has fallen back. -/
theorem PairInv.inV1Mode (hspec : specB = .v1 ∨ specB = .v2v1)
    (hne : b.received ≠ []) : b.transport.inV1Mode := by
  obtain ⟨outA, outB, todoA, todoB, h⟩ := h
  have hinv := h.invB
  have hpos := length_pos_iff.2 hne
  cases ht : b.transport with
  | v1 t => trivial
  | v2 t =>
    rw [ht] at hinv
    generalize b.received.length = received, b.sent = sent at hinv hpos
    cases hinv with
    | maybeV1 => exact absurd hpos (lt_irrefl _)
    | fallback state => exact state
    | v2 => simp at hspec

theorem PairInv.accepts_v1 (hquiet : a.Quiet)
    (hmode : a.transport.inV1Mode) (hspec : specA = .v1 ∨ specA = .v2v1) {msg : NetMsg}
    (hmsg : Sendable msg) : ∃ t, a.transport.setMessageToSend env msg = .ok (some t) := by
  obtain ⟨outA, outB, todoA, todoB, h⟩ := h
  have hinv := h.invA
  obtain ⟨-, shown, hshown, hnil⟩ := hquiet
  cases ht : a.transport with
  | v1 t =>
    rw [ht] at hinv hshown
    cases hinv with
    | v1 ok =>
      cases hshown
      obtain ⟨s', hset, -⟩ :=
        V1Send.setMessageToSend_of_pending env.toNetParams ok (V1Send.pending_eq_nil ok hnil) hmsg.v1
      exact ⟨_, by rw [Transport.setMessageToSend, hset]; rfl⟩
  | v2 t =>
    rw [ht] at hinv hshown hmode
    generalize a.received.length = received, a.sent = sent at hinv
    cases hinv with
    | maybeV1 state => exact absurd (state.symm.trans hmode) (by simp)
    | fallback state sendState ok =>
      rw [Transport.getBytesToSend, getBytesToSend, if_pos sendState] at hshown
      cases hshown
      obtain ⟨s', hset, -⟩ :=
        V1Send.setMessageToSend_of_pending env.toNetParams ok (V1Send.pending_eq_nil ok hnil) hmsg.v1
      refine ⟨.v2 { t with v1Fallback := { t.v1Fallback with send := s' } }, ?_⟩
      rw [Transport.setMessageToSend, setMessageToSend, if_pos sendState, hset]
      rfl
    | v2 => simp at hspec

omit h

/-- Two sides of the second transport that have nothing on the way. -/
structure V2Rest (env : NetEnv) (own peer : PeerStream) (a b : Side) (tA tB : V2Transport) :
    Prop where
  transportA : a.transport = .v2 tA
  transportB : b.transport = .v2 tB
  settingA : V2Setting env own peer true
  settingB : V2Setting env peer own false
  invA : ∃ todo, V2Inv own peer true tA a.sent [] a.received.length [] todo
  invB : ∃ todo, V2Inv peer own false tB b.sent [] b.received.length [] todo
  readyA : tA.sendState = .ready ∧ tA.sendBuffer = []
  readyB : tB.sendState = .ready ∧ tB.sendBuffer = []

theorem V2Inv.drop_eq_nil (h : V2Inv own peer initiating t sent out received rest todo)
    {shown : BytesToSend} (hshown : t.getBytesToSend false = .ok shown)
    (hnil : shown.toSend = []) : t.sendBuffer.drop t.sendPos = [] := by
  obtain ⟨shown', hshown', htoSend, -⟩ := h.getBytesToSend false
  obtain rfl : shown' = shown := ok.inj (hshown'.symm.trans hshown)
  rw [← htoSend, hnil]

/-- **The handshake does not get stuck**: if nothing is on the way, both sides
are ready. -/
theorem PairInv.rest_v2
    (h : PairInv env (.v2 own peer true) (.v2 peer own false) a b) (ha : a.Quiet)
    (hb : b.Quiet) : ∃ tA tB, V2Rest env own peer a b tA tB := by
  obtain ⟨outA, outB, todoA, todoB, h⟩ := h
  obtain ⟨tA, htA, settingA, invA⟩ := h.invA.exists_v2
  obtain ⟨tB, htB, settingB, invB⟩ := h.invB.exists_v2
  obtain ⟨hwireA, shownA, hshownA, hnilA⟩ := ha
  obtain ⟨hwireB, shownB, hshownB, hnilB⟩ := hb
  rw [htA] at hshownA
  rw [htB] at hshownB
  rw [hwireB] at invA
  rw [hwireA] at invB
  have hcasesA := invA.quiet_cases (invA.drop_eq_nil hshownA hnilA)
  -- the initiator has sent its key, so the responder is ready
  have hrestB : outA.length ≤ (own.afterGarbage []).length := by
    rcases hcasesA with ⟨-, -, hout⟩ | ⟨-, hout⟩ | hfalse
    · rw [hout]
      exact zero_le _
    · rw [hout]
    · exact absurd hfalse (by simp)
  have hreadyB := invB.ready_of_rest settingB.fair hrestB
  obtain ⟨hbufferB, rfl⟩ : tB.sendBuffer = [] ∧ outB = [] := by
    have hdrop := invB.drop_eq_nil hshownB hnilB
    have hsends := invB.sends
    generalize b.sent = sent at hsends
    cases hsends with
    | ready state cipher count pos => exact ⟨(pos.eq_nil hdrop).1, hdrop⟩
    | _ state => exact absurd (hreadyB.symm.trans state) (by simp)
  -- and then the initiator has all of the handshake
  have hreadyA := invA.ready_of_rest settingA.fair (zero_le _)
  obtain ⟨hbufferA, rfl⟩ : tA.sendBuffer = [] ∧ outA = [] := by
    rcases hcasesA with ⟨-, hready⟩ | ⟨hwait, -⟩ | hfalse
    · exact hready
    · exact absurd (hreadyA.symm.trans hwait) (by simp)
    · exact absurd hfalse (by simp)
  exact ⟨tA, tB, htA, htB, settingA, settingB, ⟨_, invA⟩, ⟨_, invB⟩, ⟨hreadyA, hbufferA⟩,
    ⟨hreadyB, hbufferB⟩⟩

theorem PairInv.accepts_v2
    (h : PairInv env (.v2 own peer true) (.v2 peer own false) a b) (ha : a.Quiet) (hb : b.Quiet)
    {msg : NetMsg} (hmsg : Sendable msg) :
    (∃ t, a.transport.setMessageToSend env msg = .ok (some t)) ∧
      ∃ t, b.transport.setMessageToSend env msg = .ok (some t) := by
  obtain ⟨tA, tB, hrest⟩ := h.rest_v2 ha hb
  obtain ⟨_, invA⟩ := hrest.invA
  obtain ⟨_, invB⟩ := hrest.invB
  obtain ⟨t, hset, -⟩ := invA.setMessage_of_ready env hmsg hrest.readyA.1 hrest.readyA.2
  obtain ⟨t', hset', -⟩ := invB.setMessage_of_ready env hmsg hrest.readyB.1 hrest.readyB.2
  rw [hrest.transportA, hrest.transportB]
  exact ⟨⟨_, by rw [Transport.setMessageToSend, hset]; rfl⟩,
    ⟨_, by rw [Transport.setMessageToSend, hset']; rfl⟩⟩

theorem faithful_of_inv {s : System}
    (h : PairInv env (link.initiatorSpec env) (link.responderSpec env) s.initiator s.responder) :
    Faithful env link s := by
  have hspec : link.initiatorV1 = true → link.initiatorSpec env = .v1 ∧
      (link.responderSpec env = .v1 ∨ link.responderSpec env = .v2v1) := by
    cases link <;> simp [Link.initiatorV1, Link.initiatorSpec, Link.responderSpec]
  have hmode : link.initiatorV1 = true → s.Quiet → s.initiator.sent ≠ [] →
      s.responder.transport.inV1Mode := by
    intro hlink hquiet hne
    refine h.inV1Mode (hspec hlink).2 ?_
    rw [h.received_eq hquiet.1]
    exact hne
  refine ⟨h.symm.received_prefix, h.received_prefix,
    fun hquiet => ⟨h.symm.received_eq hquiet.2, h.received_eq hquiet.1⟩, hmode, ?_, ?_⟩
  · intro hlink
    obtain ⟨outA, outB, todoA, todoB, h⟩ := h
    have hinv := h.invB
    cases link with
    | v2v2 =>
      obtain ⟨t, ht, -, inv⟩ := hinv.exists_v2
      rw [ht]
      exact inv.reads.ne_v1.1
    | _ => simp [Link.initiatorV1] at hlink
  · intro hquiet hsent msg hmsg
    cases hlink : link.initiatorV1 with
    | true =>
      obtain ⟨hA, hB⟩ := hspec hlink
      refine ⟨h.accepts_v1 hquiet.1 ?_ (.inl hA) hmsg,
        h.symm.accepts_v1 hquiet.2 (hmode hlink hquiet (hsent hlink)) hB hmsg⟩
      obtain ⟨outA, outB, todoA, todoB, h⟩ := h
      have hinv := h.invA
      rw [hA] at hinv
      cases ht : s.initiator.transport with
      | v1 t => trivial
      | v2 t =>
        rw [ht] at hinv
        cases hinv
    | false =>
      cases link with
      | v2v2 => exact PairInv.accepts_v2 h hquiet.1 hquiet.2 hmsg
      | _ => simp [Link.initiatorV1] at hlink

/-- **Transport streams are faithful.** Let messages with valid types and contents shorter than `2
^ 24` bytes be offered, sent and delivered in any pieces and any order. Nothing fails, and both
sides are faithful. -/
theorem run_faithful (env : NetEnv) (link : Link) (hlink : link.Fair env) (events : List Event)
    (hmsgs : ∀ party msg, .setMessage party msg ∈ events → Sendable msg)
    (hfirst : link.isV1V2 = true → FirstVersion (messagesOf .initiator events)) :
    ∃ start s, link.start = .ok start ∧ start.run env events = .ok s ∧ Faithful env link s := by
  obtain ⟨start, hstart, -, hinv⟩ := Link.start_inv hlink
  obtain ⟨s, hrun, hinv'⟩ := run_inv events hinv hmsgs fun hv1v2 _ => hfirst hv1v2
  exact ⟨start, s, hstart, hrun, faithful_of_inv hinv'⟩

/-! ### A network

The ciphers of this network hide nothing: they are enough to run connections
on it.
-/

def plainTag : List UInt8 := replicate aeadExpansion 0

/-- What is in front of a tag of zeros. -/
def plainOpen : List UInt8 → Option (UInt8 × List UInt8)
  | [] => none
  | header :: rest =>
    let size := rest.length - aeadExpansion
    if aeadExpansion ≤ rest.length ∧ rest.drop size = plainTag then some (header, rest.take size)
    else none

variable (header : UInt8)

theorem plainOpen_append (contents : List UInt8) :
    plainOpen (header :: (contents ++ plainTag)) = some (header, contents) := by
  have hlen : (contents ++ plainTag).length - aeadExpansion = contents.length := by simp [plainTag]
  rw [plainOpen, hlen, drop_left, take_left, if_pos ⟨by simp [plainTag], rfl⟩]

theorem length_of_plainOpen {input contents : List UInt8} {header : UInt8}
    (h : plainOpen input = some (header, contents)) :
    input.length = headerLen + contents.length + aeadExpansion := by
  cases input with
  | nil => cases h
  | cons first rest =>
    rw [plainOpen] at h
    split at h
    · obtain ⟨-, rfl⟩ := Prod.mk.inj (some.inj h)
      rw [length_cons, length_take, headerLen]
      omega
    · cases h

theorem length_plainSeal (contents : List UInt8) :
    (header :: (contents ++ plainTag)).length = headerLen + contents.length + aeadExpansion := by
  rw [length_cons, length_append, plainTag, length_replicate, headerLen]
  omega

/-- A direction whose packets are not encrypted. -/
def plainDirection : Direction where
  crypt _ bytes := bytes
  aeadEncrypt _ header contents _ := header :: (contents ++ plainTag)
  aeadDecrypt _ input _ := plainOpen input
  length_crypt _ _ := rfl
  crypt_crypt _ _ := rfl
  length_aeadEncrypt _ header contents _ := length_plainSeal header contents
  aeadDecrypt_aeadEncrypt _ header contents _ := plainOpen_append header contents
  length_aeadDecrypt _ _ _ _ _ h := length_of_plainOpen h

/-- The main network, with ciphers and a hash that hide nothing. -/
def plainEnv : NetEnv where
  magic := [0xf1, 0x51, 0x52, 0x4c]
  magic_length := rfl
  hash _ := 0
  session _ _ :=
    { initiator := plainDirection
      responder := plainDirection
      initiatorTerminator := replicate garbageTerminatorLen 1
      responderTerminator := replicate garbageTerminatorLen 2
      length_initiatorTerminator := rfl
      length_responderTerminator := rfl }

def plainKey : List UInt8 := replicate pubkeySize 3

def versionMsg : NetMsg := { mType := versionType, data := [] }

def pingMsg : NetMsg := { mType := ascii ['p', 'i', 'n', 'g'], data := replicate 8 0 }

theorem sendable_versionMsg : Sendable versionMsg := ⟨by decide, by decide⟩

theorem sendable_pingMsg : Sendable pingMsg := ⟨by decide, by decide⟩

/-- Two sides of the second transport, and an initiator of the first that
starts with a `version` message. -/
theorem run_faithful_plain : (∃ start s, (Link.v2v2 plainKey [7] plainKey []).start = .ok start ∧
      start.run plainEnv [.send .initiator false 20, .deliver .initiator 10,
        .setMessage .initiator pingMsg] = .ok s ∧
      Faithful plainEnv (.v2v2 plainKey [7] plainKey []) s) ∧
    ∃ start s, (Link.v1v2 plainKey []).start = .ok start ∧
      start.run plainEnv [.setMessage .initiator versionMsg, .send .initiator false 17,
        .deliver .initiator 17, .setMessage .responder pingMsg] = .ok s ∧
      Faithful plainEnv (.v1v2 plainKey []) s := by
  refine ⟨run_faithful plainEnv (.v2v2 plainKey [7] plainKey [])
      ⟨rfl, by decide, rfl, by decide, ?_, ?_, by decide⟩ _ ?_ (by simp [Link.isV1V2]),
    run_faithful plainEnv (.v1v2 plainKey []) (zero_le _) _ ?_ ?_⟩
  · intro n hn
    obtain rfl : n = 0 := by
      simp only [length_singleton] at hn
      omega
    decide
  · intro n hn
    exact absurd hn (not_lt_zero n)
  · intro party msg hmem
    obtain ⟨-, rfl⟩ : party = .initiator ∧ msg = pingMsg := by simpa using hmem
    exact sendable_pingMsg
  · intro party msg hmem
    rcases (by simpa using hmem : (party = .initiator ∧ msg = versionMsg) ∨
        (party = .responder ∧ msg = pingMsg)) with ⟨-, rfl⟩ | ⟨-, rfl⟩
    · exact sendable_versionMsg
    · exact sendable_pingMsg
  · intro _ msg hmem
    obtain rfl : versionMsg = msg := some.inj hmem
    rfl

/-- An initiator of the first transport offers a `ping` before its `version`. -/
def pingEvents : List Event :=
  [.setMessage .initiator pingMsg, .send .initiator false 24, .deliver .initiator 24,
    .send .responder false 64, .deliver .responder 64]

/-- **A first message of another type** makes the responder answer with its key, which the
initiator takes for a header. -/
theorem ping_before_version : (Link.v1v2 plainKey []).Fair plainEnv ∧
      (∀ party msg, .setMessage party msg ∈ pingEvents → Sendable msg) ∧
      ∃ start, (Link.v1v2 plainKey []).start = .ok start ∧
        start.run plainEnv pingEvents = .error .invalid := by
  refine ⟨zero_le _, ?_, _, rfl, rfl⟩
  intro party msg hmem
  obtain ⟨-, rfl⟩ : party = .initiator ∧ msg = pingMsg := by simpa [pingEvents] using hmem
  exact sendable_pingMsg

end Quarlcoin.Net
