import Quarlcoin.Net.V2Receive
/-!
# Connections

Two sides, each with a transport and a queue of bytes on the way to the other. A run is any
interleaving of giving a message to a side, sending some of the bytes that it shows and
delivering some of the bytes on the way (`CNode::ReceiveMsgBytes`).
-/

namespace Quarlcoin.Net

open V2Transport

inductive Transport where
  | v1 (t : V1Transport)
  | v2 (t : V2Transport)

namespace Transport

variable (env : NetEnv)

def receivedBytes : Transport → List UInt8 → Except TransportError (Transport × List UInt8)
  | .v1 t, bytes =>
    (t.recv.receivedBytes env.toNetParams bytes).map fun r => (.v1 { t with recv := r.1 }, r.2)
  | .v2 t, bytes => (t.receivedBytes env bytes).map fun r => (.v2 r.1, r.2)

def receivedMessageComplete : Transport → Bool
  | .v1 t => t.recv.complete
  | .v2 t => t.receivedMessageComplete

def getReceivedMessage : Transport → Except TransportError (Option NetMsg × Transport)
  | .v1 t => (t.recv.getReceivedMessage env.toNetParams).map fun r =>
      (r.1, .v1 { t with recv := r.2 })
  | .v2 t => (t.getReceivedMessage env).map fun r => (r.1, .v2 r.2)

def setMessageToSend : Transport → NetMsg → Except TransportError (Option Transport)
  | .v1 t, msg => (t.send.setMessageToSend env.toNetParams msg).map fun r =>
      r.map fun send => .v1 { t with send }
  | .v2 t, msg => (t.setMessageToSend env msg).map fun r => r.map .v2

def getBytesToSend : Transport → Bool → Except TransportError BytesToSend
  | .v1 t, haveNextMessage => .ok (t.send.getBytesToSend haveNextMessage)
  | .v2 t, haveNextMessage => t.getBytesToSend haveNextMessage

def markBytesSent : Transport → ℕ → Except TransportError Transport
  | .v1 t, bytesSent => .ok (.v1 { t with send := t.send.markBytesSent bytesSent })
  | .v2 t, bytesSent => (t.markBytesSent bytesSent).map .v2

def inV1Mode : Transport → Prop
  | .v1 _ => True
  | .v2 t => t.recvState = .v1

/-- The loop of `ReceiveMsgBytes`: the transport and the messages. A rejected message is dropped.
-/
def receiveMsgLoop : ℕ → Transport → List UInt8 → Except TransportError (Transport × List NetMsg)
  | _, t, [] => .ok (t, [])
  | 0, _, _ => .error .stuck
  | passes + 1, t, bytes => do
    let (t, left) ← t.receivedBytes env bytes
    if t.receivedMessageComplete then
      let (msg, t) ← t.getReceivedMessage env
      let (t, msgs) ← receiveMsgLoop passes t left
      pure (t, msg.toList ++ msgs)
    else receiveMsgLoop passes t left

def receiveMsgBytes (t : Transport) (bytes : List UInt8) :
    Except TransportError (Transport × List NetMsg) :=
  receiveMsgLoop env bytes.length t bytes

def receivePieces : Transport → List (List UInt8) → Except TransportError (Transport × List NetMsg)
  | t, [] => .ok (t, [])
  | t, piece :: pieces => do
    let (t, msgs) ← t.receiveMsgBytes env piece
    let (t, msgs') ← receivePieces t pieces
    pure (t, msgs ++ msgs')

/-! ### Rules for the loops -/

section

variable {env} {J : Transport → List UInt8 → List NetMsg → Prop}

/-- What a call of `ReceivedBytes` leads to, for an invariant `J`: it goes on, or the next message
can be given out. -/
def After (env : NetEnv) (J : Transport → List UInt8 → List NetMsg → Prop) (t : Transport)
    (rest : List UInt8) (todo : List NetMsg) : Prop :=
  t.receivedMessageComplete = false ∧ J t rest todo ∨
    t.receivedMessageComplete = true ∧ ∃ msg todo' t', todo = msg :: todo' ∧
      t.getReceivedMessage env = .ok (some msg, t') ∧ J t' rest todo'

/-- An invariant that every call of `ReceivedBytes` keeps, taking a byte. -/
def Keeps (env : NetEnv) (J : Transport → List UInt8 → List NetMsg → Prop) : Prop :=
  ∀ (t : Transport) (bytes rest : List UInt8) (todo : List NetMsg), bytes ≠ [] →
    J t (bytes ++ rest) todo →
    ∃ t' left, t.receivedBytes env bytes = .ok (t', left) ∧ left.length < bytes.length ∧
      After env J t' (left ++ rest) todo

/-- **The rule for the loop of `ReceiveMsgBytes`**, by induction on its
passes. -/
theorem receiveMsgLoop_rule (hcall : Keeps env J) : ∀ (passes : ℕ) {t : Transport}
    {bytes rest : List UInt8} {todo : List NetMsg}, bytes.length ≤ passes →
    J t (bytes ++ rest) todo →
    ∃ t' msgs todo', t.receiveMsgLoop env passes bytes = .ok (t', msgs) ∧ todo = msgs ++ todo' ∧
      J t' rest todo'
  | passes, t, [], _, todo, _, h => by
    refine ⟨t, [], todo, ?_, rfl, h⟩
    cases passes <;> rw [receiveMsgLoop]
  | 0, _, _ :: _, _, _, hpasses, _ => absurd hpasses (Nat.not_succ_le_zero _)
  | passes + 1, t, b :: bs, rest, todo, hpasses, h => by
    obtain ⟨t₁, left, hrun, hleft, hafter⟩ := hcall _ _ _ _ (by simp) h
    have hpasses' : left.length ≤ passes := by omega
    rcases hafter with ⟨hcomplete, hJ⟩ | ⟨hcomplete, msg, todo₁, t₂, rfl, hget, hJ⟩
    · obtain ⟨t', msgs, todo', hloop, htodo', hJ'⟩ := receiveMsgLoop_rule hcall passes hpasses' hJ
      refine ⟨t', msgs, todo', ?_, htodo', hJ'⟩
      rw [receiveMsgLoop, hrun]
      · simp only [ok_bind, hcomplete]
        exact hloop
      · simp
    · obtain ⟨t', msgs, todo', hloop, rfl, hJ'⟩ := receiveMsgLoop_rule hcall passes hpasses' hJ
      refine ⟨t', msg :: msgs, todo', ?_, rfl, hJ'⟩
      rw [receiveMsgLoop, hrun]
      · simp only [ok_bind, hcomplete, hget, hloop]
        rfl
      · simp

/-- **The rule for `ReceiveMsgBytes`.** -/
theorem receiveMsgBytes_rule (hcall : Keeps env J) {t : Transport} {bytes rest : List UInt8}
    {todo : List NetMsg} (h : J t (bytes ++ rest) todo) :
    ∃ t' msgs todo', t.receiveMsgBytes env bytes = .ok (t', msgs) ∧ todo = msgs ++ todo' ∧
      J t' rest todo' :=
  receiveMsgLoop_rule hcall _ le_rfl h

/-- **The rule for pieces**: the cuts do not matter. -/
theorem receivePieces_rule (hcall : Keeps env J) : ∀ (pieces : List (List UInt8)) {t : Transport}
    {rest : List UInt8} {todo : List NetMsg}, J t (pieces.flatten ++ rest) todo →
    ∃ t' msgs todo', t.receivePieces env pieces = .ok (t', msgs) ∧ todo = msgs ++ todo' ∧
      J t' rest todo'
  | [], t, _, todo, h => ⟨t, [], todo, rfl, rfl, h⟩
  | piece :: pieces, t, rest, todo, h => by
    rw [List.flatten_cons, List.append_assoc] at h
    obtain ⟨t₁, msgs₁, todo₁, hrun₁, rfl, hJ₁⟩ := receiveMsgBytes_rule hcall h
    obtain ⟨t', msgs, todo', hrun, rfl, hJ⟩ := receivePieces_rule hcall pieces hJ₁
    refine ⟨t', msgs₁ ++ msgs, todo', ?_, (List.append_assoc ..).symm, hJ⟩
    rw [receivePieces, hrun₁]
    simp only [ok_bind, hrun]
    rfl

end

end Transport

/-! ## Runs -/

/-- One side: its transport, its bytes on the way, the messages it took and those it received. -/
structure Side where
  transport : Transport
  wire : List UInt8 := []
  sent : List NetMsg := []
  received : List NetMsg := []

/-- Who acts. -/
inductive Party where
  | initiator
  | responder
  deriving DecidableEq

structure System where
  initiator : Side
  responder : Side

/-- What can happen. -/
inductive Event where
  /-- A message is offered to a side. -/
  | setMessage (party : Party) (msg : NetMsg)
  /-- A side sends up to `n` of the bytes that it shows. -/
  | send (party : Party) (haveNextMessage : Bool) (n : ℕ)
  /-- Up to `n` of the bytes that a side has sent reach the other. -/
  | deliver (party : Party) (n : ℕ)

namespace Side

variable (env : NetEnv) (s : Side)

def setMessage (msg : NetMsg) : Except TransportError Side := do
  match ← s.transport.setMessageToSend env msg with
  | none => pure s
  | some transport => pure { s with transport, sent := s.sent ++ [msg] }

def sendBytes (haveNextMessage : Bool) (n : ℕ) : Except TransportError Side := do
  let shown ← s.transport.getBytesToSend haveNextMessage
  let count := min n shown.toSend.length
  let transport ← s.transport.markBytesSent count
  pure { s with transport, wire := s.wire ++ shown.toSend.take count }

def arrive (bytes : List UInt8) : Except TransportError Side := do
  let (transport, msgs) ← s.transport.receiveMsgBytes env bytes
  pure { s with transport, received := s.received ++ msgs }

end Side

namespace System

variable (env : NetEnv)

def step (s : System) : Event → Except TransportError System
  | .setMessage .initiator msg =>
    (s.initiator.setMessage env msg).map fun initiator => { s with initiator }
  | .setMessage .responder msg =>
    (s.responder.setMessage env msg).map fun responder => { s with responder }
  | .send .initiator haveNextMessage n =>
    (s.initiator.sendBytes haveNextMessage n).map fun initiator => { s with initiator }
  | .send .responder haveNextMessage n =>
    (s.responder.sendBytes haveNextMessage n).map fun responder => { s with responder }
  | .deliver .initiator n => (s.responder.arrive env (s.initiator.wire.take n)).map fun responder =>
      { initiator := { s.initiator with wire := s.initiator.wire.drop n }, responder }
  | .deliver .responder n =>
    (s.initiator.arrive env (s.responder.wire.take n)).map fun initiator =>
      { initiator, responder := { s.responder with wire := s.responder.wire.drop n } }

def run : System → List Event → Except TransportError System
  | s, [] => .ok s
  | s, e :: events => do
    let s ← s.step env e
    run s events

end System

/-- How a connection starts: the transports of the two sides, with keys and garbage of the second
one. -/
inductive Link where
  | v1v1
  | v1v2 (key garbage : List UInt8)
  | v2v2 (key garbage responderKey responderGarbage : List UInt8)

namespace Link

def initiatorV1 : Link → Bool
  | .v1v1 => true
  | .v1v2 _ _ => true
  | .v2v2 _ _ _ _ => false

def start : Link → Except TransportError System
  | .v1v1 => .ok { initiator := { transport := .v1 {} }, responder := { transport := .v1 {} } }
  | .v1v2 key garbage => do
    let responder ← create false key garbage
    pure { initiator := { transport := .v1 {} }, responder := { transport := .v2 responder } }
  | .v2v2 key garbage responderKey responderGarbage => do
    let initiator ← create true key garbage
    let responder ← create false responderKey responderGarbage
    pure
      { initiator := { transport := .v2 initiator }
        responder := { transport := .v2 responder } }

end Link

end Quarlcoin.Net
