import Quarlcoin.Common.Outcome
import Quarlcoin.Net.Cipher
/-!
# The second transport

`V2Transport` of `net.cpp`. A responder does not know at first whether the other side speaks
the first transport, and falls back to it if so. Where an `Assume` would not hold, the model
fails; how memory is reserved and the log are left out.
-/

namespace Quarlcoin.Net

open Codec Buffering

def maxGarbageLen : ℕ := 4095

def v1PrefixLen : ℕ := 16

def pubkeySize : ℕ := 64

def maxContentsLen : ℕ := 1 + messageTypeSize + min Serialize.maxSize maxProtocolMessageLength

def versionContents : List UInt8 := []

/-! ## Message types -/

def v2MessageIds : List (List UInt8) :=
  [ [], ascii ['a', 'd', 'd', 'r'], ascii ['b', 'l', 'o', 'c', 'k'],
    ascii ['b', 'l', 'o', 'c', 'k', 't', 'x', 'n'],
    ascii ['c', 'm', 'p', 'c', 't', 'b', 'l', 'o', 'c', 'k'],
    ascii ['f', 'e', 'e', 'f', 'i', 'l', 't', 'e', 'r'],
    ascii ['f', 'i', 'l', 't', 'e', 'r', 'a', 'd', 'd'],
    ascii ['f', 'i', 'l', 't', 'e', 'r', 'c', 'l', 'e', 'a', 'r'],
    ascii ['f', 'i', 'l', 't', 'e', 'r', 'l', 'o', 'a', 'd'],
    ascii ['g', 'e', 't', 'b', 'l', 'o', 'c', 'k', 's'],
    ascii ['g', 'e', 't', 'b', 'l', 'o', 'c', 'k', 't', 'x', 'n'],
    ascii ['g', 'e', 't', 'd', 'a', 't', 'a'],
    ascii ['g', 'e', 't', 'h', 'e', 'a', 'd', 'e', 'r', 's'],
    ascii ['h', 'e', 'a', 'd', 'e', 'r', 's'],
    ascii ['i', 'n', 'v'],
    ascii ['m', 'e', 'm', 'p', 'o', 'o', 'l'],
    ascii ['m', 'e', 'r', 'k', 'l', 'e', 'b', 'l', 'o', 'c', 'k'],
    ascii ['n', 'o', 't', 'f', 'o', 'u', 'n', 'd'],
    ascii ['p', 'i', 'n', 'g'],
    ascii ['p', 'o', 'n', 'g'],
    ascii ['s', 'e', 'n', 'd', 'c', 'm', 'p', 'c', 't'],
    ascii ['t', 'x'],
    ascii ['g', 'e', 't', 'c', 'f', 'i', 'l', 't', 'e', 'r', 's'],
    ascii ['c', 'f', 'i', 'l', 't', 'e', 'r'],
    ascii ['g', 'e', 't', 'c', 'f', 'h', 'e', 'a', 'd', 'e', 'r', 's'],
    ascii ['c', 'f', 'h', 'e', 'a', 'd', 'e', 'r', 's'],
    ascii ['g', 'e', 't', 'c', 'f', 'c', 'h', 'e', 'c', 'k', 'p', 't'],
    ascii ['c', 'f', 'c', 'h', 'e', 'c', 'k', 'p', 't'],
    ascii ['a', 'd', 'd', 'r', 'v', '2'],
    [], [], [],
    [], [], [], [],
    [],
    ascii ['f', 'e', 'a', 't', 'u', 'r', 'e'] ]

/-- `V2_MESSAGE_MAP`: the first number of a type, from 1 on. -/
def v2MessageMap (mType : List UInt8) : Option ℕ :=
  ((v2MessageIds.drop 1).idxOf? mType).map (· + 1)

/-- The contents of a packet with a message; a long type is written behind a zero. -/
def messageContents (msg : NetMsg) : Except TransportError (List UInt8) :=
  match v2MessageMap msg.mType with
  | some id => .ok (UInt8.ofNat id :: msg.data)
  | none =>
    if messageTypeSize + msg.data.length < msg.mType.length then .error .outOfBounds
    else .ok (0 :: ((msg.mType ++ List.replicate (messageTypeSize - msg.mType.length) 0).take
      messageTypeSize ++ msg.data))

def longType (bytes : List UInt8) : Option (List UInt8) :=
  let name := bytes.takeWhile (· ≠ 0)
  if name.any (fun c => c < 0x20 || 0x7f < c) then none
  else if (bytes.drop name.length).all (· == 0) then some name
  else none

/-- `GetMessageType`, with the rest of the contents. -/
def getMessageType : List UInt8 → Option (List UInt8 × List UInt8)
  | [] => none
  | first :: contents =>
    if first ≠ 0 then (v2MessageIds[first.toNat]?).map fun mType => (mType, contents)
    else if contents.length < messageTypeSize then none
    else (longType (contents.take messageTypeSize)).map fun mType =>
      (mType, contents.drop messageTypeSize)

/-! ## The transport -/

inductive RecvState where
  | keyMaybeV1
  | key
  | garbGarbterm
  | version
  | app
  | appReady
  | v1
  deriving DecidableEq

inductive SendState where
  | maybeV1
  | awaitingKey
  | ready
  | v1
  deriving DecidableEq

structure V2Transport where
  cipher : Bip324Cipher
  initiating : Bool
  v1Fallback : V1Transport := {}
  recvLen : ℕ := 0
  recvBuffer : List UInt8 := []
  recvAad : List UInt8 := []
  recvDecodeBuffer : List UInt8 := []
  recvState : RecvState
  sendBuffer : List UInt8 := []
  sendPos : ℕ := 0
  sendGarbage : List UInt8
  sendType : List UInt8 := []
  sendState : SendState

namespace V2Transport

variable (env : NetEnv) (t : V2Transport)

def recvAllowed : RecvState → RecvState → Bool
  | .keyMaybeV1, next => next == .key || next == .v1
  | .key, next => next == .garbGarbterm
  | .garbGarbterm, next => next == .version
  | .version, next => next == .app
  | .app, next => next == .appReady
  | .appReady, next => next == .app
  | .v1, _ => false

def setReceiveState (next : RecvState) : Except TransportError V2Transport := do
  assume (recvAllowed t.recvState next)
  pure { t with recvState := next }

def sendAllowed : SendState → SendState → Bool
  | .maybeV1, next => next == .v1 || next == .awaitingKey
  | .awaitingKey, next => next == .ready
  | .ready, _ => false
  | .v1, _ => false

def setSendState (next : SendState) : Except TransportError V2Transport := do
  assume (sendAllowed t.sendState next)
  pure { t with sendState := next }

def startSendingHandshake : Except TransportError V2Transport := do
  assume (t.sendState == .awaitingKey)
  assume t.sendBuffer.isEmpty
  pure { t with sendBuffer := t.cipher.ourPubkey ++ t.sendGarbage }

def create (initiating : Bool) (pubkey garbage : List UInt8) :
    Except TransportError V2Transport := do
  assume (garbage.length ≤ maxGarbageLen)
  let t : V2Transport :=
    { cipher := { ourPubkey := pubkey }
      initiating
      recvState := if initiating then .key else .keyMaybeV1
      sendGarbage := garbage
      sendState := if initiating then .awaitingKey else .maybeV1 }
  if initiating then t.startSendingHandshake else pure t

def receivedMessageComplete : Bool :=
  if t.recvState = .v1 then t.v1Fallback.recv.complete else t.recvState == .appReady

/-! ### Processing the receive buffer -/

/-- The start of a `version` message of the first transport, after the start
characters. -/
def versionMatch : List UInt8 := padType versionType

def v1Prefix : List UInt8 := env.magic ++ versionMatch

def processReceivedMaybeV1Bytes : Except TransportError V2Transport := do
  assume (t.recvState == .keyMaybeV1)
  assume (t.recvBuffer.length ≤ v1PrefixLen)
  if ¬ t.recvBuffer <+: v1Prefix env then
    let t ← t.setReceiveState .key
    let t ← t.setSendState .awaitingKey
    t.startSendingHandshake
  else if t.recvBuffer.length = v1PrefixLen then
    match t.v1Fallback.recv.receivedBytes env.toNetParams t.recvBuffer with
    | .error _ => .error .assumption
    | .ok (recv, feedback) =>
      assume feedback.isEmpty
      let t ← { t with v1Fallback := { t.v1Fallback with recv } }.setReceiveState .v1
      let t ← t.setSendState .v1
      pure { t with recvBuffer := [], sendBuffer := [] }
  else pure t

def processReceivedKeyBytes : Except TransportError V2Transport := do
  assume (t.recvState == .key)
  assume (t.recvBuffer.length ≤ pubkeySize)
  if !t.initiating && 4 + messageTypeSize ≤ t.recvBuffer.length &&
      (t.recvBuffer.drop 4).take messageTypeSize == versionMatch then .error .invalid
  else if t.recvBuffer.length = pubkeySize then
    let t := { t with cipher := t.cipher.initializeWith env t.recvBuffer t.initiating }
    let t ← t.setReceiveState .garbGarbterm
    let t ← { t with recvBuffer := [] }.setSendState .ready
    let (packet, cipher) ← t.cipher.encrypt versionContents t.sendGarbage false
    pure { t with
      cipher
      sendBuffer := t.sendBuffer ++ t.cipher.sendGarbageTerminator ++ packet
      sendGarbage := [] }
  else pure t

def processReceivedGarbageBytes : Except TransportError V2Transport := do
  assume (t.recvState == .garbGarbterm)
  assume (t.recvBuffer.length ≤ maxGarbageLen + garbageTerminatorLen)
  let garbage := t.recvBuffer.length - garbageTerminatorLen
  if garbageTerminatorLen ≤ t.recvBuffer.length then
    if t.recvBuffer.drop garbage = t.cipher.recvGarbageTerminator then
      setReceiveState { t with recvAad := t.recvBuffer.take garbage, recvBuffer := [] } .version
    else if t.recvBuffer.length = maxGarbageLen + garbageTerminatorLen then .error .invalid
    else pure t
  else pure t

/-- What is done with a packet that is not a decoy. -/
def packetState : Except TransportError V2Transport :=
  match t.recvState with
  | .version => t.setReceiveState .app
  | .app => t.setReceiveState .appReady
  | _ => .error .assumption

def processReceivedPacketBytes : Except TransportError V2Transport := do
  assume (t.recvState == .version || t.recvState == .app)
  if t.recvBuffer.length = lengthLen then
    let (recvLen, cipher) ← t.cipher.decryptLength t.recvBuffer
    if recvLen > maxContentsLen then .error .invalid
    else pure { t with cipher, recvLen }
  else if t.recvBuffer.length > lengthLen ∧ t.recvBuffer.length = t.recvLen + expansion then
    let (opened, cipher) ← t.cipher.decrypt (t.recvBuffer.drop lengthLen) t.recvAad
    match opened with
    | none => .error .invalid
    | some (ignore, contents) =>
      let t := { t with cipher, recvDecodeBuffer := contents, recvAad := [] }
      let t ← if ignore then pure t else t.packetState
      pure { t with
        recvBuffer := []
        recvDecodeBuffer := if t.recvState = .appReady then t.recvDecodeBuffer else [] }
  else pure t

/-! ### Receiving -/

def getMaxBytesToProcess : Except TransportError ℕ :=
  match t.recvState with
  | .keyMaybeV1 => do
    assume (t.recvBuffer.length ≤ v1PrefixLen)
    pure (v1PrefixLen - t.recvBuffer.length)
  | .key => do
    assume (t.recvBuffer.length ≤ pubkeySize)
    pure (pubkeySize - t.recvBuffer.length)
  | .garbGarbterm => pure 1
  | .version | .app =>
    if t.recvBuffer.length < lengthLen then pure (lengthLen - t.recvBuffer.length)
    else pure (expansion + t.recvLen - t.recvBuffer.length)
  | .appReady => pure 0
  | .v1 => .error .assumption

/-- The switch of `ReceivedBytes`: whether it returns. -/
def processReceived : Except TransportError (V2Transport × Bool) :=
  match t.recvState with
  | .keyMaybeV1 => (t.processReceivedMaybeV1Bytes env).map fun t => (t, t.recvState == .v1)
  | .key => (t.processReceivedKeyBytes env).map fun t => (t, false)
  | .garbGarbterm => t.processReceivedGarbageBytes.map fun t => (t, false)
  | .version | .app => t.processReceivedPacketBytes.map fun t => (t, false)
  | .appReady => .ok (t, true)
  | .v1 => .error .assumption

variable (bytes : List UInt8)

/-- One pass of the loop of `ReceivedBytes`: the transport, the bytes left and whether it returns.
-/
def receivePass : Except TransportError (V2Transport × List UInt8 × Bool) := do
  let maxRead ← t.getMaxBytesToProcess
  let maxRead := min bytes.length maxRead
  let (t, stop) ← { t with recvBuffer := t.recvBuffer ++ bytes.take maxRead }.processReceived env
  assume (stop || decide (0 < maxRead))
  pure (t, bytes.drop maxRead, stop)

def receiveLoop : ℕ → V2Transport → List UInt8 → Except TransportError (V2Transport × List UInt8)
  | _, t, [] => .ok (t, [])
  | 0, _, _ => .error .stuck
  | passes + 1, t, bytes => do
    let (t, left, stop) ← t.receivePass env bytes
    if stop then pure (t, left) else receiveLoop passes t left

/-- `ReceivedBytes`. Every pass takes a byte, or is the last. -/
def receivedBytes : Except TransportError (V2Transport × List UInt8) :=
  if t.recvState = .v1 then
    (t.v1Fallback.recv.receivedBytes env.toNetParams bytes).map fun r =>
      ({ t with v1Fallback := { t.v1Fallback with recv := r.1 } }, r.2)
  else receiveLoop env (bytes.length + 1) t bytes

def getReceivedMessage : Except TransportError (Option NetMsg × V2Transport) :=
  if t.recvState = .v1 then
    (t.v1Fallback.recv.getReceivedMessage env.toNetParams).map fun r =>
      (r.1, { t with v1Fallback := { t.v1Fallback with recv := r.2 } })
  else do
    assume (t.recvState == .appReady)
    let msg := (getMessageType t.recvDecodeBuffer).map fun r =>
      { mType := r.1, data := r.2 : NetMsg }
    let t ← { t with recvDecodeBuffer := [] }.setReceiveState .app
    pure (msg, t)

/-! ### Sending -/

/-- `SetMessageToSend`: none if the message is not taken. -/
def setMessageToSend (msg : NetMsg) : Except TransportError (Option V2Transport) :=
  if t.sendState = .v1 then
    (t.v1Fallback.send.setMessageToSend env.toNetParams msg).map fun r =>
      r.map fun send => { t with v1Fallback := { t.v1Fallback with send } }
  else if ¬ (t.sendState = .ready ∧ t.sendBuffer = []) then .ok none
  else do
    let contents ← messageContents msg
    let (packet, cipher) ← t.cipher.encrypt contents [] false
    pure (some { t with cipher, sendBuffer := packet, sendType := msg.mType })

def getBytesToSend (haveNextMessage : Bool) : Except TransportError BytesToSend :=
  if t.sendState = .v1 then .ok (t.v1Fallback.send.getBytesToSend haveNextMessage)
  else do
    assume (t.sendState != .maybeV1 || t.sendBuffer.isEmpty)
    assume (t.sendPos ≤ t.sendBuffer.length)
    pure
      { toSend := t.sendBuffer.drop t.sendPos
        more := haveNextMessage && t.sendState == .ready
        mType := t.sendType }

def markBytesSent (bytesSent : ℕ) : Except TransportError V2Transport :=
  if t.sendState = .v1 then
    .ok { t with v1Fallback :=
      { t.v1Fallback with send := t.v1Fallback.send.markBytesSent bytesSent } }
  else do
    let sendPos := t.sendPos + bytesSent
    assume (sendPos ≤ t.sendBuffer.length)
    if sendPos = t.sendBuffer.length then pure { t with sendPos := 0, sendBuffer := [] }
    else pure { t with sendPos }

end V2Transport

end Quarlcoin.Net
