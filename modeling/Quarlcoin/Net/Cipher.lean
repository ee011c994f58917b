import Quarlcoin.Net.V1Transport
/-!
# The packet cipher

`BIP324Cipher` of `bip324.cpp`, ideal: each direction of a session has a function that
encrypts the length of a packet and one that seals its contents, both numbered by the
packet, and what was encrypted with a number is decrypted with it. The length has three
bytes, so that it is read modulo `2 ^ 24` (`decryptLength_packet`).
-/

namespace Quarlcoin.Net

open Codec

def lengthLen : ℕ := 3

def headerLen : ℕ := 1

def aeadExpansion : ℕ := 16

def expansion : ℕ := lengthLen + headerLen + aeadExpansion

def garbageTerminatorLen : ℕ := 16

def ignoreBit : UInt8 := 0x80

/-- The two ciphers of one direction: `FSChaCha20` for lengths, and `FSChaCha20Poly1305` for a
header and contents. -/
structure Direction where
  crypt : ℕ → List UInt8 → List UInt8
  aeadEncrypt : ℕ → UInt8 → List UInt8 → List UInt8 → List UInt8
  aeadDecrypt : ℕ → List UInt8 → List UInt8 → Option (UInt8 × List UInt8)
  length_crypt : ∀ n bytes, (crypt n bytes).length = bytes.length
  crypt_crypt : ∀ n bytes, crypt n (crypt n bytes) = bytes
  length_aeadEncrypt : ∀ n header contents aad,
    (aeadEncrypt n header contents aad).length = headerLen + contents.length + aeadExpansion
  aeadDecrypt_aeadEncrypt : ∀ n header contents aad,
    aeadDecrypt n (aeadEncrypt n header contents aad) aad = some (header, contents)
  length_aeadDecrypt : ∀ n input aad header contents,
    aeadDecrypt n input aad = some (header, contents) →
    input.length = headerLen + contents.length + aeadExpansion

/-- What is derived from the shared secret. -/
structure Session where
  initiator : Direction
  responder : Direction
  initiatorTerminator : List UInt8
  responderTerminator : List UInt8
  length_initiatorTerminator : initiatorTerminator.length = garbageTerminatorLen
  length_responderTerminator : responderTerminator.length = garbageTerminatorLen

/-- The second transport: the session that the public keys of both sides lead to. -/
structure NetEnv extends NetParams where
  session : List UInt8 → List UInt8 → Session

/-- `BIP324Cipher`: the ciphers are there once it is initialized. -/
structure Bip324Cipher where
  ourPubkey : List UInt8
  sendCipher : Option Direction := none
  recvCipher : Option Direction := none
  sendGarbageTerminator : List UInt8 := []
  recvGarbageTerminator : List UInt8 := []
  /-- The next packet to encrypt. -/
  sendCount : ℕ := 0
  /-- The next packet whose length is to be decrypted. -/
  recvLenCount : ℕ := 0
  /-- The next packet to decrypt. -/
  recvCount : ℕ := 0

namespace Bip324Cipher

variable (env : NetEnv) (c : Bip324Cipher)

def initializeWith (theirPubkey : List UInt8) (initiator : Bool) : Bip324Cipher :=
  let session :=
    if initiator then env.session c.ourPubkey theirPubkey else env.session theirPubkey c.ourPubkey
  { ourPubkey := c.ourPubkey
    sendCipher := some (if initiator then session.initiator else session.responder)
    recvCipher := some (if initiator then session.responder else session.initiator)
    sendGarbageTerminator :=
      if initiator then session.initiatorTerminator else session.responderTerminator
    recvGarbageTerminator :=
      if initiator then session.responderTerminator else session.initiatorTerminator }

def encrypt (contents aad : List UInt8) (ignore : Bool) :
    Except TransportError (List UInt8 × Bip324Cipher) :=
  match c.sendCipher with
  | none => .error .assumption
  | some cipher =>
    .ok (cipher.crypt c.sendCount (leBytes lengthLen contents.length) ++
        cipher.aeadEncrypt c.sendCount (if ignore then ignoreBit else 0) contents aad,
      { c with sendCount := c.sendCount + 1 })

def decryptLength (input : List UInt8) : Except TransportError (ℕ × Bip324Cipher) :=
  match c.recvCipher with
  | none => .error .assumption
  | some cipher => do
    assume (input.length == lengthLen)
    pure (leValue (cipher.crypt c.recvLenCount input),
      { c with recvLenCount := c.recvLenCount + 1 })

/-- `Decrypt`: whether the packet is a decoy, and its contents; none if it is
not authentic. -/
def decrypt (input aad : List UInt8) :
    Except TransportError (Option (Bool × List UInt8) × Bip324Cipher) :=
  match c.recvCipher with
  | none => .error .assumption
  | some cipher =>
    .ok ((cipher.aeadDecrypt c.recvCount input aad).map fun r =>
        (r.1 &&& ignoreBit == ignoreBit, r.2),
      { c with recvCount := c.recvCount + 1 })

end Bip324Cipher

/-! ## Packets -/

def Direction.packet (d : Direction) (n : ℕ) (contents aad : List UInt8) : List UInt8 :=
  d.crypt n (leBytes lengthLen contents.length) ++ d.aeadEncrypt n 0 contents aad

variable (d : Direction) (n : ℕ) (contents aad : List UInt8)

@[simp] theorem length_packet : (d.packet n contents aad).length = contents.length + expansion := by
  simp only [Direction.packet, List.length_append, d.length_crypt, length_leBytes,
    d.length_aeadEncrypt, expansion]
  omega

theorem leValue_lengthLen (size : ℕ) : leValue (leBytes lengthLen size) = size % 2 ^ 24 := by
  simp only [lengthLen, leBytes, leValue, UInt8.toNat_ofNat']
  omega

theorem take_packet : (d.packet n contents aad).take lengthLen =
    d.crypt n (leBytes lengthLen contents.length) :=
  List.take_left' (by rw [d.length_crypt, length_leBytes])

/-- **The length that a receiver reads** of a packet. -/
theorem decryptLength_packet {c : Bip324Cipher} (hcipher : c.recvCipher = some d)
    (hcount : c.recvLenCount = n) : c.decryptLength ((d.packet n contents aad).take lengthLen) =
      .ok (contents.length % 2 ^ 24, { c with recvLenCount := n + 1 }) := by
  have hlen : (d.crypt n (leBytes lengthLen contents.length)).length = lengthLen := by
    rw [d.length_crypt, length_leBytes]
  rw [take_packet, Bip324Cipher.decryptLength, hcipher]
  simp only [hlen, hcount, d.crypt_crypt, leValue_lengthLen]
  rfl

/-- **A packet is decrypted** with the number it was encrypted with. -/
theorem decrypt_packet {c : Bip324Cipher} (hcipher : c.recvCipher = some d)
    (hcount : c.recvCount = n) : c.decrypt ((d.packet n contents aad).drop lengthLen) aad =
      .ok (some (false, contents), { c with recvCount := n + 1 }) := by
  have hkeep : ((0 : UInt8) &&& ignoreBit == ignoreBit) = false := by decide
  rw [Direction.packet, List.drop_left' (by rw [d.length_crypt, length_leBytes]),
    Bip324Cipher.decrypt, hcipher]
  simp only [hcount, d.aeadDecrypt_aeadEncrypt, Option.map_some, hkeep]

theorem encrypt_packet {c : Bip324Cipher} (hcipher : c.sendCipher = some d)
    (hcount : c.sendCount = n) : c.encrypt contents aad false =
      .ok (d.packet n contents aad, { c with sendCount := n + 1 }) := by
  rw [Bip324Cipher.encrypt, hcipher]
  simp only [hcount]
  rfl

end Quarlcoin.Net
