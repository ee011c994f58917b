import Mathlib.Algebra.Ring.Nat
import Mathlib.Data.Nat.Size
import Quarlcoin.Common.Outcome
import Quarlcoin.Common.Stepping
/-!
# Address maps

`util/asmap.cpp`: a map from address prefixes to autonomous system numbers, written as a
program of four instructions in a string of bits. `Interpret` follows the path that the bits
of an address choose; `SanityCheckAsmap` walks the program once, with a stack of the places
that jumps lead to.
-/

namespace Quarlcoin.Asmap

open Stepping List Nat

/-! ## Decoding -/

/-- What may not happen. -/
inductive Fault where
  /-- A byte past the end of the data is read. -/
  | readPastEnd
  /-- A byte past the end of the address is read. -/
  | addressPastEnd
  /-- `assert(false)` at the end of `Interpret` -/
  | noReturn
  deriving DecidableEq

variable (bitpos : ℕ) (bytes : List UInt8)

def consumeBitLE : Except Fault (Bool × ℕ) :=
  match bytes[bitpos / 8]? with
  | none => .error .readPastEnd
  | some byte => .ok (byte.toNat.testBit (bitpos % 8), bitpos + 1)

/-- `ConsumeBitBE`; the position is a `uint8_t`. -/
def consumeBitBE : Except Fault (Bool × ℕ) :=
  match bytes[bitpos / 8]? with
  | none => .error .addressPastEnd
  | some byte => .ok (byte.toNat.testBit (7 - bitpos % 8), (bitpos + 1) % 2 ^ 8)

/-- The loop of `DecodeBits` over the bits within a class; `none` is `INVALID`. -/
def decodeMantissa (data : List UInt8) : ℕ → ℕ → ℕ → Except Fault (Option ℕ × ℕ)
  | 0, val, bitpos => .ok (some val, bitpos)
  | b + 1, val, bitpos =>
    if data.length * 8 ≤ bitpos then .ok (none, bitpos)
    else do
      let (bit, bitpos) ← consumeBitLE bitpos data
      decodeMantissa data b (val + if bit then 2 ^ b else 0) bitpos

/-- `DecodeBits`. The numbers that the tables below can give are all smaller than
2^32. -/
def decodeBits (data : List UInt8) : List ℕ → ℕ → ℕ → Except Fault (Option ℕ × ℕ)
  | [], _, bitpos => .ok (none, bitpos)
  | [size], val, bitpos => decodeMantissa data size val bitpos
  | size :: size' :: sizes, val, bitpos =>
    if data.length * 8 ≤ bitpos then .ok (none, bitpos)
    else do
      let (bit, bitpos) ← consumeBitLE bitpos data
      if bit then decodeBits data (size' :: sizes) (val + 2 ^ size) bitpos
      else decodeMantissa data size val bitpos

inductive Instruction where
  | ret
  | jump
  | matchBits
  | default
  deriving DecidableEq

/-- `Instruction(…)`; other numbers are no instruction. -/
def Instruction.decode : ℕ → Option Instruction
  | 0 => some .ret
  | 1 => some .jump
  | 2 => some .matchBits
  | 3 => some .default
  | _ => none

def typeBitSizes : List ℕ := [0, 0, 1]

def asnBitSizes : List ℕ := [15, 16, 17, 18, 19, 20, 21, 22, 23, 24]

def matchBitSizes : List ℕ := [1, 2, 3, 4, 5, 6, 7, 8]

def jumpBitSizes : List ℕ :=
  [5, 6, 7, 8, 9, 10, 11, 12, 13, 14, 15, 16, 17, 18, 19, 20, 21, 22, 23, 24, 25, 26, 27, 28, 29,
    30]

variable (data : List UInt8)

def decodeType : Except Fault (Option Instruction × ℕ) := do
  let (val, bitpos) ← decodeBits data typeBitSizes 0 bitpos
  .ok (val.bind Instruction.decode, bitpos)

def decodeASN : Except Fault (Option ℕ × ℕ) :=
  decodeBits data asnBitSizes 1 bitpos

def decodeMatch : Except Fault (Option ℕ × ℕ) :=
  decodeBits data matchBitSizes 2 bitpos

def decodeJump : Except Fault (Option ℕ × ℕ) :=
  decodeBits data jumpBitSizes 17 bitpos

def matchLength (value : ℕ) : ℕ := size value - 1

/-! ## The interpreter -/

def ipBitsEnd (ip : List UInt8) : ℕ := ip.length * 8 % 2 ^ 8

/-- The variables of `Interpret`. -/
structure Interpreter where
  pos : ℕ
  ipBit : ℕ
  defaultAsn : ℕ

/-- The loop that compares address bits with a pattern; `none` if a bit differs. -/
def matchLoop (ip : List UInt8) (value : ℕ) : ℕ → ℕ → Except Fault (Option ℕ)
  | 0, ipBit => .ok (some ipBit)
  | left + 1, ipBit => do
    let (bit, ipBit) ← consumeBitBE ipBit ip
    if bit != value.testBit left then .ok none else matchLoop ip value left ipBit

variable (asmap : List UInt8)

def interpretReturn (pos : ℕ) : Except Fault (Interpreter ⊕ ℕ) := do
  match ← decodeASN pos asmap with
  | (none, _) => .error .noReturn
  | (some asn, _) => .ok (.inr asn)

def interpretJump (asmap ip : List UInt8) (st : Interpreter) (pos : ℕ) :
    Except Fault (Interpreter ⊕ ℕ) := do
  match ← decodeJump pos asmap with
  | (none, _) => .error .noReturn
  | (some jump, pos) =>
    if st.ipBit = ipBitsEnd ip then .error .noReturn
    else if asmap.length * 8 - pos ≤ jump then .error .noReturn
    else do
      let (bit, ipBit) ← consumeBitBE st.ipBit ip
      .ok (.inl { st with pos := if bit then pos + jump else pos, ipBit })

def interpretMatch (asmap ip : List UInt8) (st : Interpreter) (pos : ℕ) :
    Except Fault (Interpreter ⊕ ℕ) := do
  match ← decodeMatch pos asmap with
  | (none, _) => .error .noReturn
  | (some value, pos) =>
    if ipBitsEnd ip - st.ipBit < matchLength value then .error .noReturn
    else
      match ← matchLoop ip value (matchLength value) st.ipBit with
      | none => .ok (.inr st.defaultAsn)
      | some ipBit => .ok (.inl { st with pos, ipBit })

def interpretDefault (st : Interpreter) (pos : ℕ) : Except Fault (Interpreter ⊕ ℕ) := do
  match ← decodeASN pos asmap with
  | (none, _) => .error .noReturn
  | (some asn, pos) => .ok (.inl { st with pos, defaultAsn := asn })

def interpretStep (asmap ip : List UInt8) (st : Interpreter) : Except Fault (Interpreter ⊕ ℕ) :=
  if asmap.length * 8 ≤ st.pos then .error .noReturn
  else do
    match ← decodeType st.pos asmap with
    | (some .ret, pos) => interpretReturn asmap pos
    | (some .jump, pos) => interpretJump asmap ip st pos
    | (some .matchBits, pos) => interpretMatch asmap ip st pos
    | (some .default, pos) => interpretDefault asmap st pos
    | (none, _) => .error .noReturn

def Interpreter.start : Interpreter := { pos := 0, ipBit := 0, defaultAsn := 0 }

/-- `Interpret`. Every round reads a bit, so there are no more rounds than bits. -/
def interpret (asmap ip : List UInt8) : Except Fault (Option ℕ) :=
  runFor (interpretStep asmap ip) (asmap.length * 8 + 1) .start

/-! ## The checker -/

/-- The variables of `SanityCheckAsmap`, with the last jump first. -/
structure Checker where
  pos : ℕ
  bits : ℕ
  jumps : List (ℕ × ℕ)
  prevOpcode : Instruction
  hadIncompleteMatch : Bool

/-- The loop over the padding: all bits are zero. -/
def paddingLoop (asmap : List UInt8) : ℕ → ℕ → Except Fault Bool
  | 0, _ => .ok true
  | left + 1, pos => do
    let (bit, pos) ← consumeBitLE pos asmap
    if bit then .ok false else paddingLoop asmap left pos

variable (c : Checker) (pos : ℕ)

/-- `RETURN`: the program ends here, or goes on where the last jump leads to. -/
def checkReturn : Except Fault (Checker ⊕ Bool) :=
  if c.prevOpcode = .default then .ok (.inr false)
  else do
    match ← decodeASN pos asmap with
    | (none, _) => .ok (.inr false)
    | (some _, pos) =>
      match c.jumps with
      | [] =>
        if asmap.length * 8 - pos > 7 then .ok (.inr false)
        else do
          let padded ← paddingLoop asmap (asmap.length * 8 - pos) pos
          .ok (.inr padded)
      | (target, bits) :: jumps =>
        if pos ≠ target then .ok (.inr false)
        else .ok (.inl { c with pos, bits, jumps, prevOpcode := .jump })

/-- `JUMP`: the place it leads to is kept in 32 bits. -/
def checkJump : Except Fault (Checker ⊕ Bool) := do
  match ← decodeJump pos asmap with
  | (none, _) => .ok (.inr false)
  | (some jump, pos) =>
    if asmap.length * 8 - pos < jump then .ok (.inr false)
    else if c.bits = 0 then .ok (.inr false)
    else
      let jumpOffset := (pos + jump) % 2 ^ 32
      if c.jumps.head?.any (fun last => last.1 ≤ jumpOffset) then .ok (.inr false)
      else .ok (.inl { c with
        pos
        bits := c.bits - 1
        jumps := (jumpOffset, c.bits - 1) :: c.jumps
        prevOpcode := .jump })

def checkMatch : Except Fault (Checker ⊕ Bool) := do
  match ← decodeMatch pos asmap with
  | (none, _) => .ok (.inr false)
  | (some value, pos) =>
    let hadIncompleteMatch := c.prevOpcode == .matchBits && c.hadIncompleteMatch
    if matchLength value < 8 ∧ hadIncompleteMatch then .ok (.inr false)
    else if c.bits < matchLength value then .ok (.inr false)
    else .ok (.inl { c with
      pos
      bits := c.bits - matchLength value
      prevOpcode := .matchBits
      hadIncompleteMatch := decide (matchLength value < 8) })

def checkDefault : Except Fault (Checker ⊕ Bool) :=
  if c.prevOpcode = .default then .ok (.inr false)
  else do
    match ← decodeASN pos asmap with
    | (none, _) => .ok (.inr false)
    | (some _, pos) => .ok (.inl { c with pos, prevOpcode := .default })

def checkStep : Except Fault (Checker ⊕ Bool) :=
  if c.pos = asmap.length * 8 then .ok (.inr false)
  else if c.jumps.head?.any (fun jump => jump.1 ≤ c.pos) then .ok (.inr false)
  else do
    match ← decodeType c.pos asmap with
    | (some .ret, pos) => checkReturn asmap c pos
    | (some .jump, pos) => checkJump asmap c pos
    | (some .matchBits, pos) => checkMatch asmap c pos
    | (some .default, pos) => checkDefault asmap c pos
    | (none, _) => .ok (.inr false)

def Checker.start (bits : ℕ) : Checker :=
  { pos := 0, bits, jumps := [], prevOpcode := .jump, hadIncompleteMatch := false }

def sanityCheckAsmap (bits : ℕ) : Except Fault (Option Bool) :=
  runFor (checkStep asmap) (asmap.length * 8 + 1) (.start bits)

/-! ## Decoding stays inside the data -/

variable {data asmap ip : List UInt8} {pos : ℕ}

theorem consumeBitLE_of_lt (h : pos < data.length * 8) :
    ∃ bit, consumeBitLE pos data = .ok (bit, pos + 1) := by
  have hlt : pos / 8 < data.length := by omega
  rw [consumeBitLE, getElem?_eq_getElem hlt]
  exact ⟨_, rfl⟩

theorem consumeBitBE_of_lt (h : pos < ipBitsEnd ip) :
    ∃ bit, consumeBitBE pos ip = .ok (bit, pos + 1) := by
  unfold ipBitsEnd at h
  have hlt : pos / 8 < ip.length := by omega
  have hmod : (pos + 1) % 2 ^ 8 = pos + 1 := mod_eq_of_lt (by omega)
  rw [consumeBitBE, getElem?_eq_getElem hlt, hmod]
  exact ⟨_, rfl⟩

/-- **What decoding does**: it reads forward inside the data, and the number is
below a bound. -/
structure Decoded (data : List UInt8) (pos bound : ℕ) (r : Option ℕ × ℕ) : Prop where
  le : pos ≤ r.2
  le_end : pos ≤ data.length * 8 → r.2 ≤ data.length * 8
  lt : ∀ x, r.1 = some x → x < bound

theorem decodeMantissa_spec (data : List UInt8) (b val pos : ℕ) :
    ∃ r, decodeMantissa data b val pos = .ok r ∧ Decoded data pos (val + 2 ^ b) r := by
  induction b generalizing val pos with
  | zero =>
    refine ⟨(some val, pos), rfl, le_refl _, id, ?_⟩
    rintro x ⟨⟩
    omega
  | succ b ih =>
    rw [decodeMantissa]
    split
    · exact ⟨_, rfl, le_refl _, id, fun x hx => by cases hx⟩
    next hlt =>
    obtain ⟨bit, hbit⟩ := consumeBitLE_of_lt (Nat.lt_of_not_le hlt)
    obtain ⟨r, hr, hle, hend, hbound⟩ := ih (val + if bit then 2 ^ b else 0) (pos + 1)
    rw [hbit]
    refine ⟨r, hr, by omega, fun _ => hend (by omega), fun x hx => ?_⟩
    have hx' := hbound x hx
    have hpow : 2 ^ (b + 1) = 2 ^ b * 2 := pow_succ 2 b
    cases bit <;> simp at hx' <;> omega

theorem decodeBits_spec (data : List UInt8) (sizes : List ℕ) (val pos : ℕ) :
    ∃ r, decodeBits data sizes val pos = .ok r ∧
      Decoded data pos (val + (sizes.map (2 ^ ·)).sum) r := by
  induction sizes generalizing val pos with
  | nil => exact ⟨_, rfl, le_refl _, id, fun x hx => by cases hx⟩
  | cons size sizes ih =>
    have hmantissa : ∀ pos', pos ≤ pos' → (pos ≤ data.length * 8 → pos' ≤ data.length * 8) →
        ∃ r, decodeMantissa data size val pos' = .ok r ∧
          Decoded data pos (val + ((size :: sizes).map (2 ^ ·)).sum) r := by
      intro pos' hpos hend
      obtain ⟨r, hr, hle, hend', hbound⟩ := decodeMantissa_spec data size val pos'
      refine ⟨r, hr, by omega, fun h => hend' (hend h), fun x hx => ?_⟩
      have hx' := hbound x hx
      rw [map_cons, sum_cons]
      omega
    cases sizes with
    | nil => exact hmantissa pos (le_refl _) id
    | cons size' sizes =>
      rw [decodeBits]
      split
      · exact ⟨_, rfl, le_refl _, id, fun x hx => by cases hx⟩
      next hlt =>
      obtain ⟨bit, hbit⟩ := consumeBitLE_of_lt (Nat.lt_of_not_le hlt)
      rw [hbit]
      cases bit with
      | false => exact hmantissa (pos + 1) (by omega) fun _ => by omega
      | true =>
        obtain ⟨r, hr, hle, hend, hbound⟩ := ih (val + 2 ^ size) (pos + 1)
        refine ⟨r, hr, by omega, fun _ => hend (by omega), fun x hx => ?_⟩
        have hx' := hbound x hx
        rw [map_cons, sum_cons]
        omega

theorem decodeType_spec (h : pos < asmap.length * 8) :
    ∃ op pos', decodeType pos asmap = .ok (op, pos') ∧ pos < pos' ∧ pos' ≤ asmap.length * 8 := by
  have hbits : ∃ r, decodeBits asmap typeBitSizes 0 pos = .ok r ∧ pos < r.2 ∧
      r.2 ≤ asmap.length * 8 := by
    obtain ⟨bit, hbit⟩ := consumeBitLE_of_lt h
    rw [typeBitSizes, decodeBits, if_neg (by omega), hbit]
    cases bit with
    | false => exact ⟨_, rfl, lt_succ_self _, h⟩
    | true =>
      obtain ⟨r, hr, hle, hend, -⟩ := decodeBits_spec asmap [0, 1] (0 + 2 ^ 0) (pos + 1)
      exact ⟨r, hr, hle, hend h⟩
  obtain ⟨r, hr, hlt, hend⟩ := hbits
  exact ⟨r.1.bind Instruction.decode, r.2, by rw [decodeType, hr]; rfl, hlt, hend⟩

theorem decodeArg_spec (sizes : List ℕ) (val : ℕ) (h : pos ≤ asmap.length * 8) :
    ∃ v pos', decodeBits asmap sizes val pos = .ok (v, pos') ∧ pos ≤ pos' ∧
      pos' ≤ asmap.length * 8 := by
  obtain ⟨⟨v, pos'⟩, hr, hle, hend, -⟩ := decodeBits_spec asmap sizes val pos
  exact ⟨v, pos', hr, hle, hend h⟩

theorem decodeJump_lt {jump pos' : ℕ} (h : decodeJump pos asmap = .ok (some jump, pos')) :
    jump < 2 ^ 32 := by
  obtain ⟨r, hr, -, -, hlt⟩ := decodeBits_spec asmap jumpBitSizes 17 pos
  rw [decodeJump] at h
  rw [h] at hr
  cases hr
  exact lt_trans (hlt jump rfl) (by decide)

theorem matchLoop_spec (value left : ℕ) {ipBit : ℕ} (h : ipBit + left ≤ ipBitsEnd ip) :
    matchLoop ip value left ipBit = .ok none ∨
      matchLoop ip value left ipBit = .ok (some (ipBit + left)) := by
  induction left generalizing ipBit with
  | zero => exact .inr rfl
  | succ left ih =>
    obtain ⟨bit, hbit⟩ := consumeBitBE_of_lt (show ipBit < ipBitsEnd ip by omega)
    rw [matchLoop, hbit]
    by_cases hne : bit != value.testBit left
    · exact .inl (if_pos hne)
    · have hnext := ih (show ipBit + 1 + left ≤ ipBitsEnd ip by omega)
      rw [show ipBit + 1 + left = ipBit + (left + 1) by omega] at hnext
      simpa only [bind, Except.bind, if_neg hne] using hnext

end Quarlcoin.Asmap
