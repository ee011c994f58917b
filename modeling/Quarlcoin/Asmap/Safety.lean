import Quarlcoin.Asmap.Model
/-!
# Checked address maps are safe to interpret

The walk of `SanityCheckAsmap` covers every path of `Interpret`, by induction over the walk
from its end (`accepted_safe`). A jump is pushed with its target cut off to 32 bits; such a
target lies behind the place where the walk goes on, and the next round rejects it
(`jumpOffset_eq`).
-/

namespace Quarlcoin.Asmap

open Stepping List

variable {asmap ip : List UInt8} {pos : ℕ}

/-! ## What the checker walks -/

/-- A round of the checker that does not reject the program. -/
inductive Walk (asmap : List UInt8) (c : Checker) : Checker ⊕ Bool → Prop
  | last {p asn p' : ℕ} (hop : decodeType c.pos asmap = .ok (some .ret, p))
      (harg : decodeASN p asmap = .ok (some asn, p')) (hjumps : c.jumps = []) :
      Walk asmap c (.inr true)
  | ret {p asn p' bits : ℕ} {jumps : List (ℕ × ℕ)}
      (hop : decodeType c.pos asmap = .ok (some .ret, p))
      (harg : decodeASN p asmap = .ok (some asn, p')) (hjumps : c.jumps = (p', bits) :: jumps) :
      Walk asmap c (.inl { c with pos := p', bits, jumps, prevOpcode := .jump })
  | jump {p jump p' : ℕ} (hop : decodeType c.pos asmap = .ok (some .jump, p))
      (harg : decodeJump p asmap = .ok (some jump, p')) (hbits : c.bits ≠ 0) :
      Walk asmap c (.inl { c with
        pos := p'
        bits := c.bits - 1
        jumps := ((p' + jump) % 2 ^ 32, c.bits - 1) :: c.jumps
        prevOpcode := .jump })
  | matchBits {p value p' : ℕ} {incomplete : Bool}
      (hop : decodeType c.pos asmap = .ok (some .matchBits, p))
      (harg : decodeMatch p asmap = .ok (some value, p')) (hbits : matchLength value ≤ c.bits) :
      Walk asmap c (.inl { c with
        pos := p'
        bits := c.bits - matchLength value
        prevOpcode := .matchBits
        hadIncompleteMatch := incomplete })
  | default {p asn p' : ℕ} (hop : decodeType c.pos asmap = .ok (some .default, p))
      (harg : decodeASN p asmap = .ok (some asn, p')) :
      Walk asmap c (.inl { c with pos := p', prevOpcode := .default })

variable {c : Checker} {r : Checker ⊕ Bool}

theorem walk_of_checkReturn {p : ℕ} (hop : decodeType c.pos asmap = .ok (some .ret, p))
    (h : checkReturn asmap c p = .ok r) (hr : r ≠ .inr false) : Walk asmap c r := by
  unfold checkReturn at h
  split at h
  · cases h
    exact absurd rfl hr
  obtain ⟨⟨v, p'⟩, harg, h⟩ := bind_eq_ok_iff.mp h
  cases v with
  | none =>
    cases h
    exact absurd rfl hr
  | some asn =>
    dsimp only at h
    split at h
    · next hjumps =>
      split at h
      · cases h
        exact absurd rfl hr
      obtain ⟨padded, -, h⟩ := bind_eq_ok_iff.mp h
      cases h
      cases padded with
      | false => exact absurd rfl hr
      | true => exact .last hop harg hjumps
    · next target bits jumps hjumps =>
      split at h
      · cases h
        exact absurd rfl hr
      next heq =>
      cases h
      rw [not_not] at heq
      subst heq
      exact .ret hop harg hjumps

theorem walk_of_checkJump {p : ℕ} (hop : decodeType c.pos asmap = .ok (some .jump, p))
    (h : checkJump asmap c p = .ok r) (hr : r ≠ .inr false) : Walk asmap c r := by
  obtain ⟨⟨v, p'⟩, harg, h⟩ := bind_eq_ok_iff.mp h
  cases v with
  | none =>
    cases h
    exact absurd rfl hr
  | some jump =>
    dsimp only at h
    split at h
    · cases h
      exact absurd rfl hr
    split at h
    · cases h
      exact absurd rfl hr
    next hbits =>
    split at h
    · cases h
      exact absurd rfl hr
    · cases h
      exact .jump hop harg hbits

theorem walk_of_checkMatch {p : ℕ} (hop : decodeType c.pos asmap = .ok (some .matchBits, p))
    (h : checkMatch asmap c p = .ok r) (hr : r ≠ .inr false) : Walk asmap c r := by
  obtain ⟨⟨v, p'⟩, harg, h⟩ := bind_eq_ok_iff.mp h
  cases v with
  | none =>
    cases h
    exact absurd rfl hr
  | some value =>
    dsimp only at h
    split at h
    · cases h
      exact absurd rfl hr
    split at h
    · cases h
      exact absurd rfl hr
    · next hbits =>
      cases h
      exact .matchBits hop harg (Nat.le_of_not_lt hbits)

theorem walk_of_checkDefault {p : ℕ} (hop : decodeType c.pos asmap = .ok (some .default, p))
    (h : checkDefault asmap c p = .ok r) (hr : r ≠ .inr false) : Walk asmap c r := by
  unfold checkDefault at h
  split at h
  · cases h
    exact absurd rfl hr
  obtain ⟨⟨v, p'⟩, harg, h⟩ := bind_eq_ok_iff.mp h
  cases v with
  | none =>
    cases h
    exact absurd rfl hr
  | some asn =>
    cases h
    exact .default hop harg

/-- **What a round can do** that does not reject the program. -/
theorem walk_of_checkStep (hpos : c.pos ≤ asmap.length * 8) (h : checkStep asmap c = .ok r)
    (hr : r ≠ .inr false) :
    Walk asmap c r ∧ c.pos < asmap.length * 8 ∧ ∀ j ∈ c.jumps.head?, c.pos < j.1 := by
  unfold checkStep at h
  split at h
  · cases h
    exact absurd rfl hr
  split at h
  · cases h
    exact absurd rfl hr
  next hhead =>
  refine ⟨?_, by omega, fun j hj => ?_⟩
  · obtain ⟨⟨op, p⟩, hop, h⟩ := bind_eq_ok_iff.mp h
    cases op with
    | none =>
      cases h
      exact absurd rfl hr
    | some op =>
      cases op with
      | ret => exact walk_of_checkReturn hop h hr
      | jump => exact walk_of_checkJump hop h hr
      | matchBits => exact walk_of_checkMatch hop h hr
      | default => exact walk_of_checkDefault hop h hr
  · rw [hj] at hhead
    simpa using hhead

variable {n bits asn jump : ℕ} {W : ℕ → Prop}

/-- A round that accepts the program or goes on is at a place inside it, before the
place that the last jump leads to. -/
theorem runFor_checkStep_cases (hpos : c.pos ≤ asmap.length * 8)
    (h : runFor (checkStep asmap) n c = .ok (some true)) :
    ∃ m r, n = m + 1 ∧ checkStep asmap c = .ok r ∧ Walk asmap c r ∧ c.pos < asmap.length * 8 ∧
      (∀ j ∈ c.jumps.head?, c.pos < j.1) ∧
      ∀ c', r = .inl c' → runFor (checkStep asmap) m c' = .ok (some true) := by
  cases n with
  | zero => cases h
  | succ m =>
    cases hstep : checkStep asmap c with
    | error e =>
      rw [runFor, hstep] at h
      cases h
    | ok r =>
      rw [runFor, hstep] at h
      have hr : r ≠ .inr false := by
        rintro rfl
        cases h
      obtain ⟨hwalk, hlt, hhead⟩ := walk_of_checkStep hpos hstep hr
      refine ⟨m, r, rfl, rfl, hwalk, hlt, hhead, ?_⟩
      rintro c' rfl
      exact h

theorem Walk.pos_lt {c' : Checker} (h : Walk asmap c (.inl c')) (hlt : c.pos < asmap.length * 8) :
    c.pos < c'.pos ∧ c'.pos ≤ asmap.length * 8 := by
  have hgo : ∀ {op : Option Instruction} {p p' : ℕ} {sizes : List ℕ} {val : ℕ} {v : Option ℕ},
      decodeType c.pos asmap = .ok (op, p) → decodeBits asmap sizes val p = .ok (v, p') →
      c.pos < p' ∧ p' ≤ asmap.length * 8 := by
    intro op p p' sizes val v hop harg
    obtain ⟨op', q, hop', hq, hqend⟩ := decodeType_spec hlt
    rw [hop] at hop'
    cases hop'
    obtain ⟨v', q', harg', hle, hend⟩ := decodeArg_spec sizes val hqend
    rw [harg] at harg'
    cases harg'
    exact ⟨by omega, hend⟩
  cases h with
  | ret hop harg hjumps => exact hgo hop harg
  | jump hop harg hbits => exact hgo hop harg
  | matchBits hop harg hbits => exact hgo hop harg
  | default hop harg => exact hgo hop harg

/-! ## Every path is walked -/

/-- The places where the checker finds an instruction. -/
def Walked (asmap : List UInt8) (c : Checker) (p : ℕ) : Prop :=
  p < asmap.length * 8 ∧ ∃ d, Visits (checkStep asmap) c d ∧ d.pos = p

/-- **Safe to interpret** from a place: there is an answer, and every place on the way is one of
`W`. -/
def Safe (asmap ip : List UInt8) (W : ℕ → Prop) (pos bits : ℕ) : Prop :=
  ∀ st : Interpreter, st.pos = pos → st.ipBit + bits = ipBitsEnd ip →
    (∀ n, asmap.length * 8 - pos < n →
      ∃ asn, runFor (interpretStep asmap ip) n st = .ok (some asn)) ∧
    ∀ u, Visits (interpretStep asmap ip) st u → W u.pos

theorem Safe.mono {W' : ℕ → Prop} (h : Safe asmap ip W pos bits)
    (hW : ∀ p, W p → W' p) : Safe asmap ip W' pos bits :=
  fun st hst hbits => ⟨(h st hst hbits).1, fun u hu => hW _ ((h st hst hbits).2 u hu)⟩

/-- A place is safe if the instruction there ends with an answer or goes forward to
a safe place. -/
theorem Safe.of_step (hW : W pos) (hpos : pos < asmap.length * 8)
    (h : ∀ st : Interpreter, st.pos = pos → st.ipBit + bits = ipBitsEnd ip →
      (∃ asn, interpretStep asmap ip st = .ok (.inr asn)) ∨
      ∃ st' bits', interpretStep asmap ip st = .ok (.inl st') ∧ pos < st'.pos ∧
        st'.ipBit + bits' = ipBitsEnd ip ∧ Safe asmap ip W st'.pos bits') :
    Safe asmap ip W pos bits := by
  intro st hst hbits
  rcases h st hst hbits with ⟨asn, hend⟩ | ⟨st', bits', hnext, hlt, hbits', hsafe⟩
  · refine ⟨fun n hn => ?_, fun u hu => ?_⟩
    · obtain ⟨m, rfl⟩ : ∃ m, n = m + 1 := ⟨n - 1, by omega⟩
      exact ⟨asn, by rw [runFor, hend]⟩
    · rw [hu.eq_of_end hend, hst]
      exact hW
  · obtain ⟨hruns, hvisits⟩ := hsafe st' rfl hbits'
    refine ⟨fun n hn => ?_, fun u hu => ?_⟩
    · obtain ⟨m, rfl⟩ : ∃ m, n = m + 1 := ⟨n - 1, by omega⟩
      rw [runFor, hnext]
      exact hruns m (by omega)
    · rcases hu.eq_or_next hnext with rfl | hu
      · rw [hst]
        exact hW
      · exact hvisits u hu

/-! ### One instruction -/

section Instructions

variable {st : Interpreter} {p p' : ℕ}

theorem interpretStep_ret (hlt : st.pos < asmap.length * 8)
    (hop : decodeType st.pos asmap = .ok (some .ret, p))
    (harg : decodeASN p asmap = .ok (some asn, p')) :
    interpretStep asmap ip st = .ok (.inr asn) := by
  rw [interpretStep, if_neg (by omega), hop]
  change interpretReturn asmap p = _
  rw [interpretReturn, harg]
  rfl

theorem interpretStep_jump (ip : List UInt8) (hlt : st.pos < asmap.length * 8)
    (hop : decodeType st.pos asmap = .ok (some .jump, p))
    (harg : decodeJump p asmap = .ok (some jump, p')) (hjump : p' + jump < asmap.length * 8)
    (hbit : st.ipBit < ipBitsEnd ip) :
    ∃ q, interpretStep asmap ip st = .ok (.inl { st with pos := q, ipBit := st.ipBit + 1 }) ∧
      (q = p' ∨ q = p' + jump) := by
  obtain ⟨bit, hconsume⟩ := consumeBitBE_of_lt hbit
  have hstep : interpretStep asmap ip st = .ok (.inl { st with
      pos := if bit then p' + jump else p'
      ipBit := st.ipBit + 1 }) := by
    rw [interpretStep, if_neg (by omega), hop]
    change interpretJump asmap ip st p = _
    rw [interpretJump, harg]
    change (if st.ipBit = ipBitsEnd ip then _
      else if asmap.length * 8 - p' ≤ jump then _ else _) = _
    rw [if_neg (by omega), if_neg (by omega), hconsume]
    rfl
  refine ⟨_, hstep, ?_⟩
  cases bit with
  | false => exact .inl rfl
  | true => exact .inr rfl

theorem interpretStep_match (ip : List UInt8) {value : ℕ} (hlt : st.pos < asmap.length * 8)
    (hop : decodeType st.pos asmap = .ok (some .matchBits, p))
    (harg : decodeMatch p asmap = .ok (some value, p'))
    (hbits : st.ipBit + matchLength value ≤ ipBitsEnd ip) :
    interpretStep asmap ip st = .ok (.inr st.defaultAsn) ∨ interpretStep asmap ip st =
        .ok (.inl { st with pos := p', ipBit := st.ipBit + matchLength value }) := by
  have hstep : interpretStep asmap ip st = interpretMatch asmap ip st p := by
    rw [interpretStep, if_neg (by omega), hop]
    rfl
  rw [hstep, interpretMatch, harg]
  change (if ipBitsEnd ip - st.ipBit < matchLength value then _ else _) = _ ∨
    (if ipBitsEnd ip - st.ipBit < matchLength value then _ else _) = _
  rw [if_neg (by omega)]
  rcases matchLoop_spec value (matchLength value) hbits with hloop | hloop
  · rw [hloop]
    exact .inl rfl
  · rw [hloop]
    exact .inr rfl

theorem interpretStep_default (hlt : st.pos < asmap.length * 8)
    (hop : decodeType st.pos asmap = .ok (some .default, p))
    (harg : decodeASN p asmap = .ok (some asn, p')) :
    interpretStep asmap ip st = .ok (.inl { st with pos := p', defaultAsn := asn }) := by
  rw [interpretStep, if_neg (by omega), hop]
  change interpretDefault asmap st p = _
  rw [interpretDefault, harg]
  rfl

end Instructions

/-- Cut off to 32 bits, the place that a jump leads to lies before the jump. -/
theorem jumpOffset_eq {p : ℕ} (hjump : jump < 2 ^ 32) (h : p < (p + jump) % 2 ^ 32) :
    (p + jump) % 2 ^ 32 = p + jump := by
  omega

/-- **The walk covers every path.** A program that is accepted from a place on is
safe to interpret from there and from all places that jumps lead to. -/
theorem accepted_safe (ip : List UInt8) (hpos : c.pos ≤ asmap.length * 8)
    (h : runFor (checkStep asmap) n c = .ok (some true)) :
    Safe asmap ip (Walked asmap c) c.pos c.bits ∧
      ∀ j ∈ c.jumps, Safe asmap ip (Walked asmap c) j.1 j.2 := by
  induction n generalizing c with
  | zero => cases h
  | succ n ih =>
    obtain ⟨m, r, hm, hstep, hwalk, hlt, -, hrest⟩ := runFor_checkStep_cases hpos h
    cases hm
    have hhere : Walked asmap c c.pos := ⟨hlt, c, .refl, rfl⟩
    have hforward : ∀ c', r = .inl c' → c.pos < c'.pos ∧ c'.pos ≤ asmap.length * 8 := by
      rintro c' rfl
      exact hwalk.pos_lt hlt
    -- what is safe after the next round is safe now: its places are walked from here too
    have hnext : ∀ c', r = .inl c' →
        Safe asmap ip (Walked asmap c) c'.pos c'.bits ∧
          ∀ j ∈ c'.jumps, Safe asmap ip (Walked asmap c) j.1 j.2 := by
      rintro c' rfl
      have hmono : ∀ p, Walked asmap c' p → Walked asmap c p := by
        rintro p ⟨hp, d, hd, rfl⟩
        exact ⟨hp, d, hd.head hstep, rfl⟩
      obtain ⟨hpos', hjumps'⟩ := ih (hforward c' rfl).2 (hrest c' rfl)
      exact ⟨hpos'.mono hmono, fun j hj => (hjumps' j hj).mono hmono⟩
    cases hwalk with
    | last hop harg hjumps =>
      refine ⟨.of_step hhere hlt ?_, by simp [hjumps]⟩
      rintro st hst -
      rw [← hst] at hlt hop
      exact .inl ⟨_, interpretStep_ret hlt hop harg⟩
    | ret hop harg hjumps =>
      obtain ⟨hafter, hothers⟩ := hnext _ rfl
      refine ⟨.of_step hhere hlt ?_, ?_⟩
      · rintro st hst -
        rw [← hst] at hlt hop
        exact .inl ⟨_, interpretStep_ret hlt hop harg⟩
      · rw [hjumps]
        rintro j hj
        rcases mem_cons.mp hj with rfl | hj
        · exact hafter
        · exact hothers j hj
    | @jump p jump p' hop harg hbits =>
      obtain ⟨hafter, hothers⟩ := hnext _ rfl
      refine ⟨.of_step hhere hlt ?_, fun j hj => hothers j (mem_cons_of_mem _ hj)⟩
      intro st hst hleft
      have hforward := hforward _ rfl
      -- the next round is not rejected, so the jump leads forward
      obtain ⟨-, -, -, -, -, -, hhead, -⟩ := runFor_checkStep_cases hforward.2 (hrest _ rfl)
      have hoffset := jumpOffset_eq (decodeJump_lt harg) (hhead _ rfl)
      have htarget := hothers _ mem_cons_self
      dsimp only at htarget hforward hafter
      rw [hoffset] at htarget
      have hleft' : st.ipBit + 1 + (c.bits - 1) = ipBitsEnd ip := by omega
      have hinside : p' + jump < asmap.length * 8 :=
        ((htarget ⟨_, st.ipBit + 1, 0⟩ rfl hleft').2 _ .refl).1
      rw [← hst] at hlt hop
      obtain ⟨q, hq, hcases⟩ := interpretStep_jump ip hlt hop harg hinside (by omega)
      refine .inr ⟨_, c.bits - 1, hq, ?_, hleft', ?_⟩
      · dsimp only
        omega
      · rcases hcases with rfl | rfl
        · exact hafter
        · exact htarget
    | @matchBits p value p' incomplete hop harg hbits =>
      obtain ⟨hafter, hothers⟩ := hnext _ rfl
      refine ⟨.of_step hhere hlt ?_, hothers⟩
      intro st hst hleft
      have hforward := hforward _ rfl
      rw [← hst] at hlt hop
      rcases interpretStep_match ip hlt hop harg (by omega) with hdone | hgo
      · exact .inl ⟨_, hdone⟩
      · exact .inr ⟨_, c.bits - matchLength value, hgo, hforward.1, by dsimp only; omega, hafter⟩
    | default hop harg =>
      obtain ⟨hafter, hothers⟩ := hnext _ rfl
      refine ⟨.of_step hhere hlt ?_, hothers⟩
      intro st hst hleft
      have hforward := hforward _ rfl
      rw [← hst] at hlt hop
      exact .inr ⟨_, c.bits, interpretStep_default hlt hop harg, hforward.1, hleft, hafter⟩

/-! ## Checked maps are safe to interpret -/

/-- **Accepted programs are safe**: interpreting one on any address ends with a number, and comes
only to instructions that the check walked over. -/
theorem interpret_of_accepted (asmap ip : List UInt8) (hip : ip.length = 16)
    (haccepted : sanityCheckAsmap asmap 128 = .ok (some true)) :
    (∃ asn, interpret asmap ip = .ok (some asn)) ∧
      ∀ u, Visits (interpretStep asmap ip) .start u → Walked asmap (.start 128) u.pos := by
  obtain ⟨hsafe, -⟩ := accepted_safe ip (Nat.zero_le _) haccepted
  have hbits : Interpreter.start.ipBit + 128 = ipBitsEnd ip := by
    rw [ipBitsEnd, hip]
    rfl
  obtain ⟨hruns, hvisits⟩ := hsafe .start rfl hbits
  exact ⟨hruns _ (Nat.lt_succ_self _), hvisits⟩

/-- A map whose first address bit chooses between two numbers. -/
def oneJump : List UInt8 := [1, 0, 0, 0, 0, 2]

theorem interpret_oneJump : (∃ asn, interpret oneJump (replicate 16 255) = .ok (some asn)) ∧
      ∀ u, Visits (interpretStep oneJump (replicate 16 255)) .start u →
        Walked oneJump (.start 128) u.pos :=
  interpret_of_accepted oneJump (replicate 16 255) rfl rfl

example : interpret oneJump (replicate 16 255) = .ok (some 2) := rfl

end Quarlcoin.Asmap
