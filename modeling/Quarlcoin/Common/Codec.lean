import Mathlib.Tactic.Ring
import Quarlcoin.Common.Outcome
/-!
# Byte formats

A format is a way to write a value as bytes and a parser that reads it back. It is lawful on
the values of a set if the parser undoes the writer on them, whatever follows, and accepts
nothing but what the writer writes. Lawful formats are put together by a few rules
(`Lawful.field`, `Lawful.times`, `Lawful.last`, `Lawful.iso`, `Lawful.guard`).
-/

namespace Quarlcoin.Codec

open List Prod

variable {ε α β γ : Type}

/-- A parser takes what it needs from the front of the input. -/
abbrev Parser (ε α : Type) : Type := StateT (List UInt8) (Except ε) α

variable {ser : α → List UInt8} {p : Parser ε α} {ok : α → Prop} {f : α → Parser ε β}
  {serRest : γ → List UInt8} {q : α → Parser ε γ} {okC : γ → Prop} {bs rest : List UInt8}

/-! ## Running a parser -/

theorem bind_apply (p : Parser ε α) (f : α → Parser ε β) (bs : List UInt8) :
    (p >>= f) bs = match p bs with
      | .error e => .error e
      | .ok (a, rest) => f a rest := by
  show StateT.bind p f bs = _
  unfold StateT.bind
  rcases p bs with e | ⟨a, rest⟩ <;> rfl

theorem bind_of_ok {a : α} (h : p bs = .ok (a, rest)) : (p >>= f) bs = f a rest := by
  rw [bind_apply, h]

/-- A run of two parsers is a run of one after a run of the other. -/
theorem bind_eq_ok {b : β} :
    (p >>= f) bs = .ok (b, rest) ↔ ∃ a mid, p bs = .ok (a, mid) ∧ f a mid = .ok (b, rest) :=
  (bind_eq_ok_iff (r := p bs)).trans Prod.exists

/-! ## Lawful formats -/

/-- The writer and the parser are inverse to each other, on the values that
are `ok`. -/
structure Lawful (ser : α → List UInt8) (p : Parser ε α) (ok : α → Prop) : Prop where
  decode : ∀ a, ok a → ∀ rest, p (ser a ++ rest) = .ok (a, rest)
  canonical : ∀ bs a rest, p bs = .ok (a, rest) → ok a ∧ bs = ser a ++ rest

namespace Lawful

theorem pure (a : α) : Lawful (fun _ => []) (pure a : Parser ε α) (· = a) where
  decode := by
    rintro _ rfl rest
    rfl
  canonical bs b rest h := by
    obtain ⟨rfl, rfl⟩ := mk.inj (Except.ok.inj h)
    exact ⟨rfl, rfl⟩

section

variable (h : Lawful ser p ok)
include h

/-- The values and their encodings may be described another way. -/
theorem congr {ser' : α → List UInt8} {ok' : α → Prop}
    (hok : ∀ a, ok' a ↔ ok a) (hser : ∀ a, ok a → ser' a = ser a) : Lawful ser' p ok' where
  decode a ha rest := by
    rw [hser a ((hok a).1 ha)]
    exact h.decode a ((hok a).1 ha) rest
  canonical bs a rest hp := by
    obtain ⟨ha, hbs⟩ := h.canonical bs a rest hp
    exact ⟨(hok a).2 ha, by rw [hser a ha, hbs]⟩

variable (get : γ → α)

/-- **A field first**: a part `get c` of the value is read, and the parser for
the rest is chosen by it. The field may be data or a length. -/
theorem field {okRest : γ → Prop}
    (hq : ∀ a, ok a → Lawful serRest (q a) fun c => okRest c ∧ get c = a) :
    Lawful (fun c => ser (get c) ++ serRest c) (p >>= q) (fun c => ok (get c) ∧ okRest c) where
  decode c hc rest := by
    rw [append_assoc, bind_of_ok (h.decode _ hc.1 _)]
    exact (hq _ hc.1).decode c ⟨hc.2, rfl⟩ rest
  canonical bs c rest hp := by
    obtain ⟨a, mid, hp, hrest⟩ := bind_eq_ok.1 hp
    obtain ⟨ha, rfl⟩ := h.canonical bs a mid hp
    obtain ⟨⟨hc, rfl⟩, rfl⟩ := (hq a ha).canonical mid c rest hrest
    exact ⟨⟨ha, hc⟩, (append_assoc ..).symm⟩

/-- The same, where what holds of the whole value says that its field can be written. -/
theorem next (hget : ∀ c, okC c → ok (get c))
    (hq : ∀ a, ok a → Lawful serRest (q a) fun c => okC c ∧ get c = a) :
    Lawful (fun c => ser (get c) ++ serRest c) (p >>= q) okC :=
  (h.field get hq).congr (fun c => ⟨fun hc => ⟨hget c hc, hc⟩, And.right⟩) fun _ _ => rfl

omit h in
theorem total (h : Lawful ser p fun _ => True) (get : γ → α)
    (hq : ∀ a, Lawful serRest (q a) fun c => okC c ∧ get c = a) :
    Lawful (fun c => ser (get c) ++ serRest c) (p >>= q) okC :=
  h.next get (fun _ _ => trivial) fun a _ => hq a

/-- **The last field** of a record. -/
theorem last (get : γ → α) {mk : α → γ} (hok : ∀ c, okC c → ok (get c) ∧ mk (get c) = c)
    (hmk : ∀ a, ok a → okC (mk a) ∧ get (mk a) = a) :
    Lawful (fun c => ser (get c)) (p >>= fun a => Pure.pure (mk a)) okC where
  decode c hc rest := by
    rw [bind_of_ok (h.decode _ (hok c hc).1 rest), (hok c hc).2]
    rfl
  canonical bs c rest hp := by
    obtain ⟨a, mid, hread, hpure⟩ := bind_eq_ok.1 hp
    obtain ⟨rfl, rfl⟩ := Prod.mk.inj (Except.ok.inj hpure)
    obtain ⟨ha, rfl⟩ := h.canonical bs a _ hread
    exact ⟨(hmk a ha).1, by rw [(hmk a ha).2]⟩

/-- **Another type for the same bytes.** -/
theorem iso {f : α → β} {g : β → α} {ok' : β → Prop}
    (hg : ∀ b, ok' b → ok (g b) ∧ f (g b) = b) (hf : ∀ a, ok a → ok' (f a) ∧ g (f a) = a) :
    Lawful (fun b => ser (g b)) (f <$> p) ok' :=
  h.last g hg hf

/-- **A check behind a read** takes values away. -/
theorem guard (e : ε) {bad : α → Prop} [DecidablePred bad] {ok' : α → Prop}
    (hok : ∀ a, ok' a ↔ ok a ∧ ¬ bad a) :
    Lawful ser (p >>= fun a => if bad a then throw e else Pure.pure a) ok' where
  decode a ha rest := by
    rw [bind_of_ok (h.decode a ((hok a).1 ha).1 rest), if_neg ((hok a).1 ha).2]
    rfl
  canonical bs a rest hp := by
    obtain ⟨b, mid, hread, hcheck⟩ := bind_eq_ok.1 hp
    split_ifs at hcheck with hbad
    · exact absurd hcheck (by rintro ⟨⟩)
    · obtain ⟨rfl, rfl⟩ := mk.inj (Except.ok.inj hcheck)
      obtain ⟨hb, hbs⟩ := h.canonical bs b mid hread
      exact ⟨(hok b).2 ⟨hb, hbad⟩, hbs⟩

/-- Of two encodings at the front of the same bytes, both are the same. -/
theorem append_injective {a b : α} {r s : List UInt8} (ha : ok a) (hb : ok b)
    (happ : ser a ++ r = ser b ++ s) : a = b ∧ r = s := by
  have hda := h.decode a ha r
  rw [happ, h.decode b hb s] at hda
  obtain ⟨rfl, rfl⟩ := mk.inj (Except.ok.inj hda)
  exact ⟨rfl, rfl⟩

end

end Lawful

/-! ## Formats that are read back

A parser may accept more than its writer writes. That it undoes the writer is
the half of a lawful format that tells values apart. -/

/-- The parser undoes the writer on the values that are `ok`, whatever
follows. -/
def Decodes (ser : α → List UInt8) (p : Parser ε α) (ok : α → Prop) : Prop :=
  ∀ a, ok a → ∀ rest, p (ser a ++ rest) = .ok (a, rest)

namespace Decodes

variable (h : Decodes ser p ok)
include h

/-- **A field first**, by which the parser for the rest is chosen. -/
theorem field (get : γ → α) (hget : ∀ c, okC c → ok (get c))
    (hq : ∀ a, Decodes serRest (q a) fun c => okC c ∧ get c = a) :
    Decodes (fun c => ser (get c) ++ serRest c) (p >>= q) okC := by
  intro c hc rest
  rw [append_assoc, bind_of_ok (h _ (hget c hc) _)]
  exact hq _ c ⟨hc, rfl⟩ rest

/-- **Another type for the same bytes**, whose values tell the ones that are
written. -/
theorem map {f : α → β} {g : β → α} {ok' : β → Prop}
    (hg : ∀ b, ok' b → ok (g b) ∧ f (g b) = b) : Decodes (fun b => ser (g b)) (f <$> p) ok' := by
  intro b hb rest
  have hread := bind_of_ok (f := fun a => Pure.pure (f a)) (h _ (hg b hb).1 rest)
  rw [(hg b hb).2] at hread
  exact hread

theorem injective {a b : α} (ha : ok a) (hb : ok b) (hser : ser a = ser b) : a = b := by
  have hread := h a ha []
  rw [hser, h b hb []] at hread
  exact (mk.inj (Except.ok.inj hread)).1.symm

end Decodes

/-! ## Separated encodings

For a value to be told from its bytes no parser is needed: it is enough that
of two encodings at the front of the same bytes neither goes on where the
other ends. -/

/-- The encodings of values that are `ok` can be told apart, whatever
follows. -/
def Separated (ser : α → List UInt8) (ok : α → Prop) : Prop :=
  ∀ a b, ok a → ok b → ∀ r s, ser a ++ r = ser b ++ s → a = b ∧ r = s

namespace Separated

theorem of_lawful (h : Lawful ser p ok) : Separated ser ok :=
  fun _ _ ha hb _ _ happ => h.append_injective ha hb happ

section

variable (h : Separated ser ok)
include h

theorem injective {a b : α} (ha : ok a) (hb : ok b) (hser : ser a = ser b) : a = b :=
  (h a b ha hb [] [] (by rw [hser])).1

/-- **One encoding after another.** -/
theorem append {serB : β → List UInt8} {okB : β → Prop} (hB : Separated serB okB) :
    Separated (fun c : α × β => ser c.1 ++ serB c.2) fun c => ok c.1 ∧ okB c.2 := by
  rintro ⟨a, b⟩ ⟨a', b'⟩ ⟨ha, hb⟩ ⟨ha', hb'⟩ r s happ
  simp only [append_assoc] at happ
  obtain ⟨rfl, hrest⟩ := h a a' ha ha' _ _ happ
  obtain ⟨rfl, rfl⟩ := hB b b' hb hb' _ _ hrest
  exact ⟨rfl, rfl⟩

/-- **Part of a value**, that tells the whole. -/
theorem comap {f : β → α} {okB : β → Prop} (hok : ∀ b, okB b → ok (f b))
    (hinj : ∀ b b', okB b → okB b' → f b = f b' → b = b') : Separated (fun b => ser (f b)) okB := by
  intro b b' hb hb' r s happ
  obtain ⟨heq, hrest⟩ := h _ _ (hok b hb) (hok b' hb') r s happ
  exact ⟨hinj b b' hb hb' heq, hrest⟩

/-- **Items in a row**, as many in both. -/
theorem flatMap {l m : List α} (hl : ∀ a ∈ l, ok a) (hm : ∀ a ∈ m, ok a)
    (hlen : l.length = m.length) {r s : List UInt8}
    (happ : l.flatMap ser ++ r = m.flatMap ser ++ s) : l = m ∧ r = s := by
  induction l generalizing m with
  | nil =>
    obtain rfl := length_eq_zero_iff.1 hlen.symm
    exact ⟨rfl, happ⟩
  | cons a l ih =>
    obtain ⟨b, m, rfl⟩ := exists_cons_of_length_eq_add_one hlen.symm
    obtain ⟨ha, htl⟩ := forall_mem_cons.1 hl
    obtain ⟨hb, htm⟩ := forall_mem_cons.1 hm
    simp only [flatMap_cons, append_assoc] at happ
    obtain ⟨rfl, hrest⟩ := h a b ha hb _ _ happ
    obtain ⟨rfl, rfl⟩ := ih htl htm (by simpa using hlen) hrest
    exact ⟨rfl, rfl⟩

end

end Separated

/-! ## Items in a row -/

def times (p : Parser ε α) : ℕ → Parser ε (List α)
  | 0 => pure []
  | n + 1 => do
    let a ← p
    let rest ← times p n
    pure (a :: rest)

/-- **Items in a row.** -/
theorem Lawful.times (h : Lawful ser p ok) (n : ℕ) :
    Lawful (fun l => l.flatMap ser) (times p n) (fun l => (∀ a ∈ l, ok a) ∧ l.length = n) := by
  induction n with
  | zero =>
    refine (Lawful.pure []).congr (fun l => ?_) ?_
    · constructor
      · rintro ⟨-, hl⟩
        exact length_eq_zero_iff.1 hl
      · rintro rfl
        simp
    · rintro _ rfl
      rfl
  | succ n ih =>
    refine ⟨fun l hl rest => ?_, fun bs l rest hp => ?_⟩
    · obtain ⟨a, l, rfl⟩ := exists_cons_of_length_eq_add_one hl.2
      obtain ⟨ha, hrest⟩ := forall_mem_cons.1 hl.1
      have hlen : l.length = n := by simpa using hl.2
      rw [flatMap_cons, append_assoc, Codec.times, bind_of_ok (h.decode a ha _),
        bind_of_ok (ih.decode l ⟨hrest, hlen⟩ rest)]
      rfl
    · obtain ⟨a, mid, hread, hrest⟩ := bind_eq_ok.1 hp
      obtain ⟨l', mid', hread', hpure⟩ := bind_eq_ok.1 hrest
      obtain ⟨rfl, rfl⟩ := mk.inj (Except.ok.inj hpure)
      obtain ⟨ha, rfl⟩ := h.canonical bs a mid hread
      obtain ⟨⟨hl, hlen⟩, rfl⟩ := ih.canonical mid l' _ hread'
      refine ⟨⟨forall_mem_cons.2 ⟨ha, hl⟩, by simp [hlen]⟩, ?_⟩
      rw [flatMap_cons, append_assoc]

/-! ## Bytes and little-endian numbers -/

variable (eof : ε) (n : ℕ)

def takeBytes : Parser ε (List UInt8) := fun bs =>
  if n ≤ bs.length then .ok (bs.take n, bs.drop n) else .error eof

theorem lawful_takeBytes : Lawful id (takeBytes eof n) (fun l => l.length = n) where
  decode l hl rest := by rw [takeBytes, if_pos (by simp [hl]), id, ← hl, take_left, drop_left]
  canonical bs l rest hp := by
    rw [takeBytes] at hp
    split at hp
    · rename_i hle
      obtain ⟨rfl, rfl⟩ := mk.inj (Except.ok.inj hp)
      exact ⟨length_take_of_le hle, (take_append_drop n bs).symm⟩
    · exact absurd hp (by simp)

/-- The `n` low bytes of a number, the lowest first. -/
def leBytes : ℕ → ℕ → List UInt8
  | 0, _ => []
  | n + 1, v => UInt8.ofNat (v % 256) :: leBytes n (v / 256)

/-- The number that bytes stand for, the lowest first. -/
def leValue : List UInt8 → ℕ
  | [] => 0
  | b :: bs => b.toNat + 256 * leValue bs

@[simp] theorem length_leBytes (n v : ℕ) : (leBytes n v).length = n := by
  induction n generalizing v with
  | zero => rfl
  | succ n ih => rw [leBytes, length_cons, ih]

theorem leValue_lt (bs : List UInt8) : leValue bs < 256 ^ bs.length := by
  induction bs with
  | nil => simp [leValue]
  | cons b bs ih =>
    have hb := b.toNat_lt
    rw [leValue, length_cons]
    omega

theorem leValue_leBytes {n v : ℕ} (h : v < 256 ^ n) : leValue (leBytes n v) = v := by
  induction n generalizing v with
  | zero => rw [leBytes, leValue]; omega
  | succ n ih =>
    have hdiv : v / 256 < 256 ^ n := by omega
    rw [leBytes, leValue, ih hdiv, UInt8.toNat_ofNat', Nat.mod_mod, Nat.mod_add_div]

theorem leBytes_leValue (bs : List UInt8) : leBytes bs.length (leValue bs) = bs := by
  induction bs with
  | nil => rfl
  | cons b bs ih =>
    have hb := b.toNat_lt
    have hlow : (b.toNat + 256 * leValue bs) % 256 = b.toNat := by omega
    have hhigh : (b.toNat + 256 * leValue bs) / 256 = leValue bs := by omega
    rw [length_cons, leBytes, leValue, hlow, hhigh, ih, UInt8.ofNat_toNat]

/-- Read a little-endian number of `n` bytes. -/
def readLE : Parser ε ℕ := leValue <$> takeBytes eof n

theorem lawful_readLE : Lawful (leBytes n) (readLE eof n) (· < 256 ^ n) :=
  (lawful_takeBytes eof n).iso
    (fun v hv => ⟨length_leBytes n v, leValue_leBytes hv⟩)
    (fun bs hbs => ⟨hbs ▸ leValue_lt bs, hbs ▸ leBytes_leValue bs⟩)

end Quarlcoin.Codec
