import Quarlcoin.Common.Indexed
import Quarlcoin.Script.Parse
/-!
# Signatures of several keys

The loop of `OP_CHECKMULTISIG` tries every key once, for the first signature that has no key
yet. It finds a matching in order if there is one (`checkMultisig_iff`): a key that a
signature could take is best taken at once.
-/

namespace Quarlcoin.Script

open List

def maxOpsPerScript : ℤ := 201

/-- How the operation ends without a result. -/
inductive MultisigError (ε : Type) where
  | invalidStackOperation
  | pubkeyCount
  | opCount
  | sigCount
  /-- `std::out_of_range` of the stack. -/
  | outOfRange
  /-- A number or an encoding is not accepted. -/
  | rejected (e : ε)

section

variable {ε : Type} (getint : List UInt8 → Except ε ℤ)
  (checkEncoding : List UInt8 → List UInt8 → Except ε Unit)
  (checkSig : List UInt8 → List UInt8 → Bool) (stack : List (List UInt8))

/-- `stacktop(-i)`; the top of the stack is the head of the list. -/
def stacktop (i : ℕ) : Except (MultisigError ε) (List UInt8) :=
  match stack[i - 1]? with
  | some vch => .ok vch
  | none => .error .outOfRange

/-- The loop of `OP_CHECKMULTISIG`; `checkSig` says whether a signature is made with a key. -/
def multisigLoop (nKeysCount isig ikey nSigsCount : ℕ) : Except (MultisigError ε) Bool :=
  match nSigsCount with
  | 0 => .ok true
  | nSigsLeft + 1 => do
    let vchSig ← stacktop stack isig
    let vchPubKey ← stacktop stack ikey
    (checkEncoding vchSig vchPubKey).mapError .rejected
    let fOk := checkSig vchSig vchPubKey
    let isig := if fOk then isig + 1 else isig
    let nSigsCount := if fOk then nSigsLeft else nSigsLeft + 1
    match nKeysCount with
    | 0 => .ok false
    | nKeysCount + 1 =>
      if nSigsCount > nKeysCount then .ok false
      else multisigLoop nKeysCount isig (ikey + 1) nSigsCount

/-- `OP_CHECKMULTISIG` up to its result, after `nOpCount` operations; `getint` reads a number. -/
def checkMultisig (nOpCount : ℕ) : Except (MultisigError ε) Bool := do
  if stack.length < 1 then throw .invalidStackOperation
  let nKeysCount ← (getint (← stacktop stack 1)).mapError .rejected
  if nKeysCount < 0 ∨ nKeysCount > maxPubkeysPerMultisig then throw .pubkeyCount
  if nOpCount + nKeysCount > maxOpsPerScript then throw .opCount
  let ikey := 2
  let i := ikey + nKeysCount.toNat
  if stack.length < i then throw .invalidStackOperation
  let nSigsCount ← (getint (← stacktop stack i)).mapError .rejected
  if nSigsCount < 0 ∨ nSigsCount > nKeysCount then throw .sigCount
  let isig := i + 1
  if stack.length < isig + nSigsCount.toNat then throw .invalidStackOperation
  multisigLoop checkEncoding checkSig stack nKeysCount.toNat isig ikey nSigsCount.toNat

end

/-! ## Matchings in order -/

section

variable {α β : Type} {R : α → β → Prop} {a : α} {b : β} {l : List α} {m : List β}

open List

theorem SublistForall₂.length_le (h : SublistForall₂ R l m) : l.length ≤ m.length := by
  obtain ⟨m', hforall, hsub⟩ := sublistForall₂_iff.1 h
  exact hforall.length_eq ▸ hsub.length_le

theorem sublistForall₂_cons (hR : R a b) :
    SublistForall₂ R (a :: l) (b :: m) ↔ SublistForall₂ R l m := by
  refine ⟨fun h => ?_, fun h => .cons hR h⟩
  cases h with
  | cons _ h => exact h
  | cons_right h =>
    obtain ⟨_, hforall, hsub⟩ := sublistForall₂_iff.1 h
    cases hforall with
    | cons _ hforall => exact sublistForall₂_iff.2 ⟨_, hforall, (sublist_cons_self _ _).trans hsub⟩

theorem sublistForall₂_cons_of_not (hR : ¬ R a b) :
    SublistForall₂ R (a :: l) (b :: m) ↔ SublistForall₂ R (a :: l) m := by
  refine ⟨fun h => ?_, fun h => .cons_right h⟩
  cases h with
  | cons hab _ => exact absurd hab hR
  | cons_right h => exact h

theorem sublistForall₂_iff_strictMono : SublistForall₂ R l m ↔
    ∃ f : Fin l.length → Fin m.length, StrictMono f ∧ ∀ i, R (l.get i) (m.get (f i)) := by
  rw [sublistForall₂_iff]
  constructor
  · rintro ⟨m', hforall, hsub⟩
    obtain ⟨f, hf⟩ := sublist_iff_exists_fin_orderEmbedding_get_eq.1 hsub
    refine ⟨fun i => f (i.cast hforall.length_eq), fun i j hij => f.strictMono hij, fun i => ?_⟩
    rw [← hf]
    exact hforall.get i.isLt _
  · rintro ⟨f, hmono, hR⟩
    refine ⟨ofFn fun i => m.get (f i), ?_, ?_⟩
    · rw [forall₂_iff_get]
      refine ⟨by simp, fun i hi hi' => ?_⟩
      simpa using hR ⟨i, hi⟩
    · refine sublist_iff_exists_fin_orderEmbedding_get_eq.2
        ⟨OrderEmbedding.ofStrictMono (fun i => f (i.cast (by simp))) fun i j hij => hmono hij,
          fun i => get_ofFn _ _⟩

end

/-! ## The loop -/

section

variable {ε : Type} {checkEncoding : List UInt8 → List UInt8 → Except ε Unit}
  {checkSig : List UInt8 → List UInt8 → Bool} {stack keys sigs : List (List UInt8)}

theorem stacktop_succ {i : ℕ} {vch : List UInt8} {below : List (List UInt8)}
    (h : stack.drop i = vch :: below) : stacktop (ε := ε) stack (i + 1) = .ok vch := by
  rw [stacktop, Nat.add_sub_cancel, (Indexed.getElem?_of_drop h).1]

/-- **The loop finds a matching if there is one**, by induction on the keys. -/
theorem multisigLoop_spec {isig ikey : ℕ} {belowKeys belowSigs : List (List UInt8)}
    (hkeys : stack.drop ikey = keys ++ belowKeys) (hsigs : stack.drop isig = sigs ++ belowSigs)
    (henc : ∀ sig ∈ sigs, ∀ key ∈ keys, checkEncoding sig key = .ok ())
    (hle : sigs.length ≤ keys.length) :
    ∃ fSuccess, multisigLoop checkEncoding checkSig stack keys.length (isig + 1) (ikey + 1)
        sigs.length = .ok fSuccess ∧
      (fSuccess = true ↔ List.SublistForall₂ (checkSig · ·) sigs keys) := by
  induction keys generalizing isig ikey sigs with
  | nil =>
    obtain rfl := eq_nil_of_length_eq_zero (Nat.le_zero.1 hle)
    exact ⟨true, rfl, iff_of_true rfl .nil⟩
  | cons key keys ih =>
    cases sigs with
    | nil => exact ⟨true, rfl, iff_of_true rfl .nil⟩
    | cons sig sigs => ?_
    have hkeys' := (Indexed.getElem?_of_drop hkeys).2
    have henc' : ∀ s ∈ sig :: sigs, ∀ k ∈ keys, checkEncoding s k = .ok () :=
      fun s hs k hk => henc s hs k (mem_cons_of_mem _ hk)
    rw [length_cons, length_cons, multisigLoop, stacktop_succ hsigs, stacktop_succ hkeys]
    simp only [bind, Except.bind, henc sig mem_cons_self key mem_cons_self, Except.mapError]
    by_cases hok : checkSig sig key = true
    · have hsigs' := (Indexed.getElem?_of_drop hsigs).2
      have hle' : sigs.length ≤ keys.length := Nat.le_of_succ_le_succ hle
      rw [if_pos hok, if_pos hok, if_neg (not_lt.2 hle'),
        sublistForall₂_cons (R := (checkSig · ·)) hok]
      exact ih hkeys' hsigs' (fun s hs => henc' s (mem_cons_of_mem _ hs)) hle'
    · rw [if_neg hok, sublistForall₂_cons_of_not (R := (checkSig · ·)) hok]
      split
      · -- more signatures are left than keys
        rename_i hfew
        exact ⟨false, rfl, iff_of_false Bool.false_ne_true fun h =>
          absurd (SublistForall₂.length_le h) (not_le.2 hfew)⟩
      · rename_i hfew
        exact ih hkeys' hsigs henc' (not_lt.1 hfew)

/-- **`OP_CHECKMULTISIG` is complete for signatures in order**: within the limits the result is
true exactly if the signatures can be assigned to keys, in order, such that each is made with its
key. -/
theorem checkMultisig_iff (getint : List UInt8 → Except ε ℤ)
    (checkEncoding : List UInt8 → List UInt8 → Except ε Unit)
    (checkSig : List UInt8 → List UInt8 → Bool) (nOpCount : ℕ)
    (vchKeys : List UInt8) (keys : List (List UInt8)) (vchSigs : List UInt8)
    (sigs : List (List UInt8)) (dummy : List UInt8) (below : List (List UInt8))
    (hkeys : getint vchKeys = .ok (keys.length : ℤ))
    (hsigs : getint vchSigs = .ok (sigs.length : ℤ)) (hlimit : keys.length ≤ maxPubkeysPerMultisig)
    (hops : nOpCount + keys.length ≤ maxOpsPerScript) (hle : sigs.length ≤ keys.length)
    (henc : ∀ sig ∈ sigs, ∀ key ∈ keys, checkEncoding sig key = .ok ()) :
    ∃ fSuccess, checkMultisig getint checkEncoding checkSig
        (vchKeys :: (keys ++ vchSigs :: (sigs ++ dummy :: below))) nOpCount = .ok fSuccess ∧
      (fSuccess = true ↔ ∃ f : Fin sigs.length → Fin keys.length,
        StrictMono f ∧ ∀ i, checkSig (sigs.get i) (keys.get (f i)) = true) := by
  generalize hstack : vchKeys :: (keys ++ vchSigs :: (sigs ++ dummy :: below)) = stack
  have hdrop : stack.drop 1 = keys ++ vchSigs :: (sigs ++ dummy :: below) := by rw [← hstack]; rfl
  have hmid : stack.drop (1 + keys.length) = vchSigs :: (sigs ++ dummy :: below) := by
    rw [← drop_drop, hdrop, drop_left]
  have hlow := (Indexed.getElem?_of_drop hmid).2
  have hlen : stack.length = keys.length + sigs.length + below.length + 3 := by
    rw [← hstack]
    simp only [length_cons, length_append]
    omega
  obtain ⟨fSuccess, hloop, hiff⟩ := multisigLoop_spec hdrop hlow henc hle
  refine ⟨fSuccess, ?_, hiff.trans sublistForall₂_iff_strictMono⟩
  rw [checkMultisig]
  simp only [bind, Except.bind, stacktop_succ (i := 0) hstack.symm, hkeys, Except.mapError,
    Int.toNat_natCast, show 2 + keys.length = 1 + keys.length + 1 by omega, stacktop_succ hmid, hsigs]
  rw [if_neg (by omega), if_neg (by omega), if_neg (by omega), if_neg (by omega),
    if_neg (by omega), if_neg (by omega)]
  exact hloop

/-- The first and the last of three keys have signed. -/
theorem checkMultisig_two_of_three :
    checkMultisig (ε := Empty) (fun vch => .ok vch.length) (fun _ _ => .ok ()) (· == ·)
      [[0, 0, 0], [1], [2], [3], [0, 0], [1], [3], []] 0 = .ok true := by
  obtain ⟨fSuccess, hrun, hiff⟩ := checkMultisig_iff (ε := Empty) (fun vch => .ok vch.length)
    (fun _ _ => .ok ()) (· == ·) 0 [0, 0, 0] [[1], [2], [3]] [0, 0] [[1], [3]] [] [] rfl rfl
    (by decide) (by decide) (by decide) fun _ _ _ _ => rfl
  rw [← hiff.2 ⟨fun i : Fin 2 => (⟨2 * i.1, by omega⟩ : Fin 3), by decide, by decide⟩]
  exact hrun

end

end Quarlcoin.Script
