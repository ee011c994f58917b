import Quarlcoin.Policy.Packages
/-!
# Topologically restricted transactions

`policy/truc_policy.cpp`: a transaction of version 3 has at most one unconfirmed ancestor
and at most one unconfirmed descendant, both of version 3. `SingleTRUCChecks` looks at one
transaction and its parents in the mempool, `PackageTRUCChecks` at one of a package.
-/

namespace Quarlcoin

open Arith

def trucVersion : UInt32 := 3

def trucDescendantLimit : ℕ := 2

def trucAncestorLimit : ℕ := 2

def trucMaxVsize : ℤ := 10000

def trucChildMaxVsize : ℤ := 1000

/-! ## The texts of the errors -/

/-- `uint256::ToString`. -/
def toHex (h : Uint256) : String :=
  String.ofList ((List.range 64).reverse.map fun i => Nat.digitChar (h.toNat / 16 ^ i % 16))

namespace TransactionRef

variable (tx : TransactionRef)

def describe : String :=
  let txid := toHex tx.hash
  let wtxid := toHex tx.witnessHash
  s!"tx {txid} (wtxid={wtxid})"

def tooBigText (kind : String) (tx : TransactionRef) (vsize limit : ℤ) : String :=
  let text := tx.describe
  s!"version=3 {kind}{text} is too big: {vsize} > {limit} virtual bytes"

def tooManyAncestorsText : String :=
  let text := tx.describe
  s!"{text} would have too many ancestors"

def descendantLimitText : String :=
  let text := tx.describe
  s!"{text} would exceed descendant count limit"

def trucSpendsOtherText (tx parent : TransactionRef) : String :=
  let text := tx.describe
  let parentText := parent.describe
  s!"version=3 {text} cannot spend from non-version=3 {parentText}"

def otherSpendsTrucText (tx parent : TransactionRef) : String :=
  let text := tx.describe
  let parentText := parent.describe
  s!"non-version=3 {text} cannot spend from version=3 {parentText}"

def IsTruc : Prop := tx.version = trucVersion

instance (tx : TransactionRef) : Decidable tx.IsTruc :=
  inferInstanceAs (Decidable (tx.version = trucVersion))

end TransactionRef

/-! ## One transaction -/

def inheritanceCheck (ptx : TransactionRef) (parent : MemPoolEntry) : Option String :=
  if ¬ptx.IsTruc ∧ parent.tx.IsTruc then some (ptx.otherSpendsTrucText parent.tx)
  else if ptx.IsTruc ∧ ¬parent.tx.IsTruc then some (ptx.trucSpendsOtherText parent.tx)
  else none

variable (pool : MemPool) (ptx : TransactionRef)

/-- The part of `SingleTRUCChecks` about the only parent. Its only other descendant may be
evicted. -/
def trucParentCheck (parent : MemPoolEntry)
    (directConflicts : List Uint256) (vsize : ℤ) : Option (String × Option TransactionRef) :=
  if pool.getAncestorCount parent.tx.hash + 1 > trucAncestorLimit then
    some (ptx.tooManyAncestorsText, none)
  else if vsize > trucChildMaxVsize then
    some (ptx.tooBigText "child " vsize trucChildMaxVsize, none)
  else
    let descendants := (pool.getDescendants parent.tx.hash).filter (· ≠ parent.tx.hash)
    let childWillBeReplaced := descendants.any fun child => directConflicts.contains child
    if pool.getDescendantCount parent.tx.hash + 1 > trucDescendantLimit ∧ ¬childWillBeReplaced then
      let sibling := descendants.head?.filter fun child =>
        pool.getDescendantCount parent.tx.hash = 2 ∧ pool.getAncestorCount child = 2
      some (parent.tx.descendantLimitText, (sibling.bind pool.getIter).map (·.tx))
    else none

def singleTRUCChecks (mempoolParents : List MemPoolEntry)
    (directConflicts : List Uint256) (vsize : ℤ) : Option (String × Option TransactionRef) :=
  match mempoolParents.findSome? (inheritanceCheck ptx) with
  | some err => some (err, none)
  | none =>
    if ¬ptx.IsTruc then none
    else if vsize > trucMaxVsize then some (ptx.tooBigText "" vsize trucMaxVsize, none)
    else if mempoolParents.length + 1 > trucAncestorLimit then
      some (ptx.tooManyAncestorsText, none)
    else
      match mempoolParents with
      | [] => none
      | parent :: _ => trucParentCheck pool ptx parent directConflicts vsize

/-! ## A package -/

variable (package : List TransactionRef) (i : ℕ)

/-- `FindInPackageParents`: the parents of the transaction at `i`, in the package
before it. -/
def findInPackageParents (ptx : TransactionRef) : List TransactionRef :=
  (package.take i).filter fun tx => ptx.vin.any fun input => input.prevout.hash == tx.hash

structure ParentInfo where
  tx : TransactionRef
  hasMempoolDescendant : Bool

def siblingCheck (ptx parent : TransactionRef) (others : List TransactionRef) : Option String :=
  others.findSome? fun packageTx => packageTx.vin.findSome? fun input =>
    if input.prevout.hash = parent.hash then some parent.descendantLimitText
    else if input.prevout.hash = ptx.hash then some packageTx.tooManyAncestorsText
    else none

/-- The part of `PackageTRUCChecks` about the only parent. -/
def packageParentCheck (parent : ParentInfo)
    (others : List TransactionRef) (vsize : ℤ) : Option String :=
  if vsize > trucChildMaxVsize then some (ptx.tooBigText "child " vsize trucChildMaxVsize)
  else if ¬parent.tx.IsTruc then some (ptx.trucSpendsOtherText parent.tx)
  else
    match siblingCheck ptx parent.tx others with
    | some err => some err
    | none => if parent.hasMempoolDescendant then some parent.tx.descendantLimitText else none

/-- `PackageTRUCChecks` for the transaction at `i`. -/
def packageTRUCChecks
    (ptx : TransactionRef) (vsize : ℤ) (mempoolParents : List MemPoolEntry) : Option String :=
  let inPackageParents := findInPackageParents package i ptx
  let others := package.eraseIdx i
  if ptx.IsTruc then
    if vsize > trucMaxVsize then some (ptx.tooBigText "" vsize trucMaxVsize)
    else if mempoolParents.length + inPackageParents.length + 1 > trucAncestorLimit then
      some ptx.tooManyAncestorsText
    else
      match mempoolParents, inPackageParents with
      | parent :: _, _ =>
        if pool.getAncestorCount parent.tx.hash + inPackageParents.length + 1 >
            trucAncestorLimit then some ptx.tooManyAncestorsText
        else packageParentCheck ptx
          ⟨parent.tx, pool.getDescendantCount parent.tx.hash > 1⟩ others vsize
      | [], parent :: _ => packageParentCheck ptx ⟨parent, false⟩ others vsize
      | [], [] => none
  else
    match (mempoolParents.map (·.tx) ++ inPackageParents).find? fun parent => parent.IsTruc with
    | some parent => some (ptx.otherSpendsTrucText parent)
    | none => none

/-! ## The rules -/

/-- **The pool keeps the rules.** -/
structure TrucTopology : Prop where
  ancestors : ∀ e ∈ pool.mapTx, e.tx.IsTruc → pool.getAncestorCount e.tx.hash ≤ trucAncestorLimit
  descendants : ∀ e ∈ pool.mapTx, e.tx.IsTruc →
    pool.getDescendantCount e.tx.hash ≤ trucDescendantLimit
  inherited : ∀ parent ∈ pool.mapTx, ∀ child ∈ pool.mapTx,
    (parent.tx.hash, child.tx.hash) ∈ pool.deps → (parent.tx.IsTruc ↔ child.tx.IsTruc)
  child_size : ∀ parent ∈ pool.mapTx, ∀ child ∈ pool.mapTx,
    (parent.tx.hash, child.tx.hash) ∈ pool.deps → child.tx.IsTruc → child.txSize ≤ trucChildMaxVsize

end Quarlcoin
