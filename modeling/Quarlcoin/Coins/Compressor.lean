import Quarlcoin.Coins.Model
import Quarlcoin.Common.Machine
import Quarlcoin.Consensus.TxCheck
import Quarlcoin.Primitives.VarInt
import Quarlcoin.Script.Program
/-!
# The records of coins

`compressor.h`, `compressor.cpp` and the formats of `coins.h` and `undo.h`. Reading goes
into an object that is there already, here `prior`: a size that stands for a special form
without a decoder leaves its script alone.
-/

namespace Quarlcoin

open Codec Serialize Script List Option UInt64 Nat

namespace Coins

/-! ## Amounts -/

/-- The loop of `CompressAmount` that takes zeros off the end. -/
def dropZeros (n : UInt64) (e : ℕ) : UInt64 × ℕ :=
  if n % 10 = 0 ∧ e < 9 then dropZeros (n / 10) (e + 1) else (n, e)
termination_by 9 - e

/-- `CompressAmount`. Its assertion on the digit is in `dropZeros_spec`. -/
def compressAmount (n : UInt64) : UInt64 :=
  if n = 0 then 0
  else
    let (n, e) := dropZeros n 0
    if e < 9 then
      let d := n % 10
      1 + (n / 10 * 9 + d - 1) * 10 + ofNat e
    else 1 + (n - 1) * 10 + 9

/-- The loop of `DecompressAmount` that puts `e` zeros on again. -/
def timesTen : ℕ → UInt64 → UInt64
  | 0, n => n
  | e + 1, n => timesTen e (n * 10)

def decompressAmount (x : UInt64) : UInt64 :=
  if x = 0 then 0
  else
    let x := x - 1
    let e := (x % 10).toNat
    let x := x / 10
    if e < 9 then
      let d := x % 9 + 1
      timesTen e (x / 9 * 10 + d)
    else timesTen e (x + 1)

/-! ## Scripts -/

def opDup : UInt8 := 0x76

def opEqualVerify : UInt8 := 0x88

variable (script : Script)

/-- `IsToKeyID`: the hash of a key that a script pays to. -/
def isToKeyID : Option (List UInt8) :=
  if script.length = 25 ∧ script[0]? = some opDup ∧ script[1]? = some opHash160 ∧
      script[2]? = some 20 ∧ script[23]? = some opEqualVerify ∧ script[24]? = some opCheckSig then
    some ((script.drop 3).take 20)
  else none

/-- `IsToScriptID`: the hash of a script that a script pays to. -/
def isToScriptID : Option (List UInt8) :=
  if script.length = 23 ∧ script[0]? = some opHash160 ∧ script[1]? = some 20 ∧
      script[22]? = some opEqual then
    some ((script.drop 2).take 20)
  else none

def compressScript : Option (List UInt8) :=
  match isToKeyID script with
  | some keyID => some (0x00 :: keyID)
  | none =>
    match isToScriptID script with
    | some scriptID => some (0x01 :: scriptID)
    | none => none

def getSpecialScriptSize (nSize : ℕ) : ℕ := if nSize = 0 ∨ nSize = 1 then 20 else 0

def decompressScript (nSize : ℕ) (data : List UInt8) : Option Script :=
  if nSize = 0 then
    some ([opDup, opHash160, 20] ++ data.take 20 ++ [opEqualVerify, opCheckSig])
  else if nSize = 1 then some ([opHash160, 20] ++ data.take 20 ++ [opEqual])
  else none

/-- The greatest value of an `unsigned int`, the type of a size. -/
def maxUInt32 : ℕ := 2 ^ 32 - 1

def maxUInt64 : ℕ := 2 ^ 64 - 1

def nSpecialScripts : ℕ := 6

def serScript : List UInt8 :=
  match compressScript script with
  | some compr => compr
  | none => writeVarInt ((script.length + nSpecialScripts) % 2 ^ 32) ++ script

def unserScript (prior : Script) : Stream Script := do
  let nSize ← readVarInt maxUInt32
  if nSize < nSpecialScripts then
    let vch ← takeBytes .endOfData (getSpecialScriptSize nSize)
    pure ((decompressScript nSize vch).getD prior)
  else if nSize - nSpecialScripts > maxScriptSize then
    let _ ← takeBytes .endOfData (nSize - nSpecialScripts)
    pure (prior ++ [opReturn])
  else takeBytes .endOfData (nSize - nSpecialScripts)

/-! ## Outputs and coins -/

def serAmount (val : CAmount) : List UInt8 := writeVarInt (compressAmount val.toUInt64).toNat

def unserAmount : Stream CAmount :=
  (fun v => (decompressAmount (ofNat v)).toInt64) <$> readVarInt maxUInt64

/-- `TxOutCompression`, written. -/
def serTxOutCompressed (txout : TxOut) : List UInt8 :=
  serAmount txout.nValue ++ serScript txout.scriptPubKey

/-- `TxOutCompression`, read. -/
def unserTxOutCompressed (prior : TxOut) : Stream TxOut := do
  let nValue ← unserAmount
  let scriptPubKey ← unserScript prior.scriptPubKey
  pure ⟨nValue, scriptPubKey⟩

/-- The height and the coinbase flag in one number. -/
def Coin.code (coin : Coin) : ℕ := (coin.nHeight.toNat <<< 1) ||| coin.fCoinBase.toNat

/-- A coin from its code and its output. -/
def Coin.ofCode (code : ℕ) (out : TxOut) : Coin :=
  { out, fCoinBase := code &&& 1 != 0, nHeight := BitVec.ofNat 31 (code >>> 1) }

/-- `Coin::Serialize`, which asserts that the coin is not spent. -/
def serCoin (coin : Coin) : Option (List UInt8) :=
  if coin.isSpent then none
  else some (writeVarInt coin.code ++ serTxOutCompressed coin.out)

def unserCoin (prior : Coin) : Stream Coin := do
  let code ← readVarInt maxUInt32
  let out ← unserTxOutCompressed prior.out
  pure (Coin.ofCode code out)

def serTxInUndo (txout : Coin) : List UInt8 :=
  writeVarInt txout.code ++ (if txout.nHeight > 0 then serUInt8 0 else []) ++
    serTxOutCompressed txout.out

def unserTxInUndo (prior : Coin) : Stream Coin := do
  let nCode ← readVarInt maxUInt32
  let nHeight : BitVec 31 := BitVec.ofNat 31 (nCode >>> 1)
  if nHeight > 0 then
    let _nVersionDummy ← readVarInt maxUInt32
    let out ← unserTxOutCompressed prior.out
    pure (Coin.ofCode nCode out)
  else
    let out ← unserTxOutCompressed prior.out
    pure (Coin.ofCode nCode out)

/-! ## The amount code -/

variable {e q : ℕ} {n x : UInt64} {script : Script}

theorem dropZeros_spec (n : UInt64) (he : e ≤ 9) : ∃ k, (dropZeros n e).2 = e + k ∧ e + k ≤ 9 ∧
      n.toNat = (dropZeros n e).1.toNat * 10 ^ k ∧
      (e + k < 9 → (dropZeros n e).1.toNat % 10 ≠ 0) := by
  induction hk : 9 - e generalizing n e with
  | zero =>
    rw [dropZeros, if_neg (by omega)]
    exact ⟨0, rfl, he, (Nat.mul_one _).symm, fun h => by omega⟩
  | succ j ih =>
    rw [dropZeros]
    split_ifs with hzero
    · obtain ⟨k, he', hle, hn, hlast⟩ := ih (n / 10) (e := e + 1) (by omega) (by omega)
      refine ⟨k + 1, by omega, by omega, ?_, fun h => hlast (by omega)⟩
      have hmod : n.toNat % 10 = 0 := congrArg UInt64.toNat hzero.1
      have hdiv : (n / 10).toNat = n.toNat / 10 := rfl
      rw [pow_succ, ← mul_assoc]
      omega
    · refine ⟨0, rfl, he, (Nat.mul_one _).symm, fun h hmod => hzero ⟨?_, by omega⟩⟩
      exact UInt64.toNat_inj.1 hmod

theorem toNat_timesTen (h : n.toNat * 10 ^ e < 2 ^ 64) :
    (timesTen e n).toNat = n.toNat * 10 ^ e := by
  induction e generalizing n with
  | zero => exact (Nat.mul_one _).symm
  | succ e ih =>
    have hswap : n.toNat * 10 ^ (e + 1) = n.toNat * 10 * 10 ^ e := by
      rw [pow_succ, ← mul_assoc, mul_right_comm]
    rw [hswap] at h ⊢
    have hten : (n * 10).toNat = n.toNat * 10 := by
      refine mod_eq_of_lt (lt_of_le_of_lt ?_ h)
      exact Nat.le_mul_of_pos_right _ (Nat.pow_pos (by norm_num))
    rw [timesTen, ih (by rw [hten]; exact h), hten]

theorem decompressAmount_of_lt (hx : x.toNat = 1 + q * 10 + e) (he : e < 9) :
    ∃ m, decompressAmount x = timesTen e m ∧ m.toNat = q / 9 * 10 + (q % 9 + 1) := by
  have hlt := x.toNat_lt
  have hne : x ≠ 0 := by
    rintro rfl
    rw [UInt64.toNat_zero] at hx
    omega
  have hpred : (x - 1).toNat = q * 10 + e := by
    simp only [UInt64.toNat_sub, UInt64.reduceToNat]
    omega
  have hexp : ((x - 1) % 10).toNat = e := by
    simp only [UInt64.toNat_mod, UInt64.reduceToNat]
    omega
  refine ⟨(x - 1) / 10 / 9 * 10 + ((x - 1) / 10 % 9 + 1), ?_, ?_⟩
  · rw [decompressAmount, if_neg hne]
    dsimp only
    rw [hexp, if_pos he]
  · simp only [UInt64.toNat_add, UInt64.toNat_mul, UInt64.toNat_div, UInt64.toNat_mod, reduceToNat]
    omega

theorem decompressAmount_of_nine (hx : x.toNat = 1 + q * 10 + 9) :
    ∃ m, decompressAmount x = timesTen 9 m ∧ m.toNat = q + 1 := by
  have hlt := x.toNat_lt
  have hne : x ≠ 0 := by
    rintro rfl
    rw [UInt64.toNat_zero] at hx
    omega
  have hpred : (x - 1).toNat = q * 10 + 9 := by
    simp only [UInt64.toNat_sub, UInt64.reduceToNat]
    omega
  have hexp : ((x - 1) % 10).toNat = 9 := by
    simp only [UInt64.toNat_mod, UInt64.reduceToNat]
    omega
  refine ⟨(x - 1) / 10 + 1, ?_, ?_⟩
  · rw [decompressAmount, if_neg hne]
    dsimp only
    rw [hexp, if_neg (by norm_num)]
  · simp only [UInt64.toNat_add, UInt64.toNat_div, UInt64.reduceToNat]
    omega

/-- **An amount comes back** from its code, if the code does not overflow. -/
theorem decompressAmount_compressAmount (hn : n.toNat < 2 ^ 60) :
    decompressAmount (compressAmount n) = n := by
  rw [compressAmount]
  split
  · rename_i hzero
    rw [hzero]
    rfl
  rename_i hne
  obtain ⟨k, he, hk, hvalue, hlast⟩ := dropZeros_spec n (e := 0) (by norm_num)
  have hpos : 0 < n.toNat := pos_of_ne_zero fun h => hne (UInt64.toNat_inj.1 h)
  generalize dropZeros n 0 = r at he hvalue hlast
  obtain ⟨m, e⟩ := r
  dsimp only at he hvalue hlast ⊢
  rw [zero_add] at he hk hlast
  subst he
  have hm : m.toNat ≤ n.toNat := by
    rw [hvalue]
    exact Nat.le_mul_of_pos_right _ (Nat.pow_pos (by norm_num))
  -- with the zeros taken off, the digits are the ones of the code
  have hback : ∀ m' : UInt64, m'.toNat = m.toNat → timesTen e m' = n := by
    intro m' hm'
    refine UInt64.toNat_inj.1 ?_
    rw [toNat_timesTen (by rw [hm']; omega), hm', ← hvalue]
  split_ifs with hlt
  · have hcode : (1 + (m / 10 * 9 + m % 10 - 1) * 10 + UInt64.ofNat e).toNat =
        1 + (m.toNat / 10 * 9 + m.toNat % 10 - 1) * 10 + e := by
      simp only [UInt64.toNat_add, UInt64.toNat_mul, UInt64.toNat_sub, UInt64.toNat_div,
        UInt64.toNat_mod, UInt64.toNat_ofNat', UInt64.reduceToNat]
      omega
    obtain ⟨m', hdecode, hm'⟩ := decompressAmount_of_lt hcode hlt
    exact hdecode.trans (hback m' (by omega))
  · obtain rfl : e = 9 := by omega
    have hcode : (1 + (m - 1) * 10 + 9).toNat = 1 + (m.toNat - 1) * 10 + 9 := by
      simp only [UInt64.toNat_add, UInt64.toNat_mul, UInt64.toNat_sub, UInt64.reduceToNat]
      omega
    obtain ⟨m', hdecode, hm'⟩ := decompressAmount_of_nine hcode
    exact hdecode.trans (hback m' (by omega))

theorem decodes_unserAmount : Decodes serAmount unserAmount fun val => moneyRange val = true := by
  refine (decodes_readVarInt maxUInt64).map
    fun val hval => ⟨?_, ?_⟩
  · have hlt := (compressAmount val.toUInt64).toNat_lt
    rw [maxUInt64]
    omega
  · have hrange := moneyRange_iff.1 hval
    have hbound : val.toUInt64.toNat < 2 ^ 60 := by
      rw [Machine.toNat_toUInt64_of_nonneg hrange.1]
      omega
    rw [UInt64.ofNat_toNat, decompressAmount_compressAmount hbound, Int64.toInt64_toUInt64]

/-! ## The special scripts -/

theorem eq_take_append {l tail : List UInt8} {n : ℕ} (hlen : l.length = n + tail.length)
    (htail : ∀ i < tail.length, l[n + i]? = tail[i]?) : l = l.take n ++ tail := by
  have hdrop : l.drop n = tail := by
    refine ext_getElem? fun i => ?_
    rw [getElem?_drop]
    rcases lt_or_ge i tail.length with hlt | hge
    · exact htail i hlt
    · rw [getElem?_eq_none (by omega), getElem?_eq_none hge]
  rw [← hdrop, take_append_drop]

theorem eq_of_isToKeyID {keyID : List UInt8} (h : isToKeyID script = some keyID) :
    keyID.length = 20 ∧
      script = [opDup, opHash160, 20] ++ keyID ++ [opEqualVerify, opCheckSig] := by
  rw [isToKeyID] at h
  split at h
  · rename_i hform
    obtain ⟨hlen, h0, h1, h2, h23, h24⟩ := hform
    obtain rfl := some.inj h
    match script with
    | a :: b :: c :: tail =>
      obtain rfl := some.inj h0
      obtain rfl := some.inj h1
      obtain rfl := some.inj h2
      have htail : tail.length = 22 := by simpa using hlen
      have hends : tail = tail.take 20 ++ [opEqualVerify, opCheckSig] := by
        refine eq_take_append htail fun i hi => ?_
        match i, hi with
        | 0, _ => exact h23
        | 1, _ => exact h24
      refine ⟨by simp [htail], ?_⟩
      conv_lhs => rw [hends]
      rfl
  · cases h

theorem eq_of_isToScriptID {scriptID : List UInt8} (h : isToScriptID script = some scriptID) :
    scriptID.length = 20 ∧ script = [opHash160, 20] ++ scriptID ++ [opEqual] := by
  rw [isToScriptID] at h
  split at h
  · rename_i hform
    obtain ⟨hlen, h0, h1, h22⟩ := hform
    obtain rfl := some.inj h
    match script with
    | a :: b :: tail =>
      obtain rfl := some.inj h0
      obtain rfl := some.inj h1
      have htail : tail.length = 21 := by simpa using hlen
      have hends : tail = tail.take 20 ++ [opEqual] := by
        refine eq_take_append htail fun i hi => ?_
        match i, hi with
        | 0, _ => exact h22
      refine ⟨by simp [htail], ?_⟩
      conv_lhs => rw [hends]
      rfl
  · cases h

/-- **The special forms** are a type and a hash, which make up the script. -/
theorem eq_of_compressScript {compr : List UInt8} (h : compressScript script = some compr) :
    ∃ nSize < 2, ∃ data : List UInt8, data.length = 20 ∧ compr = UInt8.ofNat nSize :: data ∧
      decompressScript nSize data = some script := by
  rw [compressScript] at h
  split at h
  · rename_i keyID hkey
    obtain ⟨hlen, hscript⟩ := eq_of_isToKeyID hkey
    refine ⟨0, by norm_num, keyID, hlen, (some.inj h).symm, ?_⟩
    rw [decompressScript, if_pos rfl, take_of_length_le hlen.le, hscript]
  split at h
  · rename_i scriptID hid
    obtain ⟨hlen, hscript⟩ := eq_of_isToScriptID hid
    refine ⟨1, by norm_num, scriptID, hlen, (some.inj h).symm, ?_⟩
    rw [decompressScript, if_neg (by norm_num), if_pos rfl, take_of_length_le hlen.le, hscript]
  · cases h

/-! ## The records -/

/-- **A script comes back**, whichever form it has. -/
theorem decodes_unserScript (prior : Script) :
    Decodes serScript (unserScript prior) fun script => script.length ≤ maxScriptSize := by
  intro script hlen rest
  rw [serScript, unserScript]
  cases hcompr : compressScript script with
  | none =>
    rw [maxScriptSize] at hlen
    rw [nSpecialScripts, mod_eq_of_lt (by omega), append_assoc,
      bind_of_ok (decodes_readVarInt maxUInt32 _ (by rw [maxUInt32]; omega) _),
      if_neg (by omega), maxScriptSize, if_neg (by omega)]
    exact (lawful_takeBytes _ _).decode script rfl rest
  | some compr =>
    obtain ⟨nSize, hsize, data, hdata, rfl, hscript⟩ := eq_of_compressScript hcompr
    have hread : readVarInt maxUInt32 (UInt8.ofNat nSize :: data ++ rest) =
        .ok (nSize, data ++ rest) := by
      have h := decodes_readVarInt maxUInt32 nSize (by rw [maxUInt32]; omega) (data ++ rest)
      rw [writeVarInt_of_lt (by omega)] at h
      exact h
    have hspecial : getSpecialScriptSize nSize = data.length := by
      rw [getSpecialScriptSize, if_pos (by omega), hdata]
    rw [bind_of_ok hread, if_pos (by rw [nSpecialScripts]; omega), hspecial,
      bind_of_ok (show takeBytes _ _ (data ++ rest) = _ from
        (lawful_takeBytes _ _).decode data rfl rest), hscript]
    rfl

/-- The outputs that a record can hold. -/
structure Storable (txout : TxOut) : Prop where
  value : moneyRange txout.nValue = true
  script : txout.scriptPubKey.length ≤ maxScriptSize

theorem decodes_unserTxOutCompressed (prior : TxOut) :
    Decodes serTxOutCompressed (unserTxOutCompressed prior) Storable := by
  refine decodes_unserAmount.field TxOut.nValue (fun txout h => h.value) fun nValue => ?_
  rintro txout ⟨h, rfl⟩ rest
  rw [bind_of_ok (decodes_unserScript _ _ h.script rest)]
  rfl

variable (coin : Coin)

theorem Coin.code_eq : coin.code = 2 * coin.nHeight.toNat + coin.fCoinBase.toNat := by
  rw [code, ← shiftLeft_add_eq_or_of_lt (by simpa using coin.fCoinBase.toNat_lt)]
  omega

theorem Coin.code_le : coin.code ≤ maxUInt32 := by
  have hflag := coin.fCoinBase.toNat_lt
  rw [code_eq, maxUInt32]
  omega

theorem Coin.shiftRight_code : BitVec.ofNat 31 (coin.code >>> 1) = coin.nHeight := by
  have hflag := coin.fCoinBase.toNat_lt
  have hheight : coin.code >>> 1 = coin.nHeight.toNat := by
    rw [code_eq]
    omega
  rw [hheight, BitVec.ofNat_toNat, BitVec.setWidth_eq]

theorem Coin.ofCode_code : Coin.ofCode coin.code coin.out = coin := by
  have hflag : (coin.code &&& 1 != 0) = coin.fCoinBase := by
    rw [code_eq]
    cases coin.fCoinBase <;> simp
  rw [ofCode, shiftRight_code, hflag]

/-- **A coin record** is read back into the coin. -/
theorem unserCoin_append {coin : Coin} (h : Storable coin.out) (prior : Coin) (rest : List UInt8) :
    unserCoin prior (writeVarInt coin.code ++ serTxOutCompressed coin.out ++ rest) =
      .ok (coin, rest) := by
  rw [append_assoc, unserCoin, bind_of_ok (decodes_readVarInt _ _ coin.code_le _),
    bind_of_ok (decodes_unserTxOutCompressed _ _ h rest), Coin.ofCode_code]
  rfl

/-- **An undo record** is read back into the coin. -/
theorem decodes_unserTxInUndo (prior : Coin) :
    Decodes serTxInUndo (unserTxInUndo prior) fun coin => Storable coin.out := by
  intro coin h rest
  rw [serTxInUndo, unserTxInUndo, append_assoc, append_assoc,
    bind_of_ok (decodes_readVarInt _ _ coin.code_le _), coin.shiftRight_code]
  split
  · -- the byte zero is the number zero
    have hdummy := decodes_readVarInt maxUInt32 0 (zero_le _)
      (serTxOutCompressed coin.out ++ rest)
    rw [writeVarInt_of_lt (by norm_num), show [UInt8.ofNat 0] = serUInt8 0 from rfl] at hdummy
    rw [bind_of_ok hdummy, bind_of_ok (decodes_unserTxOutCompressed _ _ h rest), Coin.ofCode_code]
    rfl
  · rw [nil_append, bind_of_ok (decodes_unserTxOutCompressed _ _ h rest), Coin.ofCode_code]
    rfl

/-- **The records of coins lose nothing.** A coin with a value in range and a script that is not
too long is read back from exactly its bytes, and no other such coin has the same record. -/
theorem coinRecords_lossless (h : Storable coin.out) : (∃ bytes, serCoin coin = some bytes ∧
      ∀ prior rest, unserCoin prior (bytes ++ rest) = .ok (coin, rest)) ∧
    (∀ prior rest, unserTxInUndo prior (serTxInUndo coin ++ rest) = .ok (coin, rest)) ∧
    ∀ coin', Storable coin'.out → coin' ≠ coin →
      serCoin coin' ≠ serCoin coin ∧ serTxInUndo coin' ≠ serTxInUndo coin := by
  have hser : ∀ {coin : Coin}, Storable coin.out →
      serCoin coin = some (writeVarInt coin.code ++ serTxOutCompressed coin.out) := by
    intro coin h
    rw [serCoin, if_neg]
    rw [Coin.isSpent, TxOut.isNull, beq_iff_eq]
    intro hnull
    have hvalue := h.value
    rw [hnull] at hvalue
    exact absurd hvalue (by decide)
  refine ⟨⟨_, hser h, unserCoin_append h⟩, fun prior => decodes_unserTxInUndo prior coin h, ?_⟩
  intro coin' h' hne
  refine ⟨fun heq => hne ?_, fun heq => hne ?_⟩
  · rw [hser h, hser h'] at heq
    have hread := unserCoin_append h' {} []
    rw [some.inj heq, unserCoin_append h {} []] at hread
    exact (Prod.mk.inj (Except.ok.inj hread)).1.symm
  · exact (decodes_unserTxInUndo {}).injective h' h heq

/-- A coin of fifty, for the hash of a key. -/
def keyHashCoin : Coin where
  out := ⟨5000000000, [opDup, opHash160, 20] ++ List.replicate 20 7 ++ [opEqualVerify, opCheckSig]⟩
  fCoinBase := true
  nHeight := 100

theorem storable_keyHashCoin : Storable keyHashCoin.out where
  value := by decide
  script := by decide

theorem keyHashCoin_record :
    compressScript keyHashCoin.out.scriptPubKey = some (0 :: List.replicate 20 7) ∧
    ∃ bytes, serCoin keyHashCoin = some bytes ∧ unserCoin {} bytes = .ok (keyHashCoin, []) := by
  obtain ⟨⟨bytes, hser, hread⟩, -⟩ := coinRecords_lossless keyHashCoin storable_keyHashCoin
  refine ⟨by decide, bytes, hser, ?_⟩
  have hall := hread {} []
  rw [append_nil] at hall
  exact hall

end Coins

end Quarlcoin
