import Mathlib.Data.Int.CardIntervalMod
import Quarlcoin.Chain.Tree
import Quarlcoin.Common.Machine
import Quarlcoin.HeadersSync.Sound
/-!
# Low-work header sync — the bound on the commitments

The constructor allows for six headers a second, which a chain that obeys the median time
past rule does not exceed. But the commitments that are allowed are the headers divided by
the period and rounded down, while those of a chain start anywhere in the period
(`presync_bound`).
-/

namespace Quarlcoin

open Arith Quarlcoin.Pow Indexed BaseUint Links BlockHeader List Nat

namespace HeadersSync

/-! ## Counting commitments -/

/-- The number of headers in front of the first commitment. -/
def firstCommitment (C : SyncConfig) : ℕ :=
  (C.commitOffset + (C.params.commitmentPeriod -
    (C.chainStart.nHeight + 1) % C.params.commitmentPeriod)) % C.params.commitmentPeriod

variable (getHash : BlockHeader → Uint256) {C : SyncConfig} {headers : List BlockHeader}
  (hoff : C.commitOffset < C.params.commitmentPeriod)
include hoff

theorem commits_iff (i : ℕ) :
    (C.chainStart.nHeight + (i + 1)) % C.params.commitmentPeriod = C.commitOffset ↔
      i ≡ firstCommitment C [MOD C.params.commitmentPeriod] := by
  unfold firstCommitment
  generalize C.params.commitmentPeriod = period at hoff ⊢
  generalize C.chainStart.nHeight = height
  have hlt := mod_lt (height + 1) (show 0 < period by omega)
  have hdiv := div_add_mod (height + 1) period
  -- the start and what is missing to the period make up whole periods
  have hwhole : height + (i + 1) + (period - (height + 1) % period) =
      i + period * ((height + 1) / period + 1) := by
    rw [mul_add]
    omega
  have hshift : height + (i + 1) + (period - (height + 1) % period) ≡ i [MOD period] := by
    rw [hwhole, Nat.ModEq, add_mul_mod_self_left]
  have hmod : (height + (i + 1)) % period = C.commitOffset ↔
      height + (i + 1) ≡ C.commitOffset [MOD period] := by
    rw [Nat.ModEq, mod_eq_of_lt hoff]
  rw [hmod]
  constructor
  · intro h
    exact (hshift.symm.trans (h.add_right _)).trans (mod_modEq _ _).symm
  · intro h
    exact Nat.ModEq.add_right_cancel' _ (hshift.trans (h.trans (mod_modEq _ _)))

theorem length_bitsOf (hheight : C.chainStart.nHeight + headers.length < 2 ^ 31) :
    (bitsOf getHash C (presyncHeight C) headers).length =
      headers.length / C.params.commitmentPeriod +
        if firstCommitment C < headers.length % C.params.commitmentPeriod then 1 else 0 := by
  have hfirst : firstCommitment C % C.params.commitmentPeriod = firstCommitment C := mod_mod _ _
  have hcount := count_modEq_card (b := headers.length)
    (show 0 < C.params.commitmentPeriod by omega) (firstCommitment C)
  rw [hfirst] at hcount
  rw [bitsOf_presyncHeight hheight, bitsOf, ← hcount, selectFrom_congr fun i _ hi => ?_,
    length_selectFrom fun i => i ≡ firstCommitment C [MOD C.params.commitmentPeriod]]
  rw [isCommitmentHeight_heightAt (by omega), decide_eq_decide]
  exact commits_iff hoff i

omit hoff

/-- Rounding down and the position of the first commitment make up a length. -/
theorem div_add_le_iff {n p q k : ℕ} (hk : k < p) :
    n / p + (if k < n % p then 1 else 0) ≤ q ↔ n ≤ p * q + k := by
  have hdiv := div_add_mod n p
  have hmod := mod_lt n (show 0 < p by omega)
  rcases lt_trichotomy (n / p) q with hlt | rfl | hgt
  · have hle := mul_le_mul_left p hlt
    rw [succ_eq_add_one, mul_add] at hle
    split <;> omega
  · split <;> omega
  · have hle := mul_le_mul_left p hgt
    rw [succ_eq_add_one, mul_add] at hle
    split <;> omega

/-- **Presync passes** headers whose difficulty is permitted, up to a length. -/
theorem presync_passes_iff (hoff : C.commitOffset < C.params.commitmentPeriod)
    (hheight : C.chainStart.nHeight + headers.length < 2 ^ 31)
    (hdiff : IChain (Permitted C (heightAt C)) 0 C.chainStart.header headers) :
    (validateEach (validateAndProcessSingleHeader getHash C) (init C) headers).2 = true ↔
      headers.length ≤ C.params.commitmentPeriod * C.maxCommitments + firstCommitment C := by
  have hfirst : firstCommitment C < C.params.commitmentPeriod := mod_lt _ (by omega)
  rw [← div_add_le_iff hfirst, ← length_bitsOf getHash hoff hheight]
  constructor
  · intro hok
    have hs : Presyncing getHash C _ ([] ++ headers) :=
      validateEach_inv (fun _ _ _ _ hinv => hinv.header_next) presyncing_init
        (Prod.ext rfl hok)
    exact hs.commitments ▸ hs.bounded
  · intro hfit
    obtain ⟨t, heq⟩ := validateEach_ok (fun _ _ => PresyncOk.left)
      (fun _ _ _ hinv => hinv.header_ok) presyncing_init
      ⟨(permitted_presyncHeight hheight).2 hdiff, hfit⟩
    exact congrArg Prod.snd heq

/-! ## How long a chain can be -/

/-- **Six headers a second**: a chain that obeys the rule until `latest`. -/
theorem length_le_of_rule {ι : Type} {t : BlockTree ι} {start tip : ι} {n : ℕ} {latest : ℤ}
    (hrule : t.AboveMedianFrom (t.nHeight start)) (hback : t.back (n + 1) (some tip) = some start)
    (htime : t.getBlockTime tip ≤ latest) :
    ((n + 1 : ℕ) : ℤ) ≤ 6 * (latest - t.getMedianTimePast start) := by
  rw [back_succ_some] at hback
  cases hp : t.pprev tip with
  | none =>
    rw [hp, back_none] at hback
    cases hback
  | some p =>
    rw [hp] at hback
    have hheight := t.nextHeight_back n (some p)
    rw [hback, nextHeight_some, nextHeight_some] at hheight
    have hgrow := hrule.add_div_le hback le_rfl
    have habove := hrule tip p hp (by omega)
    omega

/-- The headers that the constructor allows for. -/
def allowedHeaders (now : Int64) (chainStart : BlockIndex) : ℕ :=
  (6 * (now.toInt - chainStart.medianTimePast.toInt + maxFutureBlockTime.toInt)).toNat

theorem toNat_maxSeconds {now : Int64} {chainStart : BlockIndex}
    (hspan : now.toInt - chainStart.medianTimePast.toInt < 2 ^ 60)
    (hpos : 0 ≤ now.toInt - chainStart.medianTimePast.toInt + maxFutureBlockTime.toInt) :
    (6 * (now - chainStart.medianTimePast + maxFutureBlockTime)).toUInt64.toNat =
      allowedHeaders now chainStart := by
  have hfuture : maxFutureBlockTime.toInt = 7200 := rfl
  have hsix : (6 : Int64).toInt = 6 := rfl
  have hsub := Machine.toInt_sub_of_bounds (a := now) (b := chainStart.medianTimePast) (by omega)
    (by omega)
  have hadd := Machine.toInt_add_of_bounds (a := now - chainStart.medianTimePast)
    (b := maxFutureBlockTime) (by omega) (by omega)
  have hmul := Machine.toInt_mul_of_bounds
    (b := now - chainStart.medianTimePast + maxFutureBlockTime) (by rw [hsix]; omega)
    (by rw [hsix]; omega)
  rw [hsix] at hmul
  rw [Machine.toNat_toUInt64_of_nonneg (by omega), hmul, hadd, hsub, allowedHeaders]

/-- **What the bound allows.** A chain that obeys the median time past rule has no more headers
than the constructor allows for. They all pass presync exactly if there are no more than whole
periods of these and the headers in front of the first commitment. -/
theorem presync_bound {ι : Type} (t : BlockTree ι) (start tip : ι)
    (getHash : BlockHeader → Uint256) (consensusParams : Consensus.Params)
    (params : HeadersSyncParams) (chainStart : BlockIndex) (minimumRequiredWork : ArithUint256)
    (hasher : Uint256 → UInt64) (now : Int64) (randrange : ℕ → ℕ) (C : SyncConfig)
    (s : HeadersSyncState) (headers : List BlockHeader)
    (hnew : new consensusParams params chainStart minimumRequiredWork hasher now randrange =
      some (C, s)) (hrandom : randrange params.commitmentPeriod < params.commitmentPeriod)
    (hspan : now.toInt - chainStart.medianTimePast.toInt < 2 ^ 60)
    (hheight : chainStart.nHeight + headers.length < 2 ^ 31)
    (hmedian : chainStart.medianTimePast.toInt = t.getMedianTimePast start)
    (hrule : t.AboveMedianFrom (t.nHeight start))
    (hback : t.back headers.length (some tip) = some start)
    (htimes : headers.map (fun header => header.getBlockTime.toInt) =
      (t.ancestorTimes headers.length (some tip)).reverse) (hfuture : ∀ header ∈ headers,
      header.getBlockTime.toInt ≤ now.toInt + maxFutureBlockTime.toInt)
    (hdiff : IChain (Permitted C (heightAt C)) 0 chainStart.header headers) :
    headers.length ≤ allowedHeaders now chainStart ∧
    ((validateEach (validateAndProcessSingleHeader getHash C) s headers).2 = true ↔
      headers.length ≤ params.commitmentPeriod *
        (allowedHeaders now chainStart / params.commitmentPeriod) + firstCommitment C) ∧
    (allowedHeaders now chainStart % params.commitmentPeriod ≤ firstCommitment C →
      (validateEach (validateAndProcessSingleHeader getHash C) s headers).2 = true) := by
  unfold new at hnew
  rw [if_pos (show 0 < params.commitmentPeriod by omega)] at hnew
  obtain ⟨rfl, rfl⟩ := Prod.mk.inj (Option.some.inj hnew)
  cases hheaders : headers with
  | nil => exact ⟨zero_le _, ⟨fun _ => zero_le _, fun _ => rfl⟩, fun _ => rfl⟩
  | cons first rest =>
    rw [← hheaders]
    have hlen : headers.length = rest.length + 1 := by rw [hheaders, length_cons]
    -- the time of the tip is that of the last header
    have htip : t.getBlockTime tip ∈ headers.map fun header => header.getBlockTime.toInt := by
      rw [htimes, mem_reverse, hlen]
      exact mem_cons_self
    obtain ⟨last, hlast, htime⟩ := mem_map.1 htip
    have hlong := length_le_of_rule hrule (hlen ▸ hback) (htime ▸ hfuture last hlast)
    have hle : headers.length ≤ allowedHeaders now chainStart := by
      unfold allowedHeaders
      omega
    have hdiv := div_add_mod (allowedHeaders now chainStart) params.commitmentPeriod
    have hiff := presync_passes_iff getHash hrandom hheight hdiff
    rw [← toNat_maxSeconds hspan (by omega)] at hle hdiv ⊢
    refine ⟨hle, hiff, fun hfirst => hiff.2 (hle.trans ?_)⟩
    exact hdiv.symm.le.trans (Nat.add_le_add_left hfirst _)

/-! ### A header on the genesis block -/

/-- The genesis block of the main network and a block on it. -/
def genesisChild : BlockTree (Fin 2) where
  pprev i := if i = 0 then none else some 0
  pskip i := if i = 0 then none else some 0
  nHeight i := i
  nTime i := if i = 0 then 1785762002 else 1785763002
  height_genesis := by decide
  height_child := by decide
  skip_genesis := by decide
  skip_child := by decide

/-- At the time of the genesis block `43200` headers are allowed for; with this period a
header that has a commitment passes. -/
theorem genesisChild_passes :
    ∃ C s, new mainParams.consensus { commitmentPeriod := 43200, redownloadBufferSize := 1 }
        mainGenesis zero (fun _ => 0) 1785762002 (fun _ => 1) = some (C, s) ∧
      (validateEach (validateAndProcessSingleHeader hashMerkleRoot C) s
        [firstHeader hashMerkleRoot]).2 = true := by
  refine ⟨_, _, rfl, (presync_bound genesisChild 0 1 hashMerkleRoot
    mainParams.consensus { commitmentPeriod := 43200, redownloadBufferSize := 1 } mainGenesis
    zero (fun _ => 0) 1785762002 (fun _ => 1) _ _
    [firstHeader hashMerkleRoot] rfl (by decide) (by decide) (by decide) (by decide) ?_
    rfl (by decide) (by decide) ⟨?_, trivial⟩).2.2 (by decide)⟩
  · unfold BlockTree.AboveMedianFrom
    decide
  · exact (by decide +kernel : permittedDifficultyTransition mainParams.consensus 0
      (getBlockTime 1785762002) 0x1d00ffff = true)

/-- **One second more in the period** and it does not: the division leaves no commitment. -/
theorem genesisChild_refused :
    mainGenesis.medianTimePast < (firstHeader hashMerkleRoot).getBlockTime ∧
    (firstHeader hashMerkleRoot).getBlockTime ≤ 1785762002 + maxFutureBlockTime ∧
    ∃ C s, new mainParams.consensus { commitmentPeriod := 43201, redownloadBufferSize := 1 }
        mainGenesis zero (fun _ => 0) 1785762002 (fun _ => 1) = some (C, s) ∧
      IChain (Permitted C (heightAt C)) 0 mainGenesis.header
        [firstHeader hashMerkleRoot] ∧
      (validateAndProcessSingleHeader hashMerkleRoot C s
        (firstHeader hashMerkleRoot)).1.headerCommitments.length =
          C.maxCommitments + 1 ∧
      (validateAndProcessSingleHeader hashMerkleRoot C s
        (firstHeader hashMerkleRoot)).2 = false := by
  refine ⟨by decide, by decide, _, _, rfl, ⟨?_, trivial⟩, by decide +kernel, by decide +kernel⟩
  exact (by decide +kernel : permittedDifficultyTransition mainParams.consensus 0
    (getBlockTime 1785762002) 0x1d00ffff = true)

end HeadersSync

end Quarlcoin
