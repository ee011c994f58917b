import Quarlcoin.HeadersSync.Steps
/-!
# Low-work header sync — what one call does

`ProcessNextHeaders` on a whole message. In presync it goes on, switches to redownload or
ends; in redownload it hands out what the buffer no longer has to hold, and goes on or ends.
-/

namespace Quarlcoin

open Arith Quarlcoin.Pow Indexed List

namespace HeadersSync

variable {getHash : BlockHeader → Uint256} {C : SyncConfig}

/-! ## Releasing headers -/

variable (C) in
/-- How many of `n` buffered headers are ready. -/
def readyCount (releaseAll : Bool) (n : ℕ) : ℕ :=
  if releaseAll then n else n - C.params.redownloadBufferSize

/-- **The buffer is released from the front, with its headers restored.** -/
theorem popLoop_eq (releaseAll : Bool) {n : ℕ} {a : BlockHeader} {buf : List BlockHeader}
    (hlink : IChain (Link getHash) n a buf) :
    popLoop getHash C releaseAll (buf.map CompressedHeader.ofHeader) (getHash a) =
      (buf.take (readyCount C releaseAll buf.length),
        (buf.drop (readyCount C releaseAll buf.length)).map CompressedHeader.ofHeader,
        getHash ((buf.take (readyCount C releaseAll buf.length)).getLastD a)) := by
  induction buf generalizing n a with
  | nil => simp [popLoop]
  | cons b buf ih =>
    obtain ⟨hb, hbuf⟩ := hlink
    have hfull : (CompressedHeader.ofHeader b).getFullHeader (getHash a) = b := by
      rw [← show b.hashPrevBlock = getHash a from hb]
      rfl
    rw [map_cons, popLoop, length_map]
    split_ifs with hready
    · have hcount : readyCount C releaseAll (b :: buf).length =
          readyCount C releaseAll buf.length + 1 := by
        unfold readyCount
        split_ifs with hall
        · rfl
        · exact Nat.succ_sub (Nat.le_of_lt_succ (hready.resolve_right hall))
      dsimp only
      rw [hfull, ih hbuf, hcount]
      simp only [take_succ_cons, drop_succ_cons, getLastD_cons]
    · have hcount : readyCount C releaseAll (b :: buf).length = 0 := by
        unfold readyCount
        rw [if_neg fun hall => hready (.inr hall), length_cons]
        omega
      rw [hcount]
      simp

section

variable {s t : HeadersSyncState} {pre out buf headers : List BlockHeader} {full : Bool}
  {first : BlockHeader} {p : HeadersSyncState × ProcessingResult}

variable (getHash C) in
/-- The state once `out` is out and `buf` still in the buffer. -/
def withBuffer (s : HeadersSyncState) (out buf : List BlockHeader) : HeadersSyncState :=
  { s with
    redownloadedHeaders := buf.map CompressedHeader.ofHeader
    redownloadBufferFirstPrevHash := getHash (tip C out) }

/-- What `PopHeadersReadyForAcceptance` returns, and what it leaves. -/
theorem Redownloading.pop (hs : Redownloading getHash C s pre out buf) {k : ℕ}
    (hk : k = readyCount C s.processAllRemainingHeaders buf.length) :
    popHeadersReadyForAcceptance getHash C s =
      (withBuffer getHash C s (out ++ buf.take k) (buf.drop k), buf.take k) := by
  have hlink := (iChain_append.1 hs.linked).2
  unfold popHeadersReadyForAcceptance withBuffer
  rw [if_neg (not_not_intro hs.state), hs.buffer, hs.firstPrevHash]
  rw [show tip C out = out.getLastD C.chainStart.header from rfl, popLoop_eq _ hlink, ← hk]
  rw [show tip C (out ++ buf.take k) = (buf.take k).getLastD (out.getLastD C.chainStart.header) from
    getLastD_append ..]

/-- What is left after the release is a sync again, unless the buffer ran
empty. -/
theorem Redownloading.released (hs : Redownloading getHash C s pre out buf)
    {out' buf' : List BlockHeader}
    (happend : out' ++ buf' = out ++ buf) (hfresh : buf' = [] → out' = []) :
    Redownloading getHash C (withBuffer getHash C s out' buf') pre out' buf' := by
  constructor
  all_goals try rw [happend]
  exacts [hs.state, rfl, hs.lastHash, rfl, hs.lastHeight, hs.work, hs.linked, hs.difficulty,
    hs.commitments, hs.bounded, hs.reached, hs.pending, hfresh]

/-! ## A message in presync -/

variable (getHash C) in
/-- The presynced headers `pre` have shown enough work. -/
structure Sufficient (pre : List BlockHeader) : Prop where
  ok : PresyncOk getHash C pre
  work : C.minimumRequiredWork.toNat ≤ (chainWork C.chainStart.nChainWork pre).toNat

/-- The end of a sync: nothing is stored any more. -/
structure Ended (s : HeadersSyncState) : Prop where
  state : s.downloadState = .final
  commitments : s.headerCommitments = []
  buffer : s.redownloadedHeaders = []

theorem ended_finalize (s : HeadersSyncState) : Ended (finalize s) := ⟨rfl, rfl, rfl⟩

section

variable (hs : Presyncing getHash C s pre)
include hs

theorem Presyncing.startRedownload :
    Redownloading getHash C (startRedownload getHash C s) pre [] [] where
  state := rfl
  buffer := rfl
  lastHash := rfl
  firstPrevHash := rfl
  lastHeight := rfl
  work := rfl
  linked := trivial
  difficulty := trivial
  commitments _ := hs.commitments.symm
  bounded := hs.bounded
  reached h := absurd (h.symm.trans hs.all) (by decide)
  pending _ hne := absurd rfl hne
  fresh _ := rfl

theorem Presyncing.ok : PresyncOk getHash C pre where
  difficulty := hs.difficulty
  bounded := hs.commitments ▸ hs.bounded

/-- **A message in presync passes** if its first header continues the chain
and all of them are in order. -/
theorem Presyncing.message_ok (hfirst : first.hashPrevBlock = getHash (tip C pre))
    (hok : PresyncOk getHash C (pre ++ first :: headers)) :
    ∃ t, validateAndStoreHeadersCommitments getHash C s (first :: headers) = (t, true) := by
  obtain ⟨t, heq⟩ := validateEach_ok (fun _ _ => PresyncOk.left)
    (fun _ _ _ hinv => hinv.header_ok) hs hok
  rw [validateAndStoreHeadersCommitments, if_neg (not_not_intro hs.state),
    if_neg (not_not_intro (hs.last ▸ hfirst)), heq]
  dsimp only
  split
  exacts [⟨_, rfl⟩, ⟨_, rfl⟩]

/-- **What a message in presync leaves** when it passes. -/
theorem Presyncing.message_next
    (hok : validateAndStoreHeadersCommitments getHash C s (first :: headers) = (t, true)) :
    first.hashPrevBlock = getHash (tip C pre) ∧ (Sufficient getHash C (pre ++ first :: headers) ∧
          Redownloading getHash C t (pre ++ first :: headers) [] [] ∧
          t.processAllRemainingHeaders = false ∨
        (chainWork C.chainStart.nChainWork (pre ++ first :: headers)).toNat <
            C.minimumRequiredWork.toNat ∧ Presyncing getHash C t (pre ++ first :: headers)) := by
  rw [validateAndStoreHeadersCommitments, if_neg (not_not_intro hs.state)] at hok
  split_ifs at hok with hfirst
  · cases hok
  refine ⟨hs.last ▸ not_not.1 hfirst, ?_⟩
  split at hok
  · cases hok
  rename_i u heq
  have hu := validateEach_inv (fun _ _ _ _ hinv => hinv.header_next) hs heq
  split_ifs at hok with hwork
  · cases hok
    refine .inl ⟨⟨hu.ok, ?_⟩, hu.startRedownload, hu.all⟩
    rw [← hu.work]
    exact BaseUint.le_iff.1 hwork
  · cases hok
    refine .inr ⟨?_, hu⟩
    rw [← hu.work]
    exact Nat.lt_of_not_le (BaseUint.le_iff.not.1 hwork)

end

/-! ## A message in redownload -/

variable (getHash C) in
/-- A sync in redownload between two messages: the work is not there yet, and the buffer is within
its size. -/
structure Waiting (s : HeadersSyncState) (pre out buf : List BlockHeader) : Prop where
  sync : Redownloading getHash C s pre out buf
  all : s.processAllRemainingHeaders = false
  short : buf.length ≤ C.params.redownloadBufferSize
  deep : out = [] ∨ C.params.redownloadBufferSize ≤ buf.length

variable (getHash C) in
/-- `out` was handed out from `red`, which has shown enough work, or has a full buffer on top
whose commitments agreed with those of `pre`. -/
structure Released (pre red out : List BlockHeader) : Prop where
  isPrefix : out <+: red
  linked : IChain (Link getHash) 0 C.chainStart.header red
  difficulty : IChain (Permitted C (heightAt C)) 0 C.chainStart.header red
  earned : C.minimumRequiredWork.toNat ≤ claimedWork C.chainStart.nChainWork red ∨
    (out.length + C.params.redownloadBufferSize ≤ red.length ∧
      bitsOf getHash C (heightAt C) red <+: bitsOf getHash C (presyncHeight C) pre)

section

variable (hs : Redownloading getHash C s pre out buf)
include hs

theorem Redownloading.releases (hall : s.processAllRemainingHeaders = false)
    (hdeep : C.params.redownloadBufferSize ≤ buf.length) :
    Released getHash C pre (out ++ buf) out where
  isPrefix := prefix_append _ _
  linked := hs.linked
  difficulty := hs.difficulty
  earned := .inr ⟨by rw [length_append]; omega, hs.commitments hall ▸ prefix_append _ _⟩

theorem Redownloading.message_next
    (hok : validateEach (validateAndStoreRedownloadedHeader getHash C) s headers = (t, true)) :
    Redownloading getHash C t pre out (buf ++ headers) :=
  @validateEach_inv _ (Redownloading getHash C · pre out ·)
    (fun _ _ _ _ hinv => hinv.header_next) s t buf headers hs hok

theorem Redownloading.message_ok (hok : RedownloadOk getHash C pre (out ++ (buf ++ headers))) :
    ∃ t, validateEach (validateAndStoreRedownloadedHeader getHash C) s headers = (t, true) := by
  refine @validateEach_ok _ (fun s buf => Redownloading getHash C s pre out buf)
    (fun buf => RedownloadOk getHash C pre (out ++ buf)) (fun l l' h => ?_)
    (fun s l h hinv hok => ?_) s buf headers hs hok
  · exact RedownloadOk.left (by rwa [append_assoc])
  · exact hinv.header_ok (by rwa [append_assoc])

end

theorem Redownloading.processRedownload_eq (ht : Redownloading getHash C t pre out buf)
    (heq : validateEach (validateAndStoreRedownloadedHeader getHash C) s headers = (t, true))
    {k : ℕ} (hk : k = readyCount C t.processAllRemainingHeaders buf.length) :
    processRedownload getHash C s headers full =
      (withBuffer getHash C t (out ++ buf.take k) (buf.drop k),
        { powValidatedHeaders := buf.take k
          success := true
          requestMore := !((buf.drop k).isEmpty && t.processAllRemainingHeaders) && full }) := by
  rw [processRedownload, heq]
  dsimp only
  rw [ht.pop hk]
  simp only [withBuffer, isEmpty_map]

/-! ## The call -/

theorem finish_snd (p : HeadersSyncState × ProcessingResult) : (finish p).2 = p.2 := by
  rw [finish]
  split <;> rfl

/-- A sync that was going to ask for more ends with a message that is not
full. -/
theorem finish_eq {r : ProcessingResult} (hok : r.success = true)
    (hmore : r.requestMore = full) : (finish (s, r)).1 = if full then s else finalize s := by
  rw [finish, hok, hmore]
  cases full <;> rfl

section

variable (hs : Presyncing getHash C s pre)
include hs

theorem Presyncing.call_eq : processNextHeaders getHash C s (first :: headers) full =
      finish (processPresync getHash C s (first :: headers) full) := by
  rw [processNextHeaders, hs.state]
  rfl

/-- **A call in presync whose headers pass** switches to redownload, or goes
on if the message was full. -/
theorem Presyncing.call_passed
    (hpass : validateAndStoreHeadersCommitments getHash C s (first :: headers) = (t, true))
    (hp : processNextHeaders getHash C s (first :: headers) full = p) :
    p.2.success = true ∧ p.2.powValidatedHeaders = [] ∧
      (Sufficient getHash C (pre ++ first :: headers) ∧
          Waiting getHash C p.1 (pre ++ first :: headers) [] [] ∨
        (chainWork C.chainStart.nChainWork (pre ++ first :: headers)).toNat <
            C.minimumRequiredWork.toNat ∧ Presyncing getHash C t (pre ++ first :: headers) ∧
          p.1 = if full then t else finalize t) := by
  rw [hs.call_eq, processPresync, hpass] at hp
  subst hp
  rw [finish_snd]
  refine ⟨rfl, rfl, ?_⟩
  rcases (hs.message_next hpass).2 with ⟨hsuff, hre, hall⟩ | ⟨hshort, hpre⟩
  · rw [finish, if_pos (by simp [hre.state])]
    exact .inl ⟨hsuff, hre, hall, by simp, .inl rfl⟩
  · exact .inr ⟨hshort, hpre, finish_eq rfl (by simp [hpre.state])⟩

/-- **A call in presync** hands nothing out. It ends the sync, goes on, or
switches to redownload. -/
theorem Presyncing.call (hp : processNextHeaders getHash C s (first :: headers) full = p) :
    p.2.powValidatedHeaders = [] ∧ (Ended p.1 ∨ first.hashPrevBlock = getHash (tip C pre) ∧
          (Presyncing getHash C p.1 (pre ++ first :: headers) ∨
            Sufficient getHash C (pre ++ first :: headers) ∧
              Waiting getHash C p.1 (pre ++ first :: headers) [] [])) := by
  rcases hpass : validateAndStoreHeadersCommitments getHash C s (first :: headers) with ⟨t, _ | _⟩
  · rw [hs.call_eq, processPresync, hpass] at hp
    subst hp
    exact ⟨rfl, .inl (ended_finalize _)⟩
  obtain ⟨-, hnone, hnext⟩ := hs.call_passed hpass hp
  have hfirst := (hs.message_next hpass).1
  refine ⟨hnone, ?_⟩
  rcases hnext with hsuff | ⟨-, ht, heq⟩
  · exact .inr ⟨hfirst, .inr hsuff⟩
  · rw [heq]
    cases full with
    | true => exact .inr ⟨hfirst, .inl ht⟩
    | false => exact .inl (ended_finalize t)

end

section

variable (hs : Waiting getHash C s pre out buf)
include hs

theorem Waiting.call_eq (hne : headers ≠ []) : processNextHeaders getHash C s headers full =
      finish (processRedownload getHash C s headers full) := by
  rw [processNextHeaders, hs.sync.state, if_neg (by simpa using hne)]

variable (hsize : 1 ≤ C.params.redownloadBufferSize)
include hsize

/-- What the buffer keeps while the work is still to come: its size, and
nothing has left it that it was not full on top of. -/
theorem Waiting.release (hne : headers ≠ [])
    (ht : Redownloading getHash C t pre out (buf ++ headers))
    (hall : t.processAllRemainingHeaders = false) {k : ℕ}
    (hk : k = (buf ++ headers).length - C.params.redownloadBufferSize) : Waiting getHash C
      (withBuffer getHash C t (out ++ (buf ++ headers).take k) ((buf ++ headers).drop k))
      pre (out ++ (buf ++ headers).take k) ((buf ++ headers).drop k) := by
  have hlen : 0 < (buf ++ headers).length := length_pos_of_ne_nil (by simp [hne])
  have hdrop : (buf ++ headers).drop k ≠ [] := by
    rw [ne_eq, drop_eq_nil_iff]
    omega
  refine ⟨ht.released (by rw [append_assoc, take_append_drop])
    fun h => absurd h hdrop, hall, by rw [length_drop]; omega, ?_⟩
  rcases hs.deep with rfl | hdeep
  · rcases Nat.eq_zero_or_pos k with rfl | hpos
    · exact .inl rfl
    · rw [length_drop]
      omega
  · rw [length_drop, length_append] at *
    omega

/-- **A call in redownload whose headers pass** ends the sync once the work is there, and else
moves headers out of the buffer. -/
theorem Waiting.call_passed (hne : headers ≠ [])
    (hpass : validateEach (validateAndStoreRedownloadedHeader getHash C) s headers = (t, true))
    (hp : processNextHeaders getHash C s headers full = p) : p.2.success = true ∧
      (Released getHash C pre (out ++ (buf ++ headers)) (out ++ (buf ++ headers)) ∧
          C.minimumRequiredWork.toNat ≤
            claimedWork C.chainStart.nChainWork (out ++ (buf ++ headers)) ∧
          p.2.powValidatedHeaders = buf ++ headers ∧ Ended p.1 ∨
        (chainWork C.chainStart.nChainWork (out ++ (buf ++ headers))).toNat <
            C.minimumRequiredWork.toNat ∧
          ∃ buf' t, p.2.powValidatedHeaders ++ buf' = buf ++ headers ∧
            Waiting getHash C t pre (out ++ p.2.powValidatedHeaders) buf' ∧
            p.1 = if full then t else finalize t) := by
  have ht := hs.sync.message_next hpass
  rw [hs.call_eq hne] at hp
  cases hall : t.processAllRemainingHeaders with
  | true =>
    rw [ht.processRedownload_eq hpass
      (by rw [readyCount, if_pos hall]), finish, if_neg (by simp [hall])] at hp
    subst hp
    have hwork := ht.reached hall
    exact ⟨rfl, .inl ⟨⟨prefix_refl _, ht.linked, ht.difficulty, .inl hwork⟩, hwork,
      take_length, ended_finalize _⟩⟩
  | false =>
    obtain ⟨k, hk⟩ : ∃ k, k = (buf ++ headers).length - C.params.redownloadBufferSize := ⟨_, rfl⟩
    rw [ht.processRedownload_eq hpass (k := k) (by rw [hall, hk]; rfl)] at hp
    subst hp
    rw [finish_snd]
    exact ⟨rfl, .inr ⟨ht.pending hall (by simp [hne]), (buf ++ headers).drop k, _,
      take_append_drop k _, hs.release hsize hne ht hall hk, finish_eq rfl (by simp [hall])⟩⟩

/-- **A call in redownload** ends the sync, and then what it hands out was
earned, or moves headers from the front of the buffer out. -/
theorem Waiting.call (hne : headers ≠ []) (hp : processNextHeaders getHash C s headers full = p) :
    (Ended p.1 ∧ (p.2.powValidatedHeaders = [] ∨
        Released getHash C pre (out ++ (buf ++ headers)) (out ++ p.2.powValidatedHeaders))) ∨
    ∃ buf', p.2.powValidatedHeaders ++ buf' = buf ++ headers ∧
      Waiting getHash C p.1 pre (out ++ p.2.powValidatedHeaders) buf' := by
  rcases hpass : validateEach (validateAndStoreRedownloadedHeader getHash C) s headers
    with ⟨t, _ | _⟩
  · rw [hs.call_eq hne, processRedownload, hpass] at hp
    subst hp
    exact .inl ⟨ended_finalize _, .inl rfl⟩
  obtain ⟨-, ⟨hrel, -, hall, hend⟩ | ⟨-, buf', t, hbuf, ht, heq⟩⟩ :=
    hs.call_passed hsize hne hpass hp
  · exact .inl ⟨hend, .inr (hall ▸ hrel)⟩
  · cases full with
    | true => exact .inr ⟨buf', hbuf, heq ▸ ht⟩
    | false =>
      refine .inl ⟨heq ▸ ended_finalize t, ?_⟩
      rcases ht.deep with hnil | hdeep
      · exact .inl (append_eq_nil_iff.1 hnil).2
      · have hreleases := ht.sync.releases ht.all hdeep
        rw [append_assoc, hbuf] at hreleases
        exact .inr hreleases

end

end

end HeadersSync

end Quarlcoin
