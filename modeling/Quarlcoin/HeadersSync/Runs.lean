import Quarlcoin.HeadersSync.Calls
/-!
# Low-work header sync — whole runs

A run is the list of calls made on a fresh sync. `History` splits it at the calls that end
presync and the sync, with what each part has established. The heights of the two downloads
are the same as long as they fit an `int`.
-/

namespace Quarlcoin

open Arith Quarlcoin.Pow Indexed List Int64

namespace HeadersSync

/-- The arguments of a call: a message, and whether it was full. -/
abbrev Call : Type := List BlockHeader × Bool

variable (getHash : BlockHeader → Uint256) (C : SyncConfig)

/-- One call, with the results so far. -/
def runStep (p : HeadersSyncState × List ProcessingResult) (c : Call) :
    HeadersSyncState × List ProcessingResult :=
  ((processNextHeaders getHash C p.1 c.1 c.2).1,
    p.2 ++ [(processNextHeaders getHash C p.1 c.1 c.2).2])

variable (calls : List Call)

/-- The calls of a run, on a fresh sync. -/
def run : HeadersSyncState × List ProcessingResult :=
  calls.foldl (runStep getHash C) (init C, [])

def fed : List BlockHeader := calls.flatMap Prod.fst

def returned : List BlockHeader :=
  (run getHash C calls).2.flatMap ProcessingResult.powValidatedHeaders

/-- The headers of a message follow one another, which the caller of the
sync checks. -/
def Continuous : List BlockHeader → Prop
  | [] => True
  | first :: headers => IChain (Link getHash) 0 first headers

variable {getHash} {C} (calls : List Call) (c : Call)

theorem run_concat : run getHash C (calls ++ [c]) = runStep getHash C (run getHash C calls) c := by
  rw [run, foldl_append]
  rfl

theorem returned_concat : returned getHash C (calls ++ [c]) = returned getHash C calls ++
      (processNextHeaders getHash C (run getHash C calls).1 c.1 c.2).2.powValidatedHeaders := by
  simp [returned, run_concat, runStep]

theorem fed_append (calls calls' : List Call) : fed (calls ++ calls') = fed calls ++ fed calls' :=
  flatMap_append ..

@[simp] theorem fed_singleton : fed [c] = c.1 := by simp [fed]

theorem presyncing_init : Presyncing getHash C (init C) [] :=
  { state := rfl
    work := rfl
    last := rfl
    height := rfl
    commitments := rfl
    bounded := Nat.zero_le _
    difficulty := trivial
    buffer := rfl
    all := rfl }

/-- **Nothing leads out of the end.** -/
theorem Ended.call {s : HeadersSyncState} (hs : Ended s) (headers : List BlockHeader)
    (full : Bool) : processNextHeaders getHash C s headers full = (s, {}) := by
  unfold processNextHeaders
  rw [hs.state]
  split <;> rfl

variable (getHash C) in
/-- `before` are the calls of presync, which ended with enough work shown. -/
structure PresyncedBy (before : List Call) : Prop where
  presync : ∀ p q, before = p ++ q → q ≠ [] → (run getHash C p).1.downloadState = .presync
  sufficient : Sufficient getHash C (fed before)
  linked : (∀ c ∈ before, Continuous getHash c.1) →
    IChain (Link getHash) 0 C.chainStart.header (fed before)

variable (getHash C) in
/-- `after` are calls of redownload. -/
def RedownloadedBy (before after : List Call) : Prop :=
  ∀ p q, after = p ++ q → q ≠ [] → (run getHash C (before ++ p)).1.downloadState = .redownload

variable (getHash C) in
/-- **The history of a run.** -/
inductive History (calls : List Call) : Prop
  /-- The sync is still in presync. -/
  | presync (hs : Presyncing getHash C (run getHash C calls).1 (fed calls))
      (hout : returned getHash C calls = [])
      (hphase : ∀ p q, calls = p ++ q → (run getHash C p).1.downloadState = .presync)
      (hlink : (∀ c ∈ calls, Continuous getHash c.1) →
        IChain (Link getHash) 0 C.chainStart.header (fed calls)) : History calls
  /-- It is in redownload. -/
  | redownload (before after : List Call) (buf : List BlockHeader) (hcalls : calls = before ++ after)
      (hpre : PresyncedBy getHash C before) (hphase : RedownloadedBy getHash C before after)
      (hs : Waiting getHash C (run getHash C calls).1 (fed before) (returned getHash C calls) buf)
      (hfed : returned getHash C calls ++ buf = fed after) : History calls
  /-- It has ended. -/
  | ended (before after rest : List Call) (hcalls : calls = before ++ after ++ rest)
      (hs : Ended (run getHash C calls).1) (hout : returned getHash C calls = [] ∨
        PresyncedBy getHash C before ∧ RedownloadedBy getHash C before after ∧
          Released getHash C (fed before) (fed after) (returned getHash C calls)) : History calls

section

variable {calls : List Call} {c : Call}

theorem iChain_link {n m : ℕ} {a : BlockHeader} {l : List BlockHeader}
    (h : IChain (Link getHash) n a l) : IChain (Link getHash) m a l := by
  induction l generalizing n m a with
  | nil => trivial
  | cons b l ih => exact ⟨h.1, ih h.2⟩

theorem phase_concat {P : List Call → Prop} (hphase : ∀ p q, calls = p ++ q → P p) :
    ∀ p q, calls ++ [c] = p ++ q → q ≠ [] → P p := by
  intro p q heq hq
  obtain ⟨q, last, rfl⟩ := (eq_nil_or_concat' q).resolve_left hq
  rw [← append_assoc] at heq
  exact hphase p q (append_inj_left' heq rfl)

/-- **One more call in presync.** -/
theorem Presyncing.history_concat (hs : Presyncing getHash C (run getHash C calls).1 (fed calls))
    (hout : returned getHash C calls = [])
    (hphase : ∀ p q, calls = p ++ q → (run getHash C p).1.downloadState = .presync)
    (hlink : (∀ c ∈ calls, Continuous getHash c.1) →
      IChain (Link getHash) 0 C.chainStart.header (fed calls)) (hne : c.1 ≠ []) :
    History getHash C (calls ++ [c]) := by
  obtain ⟨headers, full⟩ := c
  obtain ⟨first, headers, rfl⟩ := exists_cons_of_ne_nil hne
  obtain ⟨hnone, hnext⟩ := hs.call rfl
  have hout' : returned getHash C (calls ++ [(first :: headers, full)]) = [] := by
    rw [returned_concat, hout, hnone, append_nil]
  have hfed : fed (calls ++ [(first :: headers, full)]) = fed calls ++ first :: headers := by
    rw [fed_append, fed_singleton]
  have hphase' := @phase_concat calls (first :: headers, full) _ hphase
  have hlink' : first.hashPrevBlock = getHash (tip C (fed calls)) →
      (∀ c ∈ calls ++ [(first :: headers, full)], Continuous getHash c.1) →
      IChain (Link getHash) 0 C.chainStart.header (fed (calls ++ [(first :: headers, full)])) := by
    intro hfirst hall
    rw [hfed]
    exact iChain_append.2 ⟨hlink fun c hc => hall c (by simp [hc]), hfirst,
      iChain_link (hall (first :: headers, full) (by simp))⟩
  rcases hnext with hend | ⟨hfirst, hpre | ⟨hsuff, hwait⟩⟩
  · exact .ended [] [] (calls ++ [(first :: headers, full)]) rfl (by rw [run_concat]; exact hend)
      (.inl hout')
  · refine .presync (by rw [run_concat, hfed]; exact hpre) hout' (fun p q heq => ?_)
      (hlink' hfirst)
    by_cases hq : q = []
    · rw [hq, append_nil] at heq
      rw [← heq, run_concat]
      exact hpre.state
    · exact hphase' p q heq hq
  · refine .redownload (calls ++ [(first :: headers, full)]) [] [] (by simp)
      ⟨hphase', by rw [hfed]; exact hsuff, hlink' hfirst⟩ ?_ ?_ (by rw [hout']; rfl)
    · intro p q heq hq
      exact absurd (append_eq_nil_iff.1 heq.symm).2 hq
    · rw [hout', run_concat, hfed]
      exact hwait

variable (hsize : 1 ≤ C.params.redownloadBufferSize)
include hsize

/-- **One more call in redownload.** -/
theorem Waiting.history_concat {before after : List Call} {buf : List BlockHeader}
    (hpre : PresyncedBy getHash C before) (hphase : RedownloadedBy getHash C before after)
    (hs : Waiting getHash C (run getHash C (before ++ after)).1 (fed before)
      (returned getHash C (before ++ after)) buf)
    (hfed : returned getHash C (before ++ after) ++ buf = fed after) (hne : c.1 ≠ []) :
    History getHash C (before ++ after ++ [c]) := by
  have hphase' : RedownloadedBy getHash C before (after ++ [c]) := by
    refine phase_concat fun p q heq => ?_
    by_cases hq : q = []
    · rw [hq, append_nil] at heq
      rw [← heq]
      exact hs.sync.state
    · exact hphase p q heq hq
  have hfed' : returned getHash C (before ++ after) ++ (buf ++ c.1) = fed (after ++ [c]) := by
    rw [fed_append, fed_singleton, ← hfed, append_assoc]
  rcases hs.call hsize hne (rfl : processNextHeaders _ _ _ _ c.2 = _) with
    ⟨hend, hout⟩ | ⟨buf', hbuf, hwait⟩
  · have hend' : Ended (run getHash C (before ++ after ++ [c])).1 := by
      rw [run_concat]
      exact hend
    rcases hout with hnone | hrel
    · -- nothing more came out: what had was covered before this call
      refine .ended before after [c] rfl hend' ?_
      rw [returned_concat, hnone, append_nil]
      rcases hs.deep with hnil | hdeep
      · exact .inl hnil
      · exact .inr ⟨hpre, hphase, hfed ▸ hs.sync.releases hs.all hdeep⟩
    · refine .ended before (after ++ [c]) [] (by simp) hend' (.inr ⟨hpre, hphase', ?_⟩)
      rw [returned_concat]
      exact hfed' ▸ hrel
  · refine .redownload before (after ++ [c]) buf' (append_assoc ..) hpre hphase' ?_ ?_
    · rw [run_concat, returned_concat]
      exact hwait
    · rw [returned_concat, append_assoc, hbuf, hfed']

/-- **Every run has a history**, by induction on its calls. -/
theorem history (calls : List Call) (hne : ∀ c ∈ calls, c.1 ≠ []) : History getHash C calls := by
  induction calls using reverseRecOn with
  | nil =>
    refine .presync presyncing_init rfl (fun p q heq => ?_) fun _ => trivial
    rw [(append_eq_nil_iff.1 heq.symm).1]
    rfl
  | append_singleton calls c ih =>
    have hc : c.1 ≠ [] := hne c (by simp)
    rcases ih fun c hc => hne c (by simp [hc]) with
      ⟨hs, hout, hphase, hlink⟩ | ⟨before, after, buf, rfl, hpre, hphase, hs, hfed⟩ |
        ⟨before, after, rest, hcalls, hs, hout⟩
    · exact hs.history_concat hout hphase hlink hc
    · exact hs.history_concat hsize hpre hphase hfed hc
    · refine .ended before after (rest ++ [c]) (by rw [hcalls]; simp) ?_ ?_
      · rw [run_concat, runStep, hs.call]
        exact hs
      · rw [returned_concat, hs.call]
        simpa using hout

end

/-! ## Heights that fit an `int` -/

theorem ofNat_toInt32_toInt64 {n : ℕ} (h : n < 2 ^ 31) : (ofNat n).toInt32.toInt64 = ofNat n := by
  apply toInt_inj.1
  rw [Int32.toInt_toInt64, toInt_toInt32, toInt_ofNat_of_lt (by omega)]
  exact Int.bmod_eq_of_le (by omega) (by omega)

theorem presyncHeight_eq {i : ℕ} (h : C.chainStart.nHeight + i < 2 ^ 31) :
    presyncHeight C i = heightAt C i := by
  induction i with
  | zero => rfl
  | succ i ih =>
    rw [presyncHeight, ih (by omega), nextHeight, heightAt_succ]
    exact ofNat_toInt32_toInt64 h

theorem isCommitmentHeight_heightAt {i : ℕ} (h : C.chainStart.nHeight + i < 2 ^ 31) :
    isCommitmentHeight C (heightAt C i) =
      decide ((C.chainStart.nHeight + i) % C.params.commitmentPeriod = C.commitOffset) := by
  have hnat : (heightAt C i).toUInt64.toNat = C.chainStart.nHeight + i := by
    have hmod : (heightAt C i).toUInt64.toNat = (C.chainStart.nHeight + i) % 2 ^ 64 :=
      UInt64.toNat_ofNat'
    omega
  rw [isCommitmentHeight, hnat]
  rfl

theorem bitsOf_presyncHeight {hs : List BlockHeader}
    (h : C.chainStart.nHeight + hs.length < 2 ^ 31) :
    bitsOf getHash C (presyncHeight C) hs = bitsOf getHash C (heightAt C) hs :=
  selectFrom_congr fun i _ hi => by rw [presyncHeight_eq (by omega)]

theorem permitted_presyncHeight {hs : List BlockHeader}
    (h : C.chainStart.nHeight + hs.length < 2 ^ 31) :
    IChain (Permitted C (presyncHeight C)) 0 C.chainStart.header hs ↔
      IChain (Permitted C (heightAt C)) 0 C.chainStart.header hs := by
  have hheight : ∀ i, i < 0 + hs.length → presyncHeight C i = heightAt C i :=
    fun i hi => presyncHeight_eq (by omega)
  constructor
  · exact fun hc => hc.imp fun i _ hi a b => by rw [Permitted, hheight i hi]; exact id
  · exact fun hc => hc.imp fun i _ hi a b => by rw [Permitted, Permitted, hheight i hi]; exact id

end HeadersSync

end Quarlcoin
