import Quarlcoin.Orphanage.Fairness
/-!
# When the orphanage aborts

A peer's share of the latency score is the global limit divided by the number of peers that
store orphans: zero once these are more than the limit. The orphanage is then over its
limit, and the assertion of `GetDosScore` on the share fails. With no more peers no call
aborts.
-/

namespace Quarlcoin.TxOrphanage

open Shares TxOrphanage OrphanTx List

variable {T : Set OrphanTx} {s : TxOrphanage}

/-- Every peer that stores orphans has an announcement, and each of them counts. -/
theorem InStep.numPeers_le_totalLatencyScore (h : InStep T s) :
    (s.numPeers : ℤ) ≤ s.totalLatencyScore := by
  have hcard : (holders s.announced).card ≤ s.announced.card := Finset.card_image_le
  have hscores : 0 ≤ stored s.announced fun tx => tx.latencyScore - 1 :=
    Finset.sum_nonneg fun tx _ => Int.sub_nonneg_of_le (latencyScore_pos tx)
  rw [totalLatencyScore, h.numPeers_eq, h.length_orphans, h.scores]
  omega

/-- **More peers than latency score to share** fail the assertion. -/
theorem InStep.limitOrphans_of_lt (h : InStep T s)
    (hlt : s.limits.maxGlobalLatencyScore < s.numPeers) : s.limitOrphans = .error .assertion := by
  have htotal := h.numPeers_le_totalLatencyScore
  have htrim : s.needsTrim = true := by
    rw [needsTrim, decide_eq_true_eq]
    exact .inl (by omega)
  have hshare : s.maxPeerLatencyScore = 0 := by
    rw [maxPeerLatencyScore, max_eq_left (by omega)]
    exact Nat.div_eq_of_lt hlt
  have hpeers : s.peerOrphanageInfo.entries ≠ [] := by
    intro hnil
    rw [numPeers, hnil, length_nil] at hlt
    omega
  rw [limitOrphans, if_pos htrim, hshare]
  exact if_pos ⟨hpeers, fun hpos => absurd hpos.1 (by decide)⟩

/-- **One call** ends, or fails the assertion for too many peers. -/
theorem InStep.exec_of_not_allowed (hT : Set.InjOn wtxid T) (h : InStep T s)
    (htrim : s.needsTrim = false) {call : Call} (hfrom : call.From T)
    (hnot : ¬Allowed T s call) : s.exec call = .error .assertion := by
  obtain ⟨hin, hlimits⟩ := h.untrimmed hT hfrom
  rw [h.exec_eq htrim]
  refine hin.limitOrphans_of_lt ?_
  rw [hlimits]
  by_contra hle
  exact hnot ⟨hfrom, by omega⟩

/-- **All calls of a run** end, or one of them fails the assertion for too many
peers. -/
theorem InStep.run_of_not_allowed (hT : Set.InjOn wtxid T) (calls : List Call)
    (h : InStep T s) (hfit : NarrowLimits s.limits) (htrim : s.needsTrim = false)
    (hfrom : ∀ call ∈ calls, call.From T) (hnot : ¬AllAllowed T s calls) :
    s.run calls = .error .assertion := by
  induction calls generalizing s with
  | nil => exact absurd trivial hnot
  | cons call calls ih =>
    have hcall := hfrom call mem_cons_self
    by_cases hallowed : Allowed T s call
    · obtain ⟨s₁, hok, hin, hlimits, hdone, -⟩ := h.exec hT hfit htrim hallowed
      have hrest : ¬AllAllowed T s₁ calls := by
        intro hrest
        refine hnot ⟨hallowed, fun s' hs' => ?_⟩
        rw [hok] at hs'
        cases hs'
        exact hrest
      rw [TxOrphanage.run, List.foldlM_cons, hok]
      exact ih hin (hlimits ▸ hfit) hdone
        (fun call' hmem => hfrom call' (mem_cons_of_mem _ hmem)) hrest
    · rw [TxOrphanage.run, List.foldlM_cons, h.exec_of_not_allowed hT htrim hcall hallowed]
      rfl

/-- **No call aborts just when** at most as many peers store orphans as there is latency score to
share. -/
theorem run_ok_iff (hT : Set.InjOn wtxid T) {limits : OrphanLimits}
    (hfit : NarrowLimits limits) {calls : List Call} (hfrom : ∀ call ∈ calls, call.From T) :
    ((∃ s, (empty limits).run calls = .ok s) ↔ AllAllowed T (empty limits) calls) ∧
      (¬AllAllowed T (empty limits) calls → (empty limits).run calls = .error .assertion) := by
  have hin := inStep_empty T limits
  have htrim := needsTrim_empty hfit.usage_pos
  have hnot := hin.run_of_not_allowed hT calls hfit htrim hfrom
  refine ⟨⟨fun hok => ?_, fun hallowed => ?_⟩, hnot⟩
  · obtain ⟨s, hs⟩ := hok
    by_contra hno
    rw [hnot hno] at hs
    cases hs
  · obtain ⟨s, hs, -⟩ := hin.run hT calls hfit htrim hallowed
    exact ⟨s, hs⟩

/-- With the default limits two peers can announce a transaction. -/
theorem smallOrphan_twice :
    ∃ s, (empty defaultLimits).run [.addTx (smallOrphan 1) 0, .addAnnouncer 1 1] = .ok s := by
  have hfrom : ∀ call ∈ [Call.addTx (smallOrphan 1) 0, Call.addAnnouncer 1 1],
      call.From (Set.range smallOrphan) := by
    intro call hcall
    simp only [mem_cons, not_mem_nil, or_false] at hcall
    rcases hcall with rfl | rfl
    · exact ⟨1, rfl⟩
    · trivial
  have hallowed : AllAllowed (Set.range smallOrphan) (empty defaultLimits)
      [.addTx (smallOrphan 1) 0, .addAnnouncer 1 1] := by
    refine ⟨⟨⟨1, rfl⟩, by decide⟩, fun s hs => ⟨⟨trivial, ?_⟩, fun _ _ => trivial⟩⟩
    cases hs
    decide
  exact ((run_ok_iff injOn_smallOrphan ⟨by decide, by decide, by decide⟩ hfrom).1).2 hallowed

/-- **Two peers at a limit of one**: the second announcement of a transaction
fails the assertion, with both limits positive. -/
theorem smallOrphan_second_announcer :
    (empty ⟨1, 404000⟩).run [.addTx (smallOrphan 1) 0, .addAnnouncer 1 1] = .error .assertion := rfl

end Quarlcoin.TxOrphanage
