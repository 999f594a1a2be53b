import Dendra.Jobs.Tally
import Dendra.Jobs.Draws
import Dendra.Jobs.Application

/-!
# The committee of an admitted job

A job is admitted when its pool can judge it, and settled in redundant mode when the whole committee has
answered. The committee is drawn from that same pool, and is as large as it should be exactly when the pool
is large enough: nothing at the admission looks at its size.

* `committee_complete`: the size of a committee as it is drawn, and what its answers add up to.
-/

namespace Dendra.Jobs

open Word

section Result

variable [Chain] {ok : State → Ctx × Action → Prop} {s : State} {j : Str} {freeze : UInt64}
  {l : List Str}

omit [Chain] in
/-- A cap moves no candidate. -/
theorem ids_capAssignmentWeights (ws : List MinerWeight) (minStake multiple : UInt64) :
    (capAssignmentWeights ws minStake multiple).map MinerWeight.id = ws.map MinerWeight.id := by
  unfold capAssignmentWeights
  split
  · rfl
  · simp only
    split
    · rfl
    · rw [List.map_map]
      refine List.map_congr_left fun w _ => ?_
      simp only [Function.comp]
      split <;> rfl

/-- A draw: the candidates, each once, up to the size. -/
theorem selectCommitteeOrdered_spec (seed : Str) {ws : List MinerWeight}
    (hn : (ws.map MinerWeight.id).Nodup) (size : Int) :
    (selectCommitteeOrdered seed ws size).length = min size.toNat ws.length ∧
      (selectCommitteeOrdered seed ws size).Nodup := by
  have hperm := List.perm_insertionSort notAfter (score seed ws)
  constructor
  · rw [selectCommitteeOrdered, List.length_map, List.length_take, hperm.length_eq, score,
      List.length_map]
  · have hids : ((score seed ws).map Scored.id).Nodup := by
      rw [score, List.map_map]
      exact hn
    refine List.Nodup.sublist ((List.take_sublist _ _).map Scored.id) ?_
    exact (hperm.map Scored.id).nodup_iff.2 hids

theorem derive_spec (h : deriveCommitteeOrdered s j (workCommitteeSize s) = .ok l)
    (hf : s.jobPoolFreezeHeight.get j = some freeze) :
    l.length = min (workCommitteeSize s).toNat (workCandidates s freeze).length ∧ l.Nodup := by
  unfold deriveCommitteeOrdered jobPoolFreeze at h
  rw [hf] at h
  cases hseed : workSeed s j with
  | error e =>
    rw [hseed] at h
    cases h
  | ok seed =>
    rw [hseed] at h
    simp only [Except.ok.injEq] at h
    have hids : (workCandidates s freeze).map MinerWeight.id = ((s.funds.miners.entries.filter
        fun m => minerInFrozenPool s m.minerId freeze && eligibleAsJuror s m.minerId freeze &&
          minerPresentAt s m.minerId freeze s.params).map Miner.minerId) := by
      rw [workCandidates, List.map_map]
      rfl
    have hcapped := ids_capAssignmentWeights (workCandidates s freeze) s.params.minStake
      s.params.effectiveStakeCapMultiple
    have hnodup : ((capAssignmentWeights (workCandidates s freeze) s.params.minStake
        s.params.effectiveStakeCapMultiple).map MinerWeight.id).Nodup := by
      rw [hcapped, hids]
      exact (s.funds.miners.nodup_map_key).sublist
        ((List.filter_sublist (l := s.funds.miners.entries)).map Miner.minerId)
    obtain ⟨hlen, hnd⟩ := selectCommitteeOrdered_spec seed hnodup (workCommitteeSize s)
    have hlength := congrArg List.length hcapped
    rw [List.length_map, List.length_map] at hlength
    rw [← h]
    exact ⟨hlen.trans (by rw [hlength]), hnd⟩

/-- Every member of a committee has given an answer that parses. -/
def AllAnswered (s : State) (j : Str) (l : List Str) : Prop :=
  ∀ m ∈ l, ∃ cm, s.commit (j ++ commitKeySep ++ m) = some cm ∧ (parseIntVec cm.resultCommit).isSome = true

omit [Chain] in
/-- Then the tallies are as long as the committee. -/
theorem length_of_allAnswered (h : AllAnswered s j l) (hn : l.Nodup) :
    (commitByMiner s j l).length = l.length ∧ (committeeVecs s j l).length = l.length := by
  have hvecs : l.length ≤ (committeeVecs s j l).length := by
    have hmap : ((committeeVecs s j l).map Prod.fst).length = (committeeVecs s j l).length :=
      List.length_map _
    rw [← hmap]
    refine (List.subperm_of_subset hn fun m hm => ?_).length_le
    obtain ⟨cm, hcm, hparse⟩ := h m hm
    obtain ⟨v, hv⟩ := Option.isSome_iff_exists.1 hparse
    have hmem : (m, cm.resultCommit) ∈ commitByMiner s j l :=
      mem_commitByMiner.2 ⟨hm, cm, hcm, rfl⟩
    exact List.mem_map.2 ⟨(m, v), List.mem_filterMap.2 ⟨_, hmem, by rw [hv]; rfl⟩, rfl⟩
  have hle : (committeeVecs s j l).length ≤ (commitByMiner s j l).length := List.length_filterMap_le _ _
  have := length_commitByMiner_le s j l
  omega

/-- A committee is of the full size, and with every answer given the tests for a complete one pass,
exactly when the pool that was frozen for the job has that many miners to draw. -/
theorem committee_complete (hs : Reachable ok s)
    (h : deriveCommitteeOrdered s j (workCommitteeSize s) = .ok l)
    (hf : s.jobPoolFreezeHeight.get j = some freeze) :
    ((l.length : Int) = workCommitteeSize s ∧ ∀ t, AllAnswered t j l →
      ((committeeVecs t j l).length : Int) ≥ workCommitteeSize s ∧
      ((commitByMiner t j l).length : Int) ≥ workCommitteeSize s) ↔
    workCommitteeSize s ≤ (workCandidates s freeze).length := by
  have hsize : 0 < workCommitteeSize s := Params.effectiveWorkCommitteeSize_pos hs.wf.params
  obtain ⟨hlen, hnodup⟩ := derive_spec h hf
  constructor
  · rintro ⟨hfull, -⟩
    omega
  · intro hpool
    have hfull : (l.length : Int) = workCommitteeSize s := by omega
    refine ⟨hfull, fun t ht => ?_⟩
    obtain ⟨hcommits, hvecs⟩ := length_of_allAnswered ht hnodup
    rw [hcommits, hvecs, hfull]
    exact ⟨le_rfl, le_rfl⟩

end Result

/-! ## Runs -/

/-- Redundant mode with a committee of this size. -/
def committeeOf (size : UInt64) : Params := { Params.default with workCommitteeSize := size }

theorem validate_committeeOf [Chain] : (committeeOf 3).validate = .ok () ∧
    (committeeOf 7).validate = .ok () := by
  constructor
  · simp only [Params.validate, Params.validateMode, Params.validateMode1, Params.validateEpoch14,
      Params.validateEpoch15, bind_unit_ok, refuse_ok]
    simp [committeeOf, Params.default, Params.effectiveAuditFloor]
  · simp only [Params.validate, Params.validateMode, Params.validateMode1, Params.validateEpoch14,
      Params.validateEpoch15, bind_unit_ok, refuse_ok]
    simp [committeeOf, Params.default, Params.effectiveAuditFloor]

/-- A committee of three, drawn from five. -/
theorem committee_complete_three : ∃ s l, Reachable (fun _ _ => True) s ∧
    deriveCommitteeOrdered s ticket (workCommitteeSize s) = .ok l ∧
    (l.length : Int) = workCommitteeSize s := by
  obtain ⟨s, hs, ht⟩ := exists_reachable (fun _ _ _ => trivial)
    (reachable_village validate_committeeOf.1 (by decide) fun _ _ _ _ => trivial)
    (show endsIn free
      (fun s => decide ((deriveCommitteeOrdered s ticket (workCommitteeSize s)).isOk = true ∧
        s.jobPoolFreezeHeight.get ticket = some 1 ∧
        workCommitteeSize s ≤ (workCandidates s 1).length))
      [(blockAt 2, opening 100)] (village (committeeOf 3)) = true by rewrite [application_eq_tabled]; decide +kernel)
  obtain ⟨hdrawn, hfreeze, hpool⟩ := of_decide_eq_true ht
  obtain ⟨l, hl⟩ := exists_ok hdrawn
  exact ⟨s, l, hs, hl, ((committee_complete hs hl hfreeze).2 hpool).1⟩

/-- Five miners are enough for a job to be admitted. Its committee of seven has five members, and when all
of them have answered no settlement goes through. -/
theorem committee_incomplete : ∃ s, Reachable (fun _ _ => True) s ∧
    s.params.verificationMode = 0 ∧ (s.job ticket).isSome = true ∧ workCommitteeSize s = 7 ∧
    (∃ l ∈ (assignedCommittee s ticket (workCommitteeSize s)).toOption,
      l.length = 5 ∧ (committeeVecs s ticket l).length = 5) ∧
    (settleSemantic (blockAt 4) ⟨client, ticket⟩ s).isOk = false ∧
    (payout (blockAt 4) ⟨client, ticket⟩ s).isOk = false := by
  obtain ⟨s, hs, ht⟩ := exists_reachable (fun _ _ _ => trivial)
    (reachable_village validate_committeeOf.2 (by decide) fun _ _ _ _ => trivial)
    (show endsIn free
      (fun s => decide (s.params.verificationMode = 0 ∧ (s.job ticket).isSome = true ∧
        workCommitteeSize s = 7 ∧
        (∃ l ∈ (assignedCommittee s ticket (workCommitteeSize s)).toOption,
          l.length = 5 ∧ (committeeVecs s ticket l).length = 5) ∧
        (settleSemantic (blockAt 4) ⟨client, ticket⟩ s).isOk = false ∧
        (payout (blockAt 4) ⟨client, ticket⟩ s).isOk = false))
      [(blockAt 2, opening 100), (blockAt 3, anchors 0 "" "1"), (blockAt 3, anchors 1 "" "1"),
        (blockAt 3, anchors 2 "" "1"), (blockAt 3, anchors 3 "" "1"), (blockAt 3, anchors 4 "" "1")]
      (village (committeeOf 7)) = true by rewrite [application_eq_tabled]; decide +kernel)
  exact ⟨s, hs, of_decide_eq_true ht⟩

end Dendra.Jobs
