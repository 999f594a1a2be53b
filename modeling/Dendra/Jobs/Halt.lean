import Dendra.Jobs.Draws
import Dendra.Jobs.Application

/-!
# The end of a block does not fail

Of the passes of a block two can fail: the lottery, on a job whose pool was never frozen, and the
availability payout, when the emission module does not tell what its pool holds. The first never happens,
whatever the bank and the emission module answer.

* `FrozenPools`: every job has its pool. Every pass keeps it.
* `endBlock_ok`: the block goes through when no call for the balance of the availability pool fails.
-/

namespace Dendra.Jobs

open Word

section Result

variable [Chain] {ok : State → Ctx × Action → Prop} {s s' : State} {c : Ctx} {j : Str}

/-- Every job has a frozen pool. -/
def FrozenPools (s : State) : Prop := ∀ j, s.job j ≠ none → s.jobPoolFreezeHeight.get j ≠ none

/-- What a pass of a block may do: anything but open a job. -/
def NoOpening (e : Label) : Prop := ∀ client, e ≠ .opening client

theorem Prog.job_ne_none (h : Prog NoOpening s s') (hw : s.Wf) (j : Str) :
    s'.job j ≠ none ↔ s.job j ≠ none := by
  by_cases hj : WfJobId j
  · exact Lives.invariant (P := fun v => v.job ≠ none ↔ s.job j ≠ none)
      (fun e v v' he hv hl => (hl.job_ne_none he).trans hv) (h.lives j hj) Iff.rfl
  · rw [hw.job_eq_none hj, h.wf.job_eq_none hj]

/-- A pass that leaves the frozen pools alone. -/
theorem FrozenPools.of_prog (hf : FrozenPools s) (hw : s.Wf) (h : Prog NoOpening s s')
    (hfreeze : ∀ j, s'.jobPoolFreezeHeight.get j = s.jobPoolFreezeHeight.get j) :
    FrozenPools s' := by
  intro j hj
  rw [hfreeze]
  exact hf j ((h.job_ne_none hw j).1 hj)

omit [Chain] in
theorem freeze_of_sown (h : s'.sown = s.sown) (j : Str) :
    s'.jobPoolFreezeHeight.get j = s.jobPoolFreezeHeight.get j := congrArg Draw.freeze (draw_congr h j)

omit [Chain] in
theorem Sow.freeze {w : Sower} {d d' : Draw} (h : Sow w d d') : d'.freeze = d.freeze := by
  cases h <;> rfl

omit [Chain] in
theorem Sown.freeze {w : Sower} {d d' : Draw} (h : Sown w d d') : d'.freeze = d.freeze := by
  induction h with
  | refl => rfl
  | tail _ h ih => exact h.freeze.trans ih

/-! ## The lottery -/

/-- With its pool frozen, the jury of a job can be drawn. -/
theorem drawAuditCommittee_ok (h : s.jobPoolFreezeHeight.get j ≠ none) (seed primaryId disputerId : Str) :
    ∃ members, drawAuditCommittee c s seed j primaryId disputerId = .ok members := by
  unfold drawAuditCommittee jobPoolFreeze
  cases hf : s.jobPoolFreezeHeight.get j with
  | none => exact absurd hf h
  | some freeze => exact ⟨_, rfl⟩

theorem selectAudit_ok {job : Job} (h : s.jobPoolFreezeHeight.get job.jobId ≠ none) (seed : Str)
    (key : QueueKey) : ∃ s', selectAudit c seed key job s = .ok s' := by
  unfold selectAudit
  simp only
  generalize hbump : (if s.juries.auditSelected.has job.jobId = false ∧
    jobIsDisputed job.state = false then setJuries (bumpAuditsOpened s) s else s) = s₁
  have hfreeze : s₁.jobPoolFreezeHeight = s.jobPoolFreezeHeight := by
    rw [← hbump]
    split <;> rfl
  obtain ⟨members, hm⟩ := drawAuditCommittee_ok (c := c) (s := s₁) (j := job.jobId)
    (by rw [hfreeze]; exact h) seed job.minerId (Chain.addrString Chain.authority)
  rw [hm]
  simp only
  split
  · exact ⟨_, rfl⟩
  · exact ⟨_, rfl⟩

theorem auditOne_ok (hf : FrozenPools s) (seed : Str) (key : QueueKey) :
    ∃ s', auditOne c seed s key = .ok s' := by
  unfold auditOne
  simp only
  cases hj : s.job (ofLex key).2 with
  | none => exact ⟨_, rfl⟩
  | some job =>
    have hid : job.jobId = (ofLex key).2 := Table.key_of_get? hj
    simp only
    split
    · exact ⟨_, rfl⟩
    · split
      · refine selectAudit_ok ?_ seed key
        rw [hid]
        refine hf _ ?_
        rw [hj]
        exact Option.some_ne_none _
      · exact ⟨_, rfl⟩

theorem runOptimisticAudit_ok (hw : s.Wf) (hf : FrozenPools s) (seed : Str) :
    ∃ s', runOptimisticAudit c seed s = .ok s' := by
  have hdue : Pending c (s.queues.pendingAudit.due c.h auditMaxPerBlock) s :=
    ⟨fun _ hk => Queue.mem_due hk, Queue.nodup_due _ _ _⟩
  unfold runOptimisticAudit
  simp only
  split
  · exact ⟨_, rfl⟩
  · split
    · exact ⟨_, rfl⟩
    · split
      · exact ⟨_, rfl⟩
      · next hseed =>
        -- one entry after another, each still queued and every pool frozen
        generalize s.queues.pendingAudit.due c.h auditMaxPerBlock = l at hdue
        have hpass : ∀ (l : List QueueKey) (s₁ : State), Pending c l s₁ → s₁.params = s.params →
            s₁.Wf → FrozenPools s₁ → ∃ s₂, l.foldlM (auditOne c seed) s₁ = .ok s₂ := by
          intro l
          induction l with
          | nil => exact fun s₁ _ _ _ _ => ⟨s₁, rfl⟩
          | cons key l ih =>
            intro s₁ hP hp hw₁ hf₁
            obtain ⟨s₂, h₂⟩ := auditOne_ok (c := c) hf₁ seed key
            obtain ⟨hprog, hspares⟩ := auditOne_prog (E := NoOpening) (h := (ofLex key).1)
              (j := (ofLex key).2) (fun _ h => nomatch h) (fun _ h => nomatch h) hw₁ (hp ▸ hseed)
              (hP.1 key (.head _)).2 (hP.1 key (.head _)).1 h₂
            obtain ⟨s₃, h₃⟩ := ih s₂ (hP.tail hspares) (hprog.params.trans hp) hprog.wf
              (hf₁.of_prog hw₁ hprog (freeze_of_sown (sown_of_kept (kept_of_noted (auditOne_noted c s₁ seed key s₂ h₂)))))
            refine ⟨s₃, ?_⟩
            rw [List.foldlM_cons, h₂]
            exact h₃
        exact hpass l s hdue rfl hw hf

/-! ## The block -/

/-- The height closes an availability epoch. -/
def ClosesEpoch (c : Ctx) (p : Params) : Prop :=
  0 < toInt64 p.availEpochBlocks ∧ 0 < c.h ∧ c.h % toInt64 p.availEpochBlocks = 0

/-- No call for the balance of the availability pool fails: the emission module answers, or nothing is
paid at the end of this block. -/
def PoolAnswers (c : Ctx) (p : Params) : Prop :=
  c.availPool ≠ none ∨ p.availPayoutBps = 0 ∨ ¬ ClosesEpoch c p

theorem runAvailabilityEpoch_ok (h : PoolAnswers c s.params) :
    ∃ s', runAvailabilityEpoch c s = .ok s' := by
  unfold runAvailabilityEpoch
  simp only
  split
  · exact ⟨_, rfl⟩
  · next hclose =>
    have hclose : ClosesEpoch c s.params := by
      simp only [not_or, not_le, not_not] at hclose
      exact hclose
    split
    · have hparams : (runAvailabilitySlash c (c.h / toInt64 s.params.availEpochBlocks - 1) s).params =
          s.params := by
        unfold runAvailabilitySlash
        simp only
        split
        · rfl
        · split <;> rfl
      have hpay : ∃ s', payAvailability c (c.h / toInt64 s.params.availEpochBlocks - 1)
          (runAvailabilitySlash c (c.h / toInt64 s.params.availEpochBlocks - 1) s) = .ok s' := by
        unfold payAvailability
        simp only
        rw [hparams]
        split
        · next hasks =>
          rcases h with h | h | h
          · exact absurd hasks.2.2 h
          · rw [h] at hasks
            exact absurd hasks.1 (UInt64.lt_irrefl _)
          · exact absurd hclose h
        · exact ⟨_, rfl⟩
      obtain ⟨s', hs'⟩ := hpay
      rw [hs']
      exact ⟨_, rfl⟩
    · exact ⟨_, rfl⟩

/-- In every reachable state the end of a block goes through, whatever the bank refuses, as long as no
call for the balance of the availability pool fails; the slices it takes are of positive length. -/
theorem endBlock_ok (h : Reachable ok s) (hpool : PoolAnswers c s.params) :
    (∃ s', endBlock c s = .ok s') ∧ 0 < workCommitteeSize s := by
  have hw := h.wf
  refine ⟨?_, Params.effectiveWorkCommitteeSize_pos hw.params⟩
  have hE : NoOpening .plain := fun _ h => nomatch h
  have hf : FrozenPools s := fun j hj => (h.draw j).freeze hj
  have h1 : Prog NoOpening s (runExpiry c s) := runExpiry_prog hE hw fun _ _ _ _ _ h => nomatch h
  have hf1 := hf.of_prog hw h1 (freeze_of_sown (sown_of_kept (kept_of_noted (runExpiry_noted c s))))
  have h2 : Prog NoOpening _ _ := .of_aside hE h1.wf (runReveal_aside (c := c) (blockSeed c s.params))
  have hf2 := hf1.of_prog h1.wf h2 fun j => (runReveal_sown c (runExpiry c s) _ j).freeze
  obtain ⟨s₂, h₂⟩ := runOptimisticAudit_ok (c := c) h2.wf hf2 (blockSeed c s.params)
  have h3 := runOptimisticAudit_prog (E := NoOpening) hE (fun _ h => nomatch h) h2.wf h₂
  have h4 := runAuditResolveTimeout_prog (c := c) hE h3.wf
  have h5 := runAppealResolveTimeout_prog (c := c) hE h4.wf
  have h6 := runPeriodic_prog (c := c) hE h5.wf
  have hparams := (((((h1.trans h2).trans h3).trans h4).trans h5).trans h6).params
  obtain ⟨s', hs'⟩ := runAvailabilityEpoch_ok (c := c)
    (s := runPeriodic c (runAppealResolveTimeout c (runAuditResolveTimeout c s₂)))
    (by rw [hparams]; exact hpool)
  refine ⟨s', ?_⟩
  unfold endBlock
  simp only
  rw [h₂]
  exact hs'

end Result

/-! ## Runs -/

/-- Availability is paid every ten blocks. -/
def payingMode : Params :=
  { Params.default with
    availEpochBlocks := 10
    availPayoutBps := 1000
    availRequireDemand := false }

theorem validate_payingMode [Chain] : payingMode.validate = .ok () := by
  simp only [Params.validate, Params.validateMode, Params.validateMode1, Params.validateEpoch14,
    Params.validateEpoch15, bind_unit_ok, refuse_ok]
  simp [payingMode, Params.default, Params.effectiveAuditFloor]

/-- Before the first boundary nothing is paid, and the block goes through. -/
theorem endBlock_ok_quiet : ∃ s', endBlock (blockAt 3) (village payingMode) = .ok s' :=
  (endBlock_ok (show Reachable (fun _ _ => True) (village payingMode) from
    reachable_village validate_payingMode (by decide) fun _ _ _ _ => trivial)
    (.inr (.inr (by unfold ClosesEpoch; decide)))).1

/-- A bonded miner proves its presence, and at the next boundary the call for the balance of the pool
fails. -/
theorem endBlock_halts : ∃ s, Reachable (fun _ _ => True) s ∧
    ∀ s', endBlock (blockAt 20) s ≠ .ok s' := by
  obtain ⟨s, hs, ht⟩ := exists_reachable (fun _ _ _ => trivial)
    (reachable_village validate_payingMode (by decide) fun _ _ _ _ => trivial)
    (show endsIn free (fun s => decide ((endBlock (blockAt 20) s).isOk = false))
      [(blockAt 10, .endBlock),
        (blockAt 11, .proveAvailability ⟨nameOf 1, idOf 1, "genesis".toList, [], 0⟩)]
      (village payingMode) = true by rewrite [application_eq_tabled]; decide +kernel)
  refine ⟨s, hs, fun s' h => ?_⟩
  have ht := of_decide_eq_true ht
  rw [h] at ht
  cases ht

end Dendra.Jobs
