import Dendra.Jobs.Progress.Run

/-!
# What the steps leave alone

Two parts of the state that few steps touch: what the draws of jobs are made of, and what is known of
the presence of miners and of their absences.

* `State.sown`: beacons, committees, frozen pools and reveals to come. Opening a job writes them, then
  only a beacon submitted by hand and the reveal pass.
* `State.rolled`, `State.dated`: the presences of the open epoch and its challenge; when miners
  registered and last proved their presence. Only a proof and the availability pass write the first.
* `State.masked`: the absences of miners. Only the availability pass writes them.
* `Leaves`: an outcome that agrees with the state before it, on some part of it; `step_logged`: most
  messages leave all of this alone.
-/

namespace Dendra.Jobs

open Word

/-- What draws are made of. -/
def State.sown (s : State) : Table Beacon.jobId × Store Str Str × Store Str UInt64 × Queue :=
  (s.beacons, s.workCommittee, s.jobPoolFreezeHeight, s.queues.pendingReveal)

/-- The presences of the open epoch, and its challenge. -/
def State.rolled (s : State) : KeySet QueueKey × Option Str × Option Int :=
  (s.registry.available, s.registry.availChallenge, s.registry.availChallengeHeight)

/-- When miners registered, and when they last proved their presence. -/
def State.dated (s : State) : Store Str UInt64 × Store Str UInt64 :=
  (s.registry.registeredHeight, s.registry.lastPresentEpoch)

/-- The absences of miners, and the epochs that their masks end at. -/
def State.masked (s : State) : Store Str UInt64 × Store Str UInt64 :=
  (s.registry.availFailCount, s.registry.availFailWindowStart)

/-- What the passes of a block leave alone, but for the reveal and the availability. -/
def State.kept (s : State) := (s.sown, s.rolled, s.params)

/-- What most messages leave alone. -/
def State.noted (s : State) := (s.kept, s.dated)

/-- What is known of presences, and the parameters. -/
def State.told (s : State) := (s.rolled, s.params, s.dated)

/-- The first with the absences, which only the boundary of an epoch writes. -/
def State.spared (s : State) := (s.kept, s.masked)

/-- The second with the absences. -/
def State.logged (s : State) := (s.noted, s.masked)

/-- The third with the absences. -/
def State.heard (s : State) := (s.told, s.masked)

/-- Whatever comes out of a computation agrees with `s` on `π`. -/
def Leaves {β : Type} (π : State → β) (s : State) (r : Except Err State) : Prop :=
  ∀ s', r = .ok s' → π s' = π s

section Leaves

variable {α β : Type} {π : State → β} {s s' : State}

theorem Leaves.bind {x : Except Err α} {f : α → Except Err State} (h : ∀ a, Leaves π s (f a)) :
    Leaves π s (x >>= f) := by
  intro s' hs
  obtain ⟨a, -, ha⟩ := bind_ok.1 hs
  exact h a s' ha

theorem Leaves.of_eq (h : π s' = π s) : Leaves π s (.ok s') := by
  intro s'' hs
  cases hs
  exact h

theorem Leaves.error {e : Err} : Leaves π s (.error e) := by
  intro s' hs
  cases hs

theorem leaves_foldl {γ : Type} {g : State → γ → State} (hg : ∀ s b, π (g s b) = π s) (l : List γ)
    (s : State) : π (l.foldl g s) = π s := by
  induction l generalizing s with
  | nil => rfl
  | cons b l ih => exact (ih (g s b)).trans (hg s b)

theorem leaves_foldlM {γ : Type} {g : State → γ → Except Err State} (hg : ∀ s b, Leaves π s (g s b))
    (l : List γ) (s : State) : Leaves π s (l.foldlM g s) := by
  intro s' h
  induction l generalizing s with
  | nil =>
    cases h
    rfl
  | cons b l ih =>
    obtain ⟨s₁, h₁, h₂⟩ := bind_ok.1 h
    exact (ih s₁ h₂).trans (hg s b s₁ h₁)

theorem sown_of_kept (h : s'.kept = s.kept) : s'.sown = s.sown := congrArg Prod.fst h

theorem rolled_of_kept (h : s'.kept = s.kept) : s'.rolled = s.rolled :=
  congrArg (fun k => k.2.1) h

theorem params_of_kept (h : s'.kept = s.kept) : s'.params = s.params :=
  congrArg (fun k => k.2.2) h

theorem dated_of_noted (h : s'.noted = s.noted) : s'.dated = s.dated := congrArg Prod.snd h

theorem rolled_of_told (h : s'.told = s.told) : s'.rolled = s.rolled := congrArg Prod.fst h

theorem params_of_told (h : s'.told = s.told) : s'.params = s.params :=
  congrArg (fun t => t.2.1) h

theorem dated_of_told (h : s'.told = s.told) : s'.dated = s.dated := congrArg (fun t => t.2.2) h

theorem kept_of_noted (h : s'.noted = s.noted) : s'.kept = s.kept := congrArg Prod.fst h

theorem told_of_noted (h : s'.noted = s.noted) : s'.told = s.told := by
  rw [State.told, State.told, rolled_of_kept (kept_of_noted h), params_of_kept (kept_of_noted h),
    dated_of_noted h]

theorem spared_of_logged (h : s'.logged = s.logged) : s'.spared = s.spared :=
  congrArg (fun l => (l.1.1, l.2)) h

theorem noted_of_logged (h : s'.logged = s.logged) : s'.noted = s.noted := congrArg Prod.fst h

theorem kept_of_spared (h : s'.spared = s.spared) : s'.kept = s.kept := congrArg Prod.fst h

theorem told_of_heard (h : s'.heard = s.heard) : s'.told = s.told := congrArg Prod.fst h

theorem heard_of_logged (h : s'.logged = s.logged) : s'.heard = s.heard := by
  rw [State.heard, State.heard, told_of_noted (noted_of_logged h)]
  exact congrArg (fun l => (s.told, l.2)) h

theorem masked_of_heard (h : s'.heard = s.heard) : s'.masked = s.masked := congrArg Prod.snd h

theorem masked_of_spared (h : s'.spared = s.spared) : s'.masked = s.masked := congrArg Prod.snd h

theorem masked_of_logged (h : s'.logged = s.logged) : s'.masked = s.masked := congrArg Prod.snd h

end Leaves

section Messages

variable [Chain] (c : Ctx) {s : State}

theorem createMiner_spared (msg : MsgCreateMiner) : Leaves State.spared s (createMiner c msg s) := by
  unfold createMiner
  iterate 8 refine .bind fun _ => ?_
  exact .of_eq rfl

theorem updateMiner_logged (msg : MsgUpdateMiner) : Leaves State.logged s (updateMiner msg s) := by
  unfold updateMiner
  iterate 4 refine .bind fun _ => ?_
  exact .of_eq rfl

theorem deleteMiner_spared (msg : MsgDeleteMiner) : Leaves State.spared s (deleteMiner c msg s) := by
  unfold deleteMiner
  iterate 4 refine .bind fun _ => ?_
  split
  · iterate 2 refine .bind fun _ => ?_
    exact .of_eq rfl
  · exact .of_eq rfl

theorem rotateMinerKeys_logged (msg : MsgRotateMinerKeys) : Leaves State.logged s (rotateMinerKeys msg s) := by
  unfold rotateMinerKeys
  iterate 5 refine .bind fun _ => ?_
  exact .of_eq rfl

theorem declareJudge_logged (msg : MsgDeclareJudge) : Leaves State.logged s (declareJudge c msg s) := by
  unfold declareJudge
  iterate 3 refine .bind fun _ => ?_
  refine .of_eq ?_
  split <;> rfl

omit [Chain] in
theorem noteJudgeAnswer_logged (k : ParsedCommitKey) (result : Str) (height : UInt64) :
    ({ s with registry := noteJudgeAnswer s k result height }).logged = s.logged := by
  unfold noteJudgeAnswer
  split <;> rfl

theorem proveAvailability_sown (msg : MsgProveAvailability) :
    Leaves State.sown s (proveAvailability c msg s) := by
  unfold proveAvailability
  iterate 9 refine .bind fun _ => ?_
  split
  · iterate 3 refine .bind fun _ => ?_
    exact .of_eq rfl
  · exact .of_eq rfl

theorem claimSubsidy_logged (msg : MsgClaimSubsidy) : Leaves State.logged s (claimSubsidy c msg s) := by
  unfold claimSubsidy
  iterate 7 refine .bind fun _ => ?_
  exact .of_eq rfl

theorem rewardTraining_logged (msg : MsgRewardTraining) : Leaves State.logged s (rewardTraining msg s) := by
  unfold rewardTraining
  iterate 4 refine .bind fun _ => ?_
  exact .of_eq rfl

theorem slashMiner_logged (msg : MsgSlashMiner) : Leaves State.logged s (slashMiner msg s) := by
  unfold slashMiner
  iterate 3 refine .bind fun _ => ?_
  exact .of_eq rfl

theorem reportDivergence_logged (msg : MsgReportDivergence) : Leaves State.logged s (reportDivergence msg s) := by
  unfold reportDivergence
  iterate 5 refine .bind fun _ => ?_
  exact .of_eq rfl

theorem updateParams_sown (msg : MsgUpdateParams) : Leaves State.sown s (updateParams msg s) := by
  intro s' h
  obtain ⟨-, rfl⟩ := updateParams_eq h
  rfl

theorem createCommit_logged (msg : MsgCreateCommit) : Leaves State.logged s (createCommit c msg s) := by
  unfold createCommit
  iterate 13 refine .bind fun _ => ?_
  refine .of_eq ?_
  simp only
  split
  · exact noteJudgeAnswer_logged _ _ _
  · exact noteJudgeAnswer_logged _ _ _

theorem settleOptimistic_logged (job : Job) : Leaves State.logged s (settleOptimistic c job s) := by
  unfold settleOptimistic
  iterate 8 refine .bind fun _ => ?_
  exact .of_eq rfl

theorem settleRedundant_logged (job : Job) : Leaves State.logged s (settleRedundant c job s) := by
  unfold settleRedundant
  iterate 6 refine .bind fun _ => ?_
  exact .of_eq rfl

theorem settleSemantic_logged (msg : MsgSettleSemantic) : Leaves State.logged s (settleSemantic c msg s) := by
  unfold settleSemantic
  iterate 5 refine .bind fun _ => ?_
  split
  · exact settleOptimistic_logged c _
  · exact settleRedundant_logged c _

theorem verifySemantic_logged (msg : MsgVerifySemantic) : Leaves State.logged s (verifySemantic msg s) := by
  unfold verifySemantic
  iterate 7 refine .bind fun _ => ?_
  exact .of_eq rfl

theorem finalizeJob_logged (msg : MsgFinalizeJob) : Leaves State.logged s (finalizeJob msg s) := by
  unfold finalizeJob
  iterate 7 refine .bind fun _ => ?_
  exact .of_eq rfl

theorem payout_logged (msg : MsgPayout) : Leaves State.logged s (payout c msg s) := by
  unfold payout
  iterate 12 refine .bind fun _ => ?_
  exact .of_eq rfl

theorem settlePay_logged (msg : MsgSettlePay) : Leaves State.logged s (settlePay c msg s) := by
  unfold settlePay
  iterate 10 refine .bind fun _ => ?_
  split
  · exact .error
  · iterate 2 refine .bind fun _ => ?_
    exact .of_eq rfl

omit [Chain] in
theorem deposit_logged (amt : UInt64) : Leaves State.logged s (deposit c amt s) := by
  unfold deposit
  refine .bind fun _ => ?_
  exact .of_eq rfl

theorem anchorRedoCommittee_logged (j m d : Str) : (anchorRedoCommittee c s j m d).logged = s.logged := by
  unfold anchorRedoCommittee
  split <;> rfl

theorem openDispute_logged (disputer : Str) (job : Job) :
    (openDispute c disputer job s).logged = s.logged := by
  have hdeadline : ∀ s₁ : State, (if s₁.params.auditResolveTimeout > 0 then
      { s₁ with
        queues :=
          { s₁.queues with
            pendingAuditResolve := s₁.queues.pendingAuditResolve.insert
              (qkey (addInt64 c.h (toInt64 s₁.params.auditResolveTimeout)) job.jobId) } }
      else s₁).logged = s₁.logged := by
    intro s₁
    split <;> rfl
  unfold openDispute
  refine (hdeadline _).trans ((anchorRedoCommittee_logged c _ _ _).trans ?_)
  split <;> rfl

theorem disputeVerdict_logged (msg : MsgDisputeVerdict) : Leaves State.logged s (disputeVerdict c msg s) := by
  unfold disputeVerdict
  iterate 6 refine .bind fun _ => ?_
  split
  · refine .bind fun _ => ?_
    exact .of_eq (openDispute_logged c _ _)
  · exact .of_eq (openDispute_logged c _ _)

omit [Chain] in
theorem closeInstance_logged (job : Job) (f : Funds) : (closeInstance job f s).logged = s.logged := rfl

theorem resolveDispute_logged (msg : MsgResolveDispute) : Leaves State.logged s (resolveDispute c msg s) := by
  unfold resolveDispute
  iterate 6 refine .bind fun _ => ?_
  exact .of_eq (closeInstance_logged _ _)

theorem adjudicateDispute_logged (msg : MsgAdjudicateDispute) :
    Leaves State.logged s (adjudicateDispute c msg s) := by
  unfold adjudicateDispute
  iterate 7 refine .bind fun _ => ?_
  exact .of_eq (closeInstance_logged _ _)

/-- A message that touches nothing of all this. -/
def Action.Plain : Action → Prop
  | .createMiner _ | .deleteMiner _ | .proveAvailability _ | .submitVrfBeacon _ | .updateParams _
  | .openJob _ | .endBlock => False
  | _ => True

theorem step_logged {c : Ctx} {s' : State} {a : Action} (h : Step s (c, a) s') (ha : a.Plain) :
    s'.logged = s.logged := by
  cases a with
  | createMiner | deleteMiner | proveAvailability | submitVrfBeacon | updateParams | openJob
  | endBlock => exact ha.elim
  | updateMiner msg => exact updateMiner_logged msg s' h
  | rotateMinerKeys msg => exact rotateMinerKeys_logged msg s' h
  | declareJudge msg => exact declareJudge_logged c msg s' h
  | claimSubsidy msg => exact claimSubsidy_logged c msg s' h
  | rewardTraining msg => exact rewardTraining_logged msg s' h
  | slashMiner msg => exact slashMiner_logged msg s' h
  | reportDivergence msg => exact reportDivergence_logged msg s' h
  | createCommit msg => exact createCommit_logged c msg s' h
  | settleSemantic msg => exact settleSemantic_logged c msg s' h
  | verifySemantic msg => exact verifySemantic_logged msg s' h
  | finalizeJob msg => exact finalizeJob_logged msg s' h
  | payout msg => exact payout_logged c msg s' h
  | settlePay msg => exact settlePay_logged c msg s' h
  | disputeVerdict msg => exact disputeVerdict_logged c msg s' h
  | resolveDispute msg => exact resolveDispute_logged c msg s' h
  | adjudicateDispute msg => exact adjudicateDispute_logged c msg s' h
  | deposit amt => exact deposit_logged c amt s' h

theorem step_noted {c : Ctx} {s' : State} {a : Action} (h : Step s (c, a) s') (ha : a.Plain) :
    s'.noted = s.noted :=
  noted_of_logged (step_logged h ha)

theorem createMiner_kept (msg : MsgCreateMiner) : Leaves State.kept s (createMiner c msg s) :=
  fun s' h => kept_of_spared (createMiner_spared c msg s' h)

theorem deleteMiner_kept (msg : MsgDeleteMiner) : Leaves State.kept s (deleteMiner c msg s) :=
  fun s' h => kept_of_spared (deleteMiner_spared c msg s' h)

/-- Opening a job and submitting a beacon write only what draws are made of. -/
theorem openJob_heard {c : Ctx} {s' : State} {msg : MsgOpenJob} (h : openJob c msg s = .ok s') :
    s'.heard = s.heard := by
  obtain ⟨f, -, -, -, b, q, frz, wc, -, rfl⟩ := openJob_spec h
  rfl

theorem submitVrfBeacon_heard {s' : State} {msg : MsgSubmitVrfBeacon}
    (h : submitVrfBeacon msg s = .ok s') : s'.heard = s.heard := by
  simp only [submitVrfBeacon, bind_ok, ensure_ok, require_ok, pure_ok] at h
  obtain ⟨-, -, -, -, pk, -, pi, -, beta, -, -, -, rfl⟩ := h
  rfl

theorem openJob_told {c : Ctx} {s' : State} {msg : MsgOpenJob} (h : openJob c msg s = .ok s') :
    s'.told = s.told :=
  told_of_heard (openJob_heard h)

theorem submitVrfBeacon_told {s' : State} {msg : MsgSubmitVrfBeacon}
    (h : submitVrfBeacon msg s = .ok s') : s'.told = s.told :=
  told_of_heard (submitVrfBeacon_heard h)

theorem proveAvailability_masked (msg : MsgProveAvailability) :
    Leaves State.masked s (proveAvailability c msg s) := by
  unfold proveAvailability
  iterate 9 refine .bind fun _ => ?_
  split
  · iterate 3 refine .bind fun _ => ?_
    exact .of_eq rfl
  · exact .of_eq rfl

/-- No message writes an absence. -/
theorem step_masked {c : Ctx} {s' : State} {a : Action} (h : Step s (c, a) s') (ha : a ≠ .endBlock) :
    s'.masked = s.masked := by
  cases a with
  | endBlock => exact absurd rfl ha
  | createMiner msg => exact masked_of_spared (createMiner_spared c msg s' h)
  | deleteMiner msg => exact masked_of_spared (deleteMiner_spared c msg s' h)
  | proveAvailability msg => exact proveAvailability_masked c msg s' h
  | updateParams msg =>
    obtain ⟨-, rfl⟩ := updateParams_eq h
    rfl
  | openJob msg => exact masked_of_heard (openJob_heard h)
  | submitVrfBeacon msg => exact masked_of_heard (submitVrfBeacon_heard h)
  | _ => exact masked_of_logged (step_logged h trivial)

end Messages

section Passes

variable [Chain] (c : Ctx) (s : State)

theorem expireOne_logged (key : QueueKey) : (expireOne c s key).logged = s.logged := by
  unfold expireOne expireUnservedJob
  split
  · rfl
  · split
    · rfl
    · split
      · rfl
      · split
        · rfl
        · split
          · rfl
          · unfold refundEscrow
            simp only
            split <;> rfl

theorem runExpiry_logged : (runExpiry c s).logged = s.logged := leaves_foldl (expireOne_logged c) _ s

theorem unwindStrandedRetention_logged (p : Params) (j : Str) :
    (unwindStrandedRetention c p j s).2.logged = s.logged := by
  unfold unwindStrandedRetention
  split <;> rfl

theorem deferResolution_logged (p : Params) (j : Str) (b : Bool) :
    (deferResolution c p j b s).logged = s.logged := by
  have hun := unwindStrandedRetention_logged c s p j
  unfold deferResolution
  split
  · next h =>
    rw [h] at hun
    exact hun
  · next h =>
    rw [h] at hun
    split
    · exact hun
    · exact hun

theorem resolveByVerdicts_logged (p : Params) (job : Job) (b : Bool) :
    (resolveByVerdicts c p job b s).logged = s.logged := by
  unfold resolveByVerdicts
  simp only
  split
  · exact closeInstance_logged _ _
  · split
    · exact closeInstance_logged _ _
    · exact deferResolution_logged c s p job.jobId b

theorem resolveDisputedAudit_logged (p : Params) (j : Str) (b : Bool) :
    (resolveDisputedAudit c p j b s).logged = s.logged := by
  unfold resolveDisputedAudit
  split
  · rfl
  · split
    · rfl
    · split
      · simp only
        split
        · exact closeInstance_logged _ _
        · split
          · exact closeInstance_logged _ _
          · exact resolveByVerdicts_logged c s p _ b
      · exact closeInstance_logged _ _

theorem runAuditResolveTimeout_logged : (runAuditResolveTimeout c s).logged = s.logged := by
  refine leaves_foldl (fun s key => ?_) _ s
  exact resolveDisputedAudit_logged c s s.params (ofLex key).2 true

theorem runAppealResolveTimeout_logged : (runAppealResolveTimeout c s).logged = s.logged := by
  refine leaves_foldl (fun s key => ?_) _ s
  exact resolveDisputedAudit_logged c s s.params (ofLex key).2 false

theorem deferAudit_logged (key : QueueKey) : (deferAudit c s key).logged = s.logged := by
  have hun := unwindStrandedRetention_logged c s s.params (ofLex key).2
  unfold deferAudit
  simp only
  split
  · split
    · next h =>
      rw [h] at hun
      exact hun
    · next h =>
      rw [h] at hun
      exact hun
  · rfl

theorem deferAuditForSmallJury_logged (key : QueueKey) :
    (deferAuditForSmallJury c key s).logged = s.logged := by
  have hun := unwindStrandedRetention_logged c s s.params (ofLex key).2
  unfold deferAuditForSmallJury
  split
  · next h =>
    rw [h] at hun
    exact hun
  · next h =>
    rw [h] at hun
    exact hun

theorem openAudit_logged (job : Job) (members : List Str) :
    (openAudit c job members s).logged = s.logged := by
  unfold openAudit
  simp only
  split <;> rfl

theorem selectAudit_logged (seed : Str) (key : QueueKey) (job : Job) :
    Leaves State.logged s (selectAudit c seed key job s) := by
  unfold selectAudit
  simp only
  generalize hbump : (if s.juries.auditSelected.has job.jobId = false ∧
    jobIsDisputed job.state = false then setJuries (bumpAuditsOpened s) s else s) = s₁
  have hs₁ : s₁.logged = s.logged := by
    rw [← hbump]
    split <;> rfl
  split
  · exact .error
  · split
    · exact .of_eq ((deferAuditForSmallJury_logged c _ key).trans hs₁)
    · exact .of_eq ((openAudit_logged c s₁ job _).trans hs₁)

theorem auditOne_logged (seed : Str) (key : QueueKey) : Leaves State.logged s (auditOne c seed s key) := by
  unfold auditOne
  simp only
  split
  · exact .of_eq rfl
  · split
    · exact .of_eq rfl
    · split
      · exact selectAudit_logged c s seed key _
      · exact .of_eq rfl

theorem runOptimisticAudit_logged (seed : Str) : Leaves State.logged s (runOptimisticAudit c seed s) := by
  unfold runOptimisticAudit
  simp only
  split
  · exact .of_eq rfl
  · split
    · exact .of_eq rfl
    · split
      · exact .of_eq (leaves_foldl (deferAudit_logged c) _ s)
      · exact leaves_foldlM (fun s key => auditOne_logged c s seed key) _ s

theorem pruneOne_spared (m : Str) : (pruneOne c s m).spared = s.spared := by
  unfold pruneOne
  split
  · rfl
  · split
    · split
      · rfl
      · split <;> rfl
    · rfl

theorem retryHeldReleases_logged : (retryHeldReleases c s).logged = s.logged := by
  refine leaves_foldl (fun s j => ?_) _ s
  split <;> rfl

theorem runPeriodic_spared : (runPeriodic c s).spared = s.spared := by
  unfold runPeriodic
  split
  · refine (spared_of_logged (retryHeldReleases_logged c _)).trans ?_
    unfold pruneInactiveMiners
    split
    · rfl
    · exact leaves_foldl (pruneOne_spared c) _ s
  · rfl

theorem runExpiry_noted : (runExpiry c s).noted = s.noted := noted_of_logged (runExpiry_logged c s)

theorem auditOne_noted (seed : Str) (key : QueueKey) : Leaves State.noted s (auditOne c seed s key) :=
  fun s' h => noted_of_logged (auditOne_logged c s seed key s' h)

theorem retryHeldReleases_noted : (retryHeldReleases c s).noted = s.noted :=
  noted_of_logged (retryHeldReleases_logged c s)

theorem runPeriodic_kept : (runPeriodic c s).kept = s.kept := kept_of_spared (runPeriodic_spared c s)

/-- The count of failures writes nothing but the two fields of its window. -/
theorem countFailure_eq (p : Params) (e : UInt64) (challenge : Str) (present : List Str)
    (acc : Registry × List Str) (m : Miner) : ∃ fails window,
    (countFailure p e challenge present acc m).1 =
      { acc.1 with availFailCount := fails, availFailWindowStart := window } := by
  obtain ⟨r, l⟩ := acc
  unfold countFailure
  split
  · exact ⟨_, _, rfl⟩
  · simp only
    split
    · split
      · exact ⟨_, _, rfl⟩
      · exact ⟨_, _, rfl⟩
    · exact ⟨_, _, rfl⟩

theorem countFailures_eq (p : Params) (e : UInt64) (challenge : Str) (present : List Str)
    (l : List Miner) (acc : Registry × List Str) : ∃ fails window,
    (l.foldl (countFailure p e challenge present) acc).1 =
      { acc.1 with availFailCount := fails, availFailWindowStart := window } := by
  induction l generalizing acc with
  | nil => exact ⟨_, _, rfl⟩
  | cons m l ih =>
    obtain ⟨fails, window, hone⟩ := countFailure_eq p e challenge present acc m
    obtain ⟨fails', window', hl⟩ := ih (countFailure p e challenge present acc m)
    refine ⟨fails', window', hl.trans ?_⟩
    rw [hone]

theorem runAvailabilitySlash_noted (epoch : Int) : (runAvailabilitySlash c epoch s).noted = s.noted := by
  unfold runAvailabilitySlash
  simp only
  split
  · rfl
  · split
    · rfl
    · obtain ⟨fails, window, hr⟩ := countFailures_eq s.params (toUint64 epoch)
        (if s.params.availSampleBps > 0 then s.registry.availChallenge.getD [] else [])
        ((presentAt s epoch).map fun k => (ofLex k).2) s.funds.miners.entries (s.registry, [])
      rw [State.noted, State.kept, State.rolled, State.dated]
      simp only [hr]
      rfl

omit [Chain] in
/-- The payment forgets the presences it reads, and nothing else. -/
theorem payAvailability_eq {epoch : Int} {s' : State} (h : payAvailability c epoch s = .ok s') :
    s' = { s with
      registry :=
        { s.registry with
          available := (presentAt s epoch).foldl (fun a k => a.remove k) s.registry.available } } := by
  unfold payAvailability at h
  simp only at h
  split at h
  · cases h
  · exact (Except.ok.inj h).symm

/-- The presences after the boundary of an epoch. -/
def purged (s : State) (epoch : Int) : KeySet QueueKey :=
  if epoch ≥ 1 then (presentAt s (epoch - 1)).foldl (fun a k => a.remove k) s.registry.available
  else s.registry.available

/-- The availability pass does nothing within an epoch; at its boundary it purges the presences of the
epoch that ended, and rolls the challenge. -/
theorem runAvailabilityEpoch_eq {s' : State} (h : runAvailabilityEpoch c s = .ok s') :
    (toInt64 s.params.availEpochBlocks ≤ 0 ∨ c.h ≤ 0 ∨ c.h % toInt64 s.params.availEpochBlocks ≠ 0) ∧
        s' = s ∨
      (0 < toInt64 s.params.availEpochBlocks ∧ 0 < c.h ∧
        c.h % toInt64 s.params.availEpochBlocks = 0) ∧ s'.sown = s.sown ∧ s'.dated = s.dated ∧
        s'.params = s.params ∧ ∃ challenge, s'.rolled =
          (purged s (c.h / toInt64 s.params.availEpochBlocks), some challenge, some c.h) := by
  unfold runAvailabilityEpoch at h
  simp only at h
  split at h
  · next hquiet => exact .inl ⟨hquiet, (Except.ok.inj h).symm⟩
  · next hquiet =>
    right
    refine ⟨by omega, ?_⟩
    split at h
    · next hge =>
      have hslash := runAvailabilitySlash_noted c s (c.h / toInt64 s.params.availEpochBlocks - 1)
      generalize runAvailabilitySlash c (c.h / toInt64 s.params.availEpochBlocks - 1) s = s₁
        at h hslash
      obtain ⟨s₂, h₂, h₃⟩ := bind_ok.1 h
      cases payAvailability_eq c s₁ h₂
      cases h₃
      simp only [State.noted, State.kept, State.rolled, Prod.mk.injEq] at hslash
      obtain ⟨⟨hsown, ⟨havail, -, -⟩, hparams⟩, hdated⟩ := hslash
      refine ⟨hsown, hdated, hparams, _, congrArg (fun a => (a, _, _)) ?_⟩
      simp only [presentAt, havail, purged, if_pos hge]
    · next hge =>
      cases h
      refine ⟨rfl, rfl, rfl, _, congrArg (fun a => (a, _, _)) ?_⟩
      simp only [purged, if_neg hge]

theorem runAvailabilityEpoch_sown : Leaves State.sown s (runAvailabilityEpoch c s) := by
  intro s' h
  rcases runAvailabilityEpoch_eq c s h with ⟨-, rfl⟩ | ⟨-, hsown, -⟩
  · rfl
  · exact hsown

theorem revealOne_heard (seed : Str) (key : QueueKey) : (revealOne seed s key).heard = s.heard := by
  have hanchor : ∀ s₁ : State, (removeReveal key (anchorWorkCommittee s₁ (ofLex key).2)).heard =
      s₁.heard := by
    intro s₁
    unfold anchorWorkCommittee
    split
    · rfl
    · split <;> rfl
  unfold revealOne
  simp only
  split
  · split
    · exact hanchor _
    · exact hanchor s
  · exact hanchor s

/-- The reveal pass writes nothing but what draws are made of. -/
theorem runReveal_heard (seed : Str) : (runReveal c seed s).heard = s.heard := by
  have hdefer : ∀ (s : State) key, (deferReveal c s key).heard = s.heard := by
    intro s key
    unfold deferReveal
    split <;> rfl
  unfold runReveal
  simp only
  split
  · exact leaves_foldl hdefer _ s
  · exact leaves_foldl (fun s key => revealOne_heard s seed key) _ s

/-- Before its last passes, a block has changed nothing but what draws are made of. -/
theorem runReveal_runExpiry_heard (seed : Str) : (runReveal c seed (runExpiry c s)).heard = s.heard :=
  (runReveal_heard c (runExpiry c s) seed).trans (heard_of_logged (runExpiry_logged c s))

theorem runReveal_runExpiry_told (seed : Str) : (runReveal c seed (runExpiry c s)).told = s.told :=
  told_of_heard (runReveal_runExpiry_heard c s seed)

/-- The last passes of a block, after those that leave everything here but the reveal alone. -/
theorem endBlock_logged {s' : State} (h : endBlock c s = .ok s') : ∃ s₁,
    s₁.logged = (runReveal c (blockSeed c s.params) (runExpiry c s)).logged ∧
      runAvailabilityEpoch c (runPeriodic c s₁) = .ok s' := by
  unfold endBlock at h
  simp only at h
  obtain ⟨s₁, h₁, h₂⟩ := bind_ok.1 h
  exact ⟨_, (runAppealResolveTimeout_logged c _).trans ((runAuditResolveTimeout_logged c _).trans
    (runOptimisticAudit_logged c _ _ s₁ h₁)), h₂⟩

theorem endBlock_eq {s' : State} (h : endBlock c s = .ok s') : ∃ s₁,
    s₁.noted = (runReveal c (blockSeed c s.params) (runExpiry c s)).noted ∧
      runAvailabilityEpoch c (runPeriodic c s₁) = .ok s' := by
  obtain ⟨s₁, hlogged, hs⟩ := endBlock_logged c s h
  exact ⟨s₁, noted_of_logged hlogged, hs⟩

/-- Of the passes of a block, only the reveal touches what draws are made of. -/
theorem endBlock_sown {s' : State} (h : endBlock c s = .ok s') :
    s'.sown = (runReveal c (blockSeed c s.params) (runExpiry c s)).sown := by
  obtain ⟨s₁, hnoted, hs⟩ := endBlock_eq c s h
  exact (runAvailabilityEpoch_sown c _ s' hs).trans (sown_of_kept
    ((runPeriodic_kept c s₁).trans (kept_of_noted hnoted)))

end Passes

end Dendra.Jobs
