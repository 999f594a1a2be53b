import Dendra.Jobs.Progress.Block

/-!
# Runs

Every step of the module only makes changes of the lives of its jobs (`step_prog`), so what those
changes keep holds in every reachable state.

* `Reachable.wf`: every reachable state is well formed.
* `Reachable.view`: an invariant of a life is an invariant of a run.
* `Reachable.slack`: the account covers what is owed.
-/

namespace Dendra.Jobs

open Word Relation

variable [Chain]

/-! ## Steps -/

/-- The job and the primary of an optimistic settlement, if the action is one. -/
def settlementOf (s : State) : Action → Option (Job × Miner)
  | .settleSemantic msg =>
    if s.params.verificationMode = 1 then do
      let job ← s.job msg.jobId
      let primId ← (primaryOf s msg.jobId).toOption
      let miner ← s.miner primId
      pure (job, miner)
    else none
  | _ => none

/-- The labels of the changes that an action can make in a state. -/
def Emits (s : State) (c : Ctx) (a : Action) : Label → Prop
  | .plain => True
  | .opening client =>
    ∃ msg, a = .openJob msg ∧ client = msg.creator ∧ (Chain.addrBytes client).isSome = true
  | .summon p => p = s.params
  | .settle p fee payable =>
    ∃ job miner, settlementOf s a = some (job, miner) ∧ p = s.params ∧ fee = job.fee ∧
      payable = (Chain.addrBytes miner.operator).isSome
  | .drop job =>
    a = .endBlock ∧ ∃ key ∈ s.queues.pendingJobExpiry.due c.h jobExpiryMaxPerBlock,
      ∃ s', Returned s s' (ofLex key).2 ∧ job = s'.job (ofLex key).2
  | .dispute registered =>
    ∃ msg job, a = .disputeVerdict msg ∧ s.job msg.jobId = some job ∧
      registered = primaryRegistered s job

section Step

variable {s s' : State} {c : Ctx} {a : Action}

theorem updateParams_eq {msg : MsgUpdateParams} (h : updateParams msg s = .ok s') :
    msg.params.validate = .ok () ∧ s' = { s with params := msg.params } := by
  simp only [updateParams, bind_ok, ensure_ok] at h
  obtain ⟨-, -, -, -, h⟩ := h
  split at h
  · cases h
  · next hv =>
    simp only [bind_ok, ensure_ok, pure_ok] at h
    obtain ⟨-, -, -, -, rfl⟩ := h
    exact ⟨hv, rfl⟩

/-- Every step but a change of the parameters is progress. -/
theorem step_prog (hw : s.Wf) (h : Step s (c, a) s') (ha : ∀ msg, a ≠ .updateParams msg) :
    Prog (Emits s c a) s s' := by
  have hE : Emits s c a .plain := trivial
  cases a with
  | createMiner msg => exact createMiner_prog hE hw h
  | updateMiner msg => exact updateMiner_prog hE hw h
  | deleteMiner msg => exact deleteMiner_prog hE hw h
  | rotateMinerKeys msg => exact rotateMinerKeys_prog hE hw h
  | declareJudge msg => exact declareJudge_prog hE hw h
  | proveAvailability msg => exact proveAvailability_prog hE hw h
  | claimSubsidy msg => exact claimSubsidy_prog hE hw h
  | rewardTraining msg => exact rewardTraining_prog hE hw h
  | slashMiner msg => exact slashMiner_prog hE hw h
  | reportDivergence msg => exact reportDivergence_prog hE hw h
  | submitVrfBeacon msg => exact submitVrfBeacon_prog hE hw h
  | updateParams msg => exact absurd rfl (ha msg)
  | openJob msg => exact openJob_prog hw (fun ha => ⟨msg, rfl, rfl, ha⟩) h
  | createCommit msg => exact createCommit_prog hE hw h
  | settleSemantic msg =>
    refine settleSemantic_prog hE (fun hmode job primId miner hj hprim hm => ?_) hw h
    refine ⟨job, miner, ?_, rfl, rfl, rfl⟩
    rw [settlementOf, if_pos hmode, hj, hprim]
    show (s.miner primId).bind _ = _
    rw [hm]
    rfl
  | verifySemantic msg => exact verifySemantic_prog hE hw h
  | finalizeJob msg => exact finalizeJob_prog hE hw h
  | payout msg => exact payout_prog hE hw h
  | settlePay msg => exact settlePay_prog hE hw h
  | disputeVerdict msg =>
    exact disputeVerdict_prog (fun job hj => ⟨msg, job, rfl, hj, rfl⟩) hw h
  | resolveDispute msg => exact resolveDispute_prog hE hw h
  | adjudicateDispute msg => exact adjudicateDispute_prog hE hw h
  | endBlock =>
    refine endBlock_prog hE rfl hw (fun key hk s' hr => ?_) h
    exact ⟨rfl, key, hk, s', hr, rfl⟩
  | deposit amt => exact deposit_prog hE hw h

/-- A change of the parameters changes no view. -/
theorem updateParams_wf (hw : s.Wf) {msg : MsgUpdateParams} (h : updateParams msg s = .ok s') :
    s'.Wf ∧ (∀ j, view s' j = view s j) ∧ s'.slack = s.slack ∧ s'.supply = s.supply := by
  obtain ⟨hv, rfl⟩ := updateParams_eq h
  exact ⟨⟨hw.miners, hw.jobs, hw.commits, hw.work, hv, hw.sound⟩, fun _ => rfl, rfl, rfl⟩

/-- What a step does to a life. -/
theorem step_lives (hw : s.Wf) (h : Step s (c, a) s') :
    s'.Wf ∧ ∀ j, WfJobId j → ReflTransGen (Lives (Emits s c a)) (view s j) (view s' j) := by
  by_cases ha : ∃ msg, a = .updateParams msg
  · obtain ⟨msg, rfl⟩ := ha
    obtain ⟨hw', hv, -⟩ := updateParams_wf hw h
    exact ⟨hw', fun j _ => by rw [hv j]⟩
  · have hp := step_prog hw h fun msg e => ha ⟨msg, e⟩
    exact ⟨hp.wf, hp.lives⟩

/-- A step loses no cover, and makes no coins. -/
theorem step_slack (hw : s.Wf) (hb : s.params.Bounded) (h : Step s (c, a) s') :
    s.slack ≤ s'.slack := by
  by_cases ha : ∃ msg, a = .updateParams msg
  · obtain ⟨msg, rfl⟩ := ha
    exact le_of_eq (updateParams_wf hw h).2.2.1.symm
  · exact (step_prog hw h fun msg e => ha ⟨msg, e⟩).slack hb

theorem step_supply (hw : s.Wf) (h : Step s (c, a) s') : s'.supply ≤ s.supply := by
  by_cases ha : ∃ msg, a = .updateParams msg
  · obtain ⟨msg, rfl⟩ := ha
    exact le_of_eq (updateParams_wf hw h).2.2.2
  · exact (step_prog hw h fun msg e => ha ⟨msg, e⟩).supply

end Step

/-! ## Reachable states -/

/-- A job that nobody opened, in a fresh chain. -/
def View.fresh : View where
  job := none
  purse := ⟨fun _ => none, [], [], false, none⟩
  audits := ∅
  expiry := ∅
  selected := false
  seats := []
  answers := ∅
  miners := ∅

omit [Chain] in
theorem View.fresh_sound : View.fresh.Sound :=
  ⟨fun _ => ⟨⟨fun _ => rfl, rfl, rfl⟩, rfl, rfl⟩, by simp [View.fresh], by simp [View.fresh]⟩

omit [Chain] in
theorem view_genesis (p : Params) (balance outside : Nat) (j : Str) :
    view (genesis p balance outside) j = View.fresh := by
  ext1
  · rfl
  · rfl
  · ext h
    simp [view, View.fresh, genesis, Queue.heights]
  · ext h
    simp [view, View.fresh, genesis, Queue.heights]
  · rfl
  · rfl
  · ext m
    simp [view, View.fresh, genesis, answerOf, State.commit]
  · ext m
    simp [view, View.fresh, genesis, Table.has]

theorem wf_genesis {p : Params} (hp : p.validate = .ok ()) (balance outside : Nat) :
    (genesis p balance outside).Wf where
  miners m hm := by simp [genesis, Table.has] at hm
  jobs j hj := by simp [genesis, Table.has] at hj
  commits key hk := by simp [genesis, Table.has] at hk
  work j raw hk := by simp [genesis] at hk
  params := hp
  sound j _ := by
    rw [view_genesis]
    exact View.fresh_sound

section Reachable

variable {ok : State → Ctx × Action → Prop} {s : State}

theorem Reachable.wf (h : Reachable ok s) : s.Wf := by
  refine Reach.invariant (P := State.Wf) ?_ (fun s a s' _ hw _ hs => (step_lives hw hs).1) h
  rintro s ⟨p, balance, outside, hp, rfl⟩
  exact wf_genesis hp balance outside

/-- What every change of a life keeps holds of every job in every reachable state. -/
theorem Reachable.view {P : View → Prop} (h : Reachable ok s) (h0 : P .fresh)
    (hstep : ∀ s c a e v v', s.Wf → ok s (c, a) → Emits s c a e → v.Sound → P v → Life e v v' →
      P v')
    {j : Str} (hj : WfJobId j) : P (view s j) := by
  have hinv : ∀ j, WfJobId j → P (Jobs.view s j) ∧ (Jobs.view s j).Sound := by
    refine Reach.invariant (P := fun s => ∀ j, WfJobId j → P (Jobs.view s j) ∧ (Jobs.view s j).Sound)
      ?_ (fun s a s' hr hv hok hs j hj => ?_) h
    · rintro s ⟨p, balance, outside, -, rfl⟩ j -
      rw [view_genesis]
      exact ⟨h0, View.fresh_sound⟩
    · have hw : s.Wf := Reachable.wf hr
      refine Lives.invariant (P := fun v => P v ∧ v.Sound) (fun e v v' he hv hl => ?_)
        ((step_lives hw hs).2 j hj) (hv j hj)
      exact ⟨hstep s a.1 a.2 e v v' hw hok he hv.2 hv.1 hl, hl.sound hv.2⟩
  exact (hinv j hj).1

/-- A run from a well-formed state stays among them. -/
theorem wf_of_run {s₁ : State} (hw : s₁.Wf) (h : Reach (· = s₁) Step ok s) : s.Wf :=
  Reach.invariant (P := State.Wf) (by rintro _ rfl; exact hw)
    (fun _ _ _ _ hw _ hs => (step_lives hw hs).1) h

/-- What every change of a life keeps holds of a job in every later state. -/
theorem view_of_run {s₁ : State} {P : View → Prop} (hw : s₁.Wf) (h : Reach (· = s₁) Step ok s)
    {j : Str} (hj : WfJobId j) (h0 : P (Jobs.view s₁ j))
    (hstep : ∀ e v v', v.Sound → P v → Life e v v' → P v') : P (Jobs.view s j) := by
  refine Reach.invariant (P := fun s => P (Jobs.view s j)) (by rintro _ rfl; exact h0)
    (fun s a s' hr hv _ hs => ?_) h
  have hw' : s.Wf := wf_of_run hw hr
  refine (Lives.invariant (P := fun v => P v ∧ v.Sound) (fun e v v' _ hv hl => ?_)
    ((step_lives hw' hs).2 j hj) ⟨hv, hw'.sound j hj⟩).1
  exact ⟨hstep e v v' hv.2 hv.1 hl, hl.sound hv.2⟩

/-- The account covers what is owed, as long as the parameters in force are bounded. -/
theorem Reachable.slack (hok : ∀ s a, ok s a → s.params.Bounded) (h : Reachable ok s) :
    0 ≤ s.slack := by
  refine Reach.invariant (P := fun s => 0 ≤ s.slack) ?_ (fun s a s' hr hs0 ha hs => ?_) h
  · rintro s ⟨p, balance, outside, -, rfl⟩
    simp [State.slack, Funds.slack, genesis, Funds.stakes, Funds.heldTotal, Funds.poolCoins,
      Store.total]
  · exact hs0.trans (step_slack (Reachable.wf hr) (hok s a ha) hs)

end Reachable

end Dendra.Jobs
