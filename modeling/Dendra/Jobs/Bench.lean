import Dendra.Jobs.Frame

/-!
# Who moves a jury

The lottery anchors the jury of a job, with its height, and the end of its instance purges it.

* `Benched`: a jury, with its height, is as it was, or it is purged and its job is resolved. Every step makes such a
  change, unless it is the end of a block and the lottery has an entry of the job (`step_benched`).
* `runOptimisticAudit_seats`: a job that the lottery anchors a jury of has no entry left.
-/

namespace Dendra.Jobs

open Word Relation

/-- The jury of a job, and since when it is anchored. -/
def State.bench (s : State) (j : Str) : Option Str × Option UInt64 :=
  (s.juries.auditCommittee.get j, s.juries.committeeSince.get j)

/-- The job is marked resolved. -/
def View.Resolved (v : View) : Prop := ∃ job, v.job = some job ∧ jobIsResolved job.state = true

theorem Job.Extends.isResolved {job job' : Job} {marks : List Mark} (h : job.Extends marks job')
    (hr : jobIsResolved job.state = true) : jobIsResolved job'.state = true := by
  rw [h.state, jobIsResolved_append, hr, Bool.true_or]

theorem Life.resolved {e : Label} {v v' : View} (h : Life e v v') (hv : v.Resolved) : v'.Resolved := by
  obtain ⟨k, hk, hr⟩ := hv
  have hmore : ∀ {job job' : Job} {marks : List Mark}, v.job = some job → job.Extends marks job' →
      ∃ j, some job' = some j ∧ jobIsResolved j.state = true := by
    intro job job' marks hj hx
    rw [hk] at hj
    cases hj
    exact ⟨job', rfl, hx.isResolved hr⟩
  cases h with
  | opened hn hs hb hE =>
    rw [hk] at hn
    cases hn
  | marked hj hp hx hm hl hs => exact hmore hj hx
  | settled hj hp hs hfee hb hne ha hr' hq hw hl hheld hacc hret hc =>
    rw [hk] at hj
    cases hj
    exact ⟨_, rfl, by rw [hs, jobIsResolved_append, hr, Bool.true_or]⟩
  | expired hj hs hx hp => exact hmore hj hx
  | disputed hj hp hx hb => exact hmore hj hx
  | summoned hh hj hp hx hm hd hseats => exact hmore hj hx
  | closed hj hnr hx hm hr hopt he => exact hmore hj hx
  | _ => exact ⟨k, hk, hr⟩

theorem Prog.resolved [Chain] {E : Label → Prop} {s s' : State} {j : Str} (h : Prog E s s') (hj : WfJobId j)
    (hr : (view s j).Resolved) : (view s' j).Resolved :=
  Lives.invariant (P := View.Resolved) (fun _ _ _ _ hv hl => hl.resolved hv) (h.lives j hj) hr

/-- The jury of a job is as it was, or it is purged and the job is resolved. -/
def Benched (j : Str) (s s' : State) : Prop :=
  s'.bench j = s.bench j ∨ s'.bench j = (none, none) ∧ (view s' j).Resolved

section Benched

variable {s s' s'' : State} {j k : Str}

theorem Benched.refl (j : Str) (s : State) : Benched j s s := .inl rfl

/-- What was resolved stays so. -/
theorem Benched.trans (h : Benched j s s') (hkeep : (view s' j).Resolved → (view s'' j).Resolved)
    (h' : Benched j s' s'') : Benched j s s'' := by
  rcases h' with h' | h'
  · exact h.imp h'.trans fun ⟨hb, hr⟩ => ⟨h'.trans hb, hkeep hr⟩
  · exact .inr h'

theorem Benched.of_bench (h : s'.bench j = s.bench j) (h' : Benched j s' s'') : Benched j s s'' :=
  h'.imp (fun e => e.trans h) id

theorem Benched.then_bench (h : Benched j s s') (h' : s''.bench j = s'.bench j)
    (hkeep : (view s' j).Resolved → (view s'' j).Resolved) : Benched j s s'' :=
  h.trans hkeep (.inl h')

theorem bench_of_juries (h : s'.juries = s.juries) : s'.bench j = s.bench j := by
  rw [State.bench, State.bench, h]

/-- A change beside the juries of jobs. -/
theorem bench_of_get (hseats : s'.juries.auditCommittee.get j = s.juries.auditCommittee.get j)
    (hsince : s'.juries.committeeSince.get j = s.juries.committeeSince.get j) : s'.bench j = s.bench j :=
  Prod.ext hseats hsince

/-- A purge does not anchor. -/
theorem Benched.unanchored (h : Benched j s s') (hn : s.juries.auditCommittee.get j = none) :
    s'.juries.auditCommittee.get j = none := by
  rcases h with h | ⟨h, -⟩
  · exact (congrArg Prod.fst h).trans hn
  · exact congrArg Prod.fst h

theorem bench_foldl {γ : Type} {g : State → γ → State} (l : List γ) (hg : ∀ s, ∀ b ∈ l, (g s b).bench j = s.bench j)
    (s : State) : (l.foldl g s).bench j = s.bench j := by
  induction l generalizing s with
  | nil => rfl
  | cons b l ih =>
    exact (ih (fun s b hb => hg s b (List.mem_cons_of_mem _ hb)) (g s b)).trans (hg s b List.mem_cons_self)

theorem benched_foldl [Chain] {γ : Type} {g : State → γ → State} (l : List γ) (hj : WfJobId j)
    (hg : ∀ s b, s.Wf → Prog (fun _ => True) s (g s b) ∧ Benched j s (g s b)) {s : State} (hw : s.Wf) :
    Prog (fun _ => True) s (l.foldl g s) ∧ Benched j s (l.foldl g s) := by
  induction l generalizing s with
  | nil => exact ⟨.refl hw, .refl j s⟩
  | cons b l ih =>
    obtain ⟨hprog, hbench⟩ := hg s b hw
    obtain ⟨hprogs, hbenches⟩ := ih hprog.wf
    exact ⟨hprog.trans hprogs, hbench.trans (hprogs.resolved hj) hbenches⟩

/-- What the steps of a fold are related by, its ends are. -/
theorem foldlM_related {γ : Type} {R : State → State → Prop} (hrefl : ∀ s, R s s)
    (htrans : ∀ {s s' s''}, R s s' → R s' s'' → R s s'') {g : State → γ → Except Err State} {s s' : State}
    (l : List γ) (hg : ∀ s, ∀ b ∈ l, ∀ s', g s b = .ok s' → R s s') (h : l.foldlM g s = .ok s') : R s s' := by
  induction l generalizing s with
  | nil =>
    cases h
    exact hrefl _
  | cons b l ih =>
    rw [List.foldlM_cons] at h
    obtain ⟨s₁, h₁, h₂⟩ := bind_ok.1 h
    exact htrans (hg s b List.mem_cons_self s₁ h₁) (ih (fun s b hb => hg s b (List.mem_cons_of_mem _ hb)) h₂)

/-- A purge takes the jury of its job, and no other. -/
theorem clearAuditCommittee_bench (hj : WfJobId j) (hk : j ≠ k) (s : State) :
    (clearAuditCommittee s k).bench j = s.bench j := by
  refine bench_of_get ?_ ?_
  · show (((s.juries.auditCommittee.remove k).remove (redoAnchorKey k)).remove (humanDisputeKey k)).get j = _
    rw [Store.get_remove_ne (hj.ne_humanDisputeKey _), Store.get_remove_ne (hj.ne_redoAnchorKey _),
      Store.get_remove_ne hk]
  · show ((s.juries.committeeSince.remove k).remove (redoAnchorKey k)).get j = _
    rw [Store.get_remove_ne (hj.ne_redoAnchorKey _), Store.get_remove_ne hk]

theorem clearAuditCommittee_bench_self (hj : WfJobId j) (s : State) :
    (clearAuditCommittee s j).bench j = (none, none) := by
  refine Prod.ext ?_ ?_
  · show (((s.juries.auditCommittee.remove j).remove (redoAnchorKey j)).remove (humanDisputeKey j)).get j = none
    rw [Store.get_remove_ne (hj.ne_humanDisputeKey _), Store.get_remove_ne (hj.ne_redoAnchorKey _),
      Store.get_remove_self]
  · show ((s.juries.committeeSince.remove j).remove (redoAnchorKey j)).get j = none
    rw [Store.get_remove_ne (hj.ne_redoAnchorKey _), Store.get_remove_self]

theorem jobIsResolved_closed (st : JobState) (marks : List Mark) : jobIsResolved (st ++ .resolved :: marks) = true := by
  simp [jobIsResolved]

theorem closeInstance_benched (hj : WfJobId j) {job : Job} (hr : jobIsResolved job.state = true) (f : Funds)
    (s : State) : Benched j s (closeInstance job f s) := by
  by_cases hk : j = job.jobId
  · subst hk
    exact .inr ⟨clearAuditCommittee_bench_self hj _, job, State.job_setJob_self _ job, hr⟩
  · exact .inl (clearAuditCommittee_bench hj hk ((s.setFunds f).setJob job))

end Benched

/-! ## Messages -/

section Messages

variable [Chain] {c : Ctx} {s s' : State} {j : Str}

/-- A message that leaves the juries alone. -/
def Action.Bystander : Action → Prop
  | .disputeVerdict _ | .resolveDispute _ | .adjudicateDispute _ | .endBlock => False
  | _ => True

theorem settleSemantic_juries (msg : MsgSettleSemantic) : Leaves State.juries s (settleSemantic c msg s) := by
  unfold settleSemantic
  iterate 5 refine .bind fun _ => ?_
  split
  · unfold settleOptimistic
    iterate 8 refine .bind fun _ => ?_
    exact .of_eq rfl
  · unfold settleRedundant
    iterate 6 refine .bind fun _ => ?_
    exact .of_eq rfl

theorem openJob_juries {msg : MsgOpenJob} (h : openJob c msg s = .ok s') : s'.juries = s.juries := by
  obtain ⟨f, -, -, -, b, q, frz, wc, -, rfl⟩ := openJob_spec h
  rfl

theorem step_juries {a : Action} (h : Step s (c, a) s') (ha : a.Bystander) : s'.juries = s.juries := by
  have hleaves : ∀ {r : Except Err State}, Leaves State.juries s r → r = .ok s' → s'.juries = s.juries :=
    fun hl hr => hl s' hr
  cases a with
  | disputeVerdict | resolveDispute | adjudicateDispute | endBlock => exact ha.elim
  | openJob msg => exact openJob_juries h
  | createCommit msg =>
    obtain ⟨-, -, cm, r, -, -, -, -, -, -, -, -, rfl⟩ := createCommit_spec h
    rfl
  | settleSemantic msg => exact settleSemantic_juries msg s' h
  | submitVrfBeacon msg =>
    have h : submitVrfBeacon msg s = .ok s' := h
    simp only [submitVrfBeacon, bind_ok, ensure_ok, require_ok, pure_ok] at h
    obtain ⟨-, -, -, -, pk, -, pi, -, beta, -, -, -, rfl⟩ := h
    rfl
  | updateParams msg =>
    obtain ⟨-, rfl⟩ := updateParams_eq h
    rfl
  | createMiner msg =>
    refine hleaves ?_ h
    show Leaves _ s (createMiner c msg s)
    unfold createMiner
    iterate 8 refine .bind fun _ => ?_
    exact .of_eq rfl
  | updateMiner msg =>
    refine hleaves ?_ h
    show Leaves _ s (updateMiner msg s)
    unfold updateMiner
    iterate 4 refine .bind fun _ => ?_
    exact .of_eq rfl
  | deleteMiner msg =>
    refine hleaves ?_ h
    show Leaves _ s (deleteMiner c msg s)
    unfold deleteMiner
    iterate 4 refine .bind fun _ => ?_
    split
    · iterate 2 refine .bind fun _ => ?_
      exact .of_eq rfl
    · exact .of_eq rfl
  | rotateMinerKeys msg =>
    refine hleaves ?_ h
    show Leaves _ s (rotateMinerKeys msg s)
    unfold rotateMinerKeys
    iterate 5 refine .bind fun _ => ?_
    exact .of_eq rfl
  | declareJudge msg =>
    refine hleaves ?_ h
    show Leaves _ s (declareJudge c msg s)
    unfold declareJudge
    iterate 3 refine .bind fun _ => ?_
    refine .of_eq ?_
    split <;> rfl
  | proveAvailability msg =>
    refine hleaves ?_ h
    show Leaves _ s (proveAvailability c msg s)
    unfold proveAvailability
    iterate 9 refine .bind fun _ => ?_
    split
    · iterate 3 refine .bind fun _ => ?_
      exact .of_eq rfl
    · exact .of_eq rfl
  | claimSubsidy msg =>
    refine hleaves ?_ h
    show Leaves _ s (claimSubsidy c msg s)
    unfold claimSubsidy
    iterate 7 refine .bind fun _ => ?_
    exact .of_eq rfl
  | rewardTraining msg =>
    refine hleaves ?_ h
    show Leaves _ s (rewardTraining msg s)
    unfold rewardTraining
    iterate 4 refine .bind fun _ => ?_
    exact .of_eq rfl
  | slashMiner msg =>
    refine hleaves ?_ h
    show Leaves _ s (slashMiner msg s)
    unfold slashMiner
    iterate 3 refine .bind fun _ => ?_
    exact .of_eq rfl
  | reportDivergence msg =>
    refine hleaves ?_ h
    show Leaves _ s (reportDivergence msg s)
    unfold reportDivergence
    iterate 5 refine .bind fun _ => ?_
    exact .of_eq rfl
  | verifySemantic msg =>
    refine hleaves ?_ h
    show Leaves _ s (verifySemantic msg s)
    unfold verifySemantic
    iterate 7 refine .bind fun _ => ?_
    exact .of_eq rfl
  | finalizeJob msg =>
    refine hleaves ?_ h
    show Leaves _ s (finalizeJob msg s)
    unfold finalizeJob
    iterate 7 refine .bind fun _ => ?_
    exact .of_eq rfl
  | payout msg =>
    refine hleaves ?_ h
    show Leaves _ s (payout c msg s)
    unfold payout
    iterate 12 refine .bind fun _ => ?_
    exact .of_eq rfl
  | settlePay msg =>
    refine hleaves ?_ h
    show Leaves _ s (settlePay c msg s)
    unfold settlePay
    iterate 10 refine .bind fun _ => ?_
    split
    · exact .error
    · iterate 2 refine .bind fun _ => ?_
      exact .of_eq rfl
  | deposit amt =>
    refine hleaves ?_ h
    show Leaves _ s (deposit c amt s)
    unfold deposit
    refine .bind fun _ => ?_
    exact .of_eq rfl

theorem anchorRedoCommittee_bench (hj : WfJobId j) (s : State) (k m d : Str) :
    (anchorRedoCommittee c s k m d).bench j = s.bench j := by
  unfold anchorRedoCommittee
  split
  · exact bench_of_get (Store.get_set_ne (hj.ne_redoAnchorKey k)) (Store.get_set_ne (hj.ne_redoAnchorKey k))
  · rfl

theorem openDispute_bench (hj : WfJobId j) (d : Str) (job : Job) (s : State) :
    (openDispute c d job s).bench j = s.bench j := by
  unfold openDispute
  simp only
  generalize hbump : (if (s.setJob (disputedJob c s.params d job)).juries.auditSelected.has job.jobId then
    s.setJob (disputedJob c s.params d job) else setJuries (bumpAuditsOpened (s.setJob (disputedJob c s.params d job)))
      (s.setJob (disputedJob c s.params d job))) = s₁
  have hs₁ : s₁.bench j = s.bench j := by
    rw [← hbump]
    split <;> exact bench_of_get rfl rfl
  have hhuman : (setJuries
      { s₁.juries with auditCommittee := s₁.juries.auditCommittee.set (humanDisputeKey job.jobId) d } s₁).bench j =
      s₁.bench j :=
    bench_of_get (Store.get_set_ne (hj.ne_humanDisputeKey _)) rfl
  have hredo := anchorRedoCommittee_bench (c := c) hj (setJuries
      { s₁.juries with auditCommittee := s₁.juries.auditCommittee.set (humanDisputeKey job.jobId) d } s₁)
    job.jobId job.minerId d
  split
  · exact (bench_of_juries rfl).trans (hredo.trans (hhuman.trans hs₁))
  · exact hredo.trans (hhuman.trans hs₁)

theorem disputeVerdict_bench (hj : WfJobId j) {msg : MsgDisputeVerdict} (h : disputeVerdict c msg s = .ok s') :
    s'.bench j = s.bench j := by
  obtain ⟨job, f, -, -, -, -, -, rfl⟩ := disputeVerdict_spec h
  exact openDispute_bench hj msg.creator job (s.setFunds f)

theorem resolveDispute_benched (hj : WfJobId j) {msg : MsgResolveDispute} (h : resolveDispute c msg s = .ok s') :
    Benched j s s' := by
  simp only [resolveDispute, bind_ok, ensure_ok, require_ok, pure_ok] at h
  obtain ⟨-, -, -, -, job, -, -, -, -, -, acc, -, rfl⟩ := h
  exact closeInstance_benched hj (jobIsResolved_closed _ _) _ s

theorem adjudicateDispute_benched (hj : WfJobId j) {msg : MsgAdjudicateDispute}
    (h : adjudicateDispute c msg s = .ok s') : Benched j s s' := by
  simp only [adjudicateDispute, bind_ok, ensure_ok, require_ok, pure_ok] at h
  obtain ⟨-, -, job, -, -, -, -, -, a, -, cheated, -, acc, -, rfl⟩ := h
  exact closeInstance_benched hj (jobIsResolved_closed _ _) _ s

/-- A message leaves the jury of a job, or ends its instance. -/
theorem message_benched {a : Action} (hj : WfJobId j) (h : Step s (c, a) s') (ha : a ≠ .endBlock) : Benched j s s' := by
  by_cases hb : a.Bystander
  · exact .inl (bench_of_juries (step_juries h hb))
  · cases a with
    | disputeVerdict msg => exact .inl (disputeVerdict_bench hj h)
    | resolveDispute msg => exact resolveDispute_benched hj h
    | adjudicateDispute msg => exact adjudicateDispute_benched hj h
    | endBlock => exact absurd rfl ha
    | _ => exact absurd trivial hb

end Messages

/-! ## Deadlines -/

section Deadlines

variable [Chain] {c : Ctx} {s s' : State} {j : Str}

/-- A settlement is undone: the job of it is resolved. -/
theorem unwindStrandedRetention_benched (hj : WfJobId j) (p : Params) (k : Str) (s : State) :
    Benched j s (unwindStrandedRetention c p k s).2 := by
  unfold unwindStrandedRetention
  split
  · exact .refl j s
  · next job hjob =>
    by_cases hk : j = k
    · subst hk
      have hid : job.jobId = j := by
        unfold strandedRetention at hjob
        split at hjob
        · cases hjob
        · split at hjob
          · split at hjob
            · cases hjob
            · exact Table.key_of_get? hjob
          · cases hjob
      have hid₁ : (refundDisputeBond c job (refundAndReverse c p job s.funds)).1.jobId = j :=
        (refundDisputeBond_extends rfl).jobId.trans hid
      have hrecord : ∀ (k : Job) (s : State), k.jobId = j → (s.setJob k).job j = some k := by
        rintro k s rfl
        exact State.job_setJob_self s k
      exact .inr ⟨clearAuditCommittee_bench_self hj _, _, hrecord
        { (refundDisputeBond c job (refundAndReverse c p job s.funds)).1 with
          state := (refundDisputeBond c job (refundAndReverse c p job s.funds)).1.state ++ [.resolved, .unwound] }
        _ hid₁, jobIsResolved_closed _ _⟩
    · exact .inl (clearAuditCommittee_bench hj hk _)

theorem deferResolution_benched (hj : WfJobId j) (p : Params) (k : Str) (b : Bool) (s : State) :
    Benched j s (deferResolution c p k b s) := by
  have hun := unwindStrandedRetention_benched (c := c) hj p k s
  unfold deferResolution
  split
  · next h =>
    rw [h] at hun
    exact hun
  · next h =>
    rw [h] at hun
    split
    · exact hun
    · exact hun

theorem refundDisputeBond_resolved {job : Job} {f : Funds} (h : jobIsResolved job.state = true) :
    jobIsResolved (refundDisputeBond c job f).1.state = true :=
  (refundDisputeBond_extends rfl).isResolved h

theorem resolveDisputedAudit_benched (hj : WfJobId j) (p : Params) (k : Str) (b : Bool) (s : State) :
    Benched j s (resolveDisputedAudit c p k b s) := by
  unfold resolveDisputedAudit
  split
  · exact .refl j s
  · split
    · exact .refl j s
    · split
      · simp only
        split
        · exact closeInstance_benched hj (jobIsResolved_closed _ _) _ s
        · split
          · exact closeInstance_benched hj (jobIsResolved_closed _ _) _ s
          · unfold resolveByVerdicts
            simp only
            split
            · exact closeInstance_benched hj (refundDisputeBond_resolved (jobIsResolved_closed _ _)) _ s
            · split
              · exact closeInstance_benched hj (jobIsResolved_closed _ _) _ s
              · exact deferResolution_benched hj p _ b s
      · exact closeInstance_benched hj (refundDisputeBond_resolved (jobIsResolved_closed _ _)) _ s

theorem runAuditResolveTimeout_benched (hj : WfJobId j) (hw : s.Wf) : Benched j s (runAuditResolveTimeout c s) := by
  refine (benched_foldl _ hj (fun s key hw => ?_) hw).2
  have h := resolveDisputedAudit_prog (c := c) (E := fun _ => True) trivial hw hw.checked.slashLeak (ofLex key).2 true
  exact ⟨h.trans (.of_queues trivial h.wf rfl rfl), resolveDisputedAudit_benched hj s.params (ofLex key).2 true s⟩

theorem runAppealResolveTimeout_benched (hj : WfJobId j) (hw : s.Wf) : Benched j s (runAppealResolveTimeout c s) := by
  refine (benched_foldl _ hj (fun s key hw => ?_) hw).2
  have h := resolveDisputedAudit_prog (c := c) (E := fun _ => True) trivial hw hw.checked.slashLeak (ofLex key).2 false
  exact ⟨h.trans (.of_queues trivial h.wf rfl rfl), resolveDisputedAudit_benched hj s.params (ofLex key).2 false s⟩

end Deadlines

/-! ## The lottery -/

section Lottery

variable [Chain] {c : Ctx} {s s' : State} {j : Str}

theorem unwindStrandedRetention_jury (hj : WfJobId j) {k : Str} (hk : j ≠ k) (p : Params) (s : State) :
    (unwindStrandedRetention c p k s).2.bench j = s.bench j := by
  unfold unwindStrandedRetention
  split
  · rfl
  · exact clearAuditCommittee_bench hj hk _

theorem unwindStrandedRetention_queues (p : Params) (k : Str) (s : State) :
    (unwindStrandedRetention c p k s).2.queues = s.queues := by
  unfold unwindStrandedRetention
  split <;> rfl

/-- An entry that is put off leaves the juries, or its job is unwound. -/
theorem deferAudit_benched (hj : WfJobId j) (s : State) (key : QueueKey) : Benched j s (deferAudit c s key) := by
  have hun := unwindStrandedRetention_benched (c := c) hj s.params (ofLex key).2 s
  unfold deferAudit
  simp only
  split
  · split
    · next h =>
      rw [h] at hun
      exact hun
    · next h =>
      rw [h] at hun
      exact hun
  · exact .refl j s

theorem deferAudit_bench (hj : WfJobId j) {key : QueueKey} (hk : j ≠ (ofLex key).2) (s : State) :
    (deferAudit c s key).bench j = s.bench j := by
  have hun := unwindStrandedRetention_jury (c := c) hj hk s.params s
  unfold deferAudit
  simp only
  split
  · split
    · next h =>
      rw [h] at hun
      exact hun
    · next h =>
      rw [h] at hun
      exact hun
  · rfl

omit [Chain] in
theorem foldl_unanchored {γ : Type} {g : State → γ → State} (l : List γ)
    (hg : ∀ s b, s.juries.auditCommittee.get j = none → (g s b).juries.auditCommittee.get j = none) {s : State}
    (hn : s.juries.auditCommittee.get j = none) : (l.foldl g s).juries.auditCommittee.get j = none := by
  induction l generalizing s with
  | nil => exact hn
  | cons b l ih => exact ih (hg s b hn)

theorem deferAuditForSmallJury_eq (key : QueueKey) (s : State) : (deferAuditForSmallJury c key s).juries =
    (unwindStrandedRetention c s.params (ofLex key).2 s).2.juries := by
  unfold deferAuditForSmallJury
  split
  · next h => rw [h]; rfl
  · next h => rw [h]; rfl

theorem openAudit_bench {job : Job} (hk : j ≠ job.jobId) (members : List Str) (s : State) :
    (openAudit c job members s).bench j = s.bench j := by
  unfold openAudit
  simp only
  split <;> exact bench_of_get (Store.get_set_ne hk) (Store.get_set_ne hk)

theorem openAudit_pendingAudit (job : Job) (members : List Str) (s : State) :
    (openAudit c job members s).queues.pendingAudit = s.queues.pendingAudit := by
  obtain ⟨js, qs, heq, -, -, hqa, -⟩ := openAudit_eq c s job members
  rw [heq]
  exact hqa

/-- What an entry of the lottery comes to: it is dropped, or put off for want of a jury, or its job gets one. -/
inductive Drawn (c : Ctx) (key : QueueKey) (s : State) : State → Prop
  | dropped {s' : State} (hb : s'.juries = s.juries) (hq : s'.queues.pendingAudit = s.queues.pendingAudit.remove key) :
    Drawn c key s s'
  | deferred {s₁ : State} (hb : ∀ j, s₁.bench j = s.bench j) (hq : s₁.queues = s.queues) :
    Drawn c key s (deferAuditForSmallJury c key s₁)
  | opened {s₁ : State} {job : Job} {members : List Str} (hid : job.jobId = (ofLex key).2)
    (hb : ∀ j, s₁.bench j = s.bench j) (hq : s₁.queues = s.queues) :
    Drawn c key s (removePendingAudit key (openAudit c job members s₁))

theorem auditOne_drawn {seed : Str} {key : QueueKey} (h : auditOne c seed s key = .ok s') : Drawn c key s s' := by
  unfold auditOne at h
  simp only at h
  split at h
  · cases h
    exact .dropped rfl rfl
  · next job hjob =>
    split at h
    · cases h
      exact .dropped rfl rfl
    · split at h
      · unfold selectAudit at h
        simp only at h
        generalize hbump : (if s.juries.auditSelected.has job.jobId = false ∧
          jobIsDisputed job.state = false then setJuries (bumpAuditsOpened s) s else s) = s₁ at h
        have hs₁ : (∀ j, s₁.bench j = s.bench j) ∧ s₁.queues = s.queues := by
          rw [← hbump]
          split
          · exact ⟨fun _ => bench_of_get rfl rfl, rfl⟩
          · exact ⟨fun _ => rfl, rfl⟩
        split at h
        · cases h
        · split at h
          · cases h
            exact .deferred (fun j => (bench_of_get rfl rfl).trans (hs₁.1 j)) hs₁.2
          · cases h
            exact .opened (Table.key_of_get? hjob) hs₁.1 hs₁.2
      · cases h
        exact .dropped rfl rfl

/-- An entry of the lottery leaves the juries of other jobs; that of its own job is left too, or the job is unwound, or
it is anchored and the entry is gone. -/
theorem auditOne_jury (hj : WfJobId j) {seed : Str} {key : QueueKey} (h : auditOne c seed s key = .ok s') :
    s'.bench j = s.bench j ∨ j = (ofLex key).2 ∧
      (s'.juries.auditCommittee.get j = none ∨ s'.queues.pendingAudit = s.queues.pendingAudit.remove key) := by
  cases auditOne_drawn h with
  | dropped hb hq => exact .inl (bench_of_juries hb)
  | @deferred s₁ hb hq =>
    have hdefer := deferAuditForSmallJury_eq (c := c) key s₁
    rcases unwindStrandedRetention_benched (c := c) hj s₁.params (ofLex key).2 s₁ with hun | ⟨hun, -⟩
    · exact .inl ((bench_of_juries hdefer).trans (hun.trans (hb j)))
    · by_cases hk : j = (ofLex key).2
      · refine .inr ⟨hk, .inl (Eq.trans ?_ (congrArg Prod.fst hun))⟩
        exact congrArg (fun u : Juries => u.auditCommittee.get j) hdefer
      · exact .inl ((bench_of_juries hdefer).trans ((unwindStrandedRetention_jury hj hk _ _).trans (hb j)))
  | @opened s₁ job members hid hb hq =>
    by_cases hk : j = job.jobId
    · refine .inr ⟨hk.trans hid, .inr (congrArg (KeySet.remove key) ?_)⟩
      rw [openAudit_pendingAudit, hq]
    · exact .inl ((openAudit_bench hk _ s₁).trans (hb j))

/-- The heights at which the lottery has an entry of a job. -/
def State.entries (s : State) (j : Str) : Set Int := s.queues.pendingAudit.heights j

omit [Chain] in
theorem entries_of_queues (h : s'.queues = s.queues) : s'.entries j = s.entries j := by
  rw [State.entries, State.entries, h]

theorem deferAuditForSmallJury_entries {key : QueueKey} (hk : j ≠ (ofLex key).2) (s : State) :
    (deferAuditForSmallJury c key s).entries j = s.entries j := by
  have hun := entries_of_queues (j := j) (unwindStrandedRetention_queues (c := c) s.params (ofLex key).2 s)
  unfold deferAuditForSmallJury
  split
  · next h =>
    rw [h] at hun
    exact (Queue.heights_remove_ne hk).trans hun
  · next h =>
    rw [h] at hun
    exact (Queue.heights_remove_ne hk).trans ((Queue.heights_insert_ne hk).trans hun)

/-- An entry of the lottery leaves the entries of another job. -/
theorem auditOne_entries {seed : Str} {key : QueueKey} (hk : j ≠ (ofLex key).2)
    (h : auditOne c seed s key = .ok s') : s'.entries j = s.entries j := by
  cases auditOne_drawn h with
  | dropped hb hq =>
    rw [State.entries, hq]
    exact Queue.heights_remove_ne hk
  | @deferred s₁ hb hq => exact (deferAuditForSmallJury_entries hk s₁).trans (entries_of_queues hq)
  | @opened s₁ job members hid hb hq =>
    refine (Queue.heights_remove_ne hk).trans ?_
    rw [openAudit_pendingAudit, hq]
    rfl

/-- The lottery puts every due entry off, or runs them one by one. -/
theorem runOptimisticAudit_cases {seed : Str} (h : runOptimisticAudit c seed s = .ok s') :
    s' = s ∨ s' = (s.queues.pendingAudit.due c.h auditMaxPerBlock).foldl (deferAudit c) s ∨
      (s.queues.pendingAudit.due c.h auditMaxPerBlock).foldlM (auditOne c seed) s = .ok s' := by
  unfold runOptimisticAudit at h
  split at h
  · cases h
    exact .inl rfl
  · simp only at h
    split at h
    · cases h
      exact .inl rfl
    · split at h
      · cases h
        exact .inr (.inl rfl)
      · exact .inr (.inr h)

/-- Entries of other jobs anchor no jury of a job, and leave its entries. -/
theorem auditOthers {seed : Str} {l : List QueueKey} (hj : WfJobId j) (hl : ∀ key ∈ l, j ≠ (ofLex key).2)
    (h : l.foldlM (auditOne c seed) s = .ok s') : s'.bench j = s.bench j ∧ s'.entries j = s.entries j :=
  foldlM_related (R := fun s s' => s'.bench j = s.bench j ∧ s'.entries j = s.entries j) (fun _ => ⟨rfl, rfl⟩)
    (fun h h' => ⟨h'.1.trans h.1, h'.2.trans h.2⟩) l (fun _ key hk _ h =>
      ⟨(auditOne_jury hj h).resolve_right fun e => hl key hk e.1, auditOne_entries (hl key hk) h⟩) h

omit [Chain] in
theorem mem_entries_of_due {key : QueueKey} (hk : key ∈ s.queues.pendingAudit.due c.h auditMaxPerBlock)
    (hid : j = (ofLex key).2) : (ofLex key).1 ∈ s.entries j := by
  show qkey (ofLex key).1 j ∈ s.queues.pendingAudit.entries
  rw [hid]
  exact (Queue.mem_due hk).1

omit [Chain] in
/-- Of a job with one entry, what is due before and after that entry is about other jobs. -/
theorem due_split {key : QueueKey} (hs : (s.entries j).Subsingleton)
    (hk : key ∈ s.queues.pendingAudit.due c.h auditMaxPerBlock) (hid : j = (ofLex key).2) :
    ∃ l₁ l₂, s.queues.pendingAudit.due c.h auditMaxPerBlock = l₁ ++ key :: l₂ ∧ (∀ k ∈ l₁, j ≠ (ofLex k).2) ∧
      ∀ k ∈ l₂, j ≠ (ofLex k).2 := by
  have hone : ∀ k ∈ s.queues.pendingAudit.due c.h auditMaxPerBlock, j = (ofLex k).2 → k = key := fun k hk' e =>
    congrArg toLex (Prod.ext (hs (mem_entries_of_due hk' e) (mem_entries_of_due hk hid)) (e.symm.trans hid))
  have hnodup := Queue.nodup_due s.queues.pendingAudit c.h auditMaxPerBlock
  obtain ⟨l₁, l₂, hl⟩ := List.append_of_mem hk
  rw [hl] at hone hnodup
  obtain ⟨-, hnodup₂, hdisj⟩ := List.nodup_append.1 hnodup
  refine ⟨l₁, l₂, hl, fun k hk e => ?_, fun k hk e => ?_⟩
  · exact hdisj k hk key List.mem_cons_self (hone k (List.mem_append_left _ hk) e)
  · have hkey : k = key := hone k (List.mem_append_right _ (List.mem_cons_of_mem _ hk)) e
    exact (List.nodup_cons.1 hnodup₂).1 (hkey ▸ hk)

/-- The lottery moves no jury of a job that has no entry in its queue. -/
theorem runOptimisticAudit_bench (hj : WfJobId j) {seed : Str} (hq : s.entries j = ∅)
    (h : runOptimisticAudit c seed s = .ok s') : s'.bench j = s.bench j := by
  have hdue : ∀ key ∈ s.queues.pendingAudit.due c.h auditMaxPerBlock, j ≠ (ofLex key).2 := by
    intro key hk hid
    exact Set.eq_empty_iff_forall_notMem.1 hq _ (mem_entries_of_due hk hid)
  rcases runOptimisticAudit_cases h with rfl | rfl | h
  · rfl
  · exact bench_foldl _ (fun s key hk => deferAudit_bench hj (hdue key hk) s) _
  · exact (auditOthers hj hdue h).1

/-- A job that the lottery anchors a jury of has no entry left. -/
theorem runOptimisticAudit_seats (hj : WfJobId j) {seed : Str} (hs : (s.entries j).Subsingleton)
    (hn : s.juries.auditCommittee.get j = none) (h : runOptimisticAudit c seed s = .ok s') :
    s'.juries.auditCommittee.get j = none ∨ s'.entries j = ∅ := by
  rcases runOptimisticAudit_cases h with rfl | rfl | h
  · exact .inl hn
  · refine .inl (foldl_unanchored _ (fun s key => ?_) hn)
    exact (deferAudit_benched hj s key).unanchored
  · by_cases hkey : ∃ key ∈ s.queues.pendingAudit.due c.h auditMaxPerBlock, j = (ofLex key).2
    · obtain ⟨key, hmem, hid⟩ := hkey
      obtain ⟨l₁, l₂, hl, hbefore, hafter⟩ := due_split hs hmem hid
      rw [hl, List.foldlM_append] at h
      obtain ⟨s₁, h₁, h⟩ := bind_ok.1 h
      rw [List.foldlM_cons] at h
      obtain ⟨s₂, h₂, h₃⟩ := bind_ok.1 h
      obtain ⟨hbench₁, hent₁⟩ := auditOthers hj hbefore h₁
      obtain ⟨hbench₃, hent₃⟩ := auditOthers hj hafter h₃
      have hn₁ : s₁.juries.auditCommittee.get j = none := (congrArg Prod.fst hbench₁).trans hn
      have hn₃ : s₂.juries.auditCommittee.get j = none → s'.juries.auditCommittee.get j = none :=
        (congrArg Prod.fst hbench₃).trans
      rcases auditOne_jury hj h₂ with hb | ⟨-, hb | hq⟩
      · exact .inl (hn₃ ((congrArg Prod.fst hb).trans hn₁))
      · exact .inl (hn₃ hb)
      · refine .inr (hent₃.trans ?_)
        have hgone : s₂.entries j = s₁.entries j \ {(ofLex key).1} := by
          rw [State.entries, hq, show key = qkey (ofLex key).1 j from congrArg toLex (Prod.ext rfl hid.symm),
            Queue.heights_remove_self]
          rfl
        rw [hgone, hent₁]
        exact Set.sdiff_eq_empty.2 fun x hx => Set.mem_singleton_iff.2 (hs hx (mem_entries_of_due hmem hid))
    · have hothers : ∀ key ∈ s.queues.pendingAudit.due c.h auditMaxPerBlock, j ≠ (ofLex key).2 :=
        fun key hk e => hkey ⟨key, hk, e⟩
      exact .inl ((congrArg Prod.fst (auditOthers hj hothers h).1).trans hn)

end Lottery

/-! ## The end of a block -/

section EndBlock

variable [Chain] {c : Ctx} {s s' : State} {j : Str}

/-- The juries and the queue that they are drawn from. -/
def State.benches (s : State) : Juries × Queue := (s.juries, s.queues.pendingAudit)

theorem expireOne_benches (s : State) (key : QueueKey) : (expireOne c s key).benches = s.benches := by
  unfold expireOne expireUnservedJob
  split
  · rfl
  · split
    · rfl
    · split
      · rfl
      · split
        · rfl
        · split
          · rfl
          · unfold refundEscrow
            simp only
            split <;> rfl

theorem runPeriodic_juries (s : State) : (runPeriodic c s).juries = s.juries := by
  have hprune : ∀ (s : State) m, (pruneOne c s m).juries = s.juries := by
    intro s m
    unfold pruneOne
    split
    · rfl
    · split
      · split
        · rfl
        · split <;> rfl
      · rfl
  have hretry : ∀ s : State, (retryHeldReleases c s).juries = s.juries := by
    intro s
    refine leaves_foldl (fun s j => ?_) _ s
    split <;> rfl
  unfold runPeriodic
  split
  · refine (hretry _).trans ?_
    unfold pruneInactiveMiners
    split
    · rfl
    · exact leaves_foldl hprune _ s
  · rfl

theorem runAvailabilityEpoch_juries : Leaves State.juries s (runAvailabilityEpoch c s) := by
  have hslash : ∀ e, (runAvailabilitySlash c e s).juries = s.juries := by
    intro e
    unfold runAvailabilitySlash
    simp only
    split
    · rfl
    · split <;> rfl
  intro s' h
  unfold runAvailabilityEpoch at h
  simp only at h
  split at h
  · cases h
    rfl
  · split at h
    · obtain ⟨s₁, h₁, h⟩ := bind_ok.1 h
      cases payAvailability_eq c _ h₁
      cases h
      exact hslash _
    · cases h
      rfl

/-- What a block does before the lottery leaves the juries and their queue, and what it does after it makes progress. -/
theorem endBlock_lottery (hw : s.Wf) (h : endBlock c s = .ok s') : ∃ s₁ s₂ seed,
    s₁.juries = s.juries ∧ s₁.queues.pendingAudit = s.queues.pendingAudit ∧ runOptimisticAudit c seed s₁ = .ok s₂ ∧
      Prog (fun _ => True) s s₂ ∧ Prog (fun _ => True) s₂ s' ∧ (WfJobId j → Benched j s₂ s') := by
  simp only [endBlock, bind_ok] at h
  obtain ⟨s₂, h₂, h⟩ := h
  have hreveal := runReveal_aside (c := c) (s := runExpiry c s) (blockSeed c s.params)
  have hexpiry : (runExpiry c s).benches = s.benches := leaves_foldl expireOne_benches _ s
  have h1 : Prog (fun _ => True) s (runExpiry c s) := runExpiry_prog trivial hw fun _ _ _ _ => trivial
  have h2 : Prog (fun _ => True) _ _ := .of_aside trivial h1.wf hreveal
  have h3 := runOptimisticAudit_prog (E := fun _ => True) trivial trivial h2.wf h₂
  have h4 := runAuditResolveTimeout_prog (c := c) (E := fun _ => True) trivial h3.wf
  have h5 := runAppealResolveTimeout_prog (c := c) (E := fun _ => True) trivial h4.wf
  have h6 := runPeriodic_prog (c := c) (E := fun _ => True) trivial h5.wf
  have h7 := runAvailabilityEpoch_prog (E := fun _ => True) trivial h6.wf h
  refine ⟨_, s₂, _, hreveal.juries.trans (congrArg Prod.fst hexpiry), hreveal.audits.trans (congrArg Prod.snd hexpiry),
    h₂, (h1.trans h2).trans h3, ((h4.trans h5).trans h6).trans h7, fun hj => ?_⟩
  have haudit := runAuditResolveTimeout_benched (c := c) hj h3.wf
  have happeal := runAppealResolveTimeout_benched (c := c) hj h4.wf
  refine (haudit.trans (h5.resolved hj) happeal).then_bench ?_ ((h6.trans h7).resolved hj)
  exact bench_of_juries ((runAvailabilityEpoch_juries _ h).trans (runPeriodic_juries _))

theorem endBlock_benched (hw : s.Wf) (hj : WfJobId j) (hq : s.entries j = ∅) (h : endBlock c s = .ok s') :
    Benched j s s' := by
  obtain ⟨s₁, s₂, seed, hjuries, haudits, h₂, -, -, hrest⟩ := endBlock_lottery (j := j) hw h
  have hq₁ : s₁.entries j = ∅ := by
    rw [State.entries, haudits]
    exact hq
  exact (hrest hj).of_bench ((runOptimisticAudit_bench hj hq₁ h₂).trans (bench_of_juries hjuries))

/-- A step leaves the jury of a job, or ends its instance, unless the lottery has an entry of the job. -/
theorem step_benched {a : Action} (hw : s.Wf) (hj : WfJobId j) (hq : s.entries j = ∅) (h : Step s (c, a) s') :
    Benched j s s' := by
  by_cases ha : a = .endBlock
  · subst ha
    exact endBlock_benched hw hj hq h
  · exact message_benched hj h ha

end EndBlock

end Dendra.Jobs
