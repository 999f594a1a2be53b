import Dendra.Jobs.Progress.Run
import Dendra.Jobs.Application

/-!
# The exit of a primary

A miner may leave the registry, with its bond, when nothing is open that holds it. The guard of both
exits looks at the retained fee and at the dispute of a job, while it is the lottery that decides
whether the job is audited. A job that retains no fee therefore lets its primary go while its lottery
is pending.

* `exit_guard`: the primary of a slashable job is registered, when every settlement retains a fee.
* `exit_unguarded`: a run in which the primary leaves.
-/

namespace Dendra.Jobs

open Word

/-! ## What can still be slashed -/

/-- The job can still lead to a slash of its primary: its lottery is pending, it is picked for an
audit, or it is disputed. -/
def View.Slashable (v : View) (job : Job) : Prop :=
  v.job = some job ∧ jobIsOptimistic job.state = true ∧ jobIsResolved job.state = false ∧
    (v.audits.Nonempty ∨ v.selected = true ∨ jobIsDisputed job.state = true)

/-- The lottery has one entry of a job at most; until it draws, the fee is retained and no release is
queued; and the primary of a slashable job is registered. -/
structure View.Guarded (v : View) : Prop where
  once : v.audits.Subsingleton
  retained : ∀ job, v.Slashable job → jobIsDisputed job.state = false →
    v.purse.held .fee ≠ none ∧ v.purse.queued = false
  registered : ∀ job, v.Slashable job → job.minerId ∈ v.miners

section Steps

variable {e : Label} {v v' : View}

/-- Whoever a slashable job needs does not leave. -/
theorem View.Guarded.not_free (hg : v.Guarded) {job : Job} (hs : v.Slashable job) :
    ¬ v.Free job.minerId := by
  intro hf
  obtain ⟨hheld, hdis⟩ := hf job hs.1 rfl
  cases hd : jobIsDisputed job.state with
  | true =>
    have := hdis hd
    rw [hs.2.2.1] at this
    cases this
  | false => exact (hg.retained job hs hd).1 hheld

/-- Nothing guards a job that is not under optimistic settlement, or is resolved. -/
theorem View.Guarded.vacuous (ho : v.audits.Subsingleton) {k : Job} (hk : v.job = some k)
    (hn : jobIsOptimistic k.state = false ∨ jobIsResolved k.state = true) : v.Guarded := by
  have hno : ∀ job, ¬ v.Slashable job := by
    rintro job ⟨hj, hopt, hr, -⟩
    rw [hk, Option.some.injEq] at hj
    rw [← hj] at hopt hr
    rcases hn with hn | hn
    · rw [hn] at hopt
      cases hopt
    · rw [hn] at hr
      cases hr
  exact ⟨ho, fun job hs => absurd hs (hno job), fun job hs => absurd hs (hno job)⟩

/-- A record that takes marks is as slashable as it was, unless it is disputed by them. -/
theorem View.Slashable.of_extends {job job' k : Job} {l : List Mark}
    (hx : job.Extends l job') (hm : ∀ m ∈ l, m ≠ .optimistic ∧ m ≠ .resolved)
    (hj' : v'.job = some job') (hs : v'.Slashable k) :
    jobIsOptimistic job.state = true ∧ jobIsResolved job.state = false ∧
      k.minerId = job.minerId := by
  obtain ⟨hk, ho, hr, -⟩ := hs
  rw [hj', Option.some.injEq] at hk
  subst hk
  rw [hx.optimistic_eq fun m hmm => (hm m hmm).1] at ho
  rw [hx.resolved_eq fun m hmm => (hm m hmm).2] at hr
  exact ⟨ho, hr, hx.minerId⟩

/-- A change of a life keeps the guard, when a settlement retains a fee, and a dispute finds its
primary registered. -/
theorem View.Guarded.step (hv : v.Sound) (hg : v.Guarded) (hl : Life e v v')
    (hset : ∀ p fee payable, e = .settle p fee payable → (splitFee p fee).held ≠ 0)
    (hdis : ∀ b, e = .dispute b → b = true) : v'.Guarded := by
  cases hl with
  | quiet hA hM =>
    refine ⟨hg.once, hg.retained, fun job hs => ?_⟩
    exact (hM _ (hg.registered job hs)).resolve_right (hg.not_free hs)
  | opened hn hst =>
    refine .vacuous hg.once rfl (.inl ?_)
    rw [hst]
    rfl
  | @marked _ job job' marks l hj hp hx hm =>
    refine .vacuous hg.once rfl (.inl ?_)
    rw [hx.optimistic_eq fun m hmm => (hm m hmm).ne.1, Bool.eq_false_iff]
    intro ho
    rw [(hv.optimistic job hj ho).1] at hp
    cases hp
  | settled hj hp hst hfee hb hne ha hr hq hw hlk hheld =>
    have hns : ¬ v.Settled := by
      rintro ⟨k, hk, hpk⟩
      rw [hj, Option.some.injEq] at hk
      rw [← hk, hp] at hpk
      cases hpk
    obtain ⟨hempty, hno, -⟩ := hv.unsettled hns
    refine ⟨?_, fun k _ _ => ⟨hheld (hset _ _ _ rfl), hq.trans hempty.queued⟩, fun k hs => ?_⟩
    · rw [hno]
      simp
    · obtain ⟨hk, -⟩ := hs
      cases hk
      exact hr
  | dropped => exact ⟨hg.once, hg.retained, hg.registered⟩
  | retried => exact ⟨hg.once, hg.retained, hg.registered⟩
  | expired hj hst hx =>
    refine .vacuous hg.once rfl (.inl ?_)
    rw [hx.optimistic_eq (by decide), hst]
    rfl
  | @disputed _ job job' b hj hp hx hb =>
    refine ⟨hg.once, fun k hs hd => ?_, fun k hs => ?_⟩
    · obtain ⟨hk, -⟩ := hs
      cases hk
      rw [hx.state, jobIsDisputed_append, Bool.or_eq_false_iff] at hd
      cases hd.2
    · obtain ⟨ho, -, hid⟩ := hs.of_extends hx (by decide) rfl
      rw [hid]
      exact hb (hdis b rfl) ho
  | @undrawn _ h hd =>
    have hold : ∀ k, View.Slashable { v with audits := v.audits \ {h} } k → v.Slashable k :=
      fun k ⟨hk, ho, hr, hs⟩ => ⟨hk, ho, hr, hs.imp_left fun hne => hne.mono Set.sdiff_subset⟩
    exact ⟨hg.once.anti Set.sdiff_subset, fun k hs => hg.retained k (hold k hs),
      fun k hs => hg.registered k (hold k hs)⟩
  | @deferred _ h k b hh hsel =>
    have hold : ∀ job, View.Slashable { v with
        audits := insert k (v.audits \ {h}), selected := b } job → v.Slashable job :=
      fun job ⟨hj, ho, hr, _⟩ => ⟨hj, ho, hr, .inl ⟨h, hh⟩⟩
    refine ⟨?_, fun job hs => hg.retained job (hold job hs),
      fun job hs => hg.registered job (hold job hs)⟩
    have hempty : v.audits \ {h} = ∅ := by
      rw [Set.sdiff_eq_empty]
      exact fun x hx => hg.once hx hh
    rw [hempty]
    simp
  | @passed _ job h q w hh hj hp hsel hw heff =>
    have hempty : v.audits \ {h} = ∅ := by
      rw [Set.sdiff_eq_empty]
      exact fun x hx => hg.once hx hh
    -- only a dispute can still lead to a slash
    have hold : ∀ k, View.Slashable { v with audits := v.audits \ {h}, purse := q } k →
        v.Slashable k ∧ jobIsDisputed k.state = true := by
      rintro k ⟨hk, ho, hr, hs⟩
      have hd : jobIsDisputed k.state = true := by
        rcases hs with hs | hs | hs
        · change (v.audits \ {h}).Nonempty at hs
          rw [hempty] at hs
          exact absurd hs Set.not_nonempty_empty
        · change v.selected = true at hs
          rw [hsel] at hs
          cases hs
        · exact hs
      exact ⟨⟨hk, ho, hr, .inr (.inr hd)⟩, hd⟩
    refine ⟨hg.once.anti Set.sdiff_subset, fun k hs hd => ?_,
      fun k hs => hg.registered k (hold k hs).1⟩
    rw [(hold k hs).2] at hd
    cases hd
  | @summoned _ job job' h marks p seats hh hj hp hx hm hd =>
    refine ⟨hg.once.anti Set.sdiff_subset, fun k hs hnd => ?_, fun k hs => ?_⟩
    · obtain ⟨hk, -⟩ := hs
      cases hk
      rw [hd] at hnd
      cases hnd
    · obtain ⟨ho, hr, hid⟩ := hs.of_extends hx (fun m hmm => by rw [hm m hmm]; decide) rfl
      rw [hid]
      exact hg.registered job ⟨hj, ho, hr, .inl ⟨h, hh⟩⟩
  | closed hj hnr hx hm hr => exact .vacuous hg.once rfl (.inr (hx.isResolved_of_mem hr))
  | rereleased hq heff =>
    refine ⟨hg.once, fun k hs hd => ?_, hg.registered⟩
    -- nothing is queued before the draw
    have := (hg.retained k hs hd).2
    rw [hq] at this
    cases this
  | unqueued hn =>
    refine ⟨hg.once, fun k hs => ?_, hg.registered⟩
    obtain ⟨hk, -⟩ := hs
    change v.job = some k at hk
    rw [hn] at hk
    cases hk

end Steps

/-! ## The guard -/

section Guard

variable [Chain]

/-- A settlement retains a fee, and a dispute of a job under optimistic settlement finds its primary
registered. -/
def retainsPrimary (s : State) (a : Ctx × Action) : Bool :=
  ((settlementOf s a.2).all fun e => decide ((splitFee s.params e.1.fee).held ≠ 0)) &&
    match a.2 with
    | .disputeVerdict msg => (s.job msg.jobId).all (primaryRegistered s)
    | _ => true

/-- In a run whose settlements retain a fee, and whose disputes find their primary registered, the
primary of a job that can still be slashed is registered, with its bond. -/
theorem exit_guard {s : State} (h : Reachable (fun s a => retainsPrimary s a = true) s) {j : Str}
    {job : Job} (hj : s.job j = some job) (ho : jobIsOptimistic job.state = true)
    (hr : jobIsResolved job.state = false)
    (hs : lotteryPending s j = true ∨ s.juries.auditSelected.has j = true ∨
      jobIsDisputed job.state = true) : ∃ miner, s.miner job.minerId = some miner := by
  have hwf : WfJobId j := (Reachable.wf h).jobs j (Table.has_of_get? hj)
  have hg : (view s j).Guarded := by
    refine Reachable.view h (P := View.Guarded)
      ⟨Set.subsingleton_empty, fun k hs => (by cases hs.1), fun k hs => (by cases hs.1)⟩
      (fun s c a e v v' _ hok hem hv hg hl => hg.step hv hl ?_ ?_) hwf
    · rintro p fee payable rfl
      obtain ⟨k, miner, hset, rfl, rfl, -⟩ := hem
      rw [retainsPrimary, hset, Option.all_some, Bool.and_eq_true] at hok
      exact of_decide_eq_true hok.1
    · rintro b rfl
      obtain ⟨msg, k, rfl, hk, rfl⟩ := hem
      rw [retainsPrimary, Bool.and_eq_true] at hok
      simpa only [hk, Option.all_some] using hok.2
  have hreg := hg.registered job ⟨hj, ho, hr, ?_⟩
  · exact Table.has_iff.1 hreg
  · refine hs.imp_left fun hp => ?_
    rw [lotteryPending, Queue.holds_iff] at hp
    exact hp

end Guard

/-! ## Runs -/

/-- Nothing is retained of a fee. -/
def unheldMode : Params := { auditMode with holdBps := 0 }

theorem validate_unheldMode [Chain] : unheldMode.validate = .ok () := by
  simp only [Params.validate, Params.validateMode, Params.validateMode1, Params.validateEpoch14,
    Params.validateEpoch15, bind_unit_ok, refuse_ok]
  simp [unheldMode, auditMode, Params.default, Params.effectiveAuditFloor]
  decide

/-- Half of the fee is retained, and the primary is registered. -/
theorem exit_guard_retained : ∃ (s : State) (job : Job), s.job ticket = some job ∧ job.minerId = idOf 2 ∧
    ∃ miner, s.miner job.minerId = some miner := by
  obtain ⟨s, hs, ht⟩ := exists_reachable (fun _ _ h => h)
    (reachable_village validate_auditMode (by decide) fun _ _ _ _ => rfl)
    (show endsIn retainsPrimary
      (fun s => decide ((∃ job ∈ s.job ticket, job.minerId = idOf 2 ∧
        jobIsOptimistic job.state = true ∧ jobIsResolved job.state = false) ∧
        lotteryPending s ticket = true))
      served (village auditMode) = true by rewrite [application_eq_tabled]; decide +kernel)
  obtain ⟨⟨job, hj, hid, ho, hr⟩, hp⟩ := of_decide_eq_true ht
  exact ⟨s, job, hj, hid, exit_guard hs hj ho hr (.inl hp)⟩

/-- Nothing is retained, and the primary leaves with its bond while the lottery of its job is
pending. -/
theorem exit_unguarded : ∃ s job, Reachable (fun _ _ => True) s ∧ s.job ticket = some job ∧
    jobIsOptimistic job.state = true ∧ jobIsResolved job.state = false ∧
    lotteryPending s ticket = true ∧ s.miner job.minerId = none := by
  obtain ⟨s, hs, ht⟩ := exists_reachable (fun _ _ _ => trivial)
    (reachable_village validate_unheldMode (by decide) fun _ _ _ _ => trivial)
    (show endsIn free
      (fun s => decide ((∃ job ∈ s.job ticket, jobIsOptimistic job.state = true ∧
        jobIsResolved job.state = false ∧ s.funds.miners.has job.minerId = false) ∧
        lotteryPending s ticket = true))
      (served ++ [(blockAt 5, .deleteMiner ⟨nameOf 2, idOf 2⟩)]) (village unheldMode) = true by
        rewrite [application_eq_tabled]
        decide +kernel)
  obtain ⟨⟨job, hj, ho, hr, hm⟩, hp⟩ := of_decide_eq_true ht
  refine ⟨s, job, hs, hj, ho, hr, hp, ?_⟩
  rw [Table.has_eq_isSome, Option.isSome_eq_false_iff, Option.isNone_iff_eq_none] at hm
  exact hm

end Dendra.Jobs
