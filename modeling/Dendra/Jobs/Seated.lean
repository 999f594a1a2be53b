import Dendra.Jobs.Anchor
import Dendra.Jobs.Bench

/-!
# The anchored jury

The audit of a job has one jury. It does not move until the job is resolved, whatever happens to the registry and to
the parameters, and after a restart from an export too; its height moves with the chain's.

* `Court`: what holds of the jury of a job: the lottery is done with a job that has an anchor.
* `Ages`: a run with restarts, and what becomes of a height.
* `jury_fixed`: until its job is resolved, a jury is what it was.
-/

namespace Dendra.Jobs

open Word Relation

/-! ## What a life keeps -/

/-- The lottery is done with the job. -/
def View.Played (v : View) : Prop := v.Settled ∧ v.audits = ∅

section Life

variable {e : Label} {v v' : View}

theorem View.Settled.paid (h : v.Settled) {job : Job} (hj : v.job = some job) : jobIsPaid job.state = true := by
  obtain ⟨k, hk, hp⟩ := h
  rw [hj] at hk
  cases hk
  exact hp

theorem View.Settled.unopened (h : v.Settled) (hv : v.job = none) : False := by
  obtain ⟨k, hk, -⟩ := h
  rw [hv] at hk
  cases hk

/-- A job has at most one entry in the lottery. -/
theorem Life.single (h : Life e v v') (hv : v.Sound) (hs : v.audits.Subsingleton) : v'.audits.Subsingleton := by
  cases h with
  | settled hj hp hst hfee hb hne ha hr hq hw hl hheld hacc hret hc =>
    have hns : ¬ v.Settled := fun h => by
      rw [h.paid hj] at hp
      cases hp
    show (insert _ v.audits).Subsingleton
    rw [(hv.unsettled hns).2.1, insert_empty_eq]
    exact Set.subsingleton_singleton
  | deferred hh hsel =>
    show (insert _ (v.audits \ {_})).Subsingleton
    rw [Set.sdiff_eq_empty.2 fun x hx => Set.mem_singleton_iff.2 (hs hx hh), insert_empty_eq]
    exact Set.subsingleton_singleton
  | undrawn hd => exact hs.anti Set.sdiff_subset
  | passed hh hj hp hsel hw he => exact hs.anti Set.sdiff_subset
  | summoned hh hj hp hx hm hd hseats => exact hs.anti Set.sdiff_subset
  | _ => exact hs

theorem Life.stays_settled (h : Life e v v') (hv : v.Settled) : v'.Settled := by
  cases h with
  | opened hn hs hb hE => exact (hv.unopened hn).elim
  | marked hj hp hx hm hl hs => exact ⟨_, rfl, hx.isPaid (hv.paid hj)⟩
  | settled hj hp hs hfee hb hne ha hr hq hw hl hheld hacc hret hc =>
    rw [hv.paid hj] at hp
    cases hp
  | expired hj hs hx hp => exact ⟨_, rfl, hx.isPaid (hv.paid hj)⟩
  | disputed hj hp hx hb => exact ⟨_, rfl, hx.isPaid (hv.paid hj)⟩
  | summoned hh hj hp hx hm hd hseats => exact ⟨_, rfl, hx.isPaid (hv.paid hj)⟩
  | closed hj hnr hx hm hr hopt he => exact ⟨_, rfl, hx.isPaid (hv.paid hj)⟩
  | _ => exact hv

/-- The lottery does not come back to a job that it is done with. -/
theorem Life.played (h : Life e v v') (hv : v.Played) : v'.Played := by
  refine ⟨h.stays_settled hv.1, ?_⟩
  have hempty := hv.2
  cases h with
  | settled hj hp hs hfee hb hne ha hr hq hw hl hheld hacc hret hc =>
    rw [hv.1.paid hj] at hp
    cases hp
  | deferred hh hsel =>
    rw [hempty] at hh
    exact hh.elim
  | undrawn hd => exact Set.subset_eq_empty Set.sdiff_subset hempty
  | passed hh hj hp hsel hw he => exact Set.subset_eq_empty Set.sdiff_subset hempty
  | summoned hh hj hp hx hm hd hseats => exact Set.subset_eq_empty Set.sdiff_subset hempty
  | _ => exact hempty

end Life

/-- The lottery has at most one entry of a job, and is done with a job that has an anchor. -/
structure Court (s : State) (j : Str) : Prop where
  single : (view s j).audits.Subsingleton
  seated : s.juries.auditCommittee.get j ≠ none → (view s j).Played

section Court

variable [Chain] {c : Ctx} {a : Action} {s s' : State} {j : Str}

theorem Prog.played {E : Label → Prop} (h : Prog E s s') (hj : WfJobId j) (hp : (view s j).Played) :
    (view s' j).Played :=
  Lives.invariant (P := View.Played) (fun _ _ _ _ hv hl => hl.played hv) (h.lives j hj) hp

/-- A jury that the end of a block anchors is one of a job that the lottery is done with. -/
theorem endBlock_seated (hw : s.Wf) (hj : WfJobId j) (hs : (view s j).audits.Subsingleton)
    (hn : s.juries.auditCommittee.get j = none) (h : endBlock c s = .ok s')
    (hseated : s'.juries.auditCommittee.get j ≠ none) : (view s' j).Played := by
  obtain ⟨s₁, s₂, seed, hjuries, haudits, hlottery, hbefore, hafter, hrest⟩ := endBlock_lottery (j := j) hw h
  have hn₁ : s₁.juries.auditCommittee.get j = none := by rwa [hjuries]
  have hentries : s₁.entries j = (view s j).audits := by
    rw [State.entries, haudits]
    rfl
  have hseated₂ : s₂.juries.auditCommittee.get j ≠ none := fun hn₂ => hseated ((hrest hj).unanchored hn₂)
  obtain ⟨x, hx⟩ : (view s j).audits.Nonempty := by
    refine Set.nonempty_iff_ne_empty.2 fun hempty => hseated₂ ?_
    exact (congrArg Prod.fst (runOptimisticAudit_bench hj (hentries.trans hempty) hlottery)).trans hn₁
  have hsettled : (view s₂ j).Settled :=
    Lives.invariant (P := View.Settled) (fun _ _ _ _ hv hl => hl.stays_settled hv) (hbefore.lives j hj)
      ((hw.sound j hj).settled_of_mem hx)
  refine hafter.played hj ⟨hsettled, ?_⟩
  exact (runOptimisticAudit_seats hj (hentries ▸ hs) hn₁ hlottery).resolve_left hseated₂

theorem Court.step (hc : Court s j) (hw : s.Wf) (hj : WfJobId j) (h : Step s (c, a) s') : Court s' j := by
  have hlives := (step_lives hw h).2 j hj
  refine ⟨?_, fun hseated => ?_⟩
  · refine (Lives.invariant (P := fun v => v.Sound ∧ v.audits.Subsingleton) (fun e v v' _ hv hl => ?_) hlives
      ⟨hw.sound j hj, hc.single⟩).2
    exact ⟨hl.sound hv.1, hl.single hv.1 hv.2⟩
  · by_cases hn : s.juries.auditCommittee.get j = none
    · by_cases ha : a = .endBlock
      · subst ha
        exact endBlock_seated hw hj hc.single hn h hseated
      · exact absurd ((message_benched hj h ha).unanchored hn) hseated
    · exact Lives.invariant (P := View.Played) (fun _ _ _ _ hv hl => hl.played hv) hlives (hc.seated hn)

end Court

/-! ## Restarts -/

section Restart

variable [Chain] {c c' : Ctx} {u : Option (List Str)} {p : Params} {balance outside : Nat} {s s' : State} {j : Str}

/-- A job is the exported one, but for the height of its dispute. -/
theorem restart_job (h : initGenesis c' u (exportGenesis c s) (genesis p balance outside) = .ok s') (j : Str) :
    s'.job j = (s.job j).map fun job => importedJob c' (exportJob c job) := by
  obtain ⟨r, d, z, rfl⟩ := initGenesis_spec h
  have hjobs : ((Table.empty : Table Job.jobId).putAll
      (((s.jobs.entries.map (exportJob c)).map (importedJob c')))).entries =
        s.jobs.entries.map fun job => importedJob c' (exportJob c job) := by
    rw [List.map_map]
    exact entries_putAll_map (t := s.jobs) fun job => importedJob_exportJob job |>.1
  show List.find? _ (((Table.empty : Table Job.jobId).putAll
      (((s.jobs.entries.map (exportJob c)).map (importedJob c')))).entries) = Option.map _ (List.find? _ s.jobs.entries)
  rw [hjobs, List.find?_map]
  refine congrArg (Option.map _) (congrArg (List.find? · s.jobs.entries) (funext fun job => ?_))
  exact decide_eq_decide.2 (by rw [(importedJob_exportJob job).1])

/-- What a restart does to what jobs are made of. -/
structure Restarted (c c' : Ctx) (s s' : State) : Prop where
  params : s'.params = s.params
  miners : s'.funds.miners = s.funds.miners
  held : s'.funds.held = s.funds.held
  queued : s'.funds.pendingHeldRelease = s.funds.pendingHeldRelease
  journal : s'.funds.journal = []
  commits : s'.commits = s.commits
  work : s'.workCommittee = s.workCommittee
  seats : s'.juries.auditCommittee = s.juries.auditCommittee
  since : ∀ j, s'.juries.committeeSince.get j =
    (s.juries.committeeSince.get j).map fun x => sinceElapsed c' (elapsedSince c x)
  selected : s'.juries.auditSelected = s.juries.auditSelected
  audits : Rescheduled c c' s.queues.pendingAudit s'.queues.pendingAudit
  job : ∀ j, s'.job j = (s.job j).map fun job => importedJob c' (exportJob c job)

omit [Chain] in
theorem get_importAges (t : Store Str UInt64) (j : Str) :
    (importAges c' (exportAges c t) .empty).get j = (t.get j).map fun x => sinceElapsed c' (elapsedSince c x) := by
  have hent : (importAges c' (exportAges c t) .empty).entries =
      t.entries.map fun e => (e.1, sinceElapsed c' (elapsedSince c e.2)) := by
    rw [importAges, exportAges, List.map_map]
    exact entries_putAll_map (t := t) (g := fun e => (e.1, sinceElapsed c' (elapsedSince c e.2))) fun _ => rfl
  show Option.map Prod.snd (List.find? _ (importAges c' (exportAges c t) .empty).entries) =
    Option.map _ (Option.map Prod.snd (List.find? _ t.entries))
  rw [hent, List.find?_map, Option.map_map, Option.map_map]
  rfl

theorem restarted (h : initGenesis c' u (exportGenesis c s) (genesis p balance outside) = .ok s') :
    Restarted c c' s s' := by
  have hjob := restart_job h
  obtain ⟨r, d, z, rfl⟩ := initGenesis_spec h
  exact
    { params := rfl
      miners := Table.putAll_entries _
      held := importHeld_empty s.funds.held rfl rfl rfl rfl rfl
      queued := Table.putAll_entries _
      journal := rfl
      commits := Table.putAll_entries _
      work := Table.putAll_entries _
      seats := Table.putAll_entries _
      since := get_importAges _
      selected := Table.putAll_entries _
      audits := rescheduled_importQueue _
      job := hjob }

end Restart

section Restarted

variable [Chain] {c c' : Ctx} {s s' : State} {j : Str}

omit [Chain] in
/-- An imported job has the marks that were exported. -/
theorem importedJob_marks (job : Job) : (importedJob c' (exportJob c job)).state = job.state ∧
    (importedJob c' (exportJob c job)).minerId = job.minerId ∧
    (importedJob c' (exportJob c job)).disputeBond = job.disputeBond := by
  have he : (exportJob c job).state = job.state ∧ (exportJob c job).minerId = job.minerId ∧
      (exportJob c job).disputeBond = job.disputeBond := by
    unfold exportJob
    split <;> exact ⟨rfl, rfl, rfl⟩
  have hi : ∀ k : Job, (importedJob c' k).state = k.state ∧ (importedJob c' k).minerId = k.minerId ∧
      (importedJob c' k).disputeBond = k.disputeBond := by
    intro k
    unfold importedJob
    split <;> exact ⟨rfl, rfl, rfl⟩
  exact ⟨(hi _).1.trans he.1, (hi _).2.1.trans he.2.1, (hi _).2.2.trans he.2.2⟩

omit [Chain] in
/-- The job of an import is the job of the export. -/
theorem Restarted.of_job (h : Restarted c c' s s') {job' : Job} (hj : s'.job j = some job') :
    ∃ job, s.job j = some job ∧ job'.state = job.state ∧ job'.minerId = job.minerId ∧
      job'.disputeBond = job.disputeBond := by
  rw [h.job, Option.map_eq_some_iff] at hj
  obtain ⟨job, hj, rfl⟩ := hj
  exact ⟨job, hj, importedJob_marks job⟩

omit [Chain] in
theorem Restarted.to_job (h : Restarted c c' s s') {job : Job} (hj : s.job j = some job) :
    ∃ job', s'.job j = some job' ∧ job'.state = job.state :=
  ⟨_, by rw [h.job, hj]; rfl, (importedJob_marks job).1⟩

omit [Chain] in
theorem Restarted.settled (h : Restarted c c' s s') : (view s' j).Settled ↔ (view s j).Settled := by
  constructor
  · rintro ⟨job', hj, hp⟩
    obtain ⟨job, hj, hst, -⟩ := h.of_job hj
    exact ⟨job, hj, hst ▸ hp⟩
  · rintro ⟨job, hj, hp⟩
    obtain ⟨job', hj', hst⟩ := h.to_job hj
    exact ⟨job', hj', by rw [hst]; exact hp⟩

omit [Chain] in
theorem Restarted.resolved (h : Restarted c c' s s') (hr : (view s j).Resolved) : (view s' j).Resolved := by
  obtain ⟨job, hj, hr⟩ := hr
  obtain ⟨job', hj', hst⟩ := h.to_job hj
  exact ⟨job', hj', by rw [hst]; exact hr⟩

omit [Chain] in
/-- An entry of the lottery's queue is an exported one. -/
theorem Restarted.entry (h : Restarted c c' s s') {x : Int} (hx : x ∈ (view s' j).audits) :
    ∃ y ∈ (view s j).audits, x = addInt64 c'.h (remaining c y) := by
  obtain ⟨key, hkey, e⟩ := (h.audits _).1 hx
  obtain ⟨hx, hid⟩ := Queue.qkey_inj.1 e
  refine ⟨(ofLex key).1, ?_, hx⟩
  show qkey (ofLex key).1 j ∈ s.queues.pendingAudit.entries
  rw [hid]
  exact hkey

omit [Chain] in
theorem Restarted.sound (h : Restarted c c' s s') (hv : (view s j).Sound) : (view s' j).Sound := by
  have hanswers : (view s' j).answers = (view s j).answers := by
    ext m
    simp only [view, answerOf, State.commit, h.commits]
  refine ⟨fun hn => ?_, fun job' hj ho => ?_, fun job' hj hd => ?_⟩
  · obtain ⟨hempty, haudits, hsel⟩ := hv.unsettled fun hs => hn (h.settled.2 hs)
    have hheld : ∀ sh, (view s' j).purse.held sh = none := fun sh => by
      rw [← hempty.held sh]
      simp only [view, Funds.purse, Funds.heldOf, h.held]
    refine ⟨⟨hheld, ?_, ?_⟩, ?_, ?_⟩
    · have hpost : (view s' j).purse.postings = [] := by simp only [view, Funds.purse, h.journal, List.filter_nil]
      simp only [Purse.accounted, Purse.retained, hheld, hpost]
      rfl
    · rw [← hempty.queued]
      simp only [view, Funds.purse, h.queued]
    · refine Set.eq_empty_iff_forall_notMem.2 fun x hx => ?_
      obtain ⟨y, hy, -⟩ := h.entry hx
      exact Set.eq_empty_iff_forall_notMem.1 haudits y hy
    · rw [← hsel]
      simp only [view, h.selected]
  · obtain ⟨job, hj, hst, hmid, -⟩ := h.of_job hj
    rw [hanswers, hst, hmid]
    exact hv.optimistic job hj (hst ▸ ho)
  · obtain ⟨job, hj, hst, -, hb⟩ := h.of_job hj
    rw [hb]
    exact hv.undisputed job hj (hst ▸ hd)

theorem Restarted.wf (h : Restarted c c' s s') (hw : s.Wf) : s'.Wf where
  miners m hm := hw.miners m (by rwa [← h.miners])
  jobs j hj := by
    obtain ⟨job', hj⟩ := Table.has_iff.1 hj
    obtain ⟨job, hj, -⟩ := h.of_job hj
    exact hw.jobs j (Table.has_of_get? hj)
  commits key hk := hw.commits key (by rwa [← h.commits])
  work j raw hr := hw.work j raw (by rwa [← h.work])
  params := by
    rw [h.params]
    exact hw.params
  sound j hj := h.sound (hw.sound j hj)

omit [Chain] in
theorem Restarted.court (h : Restarted c c' s s') (hc : Court s j) : Court s' j := by
  refine ⟨fun x hx y hy => ?_, fun hs => ?_⟩
  · obtain ⟨x₁, hx₁, rfl⟩ := h.entry hx
    obtain ⟨y₁, hy₁, rfl⟩ := h.entry hy
    rw [hc.single hx₁ hy₁]
  · rw [h.seats] at hs
    obtain ⟨hset, hempty⟩ := hc.seated hs
    refine ⟨h.settled.2 hset, Set.eq_empty_iff_forall_notMem.2 fun x hx => ?_⟩
    obtain ⟨y, hy, -⟩ := h.entry hx
    exact Set.eq_empty_iff_forall_notMem.1 hempty y hy

end Restarted

/-! ## The jury of a job -/

section Jury

variable [Chain] {s s' : State} {j raw : Str} {x y : UInt64}

/-- A state of a chain that started from a genesis, and was restarted from its exports. -/
def Descends (s : State) : Prop := ∃ s₀, Genesis s₀ ∧ ReflTransGen Later s₀ s

theorem Later.wf (h : Later s s') (hw : s.Wf) : s'.Wf := by
  cases h with
  | step h => exact (step_lives hw h).1
  | restart h => exact (restarted h).wf hw

theorem Later.court (h : Later s s') (hw : s.Wf) (hj : WfJobId j) (hc : Court s j) : Court s' j := by
  cases h with
  | step h => exact hc.step hw hj h
  | restart h => exact (restarted h).court hc

theorem Descends.inv (h : Descends s) : s.Wf ∧ ∀ j, WfJobId j → Court s j := by
  obtain ⟨s₀, ⟨p, balance, outside, hp, rfl⟩, h⟩ := h
  induction h with
  | refl =>
    refine ⟨wf_genesis hp balance outside, fun j _ => ⟨?_, fun hs => absurd rfl hs⟩⟩
    rw [view_genesis]
    exact Set.subsingleton_empty
  | tail _ hl ih => exact ⟨hl.wf ih.1, fun j hj => hl.court ih.1 hj (ih.2 j hj)⟩

theorem Descends.later (h : Descends s) (hl : Later s s') : Descends s' := by
  obtain ⟨s₀, hg, h⟩ := h
  exact ⟨s₀, hg, h.tail hl⟩

/-- A run from a state, with restarts, and what becomes of a height that was stored: a restart keeps its age. -/
inductive Ages (s : State) (x : UInt64) : State → UInt64 → Prop
  | here : Ages s x s x
  | step {s' s'' : State} {y : UInt64} {c : Ctx} {a : Action} (h : Ages s x s' y) (hs : Step s' (c, a) s'') :
    Ages s x s'' y
  | restart {s' s'' : State} {y : UInt64} {c c' : Ctx} {unanchored : Option (List Str)} {p : Params}
    {balance outside : Nat} (h : Ages s x s' y)
    (hs : initGenesis c' unanchored (exportGenesis c s') (genesis p balance outside) = .ok s'') :
    Ages s x s'' (sinceElapsed c' (elapsedSince c y))

/-- A job is marked resolved. -/
def State.resolved (s : State) (j : Str) : Bool := (s.job j).any fun job => jobIsResolved job.state

omit [Chain] in
theorem resolved_iff : s.resolved j = true ↔ (view s j).Resolved := by
  rw [State.resolved, Option.any_eq_true]
  exact ⟨fun ⟨job, hj, hr⟩ => ⟨job, hj, hr⟩, fun ⟨job, hj, hr⟩ => ⟨job, hj, hr⟩⟩

/-- A step leaves the jury of a job as it was, or resolves the job. -/
theorem Descends.step_jury (hs : Descends s) (hj : WfJobId j) {c : Ctx} {a : Action} (h : Step s (c, a) s')
    (hraw : s.juries.auditCommittee.get j = some raw) : (view s' j).Resolved ∨ s'.bench j = s.bench j := by
  obtain ⟨hw, hcourt⟩ := hs.inv
  have hplayed := (hcourt j hj).seated (by simp [hraw])
  exact (step_benched hw hj hplayed.2 h).symm.imp And.right id

theorem Descends.step_resolved (hs : Descends s) (hj : WfJobId j) {c : Ctx} {a : Action} (h : Step s (c, a) s')
    (hr : (view s j).Resolved) : (view s' j).Resolved :=
  Lives.invariant (P := View.Resolved) (fun _ _ _ _ hv hl => hl.resolved hv) ((step_lives hs.inv.1 h).2 j hj) hr

theorem Descends.later_resolved (hs : Descends s) (hj : WfJobId j) (h : Later s s') (hr : (view s j).Resolved) :
    (view s' j).Resolved := by
  cases h with
  | step h => exact hs.step_resolved hj h hr
  | restart h => exact (restarted h).resolved hr

/-- Its members, in the next state or after a restart. -/
theorem Descends.later_jury (hs : Descends s) (hj : WfJobId j) (h : Later s s')
    (hraw : s.juries.auditCommittee.get j = some raw) :
    (view s' j).Resolved ∨ s'.juries.auditCommittee.get j = some raw := by
  cases h with
  | step h => exact (hs.step_jury hj h hraw).imp id fun hb => (congrArg Prod.fst hb).trans hraw
  | restart h => exact .inr (by rw [(restarted h).seats, hraw])

/-- The job has a jury, anchored at a height. -/
structure Sitting (s : State) (j raw : Str) (since : UInt64) : Prop where
  job : s.jobs.has j = true
  members : s.juries.auditCommittee.get j = some raw
  since : s.juries.committeeSince.get j = some since

/-- Until its job is resolved, the jury does not move, and neither does its height, but for a restart, which keeps its
age. -/
theorem jury_fixed (hs : Descends s) (h : Sitting s j raw x) (hrun : Ages s x s' y) (hopen : s'.resolved j = false) :
    Sitting s' j raw y := by
  have hj : WfJobId j := hs.inv.1.jobs j h.job
  have hinv : Descends s' ∧ ((view s' j).Resolved ∨ s'.bench j = (some raw, some y)) := by
    clear hopen
    induction hrun with
    | here => exact ⟨hs, .inr (Prod.ext h.members h.since)⟩
    | step _ hstep ih =>
      obtain ⟨hdesc, hr | hb⟩ := ih
      · exact ⟨hdesc.later (.step hstep), .inl (hdesc.step_resolved hj hstep hr)⟩
      · refine ⟨hdesc.later (.step hstep), ?_⟩
        exact (hdesc.step_jury hj hstep (congrArg Prod.fst hb)).imp id fun hb' => hb'.trans hb
    | restart _ himp ih =>
      have hre := restarted himp
      obtain ⟨hdesc, hr | hb⟩ := ih
      · exact ⟨hdesc.later (.restart himp), .inl (hre.resolved hr)⟩
      · refine ⟨hdesc.later (.restart himp), .inr (Prod.ext ?_ ?_)⟩
        · exact (congrArg (Store.get j) hre.seats).trans (congrArg Prod.fst hb)
        · exact (hre.since j).trans (congrArg (Option.map _) (congrArg Prod.snd hb))
  obtain ⟨hdesc, hr | hb⟩ := hinv
  · rw [resolved_iff.2 hr] at hopen
    cases hopen
  · have hraw : s'.juries.auditCommittee.get j = some raw := congrArg Prod.fst hb
    obtain ⟨job, hjob, -⟩ := ((hdesc.inv.2 j hj).seated (by simp [hraw])).1
    exact ⟨Table.has_of_get? hjob, hraw, congrArg Prod.snd hb⟩

/-- A state that is reached without a restart. -/
theorem descends_of_reachable {ok : State → Ctx × Action → Prop} (h : Reachable ok s) : Descends s := by
  refine Reach.invariant (P := Descends) (fun s hg => ⟨s, hg, .refl⟩) (fun s a s' _ hs _ h => ?_) h
  exact hs.later (.step (c := a.1) (a := a.2) h)

end Jury

end Dendra.Jobs
