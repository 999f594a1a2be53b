import Dendra.Jobs.Progress.Expiry

/-!
# Progress of the reveal and of the lottery

The reveal pass touches no job. The lottery takes a due entry off its queue and passes the job over,
sends it to a jury, or puts its draw off.

* `auditOne_prog`: one due entry.
* `runOptimisticAudit_prog`: the pass. Its due entries are distinct, and each is still queued when
  its turn comes.
-/

namespace Dendra.Jobs

open Word

/-! ## Steps beside the jobs -/

/-- What a view looks at did not change. -/
structure State.Aside (s s' : State) : Prop where
  params : s'.params = s.params
  funds : s'.funds = s.funds
  jobs : s'.jobs = s.jobs
  commits : s'.commits = s.commits
  juries : s'.juries = s.juries
  audits : s'.queues.pendingAudit = s.queues.pendingAudit
  expiry : s'.queues.pendingJobExpiry = s.queues.pendingJobExpiry
  work : (∀ m, s.funds.miners.has m = true → WfMinerId m) → ∀ k raw,
    s'.workCommittee.get k = some raw → s.workCommittee.get k = some raw ∨ IdList raw

theorem State.Aside.refl (s : State) : s.Aside s :=
  ⟨rfl, rfl, rfl, rfl, rfl, rfl, rfl, fun _ _ _ h => .inl h⟩

theorem State.Aside.trans {s s' s'' : State} (h : s.Aside s') (h' : s'.Aside s'') : s.Aside s'' :=
  ⟨h'.params.trans h.params, h'.funds.trans h.funds, h'.jobs.trans h.jobs,
    h'.commits.trans h.commits, h'.juries.trans h.juries, h'.audits.trans h.audits,
    h'.expiry.trans h.expiry, fun hm k raw hk => (h'.work (h.funds ▸ hm) k raw hk).elim
      (h.work hm k raw) .inr⟩

theorem State.Aside.foldl {α : Type} {g : State → α → State} (hg : ∀ (s : State) a, s.Aside (g s a))
    (l : List α) (s : State) : s.Aside (l.foldl g s) := by
  induction l generalizing s with
  | nil => exact .refl s
  | cons a l ih => exact (hg s a).trans (ih (g s a))

section Reveal

variable [Chain] {c : Ctx} {E : Label → Prop} {s s' : State}

theorem Prog.of_aside (hE : E .plain) (hw : s.Wf) (h : s.Aside s') : Prog E s s' := by
  refine .quiet hE hw h.jobs (fun _ _ => by rw [h.funds]) h.audits h.expiry
    ⟨by rw [h.juries], by rw [h.juries]⟩ (fun key cm hcm => ?_) (fun key hk => .inl ?_)
    (fun m hm => .inl ?_) (fun m k hm => .inl ?_) (fun _ => ?_) ?_ h.params (h.work hw.miners)
  · rw [State.commit, h.commits]
    exact hcm
  · rw [h.commits] at hk
    exact hk
  · rw [h.funds] at hm
    exact hm
  · rw [h.funds]
    exact hm
  · rw [State.slack, State.slack, h.funds, h.jobs]
  · rw [State.supply, State.supply, h.funds]

theorem anchorWorkCommittee_aside (j : Str) : s.Aside (anchorWorkCommittee s j) := by
  obtain ⟨wc, hwc, hwork⟩ := anchorWorkCommittee_eq s j
  rw [hwc]
  exact ⟨rfl, rfl, rfl, rfl, rfl, rfl, rfl, hwork⟩

theorem runReveal_aside (seed : Str) : s.Aside (runReveal c seed s) := by
  unfold runReveal
  simp only
  split
  · refine .foldl (fun s key => ?_) _ s
    unfold deferReveal
    split
    · exact ⟨rfl, rfl, rfl, rfl, rfl, rfl, rfl, fun _ _ _ h => .inl h⟩
    · exact ⟨rfl, rfl, rfl, rfl, rfl, rfl, rfl, fun _ _ _ h => .inl h⟩
  · refine .foldl (fun s key => ?_) _ s
    have hanchor : ∀ s₁ : State, s.Aside s₁ →
        s.Aside (removeReveal key (anchorWorkCommittee s₁ (ofLex key).2)) := by
      intro s₁ h₁
      exact (h₁.trans (anchorWorkCommittee_aside _)).trans
        ⟨rfl, rfl, rfl, rfl, rfl, rfl, rfl, fun _ _ _ h => .inl h⟩
    unfold revealOne
    simp only
    split
    · split
      · exact hanchor _ ⟨rfl, rfl, rfl, rfl, rfl, rfl, rfl, fun _ _ _ h => .inl h⟩
      · exact hanchor s (.refl s)
    · exact hanchor s (.refl s)

end Reveal

/-! ## The lottery -/

section Lottery

variable [Chain] {c : Ctx} {E : Label → Prop} {s s' : State} {j : Str} {h : Int} {job : Job}

/-- Only the lottery's entries and the pick of one job change. -/
theorem Prog.of_draw {e : Label} (hE : E e) (hw : s.Wf) {q : Queue} {u : Juries}
    (hq : ∀ k, k ≠ j → q.heights k = s.queues.pendingAudit.heights k)
    (hsel : ∀ k, k ≠ j → u.auditSelected.has k = s.juries.auditSelected.has k)
    (hseats : u.auditCommittee = s.juries.auditCommittee)
    (hlife : Life e (view s j)
      { view s j with audits := q.heights j, selected := u.auditSelected.has j }) :
    Prog E s { s with queues := { s.queues with pendingAudit := q }, juries := u } :=
  .of_entry (j := j) (f := s.funds) hE hw (fun _ _ _ => rfl) hq (fun _ _ => rfl) hsel hseats
    (fun _ => rfl) (fun _ => le_rfl) le_rfl hlife

/-- An entry that has nothing to draw is taken off. -/
theorem Prog.of_undrawn (hE : E .plain) (hw : s.Wf)
    (hd : ∀ job, s.job j = some job → jobIsPaid job.state = false ∨ jobIsResolved job.state = true) :
    Prog E s (removePendingAudit (qkey h j) s) := by
  refine .of_draw (j := j) (u := s.juries) hE hw (fun k hk => Queue.heights_remove_ne hk)
    (fun _ _ => rfl) rfl ?_
  rw [Queue.heights_remove_self]
  exact Life.undrawn (v := view s j) hd

omit [Chain] in
/-- The height of a deferred entry is a later one. -/
theorem deferred_ne (hh : h ≤ c.h) : addInt64 c.h auditDeferStride ≠ h := by
  have h0 := c.h_nonneg
  have h1 := c.h_lt
  have e : addInt64 c.h auditDeferStride = c.h + auditDeferStride := by
    rw [addInt64, auditDeferStride]
    exact Int.bmod_eq_of_le (by omega) (by omega)
  rw [e, auditDeferStride]
  omega

/-- A draw is put off. -/
theorem Prog.of_deferred (hE : E .plain) (hw : s.Wf)
    (hk : qkey h j ∈ s.queues.pendingAudit.entries) :
    Prog E s (insertPendingAudit (deferredKey c j) (removePendingAudit (qkey h j) s)) := by
  refine Prog.of_draw (j := j) (u := s.juries) (q := (s.queues.pendingAudit.remove
    (qkey h j)).insert (deferredKey c j)) hE hw (fun k hk => ?_) (fun _ _ => rfl) rfl ?_
  · rw [deferredKey, Queue.heights_insert_ne hk, Queue.heights_remove_ne hk]
  · rw [deferredKey, Queue.heights_insert_self, Queue.heights_remove_self]
    exact Life.deferred (v := view s j) hk id

/-- A job is picked, and its draw stays where it is. -/
theorem Prog.of_picked (hE : E .plain) (hw : s.Wf) {js : Juries}
    (hk : qkey h j ∈ s.queues.pendingAudit.entries)
    (hsel : js.auditSelected = s.juries.auditSelected.insert j)
    (hseats : js.auditCommittee = s.juries.auditCommittee) : Prog E s (setJuries js s) := by
  refine Prog.of_draw (j := j) (q := s.queues.pendingAudit) hE hw (fun _ _ => rfl)
    (fun k hk => by rw [hsel]; exact KeySet.has_insert_ne hk) hseats ?_
  have hl := Life.deferred (v := view s j) (h := h) (k := h) (b := true) hk fun _ => rfl
  have ha : insert h ((view s j).audits \ {h}) = s.queues.pendingAudit.heights j :=
    Set.insert_sdiff_self_of_mem hk
  rw [ha] at hl
  rw [hsel, KeySet.has_insert_self]
  exact hl

/-- What a due entry needs of the state at its turn: it is still queued, and so are the later ones. -/
def Pending (c : Ctx) (l : List QueueKey) (s : State) : Prop :=
  (∀ key ∈ l, key ∈ s.queues.pendingAudit.entries ∧ (ofLex key).1 ≤ c.h) ∧ l.Nodup

/-- An entry at its turn takes no other entry off the queue. -/
def Spares (key : QueueKey) (s s' : State) : Prop :=
  ∀ k ∈ s.queues.pendingAudit.entries, k ≠ key → k ∈ s'.queues.pendingAudit.entries

omit [Chain] in
theorem Pending.tail {key : QueueKey} {l : List QueueKey} (h : Pending c (key :: l) s)
    (hs : Spares key s s') : Pending c l s' := by
  obtain ⟨hl, hn⟩ := h
  rw [List.nodup_cons] at hn
  refine ⟨fun k hk => ⟨hs k (hl k (.tail _ hk)).1 ?_, (hl k (.tail _ hk)).2⟩, hn.2⟩
  rintro rfl
  exact hn.1 hk

omit [Chain] in
theorem spares_of_remove {key : QueueKey}
    (h : s'.queues.pendingAudit = s.queues.pendingAudit.remove key) : Spares key s s' :=
  fun k hk hne => by rw [h]; exact KeySet.mem_remove.2 ⟨hk, hne⟩

omit [Chain] in
theorem spares_of_insert_remove {key key' : QueueKey}
    (h : s'.queues.pendingAudit = (s.queues.pendingAudit.remove key).insert key') :
    Spares key s s' :=
  fun k hk hne => by
    rw [h]
    exact KeySet.mem_insert.2 (.inr (KeySet.mem_remove.2 ⟨hk, hne⟩))

omit [Chain] in
theorem spares_of_remove_insert {key key' : QueueKey}
    (h : s'.queues.pendingAudit = (s.queues.pendingAudit.insert key').remove key) :
    Spares key s s' :=
  fun k hk hne => by
    rw [h]
    exact KeySet.mem_remove.2 ⟨KeySet.mem_insert.2 (.inr hk), hne⟩

/-- The entry of a job whose stranded retention was undone. -/
theorem unwound_prog (hE : E .plain) (hw : s.Wf)
    (hnr : ∀ job, s.job j = some job → jobIsResolved job.state = false)
    (hu : unwindStrandedRetention c s.params j s = (true, s')) :
    Prog E s (removePendingAudit (qkey h j) s') ∧
      Spares (qkey h j) s (removePendingAudit (qkey h j) s') := by
  obtain ⟨h1, -, hq, h4⟩ := unwindStrandedRetention_prog hE hw hnr hu
  obtain ⟨job, hj, hr⟩ := h4 rfl
  refine ⟨h1.trans (.of_undrawn hE h1.wf fun k hk => .inr ?_), spares_of_remove ?_⟩
  · rw [hj, Option.some.injEq] at hk
    rw [← hk]
    exact hr
  · show s'.queues.pendingAudit.remove _ = _
    rw [hq]

/-- A due entry without the seed that is required. -/
theorem deferAudit_prog (hE : E .plain) (hw : s.Wf)
    (hk : qkey h j ∈ s.queues.pendingAudit.entries) :
    Prog E s (deferAudit c s (qkey h j)) ∧ Spares (qkey h j) s (deferAudit c s (qkey h j)) := by
  unfold deferAudit
  simp only [show (ofLex (qkey h j)).2 = j from rfl]
  split
  · next hopen =>
    have hnr : ∀ job, s.job j = some job → jobIsResolved job.state = false := by
      intro job hj
      rw [hj, Option.any_some, Bool.and_eq_true, Bool.not_eq_true'] at hopen
      exact hopen.2
    rcases hu : unwindStrandedRetention c s.params j s with ⟨b, s₁⟩
    cases b with
    | true => exact unwound_prog hE hw hnr hu
    | false =>
      obtain rfl := (unwindStrandedRetention_prog hE hw hnr hu).2.1 rfl
      exact ⟨.of_deferred hE hw hk, spares_of_insert_remove rfl⟩
  · next hclosed =>
    refine ⟨.of_undrawn hE hw fun job hj => ?_, spares_of_remove rfl⟩
    rw [hj, Option.any_some, Bool.and_eq_true, Bool.not_eq_true', not_and_or, Bool.not_eq_true,
      Bool.not_eq_false] at hclosed
    exact hclosed

/-- A job that was picked and has too small a jury. -/
theorem deferAuditForSmallJury_prog (hE : E .plain) (hw : s.Wf) (hh : h ≤ c.h)
    (hnr : ∀ job, s.job j = some job → jobIsResolved job.state = false)
    (hk : qkey h j ∈ s.queues.pendingAudit.entries) :
    Prog E s (deferAuditForSmallJury c (qkey h j) s) ∧
      Spares (qkey h j) s (deferAuditForSmallJury c (qkey h j) s) := by
  unfold deferAuditForSmallJury
  simp only [show (ofLex (qkey h j)).2 = j from rfl]
  rcases hu : unwindStrandedRetention c s.params j s with ⟨b, s₁⟩
  cases b with
  | true => exact unwound_prog hE hw hnr hu
  | false =>
    obtain rfl := (unwindStrandedRetention_prog hE hw hnr hu).2.1 rfl
    refine ⟨?_, spares_of_remove_insert rfl⟩
    refine Prog.of_draw (j := j) (u := s₁.juries) (q := (s₁.queues.pendingAudit.insert
      (deferredKey c j)).remove (qkey h j)) hE hw (fun k hk => ?_) (fun _ _ => rfl) rfl ?_
    · rw [Queue.heights_remove_ne hk, deferredKey, Queue.heights_insert_ne hk]
    · rw [Queue.heights_remove_self, deferredKey, Queue.heights_insert_self,
        ← Set.insert_sdiff_singleton_comm (deferred_ne hh)]
      exact Life.deferred (v := view s₁ j) hk id

/-- The lottery passes a job over. -/
theorem passed_prog (hE : E .plain) (hw : s.Wf) {w : Warrant} (hwt : w.Genuine)
    (hk : qkey h job.jobId ∈ s.queues.pendingAudit.entries) (hj : s.job job.jobId = some job)
    (hp : jobIsPaid job.state = true) (hsel : s.juries.auditSelected.has job.jobId = false) :
    Prog E s (removePendingAudit (qkey h job.jobId)
      (s.setFunds (releaseHeld c s.params job (s.funds.warrant job.jobId w)))) := by
  have ht := release_touch (c := c) s.params job s.funds w
  refine Prog.of_entry (j := job.jobId) (u := s.juries) (f := releaseHeld c s.params job
    (s.funds.warrant job.jobId w)) (q := { s.queues with
      pendingAudit := s.queues.pendingAudit.remove (qkey h job.jobId) }) hE hw
    (fun k _ hne => ht.others k hne) (fun k hne => Queue.heights_remove_ne hne) (fun _ _ => rfl)
    (fun _ _ => rfl) rfl ht.registered (fun _ => by have := ht.slack; omega) ht.supply ?_
  have hl := Life.passed (v := view s job.jobId) hk hj hp hsel hwt ht.own
  rw [Queue.heights_remove_self]
  exact hl

theorem summonedJob_extends (job : Job) : ∃ l, job.Extends l (summonedJob c job) ∧
    (∀ m ∈ l, m = .disputed) ∧ jobIsDisputed (summonedJob c job).state = true := by
  unfold summonedJob
  split
  · next hd =>
    exact ⟨[], ⟨rfl, rfl, rfl, rfl, (List.append_nil _).symm, fun _ => .inl rfl⟩, by simp, hd⟩
  · refine ⟨[.disputed], ⟨rfl, rfl, rfl, rfl, rfl, fun _ => .inr rfl⟩, by simp, ?_⟩
    rw [jobIsDisputed_append]
    exact Bool.or_true _

theorem summonedJob_owed (hp : jobIsPaid job.state = true) :
    (summonedJob c job).owed = job.owed := by
  unfold summonedJob
  split
  · rfl
  · next hd =>
    have hx : jobIsPaid (job.state ++ [.disputed]) = true := by rw [jobIsPaid_append, hp]; rfl
    simp [Job.owed, Job.escrow, Job.openBond, hx, hp, hd]

/-- A jury that the lottery draws is of registered miners. -/
theorem wf_of_mem_draw (hw : s.Wf) {seed d : Str} {l : List Str}
    (hl : drawAuditCommittee c s seed j job.minerId d = .ok l) : ∀ m ∈ l, WfMinerId m := by
  unfold drawAuditCommittee at hl
  split at hl
  · cases hl
  · simp only [Except.ok.injEq] at hl
    subst hl
    intro m hm
    obtain ⟨r, hr, -, -⟩ := mem_draw.1 hm
    exact hw.miners m (Table.has_of_get? hr)

/-- What a summons leaves: the job under an audit, its pick spent, and its jury anchored. -/
theorem openAudit_eq (c : Ctx) (s : State) (job : Job) (l : List Str) : ∃ js qs,
    openAudit c job l s =
      { s with jobs := s.jobs.put (summonedJob c job), queues := qs, juries := js } ∧
    js.auditSelected = s.juries.auditSelected.remove job.jobId ∧
    js.auditCommittee = s.juries.auditCommittee.set job.jobId (Str.join l ',') ∧
    qs.pendingAudit = s.queues.pendingAudit ∧
    qs.pendingJobExpiry = s.queues.pendingJobExpiry := by
  unfold openAudit
  simp only
  split
  · exact ⟨_, _, rfl, rfl, rfl, rfl, rfl⟩
  · exact ⟨_, _, rfl, rfl, rfl, rfl, rfl⟩

/-- The lottery sends a job to a jury. -/
theorem openAudit_prog (hE : E (.summon s.params)) (hw : s.Wf) {l : List Str}
    (hl : ∀ m ∈ l, WfMinerId m) (hfloor : ¬ (l.length : Int) < effectiveSlashFloor s.params)
    (hk : qkey h job.jobId ∈ s.queues.pendingAudit.entries) (hj : s.job job.jobId = some job)
    (hp : jobIsPaid job.state = true) :
    Prog E s (removePendingAudit (qkey h job.jobId) (openAudit c job l s)) := by
  obtain ⟨js, qs, heq, hsel, hac, hqa, hqe⟩ := openAudit_eq c s job l
  obtain ⟨marks, hx, hm, hd⟩ := summonedJob_extends (c := c) job
  have hwf : WfJobId job.jobId := hw.jobs _ (Table.has_of_get? hj)
  have hid := hx.jobId
  rw [heq]
  refine Prog.of_record (r := s.registry) (f := s.funds) (u := js) (q := { qs with
    pendingAudit := qs.pendingAudit.remove (qkey h job.jobId) }) hE hw (by rw [hid]; exact hj)
    (fun _ _ => rfl) (fun k hne => ?_) (fun k _ => ?_) (fun k hne => ?_) (fun k _ hne => ?_)
    (fun _ => rfl) (fun _ => ?_) le_rfl ?_
  · rw [hid] at hne
    rw [hqa]
    exact Queue.heights_remove_ne hne
  · rw [hqe]
  · rw [hid] at hne
    rw [hsel]
    exact KeySet.has_remove_ne hne
  · rw [hid] at hne
    rw [hac]
    exact Store.get_set_ne hne
  · rw [summonedJob_owed hp]
  · have hg : js.auditCommittee.get job.jobId = some (Str.join l ',') := by
      rw [hac]
      exact Store.get_set_self
    have hseats : 0 < effectiveSlashFloor s.params →
        allowedSeats { s with juries := js } job.jobId ≠ [] := by
      intro h0
      have hne : l ≠ [] := by
        rintro rfl
        simp only [List.length_nil] at hfloor
        omega
      rw [allowedSeats, anchoredSeats_of_join (s := { s with juries := js }) hl hne hg]
      obtain ⟨m, hm⟩ := List.exists_mem_of_ne_nil l hne
      exact List.ne_nil_of_mem (List.mem_dedup.2 hm)
    have hl := Life.summoned (v := view s job.jobId) hk hj hp hx hm hd hseats
    rw [hid, hqa, hqe, hsel, KeySet.has_remove_self, Queue.heights_remove_self]
    exact hl

theorem openAudit_spares {l : List Str} {key : QueueKey} :
    Spares key s (removePendingAudit key (openAudit c job l s)) := by
  obtain ⟨js, qs, heq, -, -, hqa, -⟩ := openAudit_eq c s job l
  rw [heq]
  exact spares_of_remove (congrArg (KeySet.remove key) hqa)

/-- A job picked by the lottery. -/
theorem selectAudit_prog (hE : E .plain) (hsum : E (.summon s.params)) (hw : s.Wf) {seed : Str}
    (hh : h ≤ c.h) (hk : qkey h job.jobId ∈ s.queues.pendingAudit.entries)
    (hj : s.job job.jobId = some job) (hp : jobIsPaid job.state = true)
    (hnr : jobIsResolved job.state = false)
    (hs : selectAudit c seed (qkey h job.jobId) job s = .ok s') :
    Prog E s s' ∧ Spares (qkey h job.jobId) s s' := by
  unfold selectAudit at hs
  have hbump : ∃ s₁, (if s.juries.auditSelected.has job.jobId = false ∧
      jobIsDisputed job.state = false then setJuries (bumpAuditsOpened s) s else s) = s₁ ∧
      Prog E s s₁ ∧ s₁.queues = s.queues ∧ s₁.jobs = s.jobs := by
    split
    · refine ⟨_, rfl, ?_, rfl, rfl⟩
      refine Prog.of_draw (j := job.jobId) (q := s.queues.pendingAudit) hE hw (fun _ _ => rfl)
        (fun _ _ => rfl) rfl ?_
      exact Life.quiet (v := view s job.jobId) (fun _ h => h) fun _ h => .inl h
    · exact ⟨s, rfl, .refl hw, rfl, rfl⟩
  obtain ⟨s₁, heq, h1, hq, hjobs⟩ := hbump
  have hk₁ : qkey h job.jobId ∈ s₁.queues.pendingAudit.entries := by rw [hq]; exact hk
  have hj₁ : s₁.job job.jobId = some job := by rw [State.job, hjobs]; exact hj
  have hspares : Spares (qkey h job.jobId) s₁ s' → Spares (qkey h job.jobId) s s' := by
    intro h k hk
    exact h k (by rw [hq]; exact hk)
  simp only [heq] at hs
  split at hs
  · cases hs
  · next l hl =>
    have hwl := wf_of_mem_draw h1.wf hl
    split at hs
    · cases hs
      have h2 : Prog E s₁ (setJuries { s₁.juries with
          auditSelected := s₁.juries.auditSelected.insert job.jobId } s₁) :=
        .of_picked (h := h) hE h1.wf hk₁ rfl rfl
      obtain ⟨h3, h4⟩ := deferAuditForSmallJury_prog (c := c) hE h2.wf hh (fun k hk => by
        have e : s₁.job job.jobId = some k := hk
        rw [hj₁, Option.some.injEq] at e
        rw [← e]
        exact hnr) hk₁
      exact ⟨(h1.trans h2).trans h3, hspares h4⟩
    · next hfloor =>
      cases hs
      exact ⟨h1.trans (openAudit_prog (h1.params ▸ hsum) h1.wf hwl hfloor hk₁ hj₁ hp),
        hspares openAudit_spares⟩

/-- One due entry of the lottery. -/
theorem auditOne_prog (hE : E .plain) (hsum : E (.summon s.params)) (hw : s.Wf) {seed : Str}
    (hseed : ¬ ((committeeBaseSeedSourced c s.params seed).2 = false ∧
      s.params.committeeSeedSource = 1)) (hh : h ≤ c.h)
    (hk : qkey h j ∈ s.queues.pendingAudit.entries)
    (hs : auditOne c seed s (qkey h j) = .ok s') :
    Prog E s s' ∧ Spares (qkey h j) s s' := by
  unfold auditOne at hs
  simp only [show (ofLex (qkey h j)).2 = j from rfl] at hs
  split at hs
  · next hn =>
    cases hs
    refine ⟨.of_undrawn hE hw fun job hj => ?_, spares_of_remove rfl⟩
    rw [hn] at hj
    cases hj
  · next job hj =>
    obtain rfl : job.jobId = j := Table.key_of_get? hj
    split at hs
    · next hd =>
      cases hs
      refine ⟨.of_undrawn hE hw fun k hk => ?_, spares_of_remove rfl⟩
      rw [hj, Option.some.injEq] at hk
      rw [← hk]
      exact hd
    · next hopen =>
      simp only [not_or, Bool.not_eq_false, Bool.not_eq_true] at hopen
      obtain ⟨hp, hnr⟩ := hopen
      split at hs
      · exact selectAudit_prog hE hsum hw hh hk hj hp hnr hs
      · next hpass =>
        simp only [not_or, Bool.not_eq_true] at hpass
        cases hs
        refine ⟨passed_prog hE hw ⟨fun hreq => ?_, hpass.2⟩ hk hj hp hpass.1, spares_of_remove rfl⟩
        by_contra hsrc
        exact hseed ⟨by simpa using hsrc, by simpa using hreq⟩

/-- The lottery. -/
theorem runOptimisticAudit_prog (hE : E .plain) (hsum : E (.summon s.params)) (hw : s.Wf)
    {seed : Str} (hs : runOptimisticAudit c seed s = .ok s') : Prog E s s' := by
  have hdue : Pending c (s.queues.pendingAudit.due c.h auditMaxPerBlock) s :=
    ⟨fun _ hk => Queue.mem_due hk, Queue.nodup_due _ _ _⟩
  unfold runOptimisticAudit at hs
  split at hs
  · cases hs
    exact .refl hw
  · simp only at hs
    split at hs
    · cases hs
      exact .refl hw
    · split at hs
      · cases hs
        refine .foldl _ (Pending c) (fun key l s hP hw => ?_) hdue hw
        obtain ⟨h1, h2⟩ := deferAudit_prog (c := c) (h := (ofLex key).1) (j := (ofLex key).2) hE hw
          (hP.1 key (.head _)).1
        exact ⟨h1, hP.tail h2⟩
      · next hseed =>
        refine .foldlM _ (fun l s₁ => Pending c l s₁ ∧ s₁.params = s.params)
          (fun key l s₁ s₂ hP hw h12 => ?_) ⟨hdue, rfl⟩ hw hs
        obtain ⟨hP, hparams⟩ := hP
        obtain ⟨h1, h2⟩ := auditOne_prog (h := (ofLex key).1) (j := (ofLex key).2) hE
          (hparams ▸ hsum) hw (hparams ▸ hseed) (hP.1 key (.head _)).2 (hP.1 key (.head _)).1 h12
        exact ⟨h1, hP.tail h2, h1.params.trans hparams⟩

end Lottery

end Dendra.Jobs
