import Dendra.Jobs.Progress.Run
import Dendra.Jobs.Application

/-!
# The exit of an escrow

A job that is opened with a fee gets an appointment with the expiry pass, and a job that is neither
paid nor refunded keeps one, unless the pass drops it: it drops the appointment of every job that
carries a marker, and a tally that pays nobody leaves one.

* `escrow_exit`: the exit, when no such appointment comes due.
* `escrow_stuck`: a run in which one does.
-/

namespace Dendra.Jobs

section Exit

variable [Chain]

/-- The escrow of the job is in the account. -/
def Job.Escrowed (job : Job) : Prop :=
  job.fee > 0 ∧ jobIsPaid job.state = false ∧ jobEscrowReturned job.state = false

/-- An appointment with the expiry pass, or a settlement message that goes through. -/
def HasExit (s : State) (j : Str) : Prop :=
  s.queues.pendingJobExpiry.holds j = true ∨ ∃ c creator s',
    settleSemantic c ⟨creator, j⟩ s = .ok s' ∨ payout c ⟨creator, j⟩ s = .ok s'

/-- The step takes no appointment of a job off whose escrow is in the account and which carries a
marker. -/
def keepsAppointments (s : State) (a : Ctx × Action) : Bool :=
  match a.2 with
  | .endBlock =>
    (s.queues.pendingJobExpiry.due a.1.h jobExpiryMaxPerBlock).all fun key =>
      (s.job (ofLex key).2).all fun job =>
        decide (job.state = []) || jobIsPaid job.state || jobEscrowReturned job.state
  | _ => true

/-- An escrow in the account has an appointment. -/
def View.Appointed (v : View) : Prop :=
  ∀ job, v.job = some job → job.Escrowed → v.expiry.Nonempty

omit [Chain] in
/-- A marker that is appended takes no escrow into the account. -/
theorem Job.Extends.escrowed {job job' : Job} {l : List Mark} (hx : job.Extends l job')
    (h : job'.Escrowed) : job.Escrowed := by
  obtain ⟨hf, hp, hr⟩ := h
  rw [hx.state, jobIsPaid_append, Bool.or_eq_false_iff] at hp
  rw [hx.state, jobEscrowReturned_append, Bool.or_eq_false_iff] at hr
  exact ⟨hx.fee ▸ hf, hp.1, hr.1⟩

omit [Chain] in
/-- What a change of a life keeps, when it drops no appointment of a marked job. -/
theorem View.Appointed.step {e : Label} {v v' : View} (ha : v.Appointed) (hl : Life e v v')
    (he : ∀ job, e = .drop (some job) →
      job.state = [] ∨ jobIsPaid job.state = true ∨ jobEscrowReturned job.state = true) :
    v'.Appointed := by
  cases hl with
  | quiet => exact ha
  | opened hv hst hb hE =>
    intro k hk hesc
    cases hk
    exact hE hesc.1
  | marked hj hp hx =>
    intro k hk hesc
    cases hk
    exact ha _ hj (hx.escrowed hesc)
  | settled hj hp hst =>
    intro k hk hesc
    cases hk
    have := hesc.2.1
    rw [hst, jobIsPaid_append] at this
    simp [jobIsPaid] at this
  | dropped hd =>
    intro job hj hesc
    obtain ⟨hf, hp, hr⟩ := hesc
    rcases he job (by rw [← hj]) with h | h | h
    · rcases hd job hj with hd | hd
      · exact absurd h hd
      · rw [hd] at hf
        exact absurd hf (by decide)
    · rw [hp] at h
      cases h
    · rw [hr] at h
      cases h
  | retried => exact fun _ _ _ => Set.insert_nonempty _ _
  | expired hj hst hx hp =>
    intro k hk hesc
    cases hk
    have := hesc.2.2
    rw [hx.state, jobEscrowReturned_append] at this
    simp [jobEscrowReturned] at this
  | disputed hj hp hx =>
    intro k hk hesc
    cases hk
    exact ha _ hj (hx.escrowed hesc)
  | undrawn => exact ha
  | deferred => exact ha
  | passed => exact ha
  | summoned hh hj hp hx =>
    intro k hk hesc
    cases hk
    exact ha _ hj (hx.escrowed hesc)
  | closed hj hnr hx =>
    intro k hk hesc
    cases hk
    exact ha _ hj (hx.escrowed hesc)
  | rereleased => exact ha
  | unqueued => exact ha

/-- In a run whose blocks drop no appointment of a marked job that holds its escrow, every escrow in
the account has an exit. -/
theorem escrow_exit {s : State} (h : Reachable (fun s a => keepsAppointments s a = true) s) {j : Str}
    {job : Job} (hj : s.job j = some job) (hesc : job.Escrowed) : HasExit s j := by
  have hwf : WfJobId j := (Reachable.wf h).jobs j (Table.has_of_get? hj)
  have ha : (view s j).Appointed := by
    refine Reachable.view h (P := View.Appointed) (fun k hk => by cases hk)
      (fun s c a e v v' _ hok hem _ ha hl => ha.step hl ?_) hwf
    rintro job rfl
    obtain ⟨rfl, key, hkey, s', hret, hjob⟩ := hem
    have hall := List.all_eq_true.1 hok key hkey
    rcases hret with hsame | ⟨k, hk, hr⟩
    · rw [← hsame, ← hjob, Option.all_some] at hall
      simpa [or_assoc] using hall
    · rw [← hjob, Option.some.injEq] at hk
      rw [hk]
      exact .inr (.inr hr)
  exact .inl (Queue.holds_iff.2 (ha job hj hesc))

/-! ## No exit -/

/-- A committee that was judged is not settled again. -/
theorem settleSemantic_refused {c : Ctx} {s s' : State} {msg : MsgSettleSemantic} {job : Job}
    (hj : s.job msg.jobId = some job) (hk : jobK3Adjudicated job.state = true) :
    settleSemantic c msg s ≠ .ok s' := by
  intro h
  simp only [settleSemantic, bind_ok, ensure_ok, require_ok] at h
  obtain ⟨-, -, k, hk', -, -, -, -, -, hn, -⟩ := h
  rw [hj, Option.some.injEq] at hk'
  rw [← hk', hk] at hn
  cases hn

/-- An incomplete committee is not paid. -/
theorem payout_refused {c : Ctx} {s s' : State} (msg : MsgPayout) {l : List Str}
    (hl : assignedCommitteeOrFail s msg.jobId (workCommitteeSize s) = .ok l)
    (hn : ¬ ((commitByMiner s msg.jobId l).length : Int) ≥ workCommitteeSize s) :
    payout c msg s ≠ .ok s' := by
  intro h
  simp only [payout, bind_ok, ensure_ok, require_ok] at h
  obtain ⟨-, -, -, -, l', hl', -, -, -, -, -, -, -, -, -, hge, -⟩ := h
  rw [hl, Except.ok.injEq] at hl'
  rw [hl'] at hn
  exact hn hge

end Exit

/-- A fresh escrow, past a block. -/
theorem escrow_exit_fresh : ∃ s, Reachable (fun s a => keepsAppointments s a = true) s ∧
    (∃ job, s.job ticket = some job ∧ job.Escrowed) ∧ HasExit s ticket := by
  obtain ⟨s, hs, ht⟩ := exists_reachable (fun _ _ h => h)
    (reachable_village Params.validate_default.1 (by decide) fun _ _ _ _ => rfl)
    (show endsIn keepsAppointments
      (fun s => decide (∃ job ∈ s.job ticket, job.fee > 0 ∧ jobIsPaid job.state = false ∧
        jobEscrowReturned job.state = false))
      [(blockAt 2, opening 1000), (blockAt 2, .endBlock)] (village .default) = true by
        rewrite [application_eq_tabled]
        decide +kernel)
  obtain ⟨job, hj, hesc⟩ := of_decide_eq_true ht
  exact ⟨s, hs, ⟨job, hj, hesc⟩, escrow_exit hs hj hesc⟩

/-- Two of the three members answer alike, and anybody finalizes the job: it is marked, the block of
its appointment drops it, and no message settles it. -/
theorem escrow_stuck : ∃ s, Reachable (fun _ _ => True) s ∧
    (∃ job, s.job ticket = some job ∧ job.Escrowed) ∧ ¬ HasExit s ticket := by
  obtain ⟨s, hs, ht⟩ := exists_reachable (fun _ _ _ => trivial)
    (reachable_village Params.validate_default.1 (by decide) fun _ _ _ _ => trivial)
    (show endsIn free
      (fun s => decide ((∃ job ∈ s.job ticket, (job.fee > 0 ∧ jobIsPaid job.state = false ∧
          jobEscrowReturned job.state = false) ∧ jobK3Adjudicated job.state = true) ∧
        s.queues.pendingJobExpiry.holds ticket = false ∧
        ∃ l ∈ (assignedCommitteeOrFail s ticket (workCommitteeSize s)).toOption,
          ((commitByMiner s ticket l).length : Int) < workCommitteeSize s))
      [(blockAt 2, opening 1000), (blockAt 3, anchors 0 "" "7"), (blockAt 3, anchors 1 "" "7"),
        (blockAt 4, .finalizeJob ⟨client, ticket⟩), (blockAt 100002, .endBlock)]
      (village .default) = true by rewrite [application_eq_tabled]; decide +kernel)
  obtain ⟨⟨job, hj, hesc, hk⟩, hq, l, hl, hn⟩ := of_decide_eq_true ht
  refine ⟨s, hs, ⟨job, hj, hesc⟩, ?_⟩
  rintro (h | ⟨c, creator, s', h | h⟩)
  · rw [hq] at h
    cases h
  · exact settleSemantic_refused hj hk h
  · have hlt : ¬ ((commitByMiner s ticket l).length : Int) ≥ workCommitteeSize s := by omega
    exact payout_refused ⟨creator, ticket⟩ (eq_ok_of_toOption hl) hlt h

end Dendra.Jobs
