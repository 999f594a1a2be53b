import Dendra.Jobs.Progress.Run
import Dendra.Jobs.Application

/-!
# The ledger of one job

Under optimistic settlement a fee is split at once into what is paid and what is retained. From then
on, what was paid out of it and what is still retained for the job add up to the fee, and a release
or a refund draws on the retention of its own job only.

The split itself drops one part: what is due at once to an operator whose address cannot be read.

* `job_ledger`: the sum, when every settlement can pay what it owes at once.
* `job_ledger_dropped`: a run without that.
-/

namespace Dendra.Jobs

open Word

section Ledger

variable [Chain]

/-- The settlement of a step, if it is one, can pay what it owes at once, and its two shares of the
cut are parts of a whole. -/
def settlesInFull (s : State) (a : Ctx × Action) : Bool :=
  (settlementOf s a.2).all fun (job, miner) =>
    decide (s.params.validatorRewardBps.toNat + s.params.teamFeeBps.toNat ≤ 10000) &&
      ((Chain.addrBytes miner.operator).isSome ||
        decide ((splitFee s.params job.fee).immediate = 0))

/-- A job under optimistic settlement is accounted for. -/
def View.Balanced (v : View) : Prop :=
  ∀ job, v.job = some job → jobIsOptimistic job.state = true →
    v.purse.accounted = job.fee.toNat

omit [Chain] in
/-- A change that keeps the sum of the purse, and only marks the record. -/
theorem View.Balanced.extends {v v' : View} {job job' : Job} {l : List Mark} (hb : v.Balanced)
    (hj : v.job = some job) (hj' : v'.job = some job') (hx : job.Extends l job')
    (hm : ∀ m ∈ l, m ≠ .optimistic) (hacc : v'.purse.accounted = v.purse.accounted) :
    v'.Balanced := by
  intro k hk ho
  rw [hj', Option.some.injEq] at hk
  subst hk
  rw [hx.optimistic_eq hm] at ho
  rw [hacc, hb job hj ho, hx.fee]

omit [Chain] in
/-- What a change of a life keeps, when its settlement pays in full. -/
theorem View.Balanced.step {e : Label} {v v' : View} (hs : v.Sound) (hb : v.Balanced)
    (hl : Life e v v')
    (he : ∀ p fee payable, e = .settle p fee payable →
      p.Bounded ∧ (payable = true ∨ (splitFee p fee).immediate = 0)) : v'.Balanced := by
  cases hl with
  | quiet => exact hb
  | opened hv hst =>
    intro k hk ho
    cases hk
    rw [hst] at ho
    cases ho
  | marked hj hp hx hm =>
    intro k hk ho
    cases hk
    rw [hx.optimistic_eq fun m hmm => (hm m hmm).ne.1] at ho
    rw [(hs.optimistic _ hj ho).1] at hp
    cases hp
  | @settled v job job' p payable q h hj hp hst hfee hbond hne ha hr hq hw hl hheld hacc =>
    have hns : ¬ v.Settled := by
      rintro ⟨k, hk, hpk⟩
      rw [hj, Option.some.injEq] at hk
      rw [← hk, hp] at hpk
      cases hpk
    obtain ⟨hempty, -, -⟩ := hs.unsettled hns
    obtain ⟨hb', hpay⟩ := he _ _ _ rfl
    intro k hk _
    cases hk
    rw [hacc hb' hpay hempty.held, hempty.accounted, Nat.zero_add, hfee]
  | dropped => exact hb
  | retried => exact hb
  | expired hj hst hx hp =>
    intro k hk ho
    cases hk
    rw [hx.optimistic_eq (by decide), hst] at ho
    cases ho
  | disputed hj hp hx => exact hb.extends hj rfl hx (by decide) rfl
  | undrawn => exact hb
  | deferred => exact hb
  | passed hh hj hp hsel hw heff =>
    intro k hk ho
    rw [heff.accounted]
    exact hb k hk ho
  | summoned hh hj hp hx hm => exact hb.extends hj rfl hx (fun m hmm => by rw [hm m hmm]; decide) rfl
  | closed hj hnr hx hm hr hopt heff =>
    exact hb.extends hj rfl hx (fun m hmm => (hm m hmm).ne.2.2.1) heff.accounted
  | rereleased hq heff =>
    intro k hk ho
    rw [heff.accounted]
    exact hb k hk ho
  | unqueued hv =>
    intro k hk
    rw [hv] at hk
    cases hk

/-- In a run whose settlements can all pay what they owe at once, the postings on account of a job
under optimistic settlement and its retention add up to its fee; and no release or refund draws on
the retention of another job. -/
theorem job_ledger {s : State} (h : Reachable (fun s a => settlesInFull s a = true) s) :
    (∀ j job, s.job j = some job → jobIsOptimistic job.state = true →
      s.funds.accounted j = job.fee.toNat) ∧
    ∀ (c : Ctx) (p : Params) (job : Job) (f : Funds) (sh : Share) (k : Str), k ≠ job.jobId →
      (releaseHeld c p job f).heldOf sh k = f.heldOf sh k ∧
      (refundRetainedToClient c job f).2.2.heldOf sh k = f.heldOf sh k := by
  refine ⟨fun j job hj ho => ?_, fun c p job f sh k hk =>
    ⟨(releaseHeld_effect _ _ _).heldOf_ne sh k hk, (refundRetainedToClient_effect _ _).heldOf_ne sh k hk⟩⟩
  have hwf : WfJobId j := (Reachable.wf h).jobs j (Table.has_of_get? hj)
  have hb : (view s j).Balanced := by
    refine Reachable.view h (P := View.Balanced) (fun k hk => by cases hk)
      (fun s c a e v v' hw hok hem hs hb hl => hb.step hs hl ?_) hwf
    rintro p fee payable rfl
    obtain ⟨k, miner, hset, rfl, rfl, rfl⟩ := hem
    simp only [settlesInFull, hset, Option.all_some, Bool.and_eq_true, Bool.or_eq_true,
      decide_eq_true_eq] at hok
    exact ⟨⟨hw.checked, hok.1⟩, hok.2⟩
  rw [← Funds.accounted_purse]
  exact hb job hj ho

end Ledger

/-- The job is settled for 100 coins, of which 60 are retained. -/
abbrev SettledInFull (s : State) : Prop := s.funds.heldFor ticket = 60 ∧
  ∃ job ∈ s.job ticket, jobIsOptimistic job.state = true ∧ job.fee = 100

/-- The job is settled for 100 coins, of which 60 are accounted for. -/
abbrev SettledShort (s : State) : Prop := ∃ job ∈ s.job ticket, jobIsOptimistic job.state = true ∧
  s.funds.accounted ticket = 60 ∧ job.fee = 100

/-- The primary answers, and the job is settled; or the primary sets an operator that is no address in
between. -/
theorem exists_settled : ∃ s t, Reachable (fun s a => settlesInFull s a = true) s ∧
    Reachable (fun _ _ => True) t ∧ SettledInFull s ∧ SettledShort t := by
  obtain ⟨r, hr, ht⟩ := exists_reachable (fun _ _ h => h)
    (reachable_village validate_auditMode (by decide) fun _ _ _ _ => rfl)
    (show endsIn settlesInFull
      (fun s => endsIn settlesInFull (fun s => decide (SettledInFull s))
          [(blockAt 5, .settleSemantic ⟨client, ticket⟩)] s &&
        endsIn free (fun s => decide (SettledShort s))
          [(blockAt 4, .updateMiner ⟨nameOf 2, idOf 2, "x".toList, [], 0⟩),
            (blockAt 5, .settleSemantic ⟨client, ticket⟩)] s)
      (served.take 3) (village auditMode) = true by rewrite [application_eq_tabled]; decide +kernel)
  rw [Bool.and_eq_true] at ht
  obtain ⟨s, hs, hfull⟩ := exists_reachable (fun _ _ h => h) hr ht.1
  obtain ⟨t, ht₁, hshort⟩ := exists_reachable (fun _ _ _ => trivial) (hr.mono fun _ _ _ => trivial) ht.2
  exact ⟨s, t, hs, ht₁, of_decide_eq_true hfull, of_decide_eq_true hshort⟩

/-- A settlement of 100 coins: 40 are paid at once, and 60 are retained. -/
theorem job_ledger_settled : ∃ s, Reachable (fun s a => settlesInFull s a = true) s ∧
    s.funds.heldFor ticket = 60 ∧ s.funds.accounted ticket = 100 := by
  obtain ⟨s, -, hs, -, ⟨h1, job, hj, ho, hfee⟩, -⟩ := exists_settled
  exact ⟨s, hs, h1, by rw [(job_ledger hs).1 ticket job hj ho, hfee]; rfl⟩

/-- The primary sets an operator that is no address between its answer and the settlement: the 40
coins that are due at once are neither paid nor retained. -/
theorem job_ledger_dropped : ∃ s, Reachable (fun _ _ => True) s ∧ ∃ job, s.job ticket = some job ∧
    jobIsOptimistic job.state = true ∧ s.funds.accounted ticket = 60 ∧ job.fee = 100 := by
  obtain ⟨-, s, -, hs, -, hshort⟩ := exists_settled
  exact ⟨s, hs, hshort⟩

end Dendra.Jobs
