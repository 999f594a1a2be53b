import Dendra.Jobs.Progress.Run
import Dendra.Jobs.Application

/-!
# The Nash guard

`OpenJob` measures the fee of a job against `min_stake`, "the floor every primary is guaranteed to
hold". Nothing guarantees it: a slash leaves its miner registered below the floor, and the committee
of an open job does not change.

* `nash_guard`: a primary whose bond is not below the floor of the opening is deterred.
* `nash_guard_slashed`: a run whose primary is not.
-/

namespace Dendra.Jobs

open Word

/-- Cheating on a job of this fee costs a miner with this bond more than it brings. -/
def Deterred (p : Params) (stake fee : UInt64) : Prop :=
  p.auditSampleBps.toNat * p.slashLeakBps.toNat * stake.toNat >
    (10000 - p.auditSampleBps.toNat) * 10000 * fee.toNat

instance (p : Params) (stake fee : UInt64) : Decidable (Deterred p stake fee) :=
  inferInstanceAs (Decidable (_ > _))

/-- The guard of the opening, for a miner whose bond is the floor. -/
theorem feeDeterred_iff {p : Params} {fee : UInt64} :
    feeDeterred p fee = true ↔ Deterred p p.minStake fee := by
  have hsub : (if p.auditSampleBps < 10000 then 10000 - p.auditSampleBps else 0).toNat =
      10000 - p.auditSampleBps.toNat := by
    split
    · next h => exact toNat_sub (UInt64.le_of_lt h)
    · next h =>
      have h' : 10000 ≤ p.auditSampleBps.toNat := by simpa [UInt64.lt_iff_toNat_lt] using h
      rw [Nat.sub_eq_zero_of_le h']
      rfl
  rw [feeDeterred, decide_eq_true_iff, hsub]
  exact Iff.rfl

/-- A larger bond deters more. -/
theorem Deterred.mono {p : Params} {stake stake' fee : UInt64} (h : Deterred p stake fee)
    (hle : stake ≤ stake') : Deterred p stake' fee :=
  Nat.lt_of_lt_of_le h (Nat.mul_le_mul_left _ (toNat_le_of_le hle))

section Guard

variable [Chain]

/-- A settlement of this job finds a primary whose bond is not below a floor. -/
def bondedAt (j : Str) (floor : UInt64) (s : State) (a : Ctx × Action) : Bool :=
  (settlementOf s a.2).all fun (job, miner) => decide (job.jobId = j → floor ≤ miner.stake)

omit [Chain] in
/-- The fee of a job stays what it is. -/
theorem fee_step {fee : UInt64} {e : Label} {v v' : View}
    (h : ∃ job, v.job = some job ∧ job.fee = fee) (hl : Life e v v') :
    ∃ job, v'.job = some job ∧ job.fee = fee := by
  obtain ⟨job, hjob, hfee⟩ := h
  have extends_fee : ∀ {l : List Mark} {k k' : Job}, v.job = some k → k.Extends l k' →
      k'.fee = fee := by
    intro l k k' hk hx
    rw [hjob, Option.some.injEq] at hk
    rw [hx.fee, ← hk, hfee]
  cases hl with
  | quiet => exact ⟨job, hjob, hfee⟩
  | opened hv =>
    rw [hv] at hjob
    cases hjob
  | marked hj hp hx => exact ⟨_, rfl, extends_fee hj hx⟩
  | settled hj hp hs hf =>
    rw [hjob, Option.some.injEq] at hj
    exact ⟨_, rfl, by rw [hf, ← hj, hfee]⟩
  | dropped => exact ⟨job, hjob, hfee⟩
  | retried => exact ⟨job, hjob, hfee⟩
  | expired hj hs hx => exact ⟨_, rfl, extends_fee hj hx⟩
  | disputed hj hp hx => exact ⟨_, rfl, extends_fee hj hx⟩
  | undrawn => exact ⟨job, hjob, hfee⟩
  | deferred => exact ⟨job, hjob, hfee⟩
  | passed => exact ⟨job, hjob, hfee⟩
  | summoned hh hj hp hx => exact ⟨_, rfl, extends_fee hj hx⟩
  | closed hj hnr hx => exact ⟨_, rfl, extends_fee hj hx⟩
  | rereleased => exact ⟨job, hjob, hfee⟩
  | unqueued => exact ⟨job, hjob, hfee⟩

/-- What the opening of a job has checked. -/
theorem openJob_deterred {c : Ctx} {s s' : State} {msg : MsgOpenJob}
    (h : openJob c msg s = .ok s') (hmode : s.params.verificationMode = 1) :
    Deterred s.params s.params.minStake msg.fee := by
  simp only [openJob, bind_ok, ensure_ok, pure_ok] at h
  obtain ⟨-, -, -, -, -, hfee, -⟩ := h
  exact feeDeterred_iff.1 (hfee hmode)

/-- The job of an optimistic settlement, in the state that it is settled in. -/
theorem job_of_settlementOf {s : State} {a : Action} {job : Job} {miner : Miner}
    (h : settlementOf s a = some (job, miner)) : s.job job.jobId = some job := by
  unfold settlementOf at h
  split at h
  · next msg =>
    split at h
    · simp only [Option.bind_eq_bind, Option.bind_eq_some_iff, Option.pure_def, Option.some.injEq,
        Prod.mk.injEq] at h
      obtain ⟨k, hk, -, -, -, -, rfl, -⟩ := h
      rw [show k.jobId = msg.jobId from Table.key_of_get? hk]
      exact hk
    · cases h
  · cases h

/-- A job that was opened in audit mode, any time later: if each settlement of it finds a primary
whose bond is not below the floor of the opening, cheating on it does not pay under the parameters
of the opening. -/
theorem nash_guard {ok : State → Ctx × Action → Prop} {s₀ s₁ s : State} {c : Ctx}
    {a : Ctx × Action} {msg : MsgOpenJob} {p : Params} {job : Job} {miner : Miner}
    (h₀ : Reachable ok s₀) (hopen : openJob c msg s₀ = .ok s₁) (hp : s₀.params = p)
    (hmode : p.verificationMode = 1)
    (hrun : Reach (· = s₁) Step (fun s a => bondedAt msg.jobId p.minStake s a = true) s)
    (ha : bondedAt msg.jobId p.minStake s a = true)
    (hset : settlementOf s a.2 = some (job, miner)) (hj : job.jobId = msg.jobId) :
    Deterred p miner.stake job.fee := by
  subst hp
  have hw₀ : s₀.Wf := Reachable.wf h₀
  have hstep : Step s₀ (c, .openJob msg) s₁ := hopen
  have hw₁ : s₁.Wf := (step_lives hw₀ hstep).1
  obtain ⟨f, -, hwf, -, b, q, frz, wc, -, hs₁⟩ := openJob_spec hopen
  have hfee₁ : ∃ k, (view s₁ msg.jobId).job = some k ∧ k.fee = msg.fee := by
    refine ⟨newJob msg, ?_, rfl⟩
    rw [hs₁]
    exact Table.get?_put_self (v := newJob msg)
  obtain ⟨k, hk, hfee⟩ := view_of_run hw₁ hrun hwf hfee₁ fun _ _ _ _ => fee_step
  have hkj : s.job msg.jobId = some k := hk
  have hjob : s.job msg.jobId = some job := hj ▸ job_of_settlementOf hset
  rw [hjob, Option.some.injEq] at hkj
  rw [hkj, hfee]
  rw [bondedAt, hset, Option.all_some, decide_eq_true_iff] at ha
  exact (openJob_deterred hopen hmode).mono (ha hj)

end Guard

/-! ## Runs -/

/-- The authority slashes the `i`-th miner. -/
def slashing (i : Nat) : Action := .slashMiner ⟨governance, idOf i⟩

/-- The job is opened for 700 coins. -/
def dear : MsgOpenJob := ⟨client, ticket, 700⟩

def dearOpened : State := outcome (openJob (blockAt 2) dear (village auditMode)) (village auditMode)

theorem openJob_dear : openJob (blockAt 2) dear (village auditMode) = .ok dearOpened :=
  eq_ok_outcome (by rewrite [application_eq_tabled]; decide +kernel)

/-- The settlement that is asked for. -/
def dearSettled : Action := .settleSemantic ⟨client, ticket⟩

/-- The state after the authority slashed the primary. -/
def dearSlashed (s : State) : State := outcome ((slashing 2).run (blockAt 4) s) s

/-- The primary that was drawn answers, and could be settled with its bond of 1000. Slashed before, it
could be settled with a bond that does not deter it. -/
theorem exists_dear : ∃ s, Reach (· = dearOpened) Step (fun s a => bondedAt ticket 1000 s a = true) s ∧
    ((∃ e ∈ settlementOf s dearSettled, e.1.jobId = ticket) ∧
      bondedAt ticket 1000 s (blockAt 5, dearSettled) = true) ∧
    ((slashing 2).run (blockAt 4) s).isOk = true ∧
    (∃ e ∈ settlementOf (dearSlashed s) dearSettled, e.1.jobId = ticket ∧
      ¬ Deterred auditMode e.2.stake e.1.fee) ∧
    (dearSettled.run (blockAt 5) (dearSlashed s)).isOk = true := by
  obtain ⟨s, hs, ht⟩ := exists_run (s := dearOpened)
    (show endsIn (bondedAt ticket 1000)
      (fun s => decide (((∃ e ∈ settlementOf s dearSettled, e.1.jobId = ticket) ∧
          bondedAt ticket 1000 s (blockAt 5, dearSettled) = true) ∧
        ((slashing 2).run (blockAt 4) s).isOk = true ∧
        (∃ e ∈ settlementOf (dearSlashed s) dearSettled, e.1.jobId = ticket ∧
          ¬ Deterred auditMode e.2.stake e.1.fee) ∧
        (dearSettled.run (blockAt 5) (dearSlashed s)).isOk = true))
      [(blockAt 3, .endBlock), (blockAt 4, anchors 2 "" "1")] dearOpened = true by
      rewrite [application_eq_tabled]
      decide +kernel)
  exact ⟨s, hs, of_decide_eq_true ht⟩

/-- The primary that was drawn has its bond of 1000, and is deterred. -/
theorem nash_guard_bonded : ∃ s job miner,
    Reach (· = dearOpened) Step (fun s a => bondedAt ticket 1000 s a = true) s ∧
    settlementOf s dearSettled = some (job, miner) ∧ Deterred auditMode miner.stake job.fee := by
  have h₀ : Reachable (fun _ _ => True) (village auditMode) :=
    reachable_village validate_auditMode (by decide) fun _ _ _ _ => trivial
  obtain ⟨s, hs, ⟨⟨⟨job, miner⟩, he, hid⟩, hb⟩, -⟩ := exists_dear
  exact ⟨s, job, miner, hs, he, nash_guard (a := (blockAt 5, dearSettled)) h₀ openJob_dear
    (village_params _) rfl hs hb he hid⟩

/-- The authority slashes the primary that was drawn, which keeps 200 coins, answers and is settled:
cheating on the job pays. -/
theorem nash_guard_slashed : Reachable (fun _ _ => True) (village auditMode) ∧
    openJob (blockAt 2) dear (village auditMode) = .ok dearOpened ∧
    ∃ s s' job miner, Reach (· = dearOpened) Step (fun _ _ => True) s ∧
      Step s (blockAt 5, dearSettled) s' ∧ settlementOf s dearSettled = some (job, miner) ∧
      job.jobId = ticket ∧ ¬ Deterred auditMode miner.stake job.fee := by
  refine ⟨reachable_village validate_auditMode (by decide) fun _ _ _ _ => trivial, openJob_dear, ?_⟩
  obtain ⟨s, hs, -, hslash, ⟨⟨job, miner⟩, he, hid, hn⟩, hok⟩ := exists_dear
  have hstep : Step s (blockAt 4, slashing 2) (dearSlashed s) := eq_ok_outcome hslash
  have hrun : Reach (· = dearOpened) Step (fun _ _ => True) (dearSlashed s) :=
    .step (hs.mono fun _ _ _ => trivial) trivial hstep
  exact ⟨_, _, job, miner, hrun, eq_ok_outcome (s := dearSlashed s) hok, he, hid, hn⟩

end Dendra.Jobs
