import Dendra.Jobs.Progress.Settle

/-!
# Progress of an instance

Opening a dispute or an audit on a settled job, and every way an instance is closed: by the
authority, by an adjudication, by the verdicts at a deadline, or unwound. Closing an instance frees
the bond of the dispute and uses no more than that.

* `Prog.of_close`: an instance is closed.
* `slashCheatedPrimary_touch`, `refundAndReverse_touch`, …: what each part does to the funds.
-/

namespace Dendra.Jobs

open Word

/-! ## Parts -/

section Parts

variable {c : Ctx} {job job' : Job} {f f' : Funds} {w : Way}

/-- A record of a miner is written over a record with its stake. -/
theorem setMiner_touch {m t : Miner} {j : Str} (hm : f.miners.get? t.minerId = some m) :
    f.Touch (t.stake.toNat - m.stake.toNat) w [] j (f.setMiner t) :=
  .of_spends (.setMiner hm)

theorem reverseDemand_stake (p : Params) (job : Job) (hadRight : Bool) (m : Miner) :
    (reverseDemand p job hadRight m).stake = m.stake ∧
      (reverseDemand p job hadRight m).minerId = m.minerId := by
  unfold reverseDemand
  split
  · exact ⟨rfl, rfl⟩
  · exact ⟨rfl, rfl⟩

theorem forfeitBond_touch : f.Touch job.disputeBond.toNat w [] job.jobId (forfeitBond job f) := by
  unfold forfeitBond
  split
  · exact (Funds.Touch.refl w job.jobId f).mono (by omega)
  · next pools hp =>
    refine (Funds.Touch.of_spends
      ((Funds.Spends.setPools _).trans (Funds.Spends.post
        (p := ⟨.forfeited, job.jobId, [], job.disputeBond⟩) ⟨rfl, rfl⟩))).mono ?_
    have := toNat_add_le pools.treasury job.disputeBond
    simp only [Funds.poolCoins, hp]
    push_cast
    omega

variable [Chain]

/-- The record after the bond of a dispute was sent back, or was not. -/
theorem refundDisputeBond_extends (h : refundDisputeBond c job f = (job', f')) :
    job.Extends [] job' := by
  unfold refundDisputeBond at h
  have same : job.Extends [] job :=
    ⟨rfl, rfl, rfl, rfl, (List.append_nil _).symm, fun _ => .inl rfl⟩
  split at h
  · cases h
    exact same
  · split at h
    · cases h
      exact same
    · split at h
      · cases h
        exact ⟨rfl, rfl, rfl, rfl, (List.append_nil _).symm, fun _ => .inr rfl⟩
      · cases h
        exact same

theorem refundDisputeBond_touch (h : refundDisputeBond c job f = (job', f')) :
    f.Touch job.disputeBond.toNat w [] job.jobId f' := by
  have zero := (Funds.Touch.refl w job.jobId f).mono (show (0 : Int) ≤ job.disputeBond.toNat by omega)
  unfold refundDisputeBond at h
  split at h
  · cases h
    exact zero
  · split at h
    · cases h
      exact zero
    · split at h
      · next g hg =>
        cases h
        exact .of_spends (.pay hg ⟨rfl, rfl⟩)
      · next g hg =>
        cases h
        exact .of_spends (.pay hg ⟨rfl, rfl⟩)

/-- A retention is refunded: what it does, and the record its miner keeps. -/
theorem refundRetained_touch (job : Job) {miner : Miner} (hm : f.miners.get? job.minerId = some miner) :
    f.Touch 0 .refund [] job.jobId (refundRetainedToClient c job f).2.2 ∧
      ∃ m, (refundRetainedToClient c job f).2.2.miners.get? job.minerId = some m ∧
        m.stake = miner.stake := by
  have he := refundRetainedToClient_effect (c := c) job f
  refine ⟨.of_held he, ?_⟩
  have h := he.miners job.minerId
  rw [hm] at h
  obtain ⟨m, hm', e⟩ := Option.map_eq_some_iff.1 h
  have hs : m.sansDemand.stake = miner.sansDemand.stake := congrArg Miner.stake e
  exact ⟨m, hm', hs⟩

theorem refundAndReverse_touch (p : Params) (job : Job) (f : Funds) :
    f.Touch 0 .refund [] job.jobId (refundAndReverse c p job f) := by
  unfold refundAndReverse
  split
  · exact .of_held (refundRetainedToClient_effect _ _)
  · next miner hm =>
    obtain ⟨h1, m, hm', hs⟩ := refundRetained_touch (c := c) job hm
    have hid : miner.minerId = job.minerId := Table.key_of_get? hm
    generalize refundRetainedToClient c job f = r at h1 hm' ⊢
    obtain ⟨_, hadRight, g⟩ := r
    obtain ⟨es, ei⟩ := reverseDemand_stake p job hadRight miner
    have h2 := setMiner_touch (w := .refund) (j := job.jobId)
      (t := reverseDemand p job hadRight miner) (m := m) (by rw [ei, hid]; exact hm')
    refine (h1.trans h2).mono ?_
    rw [es, hs]
    omega

/-- What a slash takes is paid to the client or to the treasury. -/
theorem spendSlash_touch {refunded amt : UInt64} :
    f.Touch amt.toNat w [] job.jobId (spendSlash c job refunded amt f) := by
  unfold spendSlash
  rcases hr : refundClient c .bondRefund job
    (if job.fee > refunded then job.fee - refunded else 0) amt f with ⟨s, g⟩
  obtain ⟨h1, hle⟩ := Funds.Spends.refundClient (P := Funds.Beside job.jobId) hr ⟨rfl, rfl⟩
  have h2 : Funds.Spends (amt - s).toNat (Funds.Beside job.jobId) g
      (g.addTreasury .bondPool job.jobId (amt - s)) := .addTreasury ⟨rfl, rfl⟩
  simp only [hr]
  refine (Funds.Touch.of_spends (h1.trans h2)).mono ?_
  rw [toNat_sub (UInt64.le_iff_toNat_le.2 hle)]
  omega

/-- The slash of a primary: its record of the job only gains a slash, and the bond pays for it. -/
theorem slashCheatedPrimary_spec {p : Params} (hp : p.slashLeakBps.toNat ≤ 10000)
    (h : slashCheatedPrimary c p job f = (job', f')) :
    (∃ recs, job' = { job with slashRecords := recs }) ∧ f.Touch 0 .refund [] job.jobId f' := by
  unfold slashCheatedPrimary at h
  split at h
  · cases h
    exact ⟨⟨_, rfl⟩, .of_held (refundRetainedToClient_effect _ _)⟩
  · next miner hm =>
    obtain ⟨h1, m, hm', hs⟩ := refundRetained_touch (c := c) job hm
    have hid : miner.minerId = job.minerId := Table.key_of_get? hm
    obtain ⟨es, ei⟩ := reverseDemand_stake p job
      (refundRetainedToClient c job f).2.1 miner
    have hle := bpsOf_le (x := miner.stake) hp
    simp only at h
    generalize hg : (refundRetainedToClient c job f).2.2.setMiner
      { reverseDemand p job (refundRetainedToClient c job f).2.1 miner with
        stake := (reverseDemand p job (refundRetainedToClient c job f).2.1 miner).stake -
          bpsOf miner.stake p.slashLeakBps } = g at h
    have h2 : f.Touch (-(bpsOf miner.stake p.slashLeakBps).toNat) .refund [] job.jobId g := by
      rw [← hg]
      have := setMiner_touch (w := .refund) (j := job.jobId)
        (f := (refundRetainedToClient c job f).2.2)
        (t := { reverseDemand p job (refundRetainedToClient c job f).2.1 miner with
          stake := (reverseDemand p job (refundRetainedToClient c job f).2.1 miner).stake -
            bpsOf miner.stake p.slashLeakBps }) (m := m) (by simp only [ei, hid]; exact hm')
      refine (h1.trans this).mono ?_
      simp only [es, hs]
      rw [toNat_sub hle]
      have := toNat_le_of_le hle
      omega
    split at h
    · cases h
      exact ⟨⟨_, rfl⟩, (h2.trans spendSlash_touch).mono (by omega)⟩
    · cases h
      exact ⟨⟨_, rfl⟩, h2.mono (by omega)⟩

end Parts

/-! ## Closing an instance -/

section Close

theorem closeInstance_eq (job : Job) (f : Funds) (s : State) : ∃ r js,
    closeInstance job f s =
      { s with funds := f, jobs := s.jobs.put job, queues := s.queues, juries := js, registry := r } ∧
    js.auditCommittee = ((s.juries.auditCommittee.remove job.jobId).remove
      (redoAnchorKey job.jobId)).remove (humanDisputeKey job.jobId) ∧
    js.auditSelected = s.juries.auditSelected.remove job.jobId :=
  ⟨_, _, rfl, rfl, rfl⟩

/-- A closed job owes no bond. -/
theorem owed_of_closed {job job' : Job} {marks : List Mark} (hx : job.Extends marks job')
    (hm : ∀ m ∈ marks, m.closing) (hr : .resolved ∈ marks) : job'.owed = job.escrow := by
  have hp : jobIsPaid job'.state = jobIsPaid job.state :=
    hx.paid_eq fun m hmm => ⟨(hm m hmm).ne.1, (hm m hmm).ne.2.1⟩
  have he : jobEscrowReturned job'.state = jobEscrowReturned job.state := by
    have : jobEscrowReturned marks = false :=
      contains_eq_false_of_forall fun m hmm => (hm m hmm).ne.2.2.2.2
    rw [hx.state, jobEscrowReturned_append, this, Bool.or_false]
  have hres := hx.isResolved_of_mem hr
  rw [Job.owed, Job.openBond, Job.escrow, hres, hp, he, hx.fee, Job.escrow]
  simp

/-- The bond of a job is what its open dispute holds. -/
theorem View.Sound.bond_le {v : View} (hv : v.Sound) {job : Job} (hj : v.job = some job)
    (hnr : jobIsResolved job.state = false) : job.disputeBond.toNat = job.openBond := by
  rw [Job.openBond, hnr]
  cases hd : jobIsDisputed job.state with
  | true => simp
  | false => simp [hv.undisputed job hj hd]

/-- A job with an entry in the lottery's queue, a picked job, or one with a jury, is undecided. -/
theorem undecided_iff {s : State} {j : Str} : (view s j).Undecided ↔
    lotteryPending s j = true ∨ s.juries.auditSelected.has j = true ∨
      auditCommitteeAllowed s j ≠ [] := by
  have h : (view s j).audits.Nonempty ↔ lotteryPending s j = true := by
    rw [lotteryPending, Queue.holds_iff]
    exact Iff.rfl
  rw [View.Undecided, h]
  exact Iff.rfl

variable [Chain] {c : Ctx} {E : Label → Prop} {s s' : State} {job job' : Job}

theorem Prog.of_close (hE : E .plain) (hw : s.Wf) {l : List Mark} {w : Way}
    {g : List Warrant} {x : Int} {f : Funds} (hj : s.job job.jobId = some job)
    (hnr : jobIsResolved job.state = false) (hx : job.Extends l job')
    (hm : ∀ m ∈ l, m.closing) (hr : .resolved ∈ l)
    (hf : s.funds.Touch x w g job.jobId f) (hcost : x ≤ job.disputeBond.toNat)
    (hopt : w = .release →
      jobIsOptimistic job.state = true ∧ ∃ y ∈ g, (view s job.jobId).Founded job y) :
    Prog E s (closeInstance job' f s) := by
  obtain ⟨r, js, heq, hac, hsel⟩ := closeInstance_eq job' f s
  have hid := hx.jobId
  have hwf : WfJobId job.jobId := hw.jobs _ (Table.has_of_get? hj)
  rw [heq]
  refine .of_record hE hw (by rw [hid]; exact hj) (by rw [hid]; exact hf.others) (fun _ _ => rfl)
    (fun _ _ => rfl) (fun k hk => ?_) (fun k hkw hk => ?_) hf.registered (fun hb => ?_) hf.supply ?_
  · rw [hsel]
    exact KeySet.has_remove_ne hk
  · rw [hac, Store.get_remove_ne (hkw.ne_humanDisputeKey _), Store.get_remove_ne
      (hkw.ne_redoAnchorKey _), Store.get_remove_ne hk]
  · have hs := hf.slack
    have hbond := (hw.sound _ hwf).bond_le hj hnr
    rw [owed_of_closed hx hm hr, Job.owed]
    omega
  · have hseats : allowedSeats { s with juries := js } job'.jobId = [] := by
      have hg : js.auditCommittee.get job'.jobId = none := by
        rw [hac, hid, Store.get_remove_ne (hwf.ne_humanDisputeKey _), Store.get_remove_ne
          (hwf.ne_redoAnchorKey _), Store.get_remove_self]
      simp only [allowedSeats, anchoredSeats, hg]
      rfl
    have hsel' : js.auditSelected.has job'.jobId = false := by
      rw [hsel]
      exact KeySet.has_remove_self
    rw [hseats, hsel', hid]
    exact Life.closed (v := view s job.jobId) hj hnr hx hm hr hopt hf.own

/-- A job whose retention goes back to its client, with the bond of its dispute. -/
theorem Prog.of_refund (hE : E .plain) (hw : s.Wf) {k : Job} {l : List Mark} {f : Funds}
    (hj : s.job job.jobId = some job) (hnr : jobIsResolved job.state = false)
    (hf : s.funds.Touch 0 .refund [] job.jobId f) (hx : job.Extends l k)
    (hbond : k.disputeBond = job.disputeBond) (hm : ∀ m ∈ l, m.closing)
    (hr : .resolved ∈ l) :
    Prog E s (closeInstance (refundDisputeBond c k f).1 (refundDisputeBond c k f).2 s) := by
  rcases hd : refundDisputeBond c k f with ⟨job', f'⟩
  have h2 := refundDisputeBond_touch (w := .refund) hd
  have hx2 := refundDisputeBond_extends hd
  rw [hbond, hx.jobId] at h2
  have hx' : job.Extends l job' :=
    ⟨hx2.jobId.trans hx.jobId, hx2.client.trans hx.client, hx2.minerId.trans hx.minerId,
      hx2.fee.trans hx.fee, by rw [hx2.state, List.append_nil, hx.state], fun hdis => by
        rw [← hbond]; exact hx2.bond hdis⟩
  exact .of_close (x := 0 + job.disputeBond.toNat) hE hw hj hnr hx' hm hr (hf.trans h2) (by omega)
    (by simp)

/-- A stranded retention is undone, or nothing happens. -/
theorem unwindStrandedRetention_prog (hE : E .plain) (hw : s.Wf) {p : Params} {jobId : Str} {b : Bool}
    (hnr : ∀ job, s.job jobId = some job → jobIsResolved job.state = false)
    (h : unwindStrandedRetention c p jobId s = (b, s')) :
    Prog E s s' ∧ (b = false → s' = s) ∧ s'.queues = s.queues ∧
      (b = true → ∃ job', s'.job jobId = some job' ∧ jobIsResolved job'.state = true) := by
  unfold unwindStrandedRetention at h
  split at h
  · cases h
    exact ⟨.refl hw, fun _ => rfl, rfl, by simp⟩
  · next job hstr =>
    have hj : s.job jobId = some job := by
      unfold strandedRetention at hstr
      split at hstr
      · cases hstr
      · split at hstr
        · split at hstr
          · cases hstr
          · exact hstr
        · cases hstr
    have hid : job.jobId = jobId := Table.key_of_get? hj
    rcases hd : refundDisputeBond c job (refundAndReverse c p job s.funds) with ⟨job₁, f₁⟩
    simp only [hd] at h
    cases h
    have hx := refundDisputeBond_extends hd
    have h2 := refundDisputeBond_touch (w := .refund) hd
    have hx' : job.Extends [.resolved, .unwound]
        { job₁ with state := job₁.state ++ [.resolved, .unwound] } :=
      ⟨hx.jobId, hx.client, hx.minerId, hx.fee, by rw [hx.state, List.append_nil], fun hdis => by
        have hdis' : jobIsDisputed job₁.state = false := by
          rw [jobIsDisputed_append, Bool.or_eq_false_iff] at hdis
          exact hdis.1
        exact hx.bond hdis'⟩
    have heq : ((clearAuditCommittee (s.setFunds f₁) jobId).setJob
        { job₁ with state := job₁.state ++ [.resolved, .unwound] }) = closeInstance
          { job₁ with state := job₁.state ++ [.resolved, .unwound] } f₁ s := by
      have hid' : job₁.jobId = jobId := hx.jobId.trans hid
      rw [closeInstance, show ({ job₁ with
        state := job₁.state ++ [.resolved, .unwound] } : Job).jobId = jobId from hid']
      rfl
    rw [heq]
    refine ⟨?_, by simp, rfl, fun _ => ⟨_, ?_, hx'.isResolved_of_mem (by simp)⟩⟩
    · exact .of_close (x := 0 + job.disputeBond.toNat) hE hw (by rw [hid]; exact hj) (hnr job hj)
        hx' (by simp [Mark.closing]) (by simp) ((refundAndReverse_touch _ _ _).trans h2) (by omega) (by simp)
    · have hid' : job₁.jobId = jobId := hx.jobId.trans hid
      show (s.jobs.put _).get? jobId = some _
      rw [Table.get?_put]
      exact if_pos hid'.symm

end Close

/-! ## Deadlines -/

section Deadlines

variable [Chain] {c : Ctx} {E : Label → Prop} {s s' : State} {job : Job} {p : Params}

/-- Only queues change that no view looks at. -/
theorem Prog.of_queues (hE : E .plain) (hw : s.Wf) {qs : Queues}
    (ha : qs.pendingAudit = s.queues.pendingAudit)
    (he : qs.pendingJobExpiry = s.queues.pendingJobExpiry) : Prog E s { s with queues := qs } :=
  .quiet hE hw rfl (fun _ _ => rfl) ha he ⟨rfl, rfl⟩ (fun _ _ h => h) (fun _ h => .inl h)
    (fun _ h => .inl h) (fun _ _ h => .inl h) (fun _ => le_rfl) le_rfl rfl (fun _ _ h => .inl h)

/-- A release on a ground that is noted. -/
theorem release_touch (p : Params) (job : Job) (f : Funds) (wt : Warrant) :
    f.Touch 0 .release [wt] job.jobId (releaseHeld c p job (f.warrant job.jobId wt)) := by
  have h := (Funds.Touch.warrant (f := f) (j := job.jobId) .release wt).trans
    (Funds.Touch.of_held (releaseHeld_effect (c := c) p job _))
  exact h

theorem deferResolution_prog (hE : E .plain) (hw : s.Wf) {jobId : Str} {allowAppeal : Bool}
    (hnr : ∀ job, s.job jobId = some job → jobIsResolved job.state = false) :
    Prog E s (deferResolution c p jobId allowAppeal s) := by
  unfold deferResolution
  rcases hu : unwindStrandedRetention c p jobId s with ⟨b, s₁⟩
  obtain ⟨h1, h2, -, -⟩ := unwindStrandedRetention_prog hE hw hnr hu
  cases b with
  | true => exact h1
  | false =>
    obtain rfl := h2 rfl
    simp only
    split
    · exact .of_queues hE hw rfl rfl
    · exact .of_queues hE hw rfl rfl

theorem resolveByVerdicts_prog (hE : E .plain) (hw : s.Wf) (hp : p.slashLeakBps.toNat ≤ 10000)
    (hj : s.job job.jobId = some job) (hnr : jobIsResolved job.state = false)
    (ho : jobIsOptimistic job.state = true) {allowAppeal : Bool} :
    Prog E s (resolveByVerdicts c p job allowAppeal s) := by
  unfold resolveByVerdicts
  simp only
  generalize auditVerdictTally s job.jobId job.minerId = t
  split
  · rcases hs : slashCheatedPrimary c p (judgedJob t job) s.funds with ⟨j₁, f₁⟩
    obtain ⟨⟨recs, rfl⟩, h1⟩ := slashCheatedPrimary_spec hp hs
    exact .of_refund (l := [.resolved, .clawed, .quorum]) hE hw hj hnr h1
      ⟨rfl, rfl, rfl, rfl, rfl, fun _ => .inl rfl⟩ rfl (by simp [Mark.closing]) (by simp)
  · split
    · next hv =>
      have h1 := release_touch (c := c) p job s.funds
        (.vindicated p t.valid t.voters (t.voters - t.invalidVotes : Int) t.seats)
      refine .of_close (x := job.disputeBond.toNat) (w := .release)
        (g := [.vindicated p t.valid t.voters (t.voters - t.invalidVotes : Int) t.seats])
        (l := [.resolved, .vindicated, .quorum]) hE hw hj hnr
        ⟨rfl, rfl, rfl, rfl, rfl, fun _ => .inr rfl⟩ (by simp [Mark.closing]) (by simp) ?_ (by omega)
        fun _ => ⟨ho, _, List.mem_singleton_self _, .inl hv⟩
      split
      · exact (h1.trans forfeitBond_touch).mono (by omega)
      · exact h1.mono (by omega)
    · refine deferResolution_prog hE hw fun k hk => ?_
      rw [hj, Option.some.injEq] at hk
      rw [← hk]
      exact hnr

/-- The deadline of an audit, of a dispute or of an appeal. -/
theorem resolveDisputedAudit_prog (hE : E .plain) (hw : s.Wf) (hp : p.slashLeakBps.toNat ≤ 10000)
    (jobId : Str) (allowAppeal : Bool) :
    Prog E s (resolveDisputedAudit c p jobId allowAppeal s) := by
  unfold resolveDisputedAudit
  split
  · exact .refl hw
  · next job hj =>
    have hid : job.jobId = jobId := Table.key_of_get? hj
    have hj' : s.job job.jobId = some job := by rw [hid]; exact hj
    split
    · exact .refl hw
    · next hopen =>
      simp only [not_or, Bool.not_eq_false, Bool.not_eq_true] at hopen
      obtain ⟨-, hnr⟩ := hopen
      split
      · next hopt =>
        simp only
        -- what the two releases without a verdict know: nothing is left to decide
        have hund : decide (auditCommitteeAllowed s jobId ≠ []) = false →
            (s.juries.auditSelected.has jobId || lotteryPending s jobId) = false →
            ¬ (view s job.jobId).Undecided := by
          intro h1 h2
          rw [undecided_iff, hid]
          simp only [decide_eq_false_iff_not, Bool.or_eq_false_iff] at h1 h2
          rintro (h | h | h)
          · rw [h2.2] at h
            cases h
          · rw [h2.1] at h
            cases h
          · exact h1 h
        split
        · next hsilent =>
          have h1 := release_touch (c := c) p job s.funds .silent
          rw [hid] at h1
          rcases hd : refundDisputeBond c job
            (releaseHeld c p job (s.funds.warrant jobId .silent)) with ⟨job₁, f₁⟩
          have h2 := refundDisputeBond_touch (w := .release) hd
          have hx := refundDisputeBond_extends hd
          rw [hid] at h2
          refine .of_close (l := [.resolved]) hE hw hj' hnr
            ⟨hx.jobId, hx.client, hx.minerId, hx.fee, by rw [hx.state, List.append_nil],
              fun hdis => hx.bond ?_⟩ (by simp [Mark.closing]) (by simp)
            (by rw [hid]; exact h1.trans h2) (by omega)
            fun _ => ⟨hopt.1, .silent, by simp, .inr (.inr (hund hsilent.1 hsilent.2.2))⟩
          rw [jobIsDisputed_append, Bool.or_eq_false_iff] at hdis
          exact hdis.1
        · split
          · next hunf =>
            have h1 := release_touch (c := c) p job s.funds .unfounded
            have hx : job.Extends [.resolved]
                { job with disputeBond := 0, state := job.state ++ [.resolved] } :=
              ⟨rfl, rfl, rfl, rfl, rfl, fun _ => .inr rfl⟩
            rw [← hid]
            exact .of_close hE hw hj' hnr hx (by simp [Mark.closing]) (by simp)
              (h1.trans forfeitBond_touch) (by omega)
              fun _ => ⟨hopt.1, .unfounded, by simp, .inr (.inr (hund hunf.1 hunf.2.1))⟩
          · exact resolveByVerdicts_prog hE hw hp hj' hnr hopt.1
      · exact .of_refund (k := { job with state := job.state ++ [.resolved] })
          (l := [.resolved]) hE hw hj' hnr (.refl _ _ _)
          ⟨rfl, rfl, rfl, rfl, rfl, fun _ => .inl rfl⟩ rfl (by simp [Mark.closing]) (by simp)

end Deadlines

end Dendra.Jobs
