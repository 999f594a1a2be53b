import Dendra.Jobs.Progress.Audit

/-!
# Progress of a dispute

Opening a dispute, resolving it by the authority, and adjudicating it. The bond of the dispute pays
for whatever leaves the account beside the retention: the reward of a disputer who was right is taken
from the treasury, and a slash from the bond of the primary.
-/

namespace Dendra.Jobs

open Word

/-! ## Opening -/

section Opening

variable [Chain] {c : Ctx} {E : Label → Prop} {s s' : State}

/-- What opening a dispute does to the juries: no jury of a job changes. -/
structure Juries.Beside (js js' : Juries) : Prop where
  selected : js'.auditSelected = js.auditSelected
  seats : ∀ k, WfJobId k → js'.auditCommittee.get k = js.auditCommittee.get k

omit [Chain] in
theorem Juries.Beside.trans {js js' js'' : Juries} (h : js.Beside js') (h' : js'.Beside js'') :
    js.Beside js'' :=
  ⟨h'.selected.trans h.selected, fun k hk => (h'.seats k hk).trans (h.seats k hk)⟩

theorem anchorRedoCommittee_eq (s : State) (j m d : Str) : ∃ js,
    anchorRedoCommittee c s j m d = { s with juries := js } ∧ s.juries.Beside js := by
  unfold anchorRedoCommittee
  split
  · exact ⟨_, rfl, rfl, fun k hk => Store.get_set_ne (hk.ne_redoAnchorKey j)⟩
  · exact ⟨_, rfl, rfl, fun _ _ => rfl⟩

theorem openDispute_eq (d : Str) (job : Job) (s : State) : ∃ js qs,
    openDispute c d job s =
      { s with jobs := s.jobs.put (disputedJob c s.params d job), queues := qs, juries := js } ∧
    s.juries.Beside js ∧ qs.pendingAudit = s.queues.pendingAudit ∧
    qs.pendingJobExpiry = s.queues.pendingJobExpiry := by
  have hbump : ∀ s₁ : State, ∃ js, (if s₁.juries.auditSelected.has job.jobId then s₁ else
      setJuries (bumpAuditsOpened s₁) s₁) = { s₁ with juries := js } ∧ s₁.juries.Beside js := by
    intro s₁
    split
    · exact ⟨_, rfl, rfl, fun _ _ => rfl⟩
    · exact ⟨_, rfl, rfl, fun _ _ => rfl⟩
  unfold openDispute
  obtain ⟨js₁, hj₁, hb₁⟩ := hbump (s.setJob (disputedJob c s.params d job))
  obtain ⟨js₂, hj₂, hb₂⟩ := anchorRedoCommittee_eq (c := c)
    (setJuries { js₁ with
      auditCommittee := js₁.auditCommittee.set (humanDisputeKey job.jobId) d }
      { s.setJob (disputedJob c s.params d job) with juries := js₁ }) job.jobId job.minerId d
  have hhuman : js₁.Beside { js₁ with
      auditCommittee := js₁.auditCommittee.set (humanDisputeKey job.jobId) d } :=
    ⟨rfl, fun k hk => Store.get_set_ne (hk.ne_humanDisputeKey job.jobId)⟩
  simp only [hj₁, hj₂]
  split
  · exact ⟨js₂, _, rfl, (hb₁.trans hhuman).trans hb₂, rfl, rfl⟩
  · exact ⟨js₂, _, rfl, (hb₁.trans hhuman).trans hb₂, rfl, rfl⟩

theorem disputeVerdict_spec {msg : MsgDisputeVerdict} (h : disputeVerdict c msg s = .ok s') :
    ∃ job f, s.job msg.jobId = some job ∧ jobIsPaid job.state = true ∧
      jobIsDisputed job.state = false ∧ jobIsResolved job.state = false ∧
      (∀ o, Funds.Spends (-s.params.disputeBond.toNat) o s.funds f) ∧
      s' = openDispute c msg.creator job (s.setFunds f) := by
  by_cases hb : s.params.disputeBond > 0
  · simp only [disputeVerdict, if_pos hb, bind_ok, ensure_ok, require_ok, pure_ok] at h
    obtain ⟨-, -, -, -, job, hj, -, hp, -, hd, -, hr, f, hf, rfl⟩ := h
    exact ⟨job, f, hj, hp, hd, hr, fun _ => .collected hf, rfl⟩
  · simp only [disputeVerdict, if_neg hb, bind_ok, ensure_ok, require_ok, pure_ok] at h
    obtain ⟨-, -, -, -, job, hj, -, hp, -, hd, -, hr, f, rfl, rfl⟩ := h
    refine ⟨job, _, hj, hp, hd, hr, fun o => (Funds.Spends.refl o _).mono_cost ?_, rfl⟩
    have h0 : s.params.disputeBond.toNat = 0 := by simpa [UInt64.lt_iff_toNat_lt] using hb
    omega

/-- The primary of a job under optimistic settlement is registered. -/
def primaryRegistered (s : State) (job : Job) : Bool :=
  !jobIsOptimistic job.state || s.funds.miners.has job.minerId

theorem disputeVerdict_prog {msg : MsgDisputeVerdict}
    (hE : ∀ job, s.job msg.jobId = some job → E (.dispute (primaryRegistered s job)))
    (hw : s.Wf) (h : disputeVerdict c msg s = .ok s') : Prog E s s' := by
  obtain ⟨job, f, hj, hp, hd, hr, hf, rfl⟩ := disputeVerdict_spec h
  obtain ⟨js, qs, heq, hb, ha, he⟩ := openDispute_eq (c := c) msg.creator job (s.setFunds f)
  rw [heq]
  have hid : job.jobId = msg.jobId := Table.key_of_get? hj
  have hj' : s.job job.jobId = some job := by rw [hid]; exact hj
  have hwf : WfJobId job.jobId := hw.jobs _ (Table.has_of_get? hj')
  have hspend := hf (Funds.Beside [])
  have hx : job.Extends [.disputed] (disputedJob c s.params msg.creator job) :=
    ⟨rfl, rfl, rfl, rfl, rfl, fun hdis => by
      rw [disputedJob, jobIsDisputed_append, Bool.or_eq_false_iff] at hdis
      exact absurd hdis.2 (by decide)⟩
  refine Prog.of_record (r := s.registry) (hE job hj) hw hj'
    (fun k hk => (Funds.Touch.of_spends (w := .refund) (hf (Funds.Beside job.jobId))).others k hk)
    (fun k _ => congrArg (fun q => Queue.heights q k) ha)
    (fun k _ => congrArg (fun q => Queue.heights q k) he)
    (fun k _ => congrArg (fun t => Table.has k t) hb.selected)
    (fun k hk _ => hb.seats k hk) hspend.registered (fun _ => ?_) hspend.supply ?_
  · have hs := hspend.slack
    have ho : job.owed = job.escrow := by simp [Job.owed, Job.openBond, hd]
    have ho' : (disputedJob c s.params msg.creator job).owed =
        job.escrow + s.params.disputeBond.toNat := by
      have h1 : jobIsPaid (disputedJob c s.params msg.creator job).state = true := hx.isPaid hp
      have h2 : jobIsDisputed (disputedJob c s.params msg.creator job).state = true := by
        rw [hx.state, jobIsDisputed_append]
        exact Bool.or_true _
      have h3 : jobIsResolved (disputedJob c s.params msg.creator job).state = false := by
        rw [hx.resolved_eq (by decide)]
        exact hr
      simp only [Job.owed, Job.escrow, Job.openBond, h1, h2, h3, hp]
      rfl
    show s.funds.slack - (job.owed : Nat) ≤
      f.slack - ((disputedJob c s.params msg.creator job).owed : Nat)
    rw [ho, ho']
    push_cast
    omega
  · have hl := Life.disputed (v := view s job.jobId) (b := primaryRegistered s job) hj' hp hx
      fun hreg ho => by
        rw [primaryRegistered, ho, Bool.not_true, Bool.false_or] at hreg
        exact hreg
    have hown : f.purse job.jobId = s.funds.purse job.jobId := Funds.purse_of_spends hspend hwf.1
    have hsel : js.auditSelected = s.juries.auditSelected := hb.selected
    have hseats : allowedSeats { s with juries := js } job.jobId =
        auditCommitteeAllowed s job.jobId :=
      allowedSeats_congr (s := s) (hb.seats _ hwf)
    have hqa : qs.pendingAudit = s.queues.pendingAudit := ha
    have hqe : qs.pendingJobExpiry = s.queues.pendingJobExpiry := he
    show Life (.dispute (primaryRegistered s job)) (view s job.jobId)
      { view s job.jobId with
        job := some (disputedJob c s.params msg.creator job)
        purse := f.purse job.jobId
        audits := qs.pendingAudit.heights job.jobId
        expiry := qs.pendingJobExpiry.heights job.jobId
        selected := js.auditSelected.has job.jobId
        seats := allowedSeats { s with juries := js } job.jobId }
    rw [hown, hsel, hseats, hqa, hqe]
    exact hl

end Opening

/-! ## Paying for a dispute -/

section Paying

variable {j : Str} {acc acc' : Loop} {P : Posting → Prop} {x : Int} {f f' : Funds}

/-- What leaves the pools alone costs the same whatever they hold. -/
theorem Funds.Spends.withPools (h : Funds.Spends x P f f') (hp : f'.pools = f.pools) (pl : Pools) :
    Funds.Spends x P (f.setPools pl) (f'.setPools pl) := by
  refine { h with slack := ?_ }
  have hs := h.slack
  have hpc : f'.poolCoins = f.poolCoins := by simp only [Funds.poolCoins, hp]
  rw [Funds.slack, Funds.slack, hpc] at hs
  show (f.bank.balance : Int) -
    (f.stakes + f.heldTotal + (pl.treasury.toNat + pl.team.toNat) : Nat) ≤ (f'.bank.balance : Int) -
      (f'.stakes + f'.heldTotal + (pl.treasury.toNat + pl.team.toNat) : Nat) + x
  omega

/-- The treasury of a loop's pools is replaced. -/
theorem settled_treasury (acc : Loop) (t : UInt64) :
    Funds.Spends (t.toNat - acc.pools.treasury.toNat) P acc.settled
      (Loop.settled { acc with pools := { acc.pools with treasury := t } }) := by
  refine (Funds.Spends.setPools (f := acc.settled) { acc.pools with treasury := t }).mono_cost ?_
  show ((t.toNat + acc.pools.team.toNat : Nat) -
    (acc.pools.treasury.toNat + acc.pools.team.toNat : Nat) : Int) ≤ _
  omega

theorem restoreContradicted_spends (s : State) (j : Str) (fresh : List FreshVote) (total : UInt64)
    (recs : List SlashRecord) (acc : Loop × Bool) : Funds.Spends 0 P acc.1.settled
      (recs.foldl (restoreContradicted s j fresh total) acc).1.settled := by
  induction recs generalizing acc with
  | nil => exact .refl _ _
  | cons rec recs ih =>
    refine Funds.Spends.trans (x := 0) (y := 0) ?_ (ih _)
    unfold restoreContradicted
    split
    · exact .refl _ _
    · split
      · exact .refl _ _
      · exact restoreSlash_spends

theorem disputeReward_le (bond : UInt64) (pools : Pools) :
    disputeReward bond pools ≤ pools.treasury := by
  unfold disputeReward
  split
  · exact UInt64.le_refl _
  · next h => exact UInt64.not_lt.1 h

variable {job job' : Job}

/-- A reward that is not paid out is lost to the treasury, and the bond stays. -/
theorem unrewarded_spends : Funds.Spends job.disputeBond.toNat (Funds.Beside job.jobId) acc.settled
    (Loop.settled { acc with pools := { acc.pools with
      treasury := acc.pools.treasury - disputeReward job.disputeBond acc.pools } }) := by
  refine (settled_treasury _ _).mono_cost ?_
  have h3 := toNat_sub (disputeReward_le job.disputeBond acc.pools)
  omega

/-- The bond of a lost dispute goes to the treasury. -/
theorem forfeited_spends : Funds.Spends job.disputeBond.toNat (Funds.Beside job.jobId) acc.settled
    (Loop.settled { acc with
      pools := { acc.pools with treasury := acc.pools.treasury + job.disputeBond } }) := by
  refine (settled_treasury _ _).mono_cost ?_
  have := toNat_add_le acc.pools.treasury job.disputeBond
  omega

variable [Chain] {c : Ctx}

/-- The reward of a disputer comes from the treasury, its bond from the account. -/
theorem rewarded_spends {bz : Addr} {text : String}
    (h : acc.funds.payOrFail c (.account bz) ⟨.dispute, job.jobId, job.disputer,
      job.disputeBond + disputeReward job.disputeBond acc.pools⟩ text = .ok f) :
    Funds.Spends job.disputeBond.toNat (Funds.Beside job.jobId) acc.settled
      (Loop.settled { acc with
        funds := f
        pools := { acc.pools with
          treasury := acc.pools.treasury - disputeReward job.disputeBond acc.pools } }) := by
  have h1 := settled_treasury (P := Funds.Beside job.jobId) acc
    (acc.pools.treasury - disputeReward job.disputeBond acc.pools)
  have h2 := Funds.Spends.payOrFail (P := Funds.Beside job.jobId) h ⟨rfl, rfl⟩
  have hp : f.pools = acc.funds.pools := by
    obtain ⟨b, -, rfl⟩ := Funds.payOrFail_ok h
    rfl
  refine (h1.trans (h2.withPools hp _)).mono_cost ?_
  have h3 := toNat_sub (disputeReward_le job.disputeBond acc.pools)
  have h4 := toNat_le_of_le (disputeReward_le job.disputeBond acc.pools)
  have h5 := toNat_add_le job.disputeBond (disputeReward job.disputeBond acc.pools)
  simp only
  omega

theorem payDisputerOrFail_spends (h : payDisputerOrFail c job acc = .ok acc') :
    Funds.Spends job.disputeBond.toNat (Funds.Beside job.jobId) acc.settled acc'.settled := by
  simp only [payDisputerOrFail] at h
  split at h
  · simp only [bind_ok, pure_ok] at h
    obtain ⟨bz, -, f, hf, rfl⟩ := h
    exact rewarded_spends hf
  · rw [pure_ok] at h
    subst h
    exact unrewarded_spends

theorem payDisputer_spends (h : payDisputer c job acc = .ok acc') :
    Funds.Spends job.disputeBond.toNat (Funds.Beside job.jobId) acc.settled acc'.settled := by
  simp only [payDisputer] at h
  split at h
  · split at h
    · rw [pure_ok] at h
      subst h
      exact unrewarded_spends
    · simp only [bind_ok, pure_ok] at h
      obtain ⟨f, hf, rfl⟩ := h
      exact rewarded_spends hf
  · rw [pure_ok] at h
    subst h
    exact unrewarded_spends

theorem authorityRuling_spends {b : Bool} (h : authorityRuling c b job acc = .ok acc') :
    Funds.Spends job.disputeBond.toNat (Funds.Beside job.jobId) acc.settled acc'.settled := by
  unfold authorityRuling at h
  split at h
  · exact ((restoreSlashes_spends _ _).trans (payDisputerOrFail_spends h)).mono_cost (by omega)
  · cases h
    exact forfeited_spends

theorem payOrForfeit_spends {b : Prop} [Decidable b] (h : payOrForfeit c b job acc = .ok acc') :
    Funds.Spends job.disputeBond.toNat (Funds.Beside job.jobId) acc.settled acc'.settled := by
  unfold payOrForfeit at h
  split at h
  · exact payDisputer_spends h
  · cases h
    exact forfeited_spends

/-- The slash of an adjudication costs the account nothing. -/
theorem slashAdjudicated_spec {p : Params} (hp : p.slashLeakBps.toNat ≤ 10000)
    (h : slashAdjudicated c p job acc = (job', acc')) :
    (∃ recs, job' = { job with slashRecords := recs }) ∧
      Funds.Spends 0 (Funds.Beside job.jobId) acc.settled acc'.settled := by
  unfold slashAdjudicated at h
  split at h
  · cases h
    exact ⟨⟨_, rfl⟩, .refl _ _⟩
  · next m hm =>
    have hid : m.minerId = job.minerId := Table.key_of_get? hm
    have hle := bpsOf_le (x := m.stake) hp
    have hle' := toNat_le_of_le hle
    simp only at h
    generalize hf : acc.funds.setMiner { m with stake := m.stake - bpsOf m.stake p.slashLeakBps } = f
      at h
    have h1 : Funds.Spends (-(bpsOf m.stake p.slashLeakBps).toNat) (Funds.Beside job.jobId) acc.funds
        f := by
      rw [← hf]
      refine (Funds.Spends.setMiner (m := m) (by rw [hid]; exact hm)).mono_cost ?_
      simp only
      rw [toNat_sub hle]
      omega
    have hpl : f.pools = acc.funds.pools := by rw [← hf]; rfl
    -- what is paid to the client out of the bond
    rcases hr : (if bpsOf m.stake p.slashLeakBps > 0 ∧ job.fee > retainedTotal job.jobId f then
      refundClient c .bondRefund job (job.fee - retainedTotal job.jobId f)
        (bpsOf m.stake p.slashLeakBps) f else (0, f)) with ⟨sent, g⟩
    have h2 : Funds.Spends sent.toNat (Funds.Beside job.jobId) f g ∧
        sent ≤ bpsOf m.stake p.slashLeakBps ∧ g.pools = f.pools := by
      split at hr
      · obtain ⟨hs, hle⟩ := Funds.Spends.refundClient (P := Funds.Beside job.jobId) hr ⟨rfl, rfl⟩
        refine ⟨hs, UInt64.le_iff_toNat_le.2 hle, ?_⟩
        rcases refundClient_cases hr with ⟨-, rfl | rfl⟩ | ⟨-, -, b, -, rfl⟩
        · rfl
        · rfl
        · rfl
      · cases hr
        exact ⟨(Funds.Spends.refl _ _).mono_cost (by simp), UInt64.le_iff_toNat_le.2 (by simp), rfl⟩
    obtain ⟨h2, hsent, hpl2⟩ := h2
    rw [hr] at h
    cases h
    refine ⟨?_, ?_⟩
    · split
      · exact ⟨_, rfl⟩
      · exact ⟨_, rfl⟩
    · have h3 := (h1.trans h2).withPools (hpl2.trans hpl) acc.pools
      have h4 := settled_treasury (P := Funds.Beside job.jobId) { acc with funds := g }
        (acc.pools.treasury + (bpsOf m.stake p.slashLeakBps - sent))
      have h5 := Funds.Spends.post (P := Funds.Beside job.jobId)
        (f := g.setPools { acc.pools with
          treasury := acc.pools.treasury + (bpsOf m.stake p.slashLeakBps - sent) })
        (p := ⟨.bondPool, job.jobId, [], bpsOf m.stake p.slashLeakBps - sent⟩) ⟨rfl, rfl⟩
      refine ((h3.trans h4).trans h5).mono_cost ?_
      have h6 := toNat_add_le acc.pools.treasury (bpsOf m.stake p.slashLeakBps - sent)
      have h7 := toNat_sub hsent
      have h8 := toNat_le_of_le hsent
      simp only
      omega

end Paying

/-! ## Rulings -/

section Ruling

variable [Chain] {c : Ctx} {E : Label → Prop} {s s' : State} {job : Job} {p : Params}

/-- A ruling closes an instance: the bond of the dispute pays for what leaves the account, and the
retention goes back, is released on a ground, or there is none. -/
theorem Prog.of_ruling (hE : E .plain) (hw : s.Wf) {j t : Job} {l : List Mark} {f g : Funds}
    {w : Warrant} (hj : s.job job.jobId = some job) (hnr : jobIsResolved job.state = false)
    (hx : job.Extends l t) (hm : ∀ m ∈ l, m.closing) (hr : .resolved ∈ l)
    (hs : Funds.Spends job.disputeBond.toNat (Funds.Beside job.jobId) s.funds g)
    (hid : j.jobId = job.jobId)
    (hf : f = g ∨ f = refundAndReverse c p j g ∨ f = releaseHeld c p j (g.warrant job.jobId w) ∧
      jobIsOptimistic job.state = true ∧ (view s job.jobId).Founded job w) :
    Prog E s (closeInstance t f s) := by
  rcases hf with rfl | rfl | ⟨rfl, hopt, hfound⟩
  · exact .of_close (w := .refund) hE hw hj hnr hx hm hr (.of_spends hs) le_rfl (by simp)
  · have h := refundAndReverse_touch (c := c) p j g
    rw [hid] at h
    exact .of_close hE hw hj hnr hx hm hr ((Funds.Touch.of_spends hs).trans h) (by omega) (by simp)
  · have h := release_touch (c := c) p j g w
    rw [hid] at h
    exact .of_close hE hw hj hnr hx hm hr ((Funds.Touch.of_spends hs).trans h) (by omega)
      fun _ => ⟨hopt, w, by simp, hfound⟩

theorem resolveDispute_prog (hE : E .plain) (hw : s.Wf) {msg : MsgResolveDispute}
    (h : resolveDispute c msg s = .ok s') : Prog E s s' := by
  simp only [resolveDispute, bind_ok, ensure_ok, require_ok, pure_ok] at h
  obtain ⟨-, -, -, -, job, hj, -, -, -, hr, acc, hacc, rfl⟩ := h
  have hid : job.jobId = msg.jobId := Table.key_of_get? hj
  have hstart := settled_start (P := Funds.Beside job.jobId) s.funds []
  have hspend : Funds.Spends job.disputeBond.toNat (Funds.Beside job.jobId) s.funds acc.settled :=
    (hstart.trans (authorityRuling_spends hacc)).mono_cost (by omega)
  refine .of_ruling (l := [.resolved]) (w := .authority) (j := job) (c := c) (p := s.params) hE hw
    (by rw [hid]; exact hj) hr ⟨rfl, rfl, rfl, rfl, rfl, fun _ => .inl rfl⟩ (by simp [Mark.closing])
    (by simp) hspend rfl ?_
  split
  · next hopt =>
    split
    · exact .inr (.inl rfl)
    · exact .inr (.inr ⟨rfl, hopt.1, .inl trivial⟩)
  · exact .inl rfl

/-- An adjudication that finds no cheat releases on a founded ground. -/
theorem adjudicatedGround_founded {a : Adjudication} (ha : adjudication c job s = .ok a)
    (hd : decideCheated s.params a.tally a.agree a.total = .ok false) :
    (view s job.jobId).Founded job (adjudicatedGround s.params a.tally a.agree a.total) := by
  simp only [adjudication, bind_ok, ensure_ok, pure_ok] at ha
  obtain ⟨-, -, orig, -, -, -, -, htot, ha⟩ := ha
  unfold decideCheated at hd
  unfold adjudicatedGround
  split at hd
  · next hfloor =>
    rw [if_pos hfloor]
    simp only [bind_ok, ensure_ok, pure_ok] at hd
    obtain ⟨-, hv, hc⟩ := hd
    rw [hc] at hv
    exact .inl (hv.resolve_left (by decide))
  · next hfloor =>
    rw [if_neg hfloor]
    have htally : a.tally = auditVerdictTally s job.jobId job.minerId := by rw [← ha]
    rw [htally] at hfloor
    replace htot := htot.resolve_right hfloor
    have htotal : a.total ≠ 0 := by rw [← ha]; exact htot
    have hagree : a.agree = none → job.minerId ∉ (view s job.jobId).answers := by
      intro hn
      rw [← ha] at hn
      have h0 : answerOf s job.jobId job.minerId = none := Option.map_eq_none_iff.1 hn
      simp [view, h0]
    cases hag : a.agree with
    | none => exact .inr (.inl (hagree hag))
    | some agree =>
      rw [hag] at hd
      simp only [gt_iff_lt, UInt64.pos_iff_ne_zero.2 htotal, if_true] at hd
      split at hd
      · cases hd
      · next hlt =>
        split at hd
        · cases hd
        · next hne => exact .inl ⟨rfl, hlt, hne⟩

theorem adjudicateDispute_prog (hE : E .plain) (hw : s.Wf) {msg : MsgAdjudicateDispute}
    (h : adjudicateDispute c msg s = .ok s') : Prog E s s' := by
  simp only [adjudicateDispute, bind_ok, ensure_ok, require_ok, pure_ok] at h
  obtain ⟨-, -, job, hj, -, -, -, hr, a, ha, cheated, hch, acc, hacc, rfl⟩ := h
  have hid : job.jobId = msg.jobId := Table.key_of_get? hj
  have hrec := (settled_start (P := Funds.Beside job.jobId) s.funds []).trans
    (restoreContradicted_spends s job.jobId a.fresh a.total
      job.slashRecords (⟨s.funds, s.funds.poolsOrZero, []⟩, false))
  generalize List.foldl _ _ job.slashRecords = r at hrec hacc
  have hslash : ∃ recs acc₁, (if cheated = true then slashAdjudicated c s.params job r.1
      else (job, r.1)) = ({ job with slashRecords := recs }, acc₁) ∧
      Funds.Spends 0 (Funds.Beside job.jobId) r.1.settled acc₁.settled := by
    split
    · rcases hs : slashAdjudicated c s.params job r.1 with ⟨j₁, acc₁⟩
      obtain ⟨⟨recs, rfl⟩, h1⟩ := slashAdjudicated_spec hw.checked.slashLeak hs
      exact ⟨recs, acc₁, rfl, h1⟩
    · exact ⟨job.slashRecords, r.1, rfl, .refl _ _⟩
  obtain ⟨recs, acc₁, heq, hs⟩ := hslash
  rw [heq] at hacc ⊢
  have hpay := payOrForfeit_spends hacc
  refine .of_ruling (l := [.resolved, .adjudicated]) (j := { job with slashRecords := recs }) (c := c)
    (p := s.params) (w := adjudicatedGround s.params a.tally a.agree a.total) hE hw
    (by rw [hid]; exact hj) hr ⟨rfl, rfl, rfl, rfl, rfl, fun _ => .inr rfl⟩ (by simp [Mark.closing])
    (by simp) (((hrec.trans hs).trans hpay).mono_cost (by simp)) rfl ?_
  simp only
  split
  · next hopt =>
    cases cheated with
    | true =>
      rw [if_pos rfl]
      exact .inr (.inl rfl)
    | false =>
      rw [primaryCheated, if_pos hopt] at hch
      rw [if_neg Bool.false_ne_true]
      exact .inr (.inr ⟨rfl, hopt.1, adjudicatedGround_founded ha hch⟩)
  · exact .inl rfl

end Ruling

end Dendra.Jobs
