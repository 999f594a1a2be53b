import Dendra.Jobs.HeldFee

/-!
# The bound on a retention

An audit that cannot conclude is put off: no admissible seed, a jury below its floor, or verdicts
below the quorum. Past `audit_unwind_blocks` the settlement is to be undone instead, and everything
retained for the job to go back to its client. The code looks for a retained fee and its date only.

* `PutsOff`: the three places of an end of block where an appointment would be put off.
* `refundRetainedToClient_paidBack`: with a bank that pays, a refund sends the client all of it.
* `unwind_bound`: past the window the client is refunded exactly when a fee is retained.
-/

namespace Dendra.Jobs

open Word Relation

/-! ## Where an appointment is put off -/

section Places

variable [Chain] (c : Ctx)

/-- The state in which the end of a block comes to its audits. -/
def beforeAudits (s : State) : State := runReveal c (blockSeed c s.params) (runExpiry c s)

/-- One deadline of an audit or of an appeal, without its queue. -/
def auditDeadline (s : State) (key : QueueKey) : State :=
  let s := resolveDisputedAudit c s.params (ofLex key).2 true s
  { s with
    queues := { s.queues with pendingAuditResolve := s.queues.pendingAuditResolve.remove key } }

def appealDeadline (s : State) (key : QueueKey) : State :=
  let s := resolveDisputedAudit c s.params (ofLex key).2 false s
  { s with
    queues := { s.queues with pendingAppealResolve := s.queues.pendingAppealResolve.remove key } }

/-- The state in which a picked job gets its jury. -/
def picked (job : Job) (s : State) : State :=
  if s.juries.auditSelected.has job.jobId = false ∧ jobIsDisputed job.state = false then
    setJuries (bumpAuditsOpened s) s
  else s

/-- The verdicts on an optimistic job neither slash its primary nor clear it. -/
structure Inconclusive (s : State) (job : Job) : Prop where
  found : s.job job.jobId = some job
  disputed : jobIsDisputed job.state = true
  unresolved : jobIsResolved job.state = false
  optimistic : jobIsOptimistic job.state = true ∧ job.minerId ≠ []
  /-- it is not a dispute that no audit jury was summoned for -/
  heard : ¬ (auditCommitteeAllowed s job.jobId = [] ∧
    (s.juries.auditSelected.has job.jobId || lotteryPending s job.jobId) = false ∧
    (redoCommitteeAllowed s job.jobId ≠ [] ∨ isHumanDispute s job.jobId = true))
  noSlash : ∀ t, t = auditVerdictTally s job.jobId job.minerId →
    auditSlashDecision s.params t.cheated t.voters t.invalidVotes t.seats = false ∧
    auditVindicateDecision s.params t.valid t.voters (t.voters - t.invalidVotes : Int) t.seats = false

/-- The end of block `c` on `s` comes to an appointment of `job` in the state `t`, has to put it off,
and leaves `t'`. -/
inductive PutsOff (s : State) (job : Job) : State → State → Prop
  /-- the decentralised seed is required, and missing -/
  | noSeed {t : State} {key : QueueKey} {l l' : List QueueKey}
    (hdue : (beforeAudits c s).queues.pendingAudit.due c.h auditMaxPerBlock = l ++ key :: l')
    (ht : t = l.foldl (deferAudit c) (beforeAudits c s)) (hkey : (ofLex key).2 = job.jobId)
    (hj : t.job job.jobId = some job) (hp : jobIsPaid job.state = true)
    (hr : jobIsResolved job.state = false) : PutsOff s job t (deferAudit c t key)
  /-- the jury is below its floor -/
  | smallJury {t t' : State} {key : QueueKey} {l l' : List QueueKey} {members : List Str}
    (hseed : ¬ ((committeeBaseSeedSourced c (beforeAudits c s).params (blockSeed c s.params)).2 = false ∧
      (beforeAudits c s).params.committeeSeedSource = 1))
    (hdue : (beforeAudits c s).queues.pendingAudit.due c.h auditMaxPerBlock = l ++ key :: l')
    (ht : l.foldlM (auditOne c (blockSeed c s.params)) (beforeAudits c s) = .ok t)
    (hkey : (ofLex key).2 = job.jobId) (hj : t.job job.jobId = some job)
    (hp : jobIsPaid job.state = true) (hr : jobIsResolved job.state = false)
    (hsel : t.juries.auditSelected.has job.jobId = true ∨
      auditDraw (blockSeed c s.params) job.jobId < effectiveAuditBps t t.params job)
    (hdraw : drawAuditCommittee c (picked job t) (blockSeed c s.params) job.jobId job.minerId
      (Chain.addrString Chain.authority) = .ok members)
    (hfloor : (members.length : Int) < effectiveSlashFloor (picked job t).params)
    (hs : auditOne c (blockSeed c s.params) t key = .ok t') : PutsOff s job t t'
  /-- the verdicts are below the quorum, at the deadline of the audit -/
  | noQuorum {t₀ t : State} {key : QueueKey} {l l' : List QueueKey}
    (h₀ : runOptimisticAudit c (blockSeed c s.params) (beforeAudits c s) = .ok t₀)
    (hdue : t₀.queues.pendingAuditResolve.due c.h auditMaxPerBlock = l ++ key :: l')
    (ht : t = l.foldl (auditDeadline c) t₀) (hkey : (ofLex key).2 = job.jobId)
    (hi : Inconclusive t job) : PutsOff s job t (auditDeadline c t key)
  /-- the verdicts are below the quorum, at the deadline of the appeal -/
  | noAppeal {t₀ t : State} {key : QueueKey} {l l' : List QueueKey}
    (h₀ : runOptimisticAudit c (blockSeed c s.params) (beforeAudits c s) = .ok t₀)
    (hdue : (runAuditResolveTimeout c t₀).queues.pendingAppealResolve.due c.h auditMaxPerBlock =
      l ++ key :: l')
    (ht : t = l.foldl (appealDeadline c) (runAuditResolveTimeout c t₀))
    (hkey : (ofLex key).2 = job.jobId) (hi : Inconclusive t job) :
    PutsOff s job t (appealDeadline c t key)

end Places

section Reached

variable [Chain] {c : Ctx} {s t t' : State} {job : Job} {E : Label → Prop}

theorem auditDeadline_prog (hE : E .plain) (hw : s.Wf) (l : List QueueKey) :
    Prog E s (l.foldl (auditDeadline c) s) := by
  refine .foldl _ (fun _ _ => True) (fun key l s _ hw => ⟨?_, trivial⟩) trivial hw
  have h := resolveDisputedAudit_prog (c := c) hE hw hw.checked.slashLeak (ofLex key).2 true
  exact h.trans (.of_queues hE h.wf rfl rfl)

theorem appealDeadline_prog (hE : E .plain) (hw : s.Wf) (l : List QueueKey) :
    Prog E s (l.foldl (appealDeadline c) s) := by
  refine .foldl _ (fun _ _ => True) (fun key l s _ hw => ⟨?_, trivial⟩) trivial hw
  have h := resolveDisputedAudit_prog (c := c) hE hw hw.checked.slashLeak (ofLex key).2 false
  exact h.trans (.of_queues hE h.wf rfl rfl)

omit [Chain] in
/-- The first entries of what is due. -/
theorem Pending.of_due {q : Queue} {n : Nat} {key : QueueKey} {l l' : List QueueKey}
    (hq : s.queues.pendingAudit = q) (hdue : q.due c.h n = l ++ key :: l') : Pending c l s := by
  subst hq
  have hn := Queue.nodup_due s.queues.pendingAudit c.h n
  rw [hdue] at hn
  refine ⟨fun k hk => ?_, hn.of_append_left⟩
  have hmem : k ∈ s.queues.pendingAudit.due c.h n := by
    rw [hdue]
    exact List.mem_append_left _ hk
  exact Queue.mem_due hmem

/-- The state in which an appointment is put off is reached by progress from that of the block. -/
theorem PutsOff.prog (hw : s.Wf) (h : PutsOff c s job t t') : Prog (fun _ => True) s t := by
  have h1 : Prog (fun _ => True) s (beforeAudits c s) := by
    have he := runExpiry_prog (c := c) (E := fun _ => True) trivial hw fun _ _ _ _ => trivial
    exact he.trans (.of_aside trivial he.wf (runReveal_aside _))
  cases h with
  | noSeed hdue ht =>
    subst ht
    refine h1.trans (.foldl _ (Pending c) (fun key l s hP hw => ?_) (.of_due rfl hdue) h1.wf)
    obtain ⟨h2, h3⟩ := deferAudit_prog (c := c) (E := fun _ => True) (h := (ofLex key).1)
      (j := (ofLex key).2) trivial hw (hP.1 key (.head _)).1
    exact ⟨h2, hP.tail h3⟩
  | smallJury hseed hdue ht =>
    refine h1.trans (.foldlM _ (fun l s₁ => Pending c l s₁ ∧ s₁.params = (beforeAudits c s).params)
      (fun key l s₁ s₂ hP hw h12 => ?_) ⟨.of_due rfl hdue, rfl⟩ h1.wf ht)
    obtain ⟨hP, hparams⟩ := hP
    obtain ⟨h2, h3⟩ := auditOne_prog (E := fun _ => True) (h := (ofLex key).1) (j := (ofLex key).2)
      trivial trivial hw (hparams ▸ hseed) (hP.1 key (.head _)).2 (hP.1 key (.head _)).1 h12
    exact ⟨h2, hP.tail h3, h2.params.trans hparams⟩
  | noQuorum h₀ hdue ht =>
    subst ht
    have h2 := h1.trans (runOptimisticAudit_prog trivial trivial h1.wf h₀)
    exact h2.trans (auditDeadline_prog trivial h2.wf _)
  | noAppeal h₀ hdue ht =>
    subst ht
    have h2 := h1.trans (runOptimisticAudit_prog trivial trivial h1.wf h₀)
    have h3 := h2.trans (runAuditResolveTimeout_prog (c := c) trivial h2.wf)
    exact h3.trans (appealDeadline_prog trivial h3.wf _)

/-- The job of an appointment that is put off is settled and open. -/
theorem PutsOff.job_eq (h : PutsOff c s job t t') : t.job job.jobId = some job := by
  cases h with
  | noSeed hdue ht hkey hj => exact hj
  | smallJury hseed hdue ht hkey hj => exact hj
  | noQuorum h₀ hdue ht hkey hi => exact hi.found
  | noAppeal h₀ hdue ht hkey hi => exact hi.found

/-- What it does to the money is what the unwind does, whatever the cause. -/
theorem PutsOff.funds (h : PutsOff c s job t t') : ∃ t₁ : State, t₁.funds = t.funds ∧
    t₁.jobs = t.jobs ∧ t₁.params = t.params ∧
    t'.funds = (unwindStrandedRetention c t.params job.jobId t₁).2.funds := by
  have hresolve : ∀ (t : State) allow, Inconclusive t job →
      (resolveDisputedAudit c t.params job.jobId allow t).funds =
        (unwindStrandedRetention c t.params job.jobId t).2.funds := by
    intro t allow hi
    obtain ⟨hslash, hvind⟩ := hi.noSlash _ rfl
    have hred : ¬ (decide (auditCommitteeAllowed t job.jobId ≠ []) = false ∧
        decide (redoCommitteeAllowed t job.jobId ≠ []) = true ∧
        (t.juries.auditSelected.has job.jobId || lotteryPending t job.jobId) = false) := by
      rintro ⟨h1, h2, h3⟩
      exact hi.heard ⟨by simpa using h1, h3, .inl (of_decide_eq_true h2)⟩
    have hhum : ¬ (decide (auditCommitteeAllowed t job.jobId ≠ []) = false ∧
        (t.juries.auditSelected.has job.jobId || lotteryPending t job.jobId) = false ∧
        isHumanDispute t job.jobId = true) := by
      rintro ⟨h1, h2, h3⟩
      exact hi.heard ⟨by simpa using h1, h2, .inr h3⟩
    simp only [resolveDisputedAudit, hi.found, hi.disputed, hi.unresolved, if_pos hi.optimistic]
    rw [if_neg (by simp), if_neg hred, if_neg hhum]
    simp only [resolveByVerdicts, hslash, hvind, deferResolution]
    rw [if_neg (by decide), if_neg (by decide)]
    rcases hu : unwindStrandedRetention c t.params job.jobId t with ⟨b, t₁⟩
    cases b with
    | true => rfl
    | false =>
      have hsame : t₁ = t := by
        unfold unwindStrandedRetention at hu
        split at hu
        · cases hu
          rfl
        · cases hu
      subst hsame
      simp only
      split <;> rfl
  cases h with
  | noSeed hdue ht hkey hj hp hr =>
    refine ⟨t, rfl, rfl, rfl, ?_⟩
    simp only [deferAudit, hkey, hj, Option.any_some, hp, hr, Bool.not_false, Bool.and_self,
      if_true]
    rcases unwindStrandedRetention c t.params job.jobId t with ⟨b, t₁⟩
    cases b <;> rfl
  | @smallJury _ _ key _ _ members hseed hdue ht hkey hj hp hr hsel hdraw hfloor hs =>
    have hpick : (picked job t).funds = t.funds ∧ (picked job t).jobs = t.jobs ∧
        (picked job t).params = t.params := by
      unfold picked
      split <;> exact ⟨rfl, rfl, rfl⟩
    refine ⟨setJuries { (picked job t).juries with
      auditSelected := (picked job t).juries.auditSelected.insert job.jobId } (picked job t),
      hpick.1, hpick.2.1, hpick.2.2, ?_⟩
    simp only [auditOne, hkey, hj, hp, hr] at hs
    rw [if_neg (by simp), if_pos hsel] at hs
    have hsa : selectAudit c (blockSeed c s.params) key job t =
        .ok (deferAuditForSmallJury c key (setJuries { (picked job t).juries with
          auditSelected := (picked job t).juries.auditSelected.insert job.jobId } (picked job t))) := by
      unfold picked at hdraw hfloor ⊢
      unfold selectAudit
      simp only [hdraw]
      exact if_pos hfloor
    rw [hsa] at hs
    cases hs
    have hdefer : ∀ t₁ : State, t₁.params = t.params → (deferAuditForSmallJury c key t₁).funds =
        (unwindStrandedRetention c t.params job.jobId t₁).2.funds := by
      intro t₁ hp₁
      simp only [deferAuditForSmallJury, hkey, hp₁]
      rcases unwindStrandedRetention c t.params job.jobId t₁ with ⟨b, t₂⟩
      cases b <;> rfl
    exact hdefer _ hpick.2.2
  | noQuorum h₀ hdue ht hkey hi =>
    refine ⟨t, rfl, rfl, rfl, ?_⟩
    rw [← hresolve t true hi, ← hkey]
    rfl
  | noAppeal h₀ hdue ht hkey hi =>
    refine ⟨t, rfl, rfl, rfl, ?_⟩
    rw [← hresolve t false hi, ← hkey]
    rfl

end Reached

/-! ## A refund with a bank that pays -/

/-- The account has the coins retained for the job. -/
def Funds.Covers (f : Funds) (j : Str) : Prop := (f.purse j).retained ≤ f.bank.balance

/-- Payments to the client of the job, and no others, lead from `f` to `f'`. -/
def PaidBack (job : Job) (f f' : Funds) : Prop :=
  ∃ l, f'.journal = l ++ f.journal ∧
    (∀ p ∈ l, p.kind = .refund ∧ p.job = job.jobId ∧ p.party = job.client) ∧
    f.bank.balance ≤ f'.bank.balance + Purse.spent l

section PaidBack

variable {job : Job} {f f' f'' : Funds}

theorem PaidBack.of_same (hj : f'.journal = f.journal) (hb : f'.bank = f.bank) :
    PaidBack job f f' := by
  refine ⟨[], by rw [hj]; rfl, by simp, ?_⟩
  rw [hb]
  exact Nat.le_add_right _ _

theorem PaidBack.trans (h : PaidBack job f f') (h' : PaidBack job f' f'') :
    PaidBack job f f'' := by
  obtain ⟨l, hl, hk, hb⟩ := h
  obtain ⟨l', hl', hk', hb'⟩ := h'
  refine ⟨l' ++ l, by rw [hl', hl, List.append_assoc], fun p hp => ?_, ?_⟩
  · rcases List.mem_append.1 hp with hp | hp
    · exact hk' p hp
    · exact hk p hp
  · rw [Purse.spent_append]
    omega

/-- What the client got, and what is still retained. -/
theorem PaidBack.retained {l : List Posting} (hl : f'.journal = l ++ f.journal)
    (hk : ∀ p ∈ l, p.kind = .refund ∧ p.job = job.jobId ∧ p.party = job.client)
    (he : HeldEffect .refund job.jobId f f') :
    Purse.spent l + (f'.purse job.jobId).retained = (f.purse job.jobId).retained := by
  have hacc := he.accounted job.jobId
  rw [← Funds.accounted_purse, ← Funds.accounted_purse, Purse.accounted, Purse.accounted] at hacc
  have hpost : (f'.purse job.jobId).postings = l ++ (f.purse job.jobId).postings := by
    simp only [Funds.purse, hl]
    exact Funds.filter_append_self fun p hp => (hk p hp).2.1
  rw [hpost, Purse.spent_append] at hacc
  omega

/-- The account still has the coins of the rest. -/
theorem PaidBack.covers (h : PaidBack job f f') (he : HeldEffect .refund job.jobId f f')
    (hc : f.Covers job.jobId) : f'.Covers job.jobId := by
  obtain ⟨l, hl, hk, hb⟩ := h
  have := PaidBack.retained hl hk he
  unfold Funds.Covers at hc ⊢
  omega

/-- One share is part of what is retained. -/
theorem Funds.Covers.share {sh : Share} {amt : UInt64} (hc : f.Covers job.jobId)
    (h : f.heldOf sh job.jobId = some amt) : amt.toNat ≤ f.bank.balance := by
  have hsh : (f.purse job.jobId).held sh = some amt := h
  refine Nat.le_trans ?_ hc
  unfold Purse.retained
  cases sh <;> rw [hsh, Option.getD_some] <;> omega

variable [Chain] {c : Ctx} {cliBz : Addr}

/-- One amount goes back. -/
theorem returnAmount_paidBack (hno : ∀ n, c.refuses n = false)
    (hbz : Chain.addrBytes job.client = some cliBz) {amt : UInt64}
    (hb : amt.toNat ≤ f.bank.balance) : PaidBack job f (returnAmount c job amt f).2 := by
  unfold returnAmount
  by_cases h0 : amt = 0
  · have hr : refundClient c .refund job amt amt f = (0, f) := by
      unfold refundClient
      rw [if_pos (by rw [refundable_self]; exact h0)]
    rw [hr, h0]
    simp only [UInt64.sub_self, addTreasury_zero]
    exact .of_same rfl rfl
  · have hpay : ∃ b, f.bank.pay c (.account cliBz) amt = (true, b) ∧
        f.bank.balance ≤ b.balance + amt.toNat := by
      unfold Bank.pay
      rw [if_neg (by rw [hno]; simpa using hb)]
      simp only
      split
      · exact ⟨_, rfl, by simp [Bank.called]⟩
      · exact ⟨_, rfl, by simp only; omega⟩
    obtain ⟨b, hpay, hbal⟩ := hpay
    have hr : refundClient c .refund job amt amt f =
        (amt, { f with bank := b, journal := ⟨.refund, job.jobId, job.client, amt⟩ :: f.journal }) := by
      simp only [refundClient, refundable_self, if_neg h0, hbz, Funds.pay, hpay]
    rw [hr]
    simp only [UInt64.sub_self, addTreasury_zero]
    refine ⟨[⟨.refund, job.jobId, job.client, amt⟩], rfl, by simp, ?_⟩
    simpa [Purse.spent, Kind.spendsFee] using hbal

theorem refundShare_paidBack (hno : ∀ n, c.refuses n = false)
    (hbz : Chain.addrBytes job.client = some cliBz) (sh : Share) (hc : f.Covers job.jobId) :
    PaidBack job f (refundShare c sh job f).2 := by
  unfold refundShare
  split
  · exact .of_same rfl rfl
  · next amt h =>
    simp only
    split
    · exact .of_same rfl rfl
    · exact returnAmount_paidBack (f := f.dropHeld sh job.jobId) hno hbz (hc.share h)

theorem refundFee_paidBack (hno : ∀ n, c.refuses n = false)
    (hbz : Chain.addrBytes job.client = some cliBz) (hc : f.Covers job.jobId) :
    PaidBack job f (refundFee c job f).2 := by
  unfold refundFee
  split
  · exact .of_same rfl rfl
  · next held h =>
    split
    · exact returnAmount_paidBack (f := { f.dropHeld .fee job.jobId with
        heldSince := f.heldSince.remove job.jobId }) hno hbz (hc.share h)
    · exact .of_same rfl rfl

theorem refundBurn_paidBack (hno : ∀ n, c.refuses n = false)
    (hbz : Chain.addrBytes job.client = some cliBz) (hc : f.Covers job.jobId) :
    PaidBack job f (refundBurn c job f).2 := by
  unfold refundBurn
  split
  · exact .of_same rfl rfl
  · next hb h =>
    split
    · exact returnAmount_paidBack (f := f.dropHeld .burn job.jobId) hno hbz (hc.share h)
    · exact .of_same rfl rfl

/-- A refund pays the client, and nobody else. -/
theorem refundRetainedToClient_paidBack (hno : ∀ n, c.refuses n = false)
    (hbz : Chain.addrBytes job.client = some cliBz) (hc : f.Covers job.jobId) :
    PaidBack job f (refundRetainedToClient c job f).2.2 := by
  have h1 := refundFee_paidBack hno hbz hc
  have hc1 := h1.covers refundFee_effect hc
  have h2 := refundShare_paidBack hno hbz .validator hc1
  have hc2 := h2.covers refundShare_effect hc1
  have h3 := refundShare_paidBack hno hbz .team hc2
  have hc3 := h3.covers refundShare_effect hc2
  have h4 := refundShare_paidBack hno hbz .treasury hc3
  have hcut : PaidBack job (refundFee c job f).2
      (refundRetainedCut c job (refundFee c job f).2).2.2 := by
    have hshares := (h2.trans h3).trans h4
    unfold refundRetainedCut
    simp only
    split
    · exact hshares.trans (.of_same rfl rfl)
    · exact hshares
  have h5 := refundBurn_paidBack hno hbz (hcut.covers refundRetainedCut_effect hc1)
  simp only [refundRetainedToClient]
  exact (h1.trans hcut).trans h5

omit [Chain] in
/-- An entry that is gone, or zero, stays so. -/
theorem HeldEffect.gone {w : Way} {j : Str} {sh : Share} (he : HeldEffect w j f f')
    (h : (f.heldOf sh j).getD 0 = 0) : (f'.heldOf sh j).getD 0 = 0 := by
  rcases he.heldOf sh with e | e
  · rw [e]
    exact h
  · rw [e]
    rfl

theorem refundShare_gone (sh : Share) :
    ((refundShare c sh job f).2.heldOf sh job.jobId).getD 0 = 0 := by
  unfold refundShare
  split
  · next h => rw [h]; rfl
  · simp only
    split
    · rw [Funds.heldOf_dropHeld_self]
      rfl
    · rw [heldOf_returnAmount, Funds.heldOf_dropHeld_self]
      rfl

/-- Nothing stays retained after a refund. -/
theorem refundRetainedToClient_gone (sh : Share) :
    ((refundRetainedToClient c job f).2.2.heldOf sh job.jobId).getD 0 = 0 := by
  have hpos : ∀ amt : UInt64, ¬ amt > 0 → amt = 0 := fun amt h => by
    simpa [UInt64.pos_iff_ne_zero] using h
  have hfee : ((refundFee c job f).2.heldOf .fee job.jobId).getD 0 = 0 := by
    unfold refundFee
    split
    · next h => rw [h]; rfl
    · next held h =>
      split
      · rw [heldOf_returnAmount]
        show ((f.dropHeld .fee job.jobId).heldOf .fee job.jobId).getD 0 = 0
        rw [Funds.heldOf_dropHeld_self]
        rfl
      · next h0 =>
        rw [h]
        exact hpos _ h0
  have hburn : ∀ g : Funds, ((refundBurn c job g).2.heldOf .burn job.jobId).getD 0 = 0 := by
    intro g
    unfold refundBurn
    split
    · next h => rw [h]; rfl
    · next hb h =>
      split
      · rw [heldOf_returnAmount, Funds.heldOf_dropHeld_self]
        rfl
      · next h0 =>
        rw [h]
        exact hpos _ h0
  set g := (refundFee c job f).2 with hg
  have hv : ((refundShare c .validator job g).2.heldOf .validator job.jobId).getD 0 = 0 :=
    refundShare_gone _
  have ht : ((refundShare c .team job (refundShare c .validator job g).2).2.heldOf .team
      job.jobId).getD 0 = 0 := refundShare_gone _
  have hr : ((refundShare c .treasury job (refundShare c .team job
      (refundShare c .validator job g).2).2).2.heldOf .treasury job.jobId).getD 0 = 0 :=
    refundShare_gone _
  have hcut : ∀ sh, ((refundShare c .treasury job (refundShare c .team job
      (refundShare c .validator job g).2).2).2.heldOf sh job.jobId).getD 0 = 0 →
      ((refundRetainedCut c job g).2.2.heldOf sh job.jobId).getD 0 = 0 := by
    intro sh h
    simp only [refundRetainedCut]
    split <;> exact h
  have hbe : HeldEffect .refund job.jobId _ (refundBurn c job (refundRetainedCut c job g).2.2).2 :=
    refundBurn_effect
  simp only [refundRetainedToClient]
  cases sh with
  | fee => exact hbe.gone (refundRetainedCut_effect.gone hfee)
  | burn => exact hburn _
  | validator => exact hbe.gone (hcut _ (refundShare_effect.gone (refundShare_effect.gone hv)))
  | team => exact hbe.gone (hcut _ (refundShare_effect.gone ht))
  | treasury => exact hbe.gone (hcut _ hr)

end PaidBack

/-! ## The unwind -/

/-- Everything retained for the job went back to its client. -/
def RefundedInFull (job : Job) (f f' : Funds) : Prop :=
  (∀ sh, (f'.heldOf sh job.jobId).getD 0 = 0) ∧ ∃ l, f'.journal = l ++ f.journal ∧
    Purse.spent (l.filter fun p => decide (p.kind = .refund ∧ p.job = job.jobId ∧
      p.party = job.client)) = (f.purse job.jobId).retained

section Unwind

variable [Chain] {c : Ctx} {p : Params} {s : State} {job : Job}

/-- Without a retained fee nothing is undone. -/
theorem unwindStrandedRetention_idle {j : Str} (h : ∀ a, s.funds.heldOf .fee j = some a → a = 0) :
    unwindStrandedRetention c p j s = (false, s) := by
  have hnone : strandedRetention c p j s = none := by
    unfold strandedRetention
    split
    · rfl
    · split
      · next held since hf _ => rw [if_pos (.inl (h held hf))]
      · rfl
  simp only [unwindStrandedRetention, hnone]

/-- A retained fee that is old enough is undone. -/
theorem unwindStrandedRetention_due {held since : UInt64} (hU : p.auditUnwindBlocks ≠ 0)
    (hf : s.funds.heldOf .fee job.jobId = some held) (h0 : held ≠ 0)
    (hs : s.funds.heldSince.get job.jobId = some since)
    (hage : ¬ (c.h64 < since ∨ c.h64 - since < p.auditUnwindBlocks))
    (hj : s.job job.jobId = some job) :
    (unwindStrandedRetention c p job.jobId s).2.funds =
      (refundDisputeBond c job (refundAndReverse c p job s.funds)).2 := by
  have hstr : strandedRetention c p job.jobId s = some job := by
    simp only [strandedRetention, if_neg hU, hf, hs]
    rw [if_neg (not_or.2 ⟨h0, hage⟩)]
    exact hj
  simp only [unwindStrandedRetention, hstr]
  rfl

/-- The refund, without the miner's record. -/
theorem refundAndReverse_same (job : Job) (f : Funds) :
    (refundAndReverse c p job f).journal = (refundRetainedToClient c job f).2.2.journal ∧
      (refundAndReverse c p job f).held = (refundRetainedToClient c job f).2.2.held := by
  unfold refundAndReverse
  rcases refundRetainedToClient c job f with ⟨x, b, g⟩
  split <;> exact ⟨rfl, rfl⟩

/-- The bond of the disputer is beside the retention. -/
theorem refundDisputeBond_beside (job : Job) (f : Funds) :
    (refundDisputeBond c job f).2.held = f.held ∧ ∃ l, (refundDisputeBond c job f).2.journal =
      l ++ f.journal ∧ ∀ p ∈ l, p.kind = .dispute := by
  unfold refundDisputeBond
  split
  · exact ⟨rfl, [], rfl, by simp⟩
  · split
    · exact ⟨rfl, [], rfl, by simp⟩
    · split
      · next g hg =>
        obtain ⟨b, -, rfl⟩ := Funds.pay_ok hg
        exact ⟨rfl, [_], rfl, by simp⟩
      · next g hg =>
        rw [Funds.pay_refused hg]
        exact ⟨rfl, [], rfl, by simp⟩

/-- The unwind sends the client everything. -/
theorem refundedInFull_unwind {cliBz : Addr} {f : Funds} (hno : ∀ n, c.refuses n = false)
    (hbz : Chain.addrBytes job.client = some cliBz) (hc : f.Covers job.jobId) :
    RefundedInFull job f (refundDisputeBond c job (refundAndReverse c p job f)).2 := by
  obtain ⟨hjournal, hheld⟩ := refundAndReverse_same (c := c) (p := p) job f
  obtain ⟨hheld', l', hl', hk'⟩ := refundDisputeBond_beside (c := c) job (refundAndReverse c p job f)
  have hback := refundRetainedToClient_paidBack hno hbz hc
  have heff := refundRetainedToClient_effect (c := c) job f
  have hgone : ∀ sh, ((refundRetainedToClient c job f).2.2.heldOf sh job.jobId).getD 0 = 0 :=
    fun sh => refundRetainedToClient_gone sh
  generalize (refundRetainedToClient c job f).2.2 = g at hjournal hheld hback heff hgone
  generalize refundAndReverse c p job f = g₁ at hjournal hheld hheld' hl'
  generalize (refundDisputeBond c job g₁).2 = g₂ at hheld' hl'
  obtain ⟨l, hl, hk, -⟩ := hback
  have hzero : (g.purse job.jobId).retained = 0 := by
    have hz : ∀ sh, (((g.purse job.jobId).held sh).getD 0).toNat = 0 := fun sh => by
      rw [show ((g.purse job.jobId).held sh).getD 0 = 0 from hgone sh]
      rfl
    simp only [Purse.retained, hz]
  have hsum := PaidBack.retained hl hk heff
  rw [hzero, Nat.add_zero] at hsum
  have hnil : l'.filter (fun p => decide (p.kind = .refund ∧ p.job = job.jobId ∧
      p.party = job.client)) = [] :=
    List.filter_eq_nil_iff.2 fun p hp => by simp [hk' p hp]
  have hall : l.filter (fun p => decide (p.kind = .refund ∧ p.job = job.jobId ∧
      p.party = job.client)) = l := List.filter_eq_self.2 fun p hp => decide_eq_true (hk p hp)
  refine ⟨fun sh => ?_, l' ++ l, ?_, ?_⟩
  · rw [Funds.heldOf, hheld', hheld]
    exact hgone sh
  · rw [hl', hjournal, hl, List.append_assoc]
  · rw [List.filter_append, hnil, List.nil_append, hall, hsum]

end Unwind

/-! ## The date of a retention -/

/-- The job is settled for this client, and a retained fee is as old as `since`. -/
def View.Dated (since : UInt64) (client : Str) (v : View) : Prop :=
  ∃ job, v.job = some job ∧ jobIsPaid job.state = true ∧ job.client = client ∧
    ∀ a, v.purse.held .fee = some a → a ≠ 0 → v.purse.since = some since

section Dated

variable {since : UInt64} {client : Str} {e : Label} {v v' : View}

theorem View.Dated.effect {w : Way} {q : Purse} (ws : List Warrant)
    (h : ∀ a, v.purse.held .fee = some a → a ≠ 0 → v.purse.since = some since)
    (he : Purse.Effect w { v.purse with warrants := ws } q) :
    ∀ a, q.held .fee = some a → a ≠ 0 → q.since = some since := by
  intro a ha h0
  rw [he.since a ha h0]
  rcases he.held .fee with e | e
  · exact h a (e.symm.trans ha) h0
  · rw [ha] at e
    cases e

theorem View.Dated.step (h : v.Dated since client) (hl : Life e v v') : v'.Dated since client := by
  obtain ⟨k, hk, hp, hc, hd⟩ := h
  have hext : ∀ {job job' : Job} {l : List Mark}, v.job = some job → job.Extends l job' →
      jobIsPaid job'.state = true ∧ job'.client = client := by
    intro job job' l hj hx
    rw [hj, Option.some.injEq] at hk
    subst hk
    exact ⟨hx.isPaid hp, hx.client.trans hc⟩
  cases hl with
  | quiet | dropped | retried | undrawn | deferred | unqueued => exact ⟨k, hk, hp, hc, hd⟩
  | opened hn => rw [hn] at hk; cases hk
  | marked hj hnp =>
    rw [hj, Option.some.injEq] at hk
    rw [hk, hp] at hnp
    cases hnp
  | settled hj hnp =>
    rw [hj, Option.some.injEq] at hk
    rw [hk, hp] at hnp
    cases hnp
  | expired hj hst =>
    rw [hj, Option.some.injEq] at hk
    rw [← hk, hst] at hp
    cases hp
  | disputed hj hnp hx => exact ⟨_, rfl, (hext hj hx).1, (hext hj hx).2, hd⟩
  | summoned hh hj hnp hx => exact ⟨_, rfl, (hext hj hx).1, (hext hj hx).2, hd⟩
  | closed hj hnr hx hm hr hopt heff =>
    exact ⟨_, rfl, (hext hj hx).1, (hext hj hx).2, View.Dated.effect _ hd heff⟩
  | passed hh hj hnp hsel hw heff => exact ⟨k, hk, hp, hc, View.Dated.effect _ hd heff⟩
  | rereleased hq heff =>
    exact ⟨k, hk, hp, hc, View.Dated.effect v.purse.warrants hd heff⟩

variable [Chain] {c : Ctx} {s s' : State} {job : Job}

/-- What a settlement does after it retained the fee. -/
theorem retained_after_fee {p : Params} {f f' : Funds} {miner : Miner}
    {burn right v t u : UInt64} {j : Str}
    (h : retainBurn c p j burn (retainDemand job miner right (retainCut j v t u f)) = .ok f') :
    f'.heldOf .fee j = f.heldOf .fee j ∧ f'.heldSince = f.heldSince := by
  have hshare : ∀ (sh : Share) (x : UInt64) (g : Funds),
      (retainShare sh j x g).heldSince = g.heldSince := by
    intro sh x g
    unfold retainShare
    split <;> rfl
  have hcut : (retainCut j v t u f).heldSince = f.heldSince := by
    unfold retainCut
    rw [hshare, hshare, hshare]
  have hdem : (retainDemand job miner right (retainCut j v t u f)).heldOf .fee j =
      f.heldOf .fee j ∧ (retainDemand job miner right (retainCut j v t u f)).heldSince =
        f.heldSince := by
    have hheld := heldOf_retainCut .fee (j := j) (f := f) (v := v) (t := t) (u := u) (by decide)
    unfold retainDemand
    split <;> exact ⟨hheld, hcut⟩
  unfold retainBurn at h
  split at h
  · split at h
    · rw [pure_ok] at h
      subst h
      exact ⟨(Funds.heldOf_setHeld_share (by decide)).trans hdem.1, hdem.2⟩
    · obtain ⟨b, -, rfl⟩ := Funds.payOrFail_ok h
      exact hdem
  · rw [pure_ok] at h
    subst h
    exact hdem

/-- A settlement dates what it retains of the fee. -/
theorem settleOptimistic_dated (hw : s.Wf) (hj : s.job job.jobId = some job)
    (hp : jobIsPaid job.state = false) (h : settleOptimistic c job s = .ok s') :
    (view s' job.jobId).Dated c.h64 job.client := by
  obtain ⟨primId, pc, miner, f₁, f', right, -, -, -, -, -, -, h₁, h', r, rfl⟩ :=
    settleOptimistic_spec h
  refine ⟨{ job with minerId := primId, state := job.state ++ [.paid, .optimistic] }, ?_, ?_, rfl,
    fun a ha h0 => ?_⟩
  · exact Table.get?_put_self (t := s.jobs) (v := ({ job with
      minerId := primId, state := job.state ++ [.paid, .optimistic] } : Job))
  · rw [jobIsPaid_append]
    exact Bool.or_true _
  · change f'.heldOf .fee job.jobId = some a at ha
    show f'.heldSince.get job.jobId = some c.h64
    -- the parts of the settlement after the fee leave it and its date alone
    obtain ⟨hfee, hsince⟩ := retained_after_fee h'
    rw [hfee] at ha
    rw [hsince]
    unfold retainFee at ha ⊢
    split at ha
    · next hpos =>
      rw [if_pos hpos]
      exact Store.get_set_self
    · have hnone := (payImmediate_deposits h₁).1
      rw [Funds.heldOf, hnone] at ha
      have := hw.heldOf_eq_none hj hp .fee
      rw [Funds.heldOf, ha] at this
      cases this

end Dated

/-! ## The result -/

section Result

variable [Chain]

/-- The client of a job signed its opening. -/
theorem client_readable {ok : State → Ctx × Action → Prop} {s : State} (h : Reachable ok s)
    {j : Str} {job : Job} (hj : s.job j = some job) :
    (Chain.addrBytes job.client).isSome = true := by
  have hwf : WfJobId j := (Reachable.wf h).jobs j (Table.has_of_get? hj)
  have hinv : ∀ k, (view s j).job = some k → (Chain.addrBytes k.client).isSome = true := by
    refine Reachable.view h (P := fun v => ∀ k, v.job = some k →
      (Chain.addrBytes k.client).isSome = true) (by simp [View.fresh]) ?_ hwf
    intro s c a e v v' _ _ hem _ hv hl
    cases hl with
    | quiet | dropped | retried | undrawn | deferred | passed | rereleased | unqueued => exact hv
    | opened =>
      obtain ⟨msg, -, -, haddr⟩ := hem
      intro k hk
      cases hk
      exact haddr
    | settled hj hp hst hfee hb hne ha hr hq hw hlk hheld hacc hret hc =>
      intro k hk
      cases hk
      rw [hc]
      exact hv _ hj
    | marked hj hp hx | expired hj hst hx | disputed hj hp hx | summoned hh hj hp hx
    | closed hj hnr hx =>
      intro k hk
      cases hk
      rw [hx.client]
      exact hv _ hj
  exact hinv job hj

/-- A job was settled under optimistic settlement, and the bank pays. Whenever a later end of block
would put its audit off although the unwind window has run out and something is still retained for
it, the client gets all of it back and nothing stays retained exactly when the fee is part of what is
retained. -/
theorem unwind_bound {ok : State → Ctx × Action → Prop} {s₀ s₁ s t t' : State} {c₁ c : Ctx}
    {msg : MsgSettleSemantic} {job : Job} (h : Reachable ok s₀)
    (hmode : s₀.params.verificationMode = 1) (hset : Step s₀ (c₁, .settleSemantic msg) s₁)
    (hrun : Reach (· = s₁) Step ok s) (hjob : job.jobId = msg.jobId)
    (hput : PutsOff c s job t t') (hU : t.params.auditUnwindBlocks ≠ 0)
    (hold : c₁.height + t.params.auditUnwindBlocks.toNat ≤ c.height)
    (hno : ∀ n, c.refuses n = false) (hcover : t.funds.Covers job.jobId)
    (hret : ∃ sh a, t.funds.heldOf sh job.jobId = some a ∧ a ≠ 0) :
    RefundedInFull job t.funds t'.funds ↔ ∃ a, t.funds.heldOf .fee job.jobId = some a ∧ a ≠ 0 := by
  have hw₀ : s₀.Wf := Reachable.wf h
  have hw₁ : s₁.Wf := (step_lives hw₀ hset).1
  have hw : s.Wf := wf_of_run hw₁ hrun
  -- the settlement dated the retention, and the run kept its date
  simp only [Step, Action.run, settleSemantic, bind_ok, ensure_ok, require_ok, if_pos hmode] at hset
  obtain ⟨-, -, job₀, hj₀, -, hp₀, -, -, -, -, hset⟩ := hset
  have hid₀ : job₀.jobId = job.jobId := (Table.key_of_get? hj₀).trans hjob.symm
  have hwf : WfJobId job.jobId := hjob ▸ hw₀.jobs _ (Table.has_of_get? hj₀)
  have hdated₁ := settleOptimistic_dated hw₀ (by rw [hid₀, hjob]; exact hj₀) hp₀ hset
  rw [hid₀] at hdated₁
  have hdated : (view s job.jobId).Dated c₁.h64 job₀.client :=
    view_of_run hw₁ hrun hwf hdated₁ fun e v v' _ hd hl => hd.step hl
  obtain ⟨k, hk, -, hclient, hdate⟩ : (view t job.jobId).Dated c₁.h64 job₀.client :=
    Lives.invariant (fun e v v' _ hd hl => hd.step hl) ((hput.prog hw).lives _ hwf) hdated
  have hkj : k = job := by
    have e : t.job job.jobId = some k := hk
    rw [hput.job_eq, Option.some.injEq] at e
    exact e.symm
  subst hkj
  obtain ⟨cliBz, hbz⟩ := Option.isSome_iff_exists.1 (client_readable h hj₀)
  rw [← hclient] at hbz
  obtain ⟨t₁, hfunds, hjobs, hparams, ht'⟩ := hput.funds
  constructor
  · intro hfull
    by_contra hnone
    have hidle := unwindStrandedRetention_idle (c := c) (p := t.params) (s := t₁) (j := k.jobId)
      fun a ha => by
        by_contra h0
        exact hnone ⟨a, by rw [← hfunds]; exact ha, h0⟩
    rw [hidle] at ht'
    obtain ⟨sh, a, ha, h0⟩ := hret
    have hz := hfull.1 sh
    rw [ht', hfunds, ha] at hz
    exact h0 hz
  · rintro ⟨held, hf, h0⟩
    have hsince : t₁.funds.heldSince.get k.jobId = some c₁.h64 := by
      rw [hfunds]
      exact hdate held hf h0
    have hage : ¬ (c.h64 < c₁.h64 ∨ c.h64 - c₁.h64 < t.params.auditUnwindBlocks) := by
      have hc := c.height_lt
      have hc₁ := c₁.height_lt
      have h64 : ∀ d : Ctx, d.h64.toNat = d.height := fun d => by
        have := d.height_lt
        rw [Ctx.h64, UInt64.toNat_ofNat']
        omega
      have hle : c₁.h64 ≤ c.h64 := by
        rw [UInt64.le_iff_toNat_le, h64, h64]
        omega
      rw [UInt64.lt_iff_toNat_lt, UInt64.lt_iff_toNat_lt, toNat_sub hle, h64, h64]
      omega
    have hdue := unwindStrandedRetention_due (c := c) (p := t.params) (s := t₁) hU
      (by rw [hfunds]; exact hf) h0 hsince hage (by rw [State.job, hjobs]; exact hput.job_eq)
    rw [ht', hdue, hfunds]
    exact refundedInFull_unwind hno hbz hcover

end Result

/-! ## Runs -/

/-- The job is settled at block 5. -/
def settledTicket (s : State) : State := outcome (settleSemantic (blockAt 5) ⟨client, ticket⟩ s) s

/-- The block in which its audit is put off. -/
def lateBlock : Ctx := blockAt 50

def lateSeed (s : State) : Str := blockSeed lateBlock (settledTicket s).params

def lateState (s : State) : State := beforeAudits lateBlock (settledTicket s)

/-- Nobody declared as a judge: the audit of a job that retained its fee is put off and unwound. -/
theorem unwind_bound_judgeless : ∃ s₀ s₁ job t t',
    Step s₀ (blockAt 5, .settleSemantic ⟨client, ticket⟩) s₁ ∧ job.jobId = ticket ∧
    PutsOff lateBlock s₁ job t t' ∧ RefundedInFull job t.funds t'.funds := by
  obtain ⟨s₀, hs, ht⟩ := exists_reachable (fun _ _ _ => trivial)
    (reachable_village validate_unwindMode (by decide) fun _ _ _ _ => trivial)
    (show endsIn free
      (fun s => decide ((settleSemantic (blockAt 5) ⟨client, ticket⟩ s).isOk = true ∧
        s.params.verificationMode = 1 ∧ (lateState s).params.committeeSeedSource = 0 ∧
        (lateState s).queues.pendingAudit.due lateBlock.h auditMaxPerBlock = [qkey 6 ticket] ∧
        (lateState s).params.auditUnwindBlocks = 20 ∧
        ((lateState s).funds.purse ticket).retained ≤ (lateState s).funds.bank.balance ∧
        (lateState s).funds.heldOf .fee ticket = some 40 ∧
        (auditOne lateBlock (lateSeed s) (lateState s) (qkey 6 ticket)).isOk = true ∧
        ∃ job ∈ (lateState s).job ticket, jobIsPaid job.state = true ∧
          jobIsResolved job.state = false ∧ auditDraw (lateSeed s) job.jobId <
            effectiveAuditBps (lateState s) (lateState s).params job ∧
          ∃ members ∈ (drawAuditCommittee lateBlock (picked job (lateState s)) (lateSeed s) job.jobId
            job.minerId (Chain.addrString Chain.authority)).toOption,
            (members.length : Int) < effectiveSlashFloor (picked job (lateState s)).params))
      (served.take 3) (village unwindMode) = true by rewrite [application_eq_tabled]; decide +kernel)
  obtain ⟨hok, hmode, hsrc, hdue, hU, hcov, hfee, hone, job, hj, hp, hr, hdraw, members, hm, hfloor⟩ :=
    of_decide_eq_true ht
  have hid : job.jobId = ticket := Table.key_of_get? hj
  have hset : Step s₀ (blockAt 5, .settleSemantic ⟨client, ticket⟩) (settledTicket s₀) :=
    eq_ok_outcome hok
  have hmem : drawAuditCommittee lateBlock (picked job (lateState s₀)) (lateSeed s₀) job.jobId
      job.minerId (Chain.addrString Chain.authority) = .ok members := by
    cases hd : drawAuditCommittee lateBlock (picked job (lateState s₀)) (lateSeed s₀) job.jobId
        job.minerId (Chain.addrString Chain.authority) with
    | error e =>
      rw [hd] at hm
      cases hm
    | ok l =>
      rw [hd] at hm
      cases hm
      rfl
  have hput : PutsOff lateBlock (settledTicket s₀) job (lateState s₀) (outcome (auditOne lateBlock
      (lateSeed s₀) (lateState s₀) (qkey 6 ticket)) (lateState s₀)) :=
    by
    refine .smallJury (fun h => ?_) (?_ : _ = [] ++ qkey 6 ticket :: []) ?_ ?_ ?_ hp hr
      (.inr hdraw) hmem hfloor ?_
    · have h2 := h.2
      rw [← lateState, hsrc] at h2
      cases h2
    · rw [← lateState, hdue]
      rfl
    · rfl
    · rw [hid]
      rfl
    · rw [hid]
      exact hj
    · exact eq_ok_outcome hone
  refine ⟨s₀, settledTicket s₀, job, lateState s₀, _, hset, hid, hput, ?_⟩
  refine (unwind_bound hs hmode hset (.init rfl) hid hput ?_ ?_ (fun _ => rfl) ?_ ?_).2 ?_
  · rw [hU]
    decide
  · rw [hU]
    decide
  · rw [hid]
    exact hcov
  · rw [hid]
    exact ⟨.fee, 40, hfee, by decide⟩
  · rw [hid]
    exact ⟨40, hfee, by decide⟩

/-- Audit mode without a hold: the fee is paid at once, and only the cut is retained. -/
def uncutMode : Params := { unwindMode with holdBps := 0 }

theorem validate_uncutMode [Chain] : uncutMode.validate = .ok () := by
  simp only [Params.validate, Params.validateMode, Params.validateMode1, Params.validateEpoch14,
    Params.validateEpoch15, bind_unit_ok, refuse_ok]
  simp [uncutMode, unwindMode, auditMode, Params.default, Params.effectiveAuditFloor]
  decide

/-- The job was settled at block 5 and its window is twenty blocks; at block 50 its audit is put off
to block 70, with the shares of the cut still retained. -/
theorem unwind_cut_stranded : ∃ s₀ s s', Reachable (fun _ _ => True) s₀ ∧
    Step s₀ (blockAt 5, .settleSemantic ⟨client, ticket⟩) s ∧ Step s (lateBlock, .endBlock) s' ∧
    s.params.auditUnwindBlocks = 20 ∧ s.funds.heldOf .treasury ticket = some 5 ∧
    s'.funds.heldOf .treasury ticket = some 5 ∧ qkey 70 ticket ∈ s'.queues.pendingAudit.entries := by
  obtain ⟨s₀, hs, ht⟩ := exists_reachable (fun _ _ _ => trivial)
    (reachable_village validate_uncutMode (by decide) fun _ _ _ _ => trivial)
    (show endsIn free
      (fun s => decide ((settleSemantic (blockAt 5) ⟨client, ticket⟩ s).isOk = true ∧
        (endBlock lateBlock (settledTicket s)).isOk = true ∧
        (settledTicket s).params.auditUnwindBlocks = 20 ∧
        (settledTicket s).funds.heldOf .treasury ticket = some 5 ∧
        (outcome (endBlock lateBlock (settledTicket s)) (settledTicket s)).funds.heldOf .treasury
          ticket = some 5 ∧ qkey 70 ticket ∈ (outcome (endBlock lateBlock (settledTicket s))
            (settledTicket s)).queues.pendingAudit.entries))
      (served.take 3) (village uncutMode) = true by rewrite [application_eq_tabled]; decide +kernel)
  obtain ⟨hok, hend, hU, hheld, hheld', hq⟩ := of_decide_eq_true ht
  have hset : Step s₀ (blockAt 5, .settleSemantic ⟨client, ticket⟩) (settledTicket s₀) :=
    eq_ok_outcome hok
  have hstep : Step (settledTicket s₀) (lateBlock, .endBlock)
      (outcome (endBlock lateBlock (settledTicket s₀)) (settledTicket s₀)) := eq_ok_outcome hend
  exact ⟨s₀, settledTicket s₀, _, hs, hset, hstep, hU, hheld, hheld', hq⟩

end Dendra.Jobs
