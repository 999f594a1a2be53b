import Dendra.Jobs.Progress.Run
import Dendra.Jobs.Application

/-!
# One disbursement, one punishment

The escrow of a job leaves once: what was drawn from it (paid, refunded, burned or set aside) is
nothing until one step draws on it, and never changes after that step. And the redundant committee
of a job is judged once: after one of the three messages that slash its outliers went through, none
of them goes through again, and the one that did took at most one share of each bond.

* `drawn_once`: both, over any run.
-/

namespace Dendra.Jobs

open Word Relation

/-! ## The escrow -/

/-- The escrow of the job was paid out, or went back. -/
def View.Disbursed (v : View) : Prop :=
  ∃ job, v.job = some job ∧ (jobIsPaid job.state = true ∨ jobEscrowReturned job.state = true)

/-- Nothing was drawn from an escrow that is still there. -/
def View.Intact (v : View) : Prop := ¬ v.Disbursed → v.purse.drawn = 0

section Escrow

variable {e : Label} {v v' : View}

theorem Job.Extends.isReturned {job job' : Job} {l : List Mark} (hx : job.Extends l job')
    (h : jobEscrowReturned job.state = true) : jobEscrowReturned job'.state = true := by
  rw [hx.state, jobEscrowReturned_append, h, Bool.true_or]

/-- Marks take no escrow back. -/
theorem View.Disbursed.of_extends {job job' : Job} {l : List Mark} (h : v.Disbursed)
    (hj : v.job = some job) (hx : job.Extends l job') (hj' : v'.job = some job') :
    v'.Disbursed := by
  obtain ⟨k, hk, hd⟩ := h
  rw [hj, Option.some.injEq] at hk
  subst hk
  exact ⟨job', hj', hd.imp hx.isPaid hx.isReturned⟩

/-- Postings that do not draw on the escrow. -/
theorem Purse.drawn_append {q : Purse} {l : List Posting} (hl : ∀ p ∈ l, p.kind.drawsEscrow = false) :
    ({ q with postings := l ++ q.postings } : Purse).drawn = q.drawn := by
  have hnone : (l.filter fun p => p.kind.drawsEscrow) = [] :=
    List.filter_eq_nil_iff.2 fun p hp => by simp [hl p hp]
  simp only [Purse.drawn, List.filter_append, hnone, List.nil_append]
  rfl

/-- One change: an escrow that left stays away and nothing more is drawn from it, and one that is
there is intact. -/
theorem View.Intact.step (hi : v.Intact) (hl : Life e v v') :
    v'.Intact ∧ (v.Disbursed → v'.Disbursed ∧ v'.purse.drawn = v.purse.drawn) := by
  cases hl with
  | quiet => exact ⟨hi, fun h => ⟨h, rfl⟩⟩
  | opened hn =>
    have hno : ¬ v.Disbursed := fun ⟨k, hk, _⟩ => by rw [hn] at hk; cases hk
    exact ⟨fun _ => hi hno, fun h => absurd h hno⟩
  | @marked _ job job' marks l hj hp hx hm hlk hs =>
    have hkeep : (∀ p ∈ l, p.kind.drawsEscrow = false) →
        ({ v.purse with postings := l ++ v.purse.postings } : Purse).drawn = v.purse.drawn :=
      Purse.drawn_append
    rcases hs with hs | ⟨hpaid, hret⟩
    · -- a tally moves no coin
      refine ⟨fun hn => ?_, fun h => ⟨h.of_extends hj hx rfl, hkeep hs⟩⟩
      exact (hkeep hs).trans (hi fun h => hn (h.of_extends hj hx rfl))
    · -- a payment: the escrow was there, and is gone
      refine ⟨fun hn => absurd ⟨job', rfl, .inl hpaid⟩ hn, ?_⟩
      rintro ⟨k, hk, hd⟩
      rw [hj, Option.some.injEq] at hk
      rw [← hk, hp, hret] at hd
      rcases hd with hd | hd <;> cases hd
  | @settled _ job k p payable q h hj hp hst hfee hb hne ha hr hq hw hlk hheld hacc hret =>
    have hpaid : jobIsPaid k.state = true := by
      rw [hst, jobIsPaid_append]
      exact Bool.or_true _
    refine ⟨fun hn => absurd ⟨k, rfl, .inl hpaid⟩ hn, ?_⟩
    rintro ⟨k, hk, hd⟩
    rw [hj, Option.some.injEq] at hk
    rw [← hk, hp, hret] at hd
    rcases hd with hd | hd <;> cases hd
  | dropped => exact ⟨hi, fun h => ⟨h, rfl⟩⟩
  | retried => exact ⟨hi, fun h => ⟨h, rfl⟩⟩
  | @expired _ job job' h p hj hst hx hp =>
    have hback : jobEscrowReturned job'.state = true := by
      rw [hx.state, jobEscrowReturned_append]
      exact Bool.or_true _
    refine ⟨fun hn => absurd ⟨job', rfl, .inr hback⟩ hn, ?_⟩
    rintro ⟨k, hk, hd⟩
    rw [hj, Option.some.injEq] at hk
    rw [← hk, hst] at hd
    rcases hd with hd | hd <;> cases hd
  | disputed hj hp hx =>
    exact ⟨fun hn => hi fun h => hn (h.of_extends hj hx rfl),
      fun h => ⟨h.of_extends hj hx rfl, rfl⟩⟩
  | undrawn => exact ⟨hi, fun h => ⟨h, rfl⟩⟩
  | deferred => exact ⟨hi, fun h => ⟨h, rfl⟩⟩
  | passed hh hj hp hsel hw heff =>
    exact ⟨fun hn => heff.drawn.trans (hi hn), fun h => ⟨h, heff.drawn⟩⟩
  | summoned hh hj hp hx =>
    exact ⟨fun hn => hi fun h => hn (h.of_extends hj hx rfl),
      fun h => ⟨h.of_extends hj hx rfl, rfl⟩⟩
  | closed hj hnr hx hm hr hopt heff =>
    exact ⟨fun hn => heff.drawn.trans (hi fun h => hn (h.of_extends hj hx rfl)),
      fun h => ⟨h.of_extends hj hx rfl, heff.drawn⟩⟩
  | rereleased hq heff => exact ⟨fun hn => heff.drawn.trans (hi hn), fun h => ⟨h, heff.drawn⟩⟩
  | unqueued => exact ⟨hi, fun h => ⟨h, rfl⟩⟩

end Escrow

/-! ## The committee -/

/-- The redundant committee of the job was judged, or the job is settled. -/
def View.Judged (v : View) : Prop := ∃ job, v.job = some job ∧ jobK3Adjudicated job.state = true

theorem jobK3Adjudicated_append {st marks : JobState} (h : jobK3Adjudicated st = true) :
    jobK3Adjudicated (st ++ marks) = true := by
  simp only [jobK3Adjudicated, jobIsPaid, List.contains_append, Bool.or_eq_true] at h ⊢
  tauto

theorem View.Judged.step {e : Label} {v v' : View} (h : v.Judged) (hl : Life e v v') :
    v'.Judged := by
  obtain ⟨k, hk, hd⟩ := h
  have hext : ∀ {job job' : Job} {l : List Mark}, v.job = some job → job'.state = job.state ++ l →
      jobK3Adjudicated job'.state = true := by
    intro job job' l hj hst
    rw [hj, Option.some.injEq] at hk
    rw [hst, hk]
    exact jobK3Adjudicated_append hd
  cases hl with
  | opened hn => rw [hn] at hk; cases hk
  | marked hj hp hx => exact ⟨_, rfl, hext hj hx.state⟩
  | settled hj hp hst => exact ⟨_, rfl, hext hj hst⟩
  | expired hj hst hx => exact ⟨_, rfl, hext hj hx.state⟩
  | disputed hj hp hx => exact ⟨_, rfl, hext hj hx.state⟩
  | summoned hh hj hp hx => exact ⟨_, rfl, hext hj hx.state⟩
  | closed hj hnr hx => exact ⟨_, rfl, hext hj hx.state⟩
  | quiet | dropped | retried | undrawn | deferred | passed | rereleased | unqueued =>
    exact ⟨k, hk, hd⟩

/-- The job whose outliers an action slashes. -/
def judging (s : State) : Action → Option Str
  | .settleSemantic msg => if s.params.verificationMode = 1 then none else some msg.jobId
  | .verifySemantic msg => some msg.jobId
  | .finalizeJob msg => some msg.jobId
  | _ => none

/-! ### The bonds -/

/-- Each of these miners lost one share of its bond at most, and nobody else lost any. -/
def CutOnce (p : Params) (mids : List Str) (f f' : Funds) : Prop :=
  ∀ m r, f.miners.get? m = some r → ∃ r', f'.miners.get? m = some r' ∧
    (m ∉ mids → r'.stake = r.stake) ∧
    (r'.stake = r.stake ∨ r'.stake = r.stake - bpsOf r.stake p.slashLeakBps)

section Bonds

variable {p : Params} {f f' f'' : Funds} {l : List Str}

theorem CutOnce.refl (p : Params) (l : List Str) (f : Funds) : CutOnce p l f f :=
  fun _ r hr => ⟨r, hr, fun _ => rfl, .inl rfl⟩

theorem CutOnce.of_miners (h : f'.miners = f.miners) : CutOnce p l f f' := by
  intro m r hr
  exact ⟨r, by rw [h]; exact hr, fun _ => rfl, .inl rfl⟩

/-- One miner, and then others. -/
theorem CutOnce.cons {a : Str} (h : CutOnce p [a] f f') (h' : CutOnce p l f' f'') (ha : a ∉ l) :
    CutOnce p (a :: l) f f'' := by
  intro m r hr
  obtain ⟨r₁, hr₁, hsame, hcut⟩ := h m r hr
  obtain ⟨r₂, hr₂, hsame', hcut'⟩ := h' m r₁ hr₁
  refine ⟨r₂, hr₂, fun hm => ?_, ?_⟩
  · rw [List.mem_cons, not_or] at hm
    rw [hsame' hm.2, hsame (by simpa using hm.1)]
  · by_cases hma : m = a
    · rw [hsame' (hma ▸ ha)]
      exact hcut
    · rw [hsame (by simpa using hma)] at hcut'
      exact hcut'

theorem slashLoser_cut (keepZero : Bool) (acc : Loop) (mid : Str) :
    CutOnce p [mid] acc.funds (slashLoser p keepZero acc mid).funds := by
  unfold slashLoser
  split
  · exact .refl _ _ _
  · next miner hm =>
    have hid : miner.minerId = mid := Table.key_of_get? hm
    intro m r hr
    by_cases hmid : m = mid
    · subst hmid
      rw [hm, Option.some.injEq] at hr
      subst hr
      refine ⟨{ miner with stake := miner.stake - bpsOf miner.stake p.slashLeakBps }, ?_,
        fun hn => absurd (List.mem_singleton_self _) hn, .inr rfl⟩
      show (acc.funds.miners.put _).get? m = _
      rw [Table.get?_put]
      exact if_pos hid.symm
    · refine ⟨r, ?_, fun _ => rfl, .inl rfl⟩
      show (acc.funds.miners.put _).get? m = _
      rw [Table.get?_put_ne (by rw [hid]; exact hmid)]
      exact hr

theorem slashLosers_cut (keepZero : Bool) (mids : List Str) (hn : mids.Nodup) (acc : Loop) :
    CutOnce p mids acc.funds (mids.foldl (slashLoser p keepZero) acc).funds := by
  induction mids generalizing acc with
  | nil => exact .refl _ _ _
  | cons mid mids ih =>
    rw [List.nodup_cons] at hn
    exact (slashLoser_cut keepZero acc mid).cons (ih hn.2 _) hn.1

variable [Chain] {c : Ctx} {job : Job}

theorem settleMembers_cut {per : UInt64} {vecs : List (Str × List Int)} (l : List (Str × List Int))
    (hn : (l.map Prod.fst).Nodup) {acc acc' : Loop}
    (h : l.foldlM (settleMember c p job per vecs) acc = .ok acc') :
    CutOnce p (l.map Prod.fst) acc.funds acc'.funds := by
  induction l generalizing acc with
  | nil =>
    cases h
    exact .refl _ _ _
  | cons e l ih =>
    rw [List.map_cons, List.nodup_cons] at hn
    rw [List.foldlM_cons, bind_ok] at h
    obtain ⟨acc₁, h₁, h⟩ := h
    refine CutOnce.cons ?_ (ih hn.2 h) hn.1
    unfold settleMember at h₁
    split at h₁
    · simp only [bind_ok, pure_ok] at h₁
      obtain ⟨f₁, hf₁, rfl⟩ := h₁
      rcases payWinner_cases hf₁ with rfl | ⟨b, -, rfl⟩ <;> exact .of_miners rfl
    · rw [pure_ok] at h₁
      subst h₁
      exact slashLoser_cut false acc e.1

/-- The burn and the remainder of an escrow: two payments at most. -/
theorem closeEscrow_miners {burnAmt surplus : UInt64}
    (h : closeEscrow c job burnAmt surplus f = .ok f') : f'.miners = f.miners := by
  have hpay : ∀ {g g' : Funds} {payee : Payee} {x : Posting} {text : String},
      g.payOrFail c payee x text = .ok g' → g'.miners = g.miners := by
    intro g g' payee x text hg
    obtain ⟨b, -, rfl⟩ := Funds.payOrFail_ok hg
    rfl
  obtain ⟨f₁, h₁, h₂⟩ := closeEscrow_cases h
  have hburn : f₁.miners = f.miners := by
    rcases h₁ with rfl | h₁
    · rfl
    · exact hpay h₁
  rcases h₂ with rfl | ⟨cliBz, h₂⟩
  · exact hburn
  · exact (hpay h₂).trans hburn

end Bonds

/-! ### The messages -/

section Messages

variable [Chain] {c : Ctx} {s s' : State} {a : Action} {j : Str}

/-- A message that judges a committee finds the job unjudged, leaves it judged, and takes at most one
share of each bond. -/
theorem judging_spec (hs : Step s (c, a) s') (hj : judging s a = some j) :
    (∃ job, s.job j = some job ∧ jobK3Adjudicated job.state = false) ∧ (view s' j).Judged ∧
      ∃ mids, CutOnce s.params mids s.funds s'.funds := by
  have hnodup : ∀ i committee, ((committeeVecs s i committee).map Prod.fst).Nodup :=
    fun _ _ => nodup_commitByMiner.sublist committeeVecs_sublist
  have hmark : ∀ {job : Job} (l : List Mark) (t : Job), s.job j = some job →
      t.jobId = job.jobId → t.state = job.state ++ l → jobK3Adjudicated l = true →
      ∀ {s₁ : State}, s₁.jobs = s.jobs.put t → (view s₁ j).Judged := by
    intro job l t hjob hid hst hl s₁ hs₁
    have hkey : job.jobId = j := Table.key_of_get? hjob
    refine ⟨t, ?_, ?_⟩
    · show s₁.jobs.get? j = some t
      rw [hs₁, Table.get?_put]
      exact if_pos (hid.trans hkey).symm
    · rw [hst]
      simp only [jobK3Adjudicated, jobIsPaid, List.contains_append, Bool.or_eq_true] at hl ⊢
      tauto
  cases a with
  | settleSemantic msg =>
    by_cases hmode : s.params.verificationMode = 1
    · rw [judging, if_pos hmode] at hj
      cases hj
    · rw [judging, if_neg hmode, Option.some.injEq] at hj
      subst hj
      simp only [Step, Action.run, settleSemantic, bind_ok, ensure_ok, require_ok, if_neg hmode] at hs
      obtain ⟨-, -, job, hjob, -, -, -, -, -, hk, hs⟩ := hs
      simp only [settleRedundant, bind_ok, ensure_ok, pure_ok] at hs
      obtain ⟨committee, hc, -, -, -, -, -, -, acc, hacc, f, hf, rfl⟩ := hs
      refine ⟨⟨job, hjob, hk⟩, hmark [.paid, .finalized]
        { job with state := job.state ++ [.paid, .finalized], slashRecords := job.slashRecords ++ _ }
        hjob rfl rfl rfl rfl, (committeeVecs s job.jobId committee).map Prod.fst, ?_⟩
      intro m r hr
      obtain ⟨r', hr', hcut⟩ := settleMembers_cut _ (hnodup _ committee) hacc m r hr
      refine ⟨r', ?_, hcut⟩
      show f.miners.get? m = some r'
      rw [closeEscrow_miners hf]
      exact hr'
  | verifySemantic msg =>
    rw [judging, Option.some.injEq] at hj
    subst hj
    simp only [Step, Action.run, verifySemantic, bind_ok, ensure_ok, require_ok, pure_ok] at hs
    obtain ⟨-, -, -, -, job, hjob, -, hk, committee, -, -, -, -, -, rfl⟩ := hs
    refine ⟨⟨job, hjob, hk⟩, hmark [.verified]
        { job with state := job.state ++ [.verified], slashRecords := job.slashRecords ++ _ }
        hjob rfl rfl rfl rfl, ((committeeVecs s msg.jobId committee).filter fun e =>
          !inMajority (committeeVecs s msg.jobId committee) e).map Prod.fst, ?_⟩
    intro m r hr
    refine slashLosers_cut true _ ?_ ⟨s.funds, s.funds.poolsOrZero, []⟩ m r hr
    exact (hnodup msg.jobId committee).sublist (List.filter_sublist.map _)
  | finalizeJob msg =>
    rw [judging, Option.some.injEq] at hj
    subst hj
    simp only [Step, Action.run, finalizeJob, bind_ok, ensure_ok, require_ok, pure_ok] at hs
    obtain ⟨-, -, -, -, job, hjob, -, hk, committee, -, -, -, -, -, rfl⟩ := hs
    refine ⟨⟨job, hjob, hk⟩, hmark [.finalized]
        { job with state := job.state ++ [.finalized], slashRecords := job.slashRecords ++ _ }
        hjob rfl rfl rfl rfl, ((commitByMiner s msg.jobId committee).filter fun e =>
          decide (e.2 ≠ (canonical (commitByMiner s msg.jobId committee)).1)).map Prod.fst, ?_⟩
    intro m r hr
    refine slashLosers_cut true _ ?_ ⟨s.funds, s.funds.poolsOrZero, []⟩ m r hr
    exact nodup_commitByMiner.sublist (List.filter_sublist.map _)
  | _ => cases hj

end Messages

/-! ## Over a run -/

section Result

variable [Chain]

/-- What was drawn from the escrow of a job. -/
def State.drawn (s : State) (j : Str) : Nat := (s.funds.purse j).drawn

/-- In any run, a step that draws on the escrow of a job is the first that does, and nothing more is
drawn from it later; a step that judges the committee of a job takes at most one share of each bond,
and no later step judges it again. -/
theorem drawn_once {s s' s'' : State} {a : Ctx × Action} (h : Reachable (fun _ _ => True) s)
    (hs : Step s a s') (hrun : Reach (· = s') Step (fun _ _ => True) s'') (j : Str) :
    (∀ job, s.job j = some job → s'.drawn j ≠ s.drawn j →
      s.drawn j = 0 ∧ s''.drawn j = s'.drawn j) ∧
    (judging s a.2 = some j →
      (∀ m r, s.miner m = some r → ∃ r', s'.miner m = some r' ∧
        (r'.stake = r.stake ∨ r'.stake = r.stake - bpsOf r.stake s.params.slashLeakBps)) ∧
      ∀ b t, judging s'' b.2 = some j → ¬ Step s'' b t) := by
  obtain ⟨c, a⟩ := a
  have hw : s.Wf := Reachable.wf h
  have hw' : s'.Wf := (step_lives hw hs).1
  constructor
  · intro job hj hne
    have hwf : WfJobId j := hw.jobs j (Table.has_of_get? hj)
    have hintact : (view s j).Intact := by
      refine Reachable.view h (P := View.Intact) (fun _ => rfl) ?_ hwf
      exact fun s c a e v v' _ _ _ hv hi hl => (hi.step hl).1
    -- what the changes of the step do to the escrow
    have hlives := Lives.invariant
      (P := fun v => v.Sound ∧ v.Intact ∧ ((view s j).Disbursed → v.Disbursed ∧
        v.purse.drawn = (view s j).purse.drawn))
      (fun e v v' _ ⟨hv, hi, hd⟩ hl => ⟨hl.sound hv, (hi.step hl).1, fun h0 => by
        obtain ⟨h1, h2⟩ := hd h0
        obtain ⟨h3, h4⟩ := (hi.step hl).2 h1
        exact ⟨h3, h4.trans h2⟩⟩)
      ((step_lives hw hs).2 j hwf) ⟨hw.sound j hwf, hintact, fun h0 => ⟨h0, rfl⟩⟩
    obtain ⟨hsound', hintact', hkeep⟩ := hlives
    have hopen : ¬ (view s j).Disbursed := fun h0 => hne (hkeep h0).2
    have hzero : s.drawn j = 0 := hintact hopen
    have hgone : (view s' j).Disbursed := by
      by_contra hn
      exact hne ((hintact' hn).trans hzero.symm)
    refine ⟨hzero, ?_⟩
    have hend := view_of_run (P := fun v => v.Intact ∧ v.Disbursed ∧ v.purse.drawn = s'.drawn j) hw'
      hrun hwf ⟨hintact', hgone, rfl⟩ fun e v v' _ ⟨hi, hd, he⟩ hl => by
        obtain ⟨h1, h2⟩ := (hi.step hl).2 hd
        exact ⟨(hi.step hl).1, h1, h2.trans he⟩
    exact hend.2.2
  · intro hjud
    obtain ⟨⟨job, hj, -⟩, hk, mids, hcut⟩ := judging_spec hs hjud
    have hwf : WfJobId j := hw.jobs j (Table.has_of_get? hj)
    refine ⟨fun m r hr => ?_, fun b t hb hstep => ?_⟩
    · obtain ⟨r', hr', -, hc⟩ := hcut m r hr
      exact ⟨r', hr', hc⟩
    · obtain ⟨k, hk', hd⟩ := view_of_run (P := View.Judged) hw' hrun hwf hk
        fun e v v' _ hjd hl => hjd.step hl
      obtain ⟨⟨k', hk'', hno⟩, -⟩ := judging_spec (c := b.1) (a := b.2) hstep hb
      change s''.job j = some k at hk'
      rw [hk'', Option.some.injEq] at hk'
      rw [hk', hd] at hno
      cases hno

end Result

/-- A job of 900 coins is paid out by a payout. -/
theorem drawn_once_paid : ∃ s s', Step s (blockAt 4, .payout ⟨client, ticket⟩) s' ∧
    s.drawn ticket = 0 ∧ s'.drawn ticket = 900 := by
  obtain ⟨s, hs, ht⟩ := exists_reachable (fun _ _ _ => trivial)
    (reachable_village Params.validate_default.1 (by decide) fun _ _ _ _ => trivial)
    (show endsIn free
      (fun s => decide ((∃ job ∈ s.job ticket, job.fee = 900) ∧
        (payout (blockAt 4) ⟨client, ticket⟩ s).isOk = true ∧ s.drawn ticket < 900 ∧
        (outcome (payout (blockAt 4) ⟨client, ticket⟩ s) s).drawn ticket = 900))
      [(blockAt 2, opening 900), (blockAt 3, anchors 0 "" "7"), (blockAt 3, anchors 1 "" "7"),
        (blockAt 3, anchors 4 "" "8")] (village .default) = true by rewrite [application_eq_tabled]; decide +kernel)
  obtain ⟨⟨job, hj, -⟩, hok, hlt, hd⟩ := of_decide_eq_true ht
  have hstep : Step s (blockAt 4, .payout ⟨client, ticket⟩)
      (outcome (payout (blockAt 4) ⟨client, ticket⟩ s) s) := eq_ok_outcome hok
  have hne : (outcome (payout (blockAt 4) ⟨client, ticket⟩ s) s).drawn ticket ≠ s.drawn ticket := by
    omega
  exact ⟨s, _, hstep, ((drawn_once hs hstep (.init rfl) ticket).1 job hj hne).1, hd⟩

end Dendra.Jobs
