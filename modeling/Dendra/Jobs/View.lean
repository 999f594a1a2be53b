import Dendra.Jobs.Life
import Dendra.Jobs.Spending
import Dendra.Jobs.System

/-!
# The views of a state

`view s j` is what the state `s` knows of the job `j` (`Life`). `Prog E s s'` says what a part of a
step does to all of them: every job makes changes of its life, with labels in `E`, and the account
does not lose cover. It composes (`Prog.trans`), so a handler or a pass is treated part by part.

* `Funds.Touch`: what a payment on account of one job does to the funds.
* `Prog.of_job`: a change of one job; `Prog.quiet`: a change of none.
-/

namespace Dendra.Jobs

open Word Relation

/-! ## Purses -/

/-- The money on account of a job. -/
def Funds.purse (f : Funds) (j : Str) : Purse where
  held sh := f.heldOf sh j
  postings := f.journal.filter fun p => decide (p.job = j)
  warrants := (f.warrants.filter fun w => decide (w.1 = j)).map Prod.snd
  queued := f.pendingHeldRelease.has j
  since := f.heldSince.get j

theorem Funds.accounted_purse (f : Funds) (j : Str) : (f.purse j).accounted = f.accounted j := by
  unfold Purse.accounted Funds.accounted
  congr 1
  rw [Purse.spent, Funds.purse, List.filter_filter, Funds.posted]

/-- The purse with more grounds of release. -/
def Purse.grounds (ws : List Warrant) (q : Purse) : Purse := { q with warrants := ws ++ q.warrants }

theorem Purse.Effect.grounds {w : Way} {q q' : Purse} (h : Effect w q q') (ws : List Warrant) :
    Effect w (q.grounds ws) (q'.grounds ws) :=
  ⟨h.held, h.accounted, h.postings, by simp [Purse.grounds, h.warrants], h.queued, h.since⟩

/-- What a part of a step on account of `j` does to the funds: it uses at most `x` coins of slack,
notes the grounds `ws`, and releases or refunds (`w`) only what is retained for `j`. -/
structure Funds.Touch (x : Int) (w : Way) (ws : List Warrant) (j : Str) (f f' : Funds) : Prop where
  slack : f.slack ≤ f'.slack + x
  supply : f'.bank.balance + f'.bank.outside ≤ f.bank.balance + f.bank.outside
  others : ∀ k, k ≠ j → f'.purse k = f.purse k
  own : Purse.Effect w ((f.purse j).grounds ws) (f'.purse j)
  registered : ∀ m, f'.miners.has m = f.miners.has m

namespace Funds

variable {x y : Int} {w : Way} {ws ws' : List Warrant} {j : Str} {f f' f'' : Funds}

theorem Touch.refl (w : Way) (j : Str) (f : Funds) : Touch 0 w [] j f f :=
  ⟨by omega, le_rfl, fun _ _ => rfl, .refl _ _, fun _ => rfl⟩

theorem Touch.trans (h : Touch x w ws j f f') (h' : Touch y w ws' j f' f'') :
    Touch (x + y) w (ws' ++ ws) j f f'' where
  slack := by have := h.slack; have := h'.slack; omega
  supply := h'.supply.trans h.supply
  others k hk := (h'.others k hk).trans (h.others k hk)
  own := by
    have e := (h.own.grounds ws').trans h'.own
    rw [Purse.grounds, Purse.grounds, ← List.append_assoc] at e
    exact e
  registered m := (h'.registered m).trans (h.registered m)

theorem Touch.mono (h : Touch x w ws j f f') (hxy : x ≤ y) : Touch y w ws j f f' :=
  { h with slack := by have := h.slack; omega }

/-- The ground of a release is noted. -/
theorem Touch.warrant (w : Way) (wt : Warrant) : Touch 0 w [wt] j f (f.warrant j wt) := by
  refine ⟨by simp only [add_zero]; exact le_rfl, le_rfl, fun k hk => ?_, ?_, fun _ => rfl⟩
  · have e : (f.warrant j wt).warrants.filter (fun x => decide (x.1 = k)) =
        f.warrants.filter fun x => decide (x.1 = k) :=
      List.filter_cons_of_neg (by simpa using Ne.symm hk)
    simp only [purse, e]
    rfl
  · have e : (f.warrant j wt).warrants.filter (fun x => decide (x.1 = j)) =
        (j, wt) :: f.warrants.filter fun x => decide (x.1 = j) :=
      List.filter_cons_of_pos (by simp)
    have e' : (f.warrant j wt).purse j = (f.purse j).grounds [wt] := by
      simp only [purse, e, Purse.grounds, List.map_cons, List.singleton_append]
      rfl
    rw [e']
    exact .refl _ _

/-- The purse of a job that new postings are not about. -/
theorem filter_append_ne {l l' : List Posting} {k : Str} (h : ∀ p ∈ l, p.job ≠ k) :
    (l ++ l').filter (fun p => decide (p.job = k)) = l'.filter fun p => decide (p.job = k) := by
  rw [List.filter_append, List.filter_eq_nil_iff.2 fun p hp => by simpa using h p hp,
    List.nil_append]

theorem filter_append_self {l l' : List Posting} {k : Str} (h : ∀ p ∈ l, p.job = k) :
    (l ++ l').filter (fun p => decide (p.job = k)) = l ++ l'.filter fun p => decide (p.job = k) := by
  rw [List.filter_append, List.filter_eq_self.2 fun p hp => by simpa using h p hp]

/-- A release or a refund of the retention of `j`. -/
theorem Touch.of_held (h : HeldEffect w j f f') : Touch 0 w [] j f f' := by
  obtain ⟨l, hl, hp, hf⟩ := h.journal
  have hw : (f'.purse j).warrants = (f.purse j).warrants := by simp only [purse, h.warrants]
  refine ⟨by have := h.slack; omega, h.supply, fun k hk => ?_, ⟨h.heldOf, ?_, ⟨l, ?_, ?_, hf⟩, hw,
    h.pending, h.since⟩, fun m => ?_⟩
  · simp only [purse, h.warrants, h.pending_ne k hk, h.since_ne k hk, hl]
    rw [filter_append_ne fun p hm => (hp p hm).1 ▸ Ne.symm hk]
    simp only [h.heldOf_ne _ k hk]
  · show (f'.purse j).accounted = (f.purse j).accounted
    rw [accounted_purse, accounted_purse, h.accounted]
  · simp only [purse, hl]
    exact filter_append_self fun p hm => (hp p hm).1
  · exact fun p hm => ⟨(hp p hm).2.2, Kind.drawsEscrow_of_spendsFee (hp p hm).2.1⟩
  · have := congrArg Option.isSome (h.miners m)
    simpa [Table.has_eq_isSome] using this

/-- A posting on account of `j` that does not draw on its escrow. -/
def Beside (j : Str) (p : Posting) : Prop := p.job = j ∧ p.kind.drawsEscrow = false

theorem Touch.of_spends (h : Spends x (Beside j) f f') : Touch x w [] j f f' := by
  obtain ⟨l, hl, hp⟩ := h.journal
  have hheld : ∀ sh, (f'.purse j).held sh = (f.purse j).held sh := fun sh => h.heldOf sh j
  refine ⟨h.slack, h.supply, fun k hk => ?_, ⟨fun sh => .inl (hheld sh), ?_,
    ⟨l, ?_, fun p hm => ⟨fun e => ?_, ?_⟩, fun a ha => .inl ?_⟩,
    by simp only [purse, h.warrants]; rfl, fun hq => .inl ?_, fun _ _ _ => ?_⟩, h.registered⟩
  · simp only [purse, h.warrants, h.pending, h.heldSince, hl]
    rw [filter_append_ne fun p hm => (hp p hm).1 ▸ Ne.symm hk]
    simp only [h.heldOf]
  · show (f'.purse j).accounted = (f.purse j).accounted
    rw [accounted_purse, accounted_purse]
    exact h.accounted j fun p hb hs => by
      rw [Kind.spendsFee_of_drawsEscrow hb.2] at hs
      cases hs
  · simp only [purse, hl]
    exact filter_append_self fun p hm => (hp p hm).1
  · have := (hp p hm).2
    rw [e] at this
    cases this
  · rw [(hp p hm).2, Kind.spendsFee_of_drawsEscrow (hp p hm).2]
  · exact (hheld .fee).trans ha
  · simp only [purse, h.pending] at hq
    exact hq
  · show f'.heldSince.get j = f.heldSince.get j
    rw [h.heldSince]

/-- What is on nobody's account changes no purse. -/
theorem purse_of_spends (h : Spends x (Beside []) f f') {k : Str} (hk : k ≠ []) :
    f'.purse k = f.purse k := by
  exact (Touch.of_spends (w := .refund) h).others k hk

end Funds

/-! ## Views -/

/-- The heights at which a queue has an entry of a job. -/
def Queue.heights (q : Queue) (j : Str) : Set Int := {h | qkey h j ∈ q.entries}

namespace Queue

variable {q : Queue} {h : Int} {j k : Str}

theorem heights_insert_self : heights (q.insert (qkey h j)) j = insert h (q.heights j) := by
  ext x
  simp only [heights, Set.mem_ofPred_eq, KeySet.mem_insert, qkey_inj, and_true, Set.mem_insert_iff]

theorem heights_insert_ne (hk : k ≠ j) : heights (q.insert (qkey h j)) k = q.heights k := by
  ext x
  simp only [heights, Set.mem_ofPred_eq, KeySet.mem_insert, qkey_inj, hk, and_false, false_or]

theorem heights_remove_self : heights (q.remove (qkey h j)) j = q.heights j \ {h} := by
  ext x
  simp only [heights, Set.mem_ofPred_eq, KeySet.mem_remove, ne_eq, qkey_inj, and_true,
    Set.mem_sdiff, Set.mem_singleton_iff]

theorem heights_remove_ne (hk : k ≠ j) : heights (q.remove (qkey h j)) k = q.heights k := by
  ext x
  simp only [heights, Set.mem_ofPred_eq, KeySet.mem_remove, ne_eq, qkey_inj, hk, and_false,
    not_false_eq_true, and_true]

end Queue

/-- A job, as a state knows it. -/
def view (s : State) (j : Str) : View where
  job := s.job j
  purse := s.funds.purse j
  audits := s.queues.pendingAudit.heights j
  expiry := s.queues.pendingJobExpiry.heights j
  selected := s.juries.auditSelected.has j
  seats := auditCommitteeAllowed s j
  answers := {m | (answerOf s j m).isSome = true}
  miners := {m | s.funds.miners.has m = true}

/-- A jury is read under its key. -/
theorem allowedSeats_congr {s s' : State} {key : Str}
    (h : s'.juries.auditCommittee.get key = s.juries.auditCommittee.get key) :
    allowedSeats s' key = allowedSeats s key := by
  simp only [allowedSeats, anchoredSeats, h]

/-! ## What is owed -/

/-- The escrow of a job, while it is neither paid nor refunded. -/
def Job.escrow (job : Job) : Nat :=
  if jobIsPaid job.state || jobEscrowReturned job.state then 0 else job.fee.toNat

/-- The bond of an open dispute. -/
def Job.openBond (job : Job) : Nat :=
  if jobIsDisputed job.state && !jobIsResolved job.state then job.disputeBond.toNat else 0

/-- What the module owes for a job, beside its retention. -/
def Job.owed (job : Job) : Nat := job.escrow + job.openBond

/-- What the account holds over everything that is owed. -/
def State.slack (s : State) : Int := s.funds.slack - (s.jobs.sum Job.owed : Nat)

/-- All coins. -/
def State.supply (s : State) : Nat := s.funds.bank.balance + s.funds.bank.outside

/-! ## Well-formed states -/

/-- An anchored list of derived ids. -/
def IdList (raw : Str) : Prop := ∃ l, raw = Str.join l ',' ∧ l ≠ [] ∧ ∀ m ∈ l, WfMinerId m

/-- Ids and keys have the shape that the handlers check, the parameters were validated, and what is
known of every job is sound. -/
structure State.Wf [Chain] (s : State) : Prop where
  miners : ∀ m, s.funds.miners.has m = true → WfMinerId m
  jobs : ∀ j, s.jobs.has j = true → WfJobId j
  commits : ∀ key, s.commits.has key = true →
    ∃ k, parseCommitKey key = some k ∧ WfMinerId k.minerId
  work : ∀ j raw, s.workCommittee.get j = some raw → IdList raw
  params : s.params.validate = .ok ()
  sound : ∀ j, WfJobId j → (view s j).Sound

theorem State.Wf.checked [Chain] {s : State} (hw : s.Wf) : s.params.Checked :=
  .of_validate hw.params

/-- Nothing is retained for a job that is not settled. -/
theorem State.Wf.heldOf_eq_none [Chain] {s : State} (hw : s.Wf) {j : Str} {job : Job}
    (hj : s.job j = some job) (hp : jobIsPaid job.state = false) (sh : Share) :
    s.funds.heldOf sh j = none := by
  have hn : ¬ (view s j).Settled := by
    rintro ⟨k, hk, hpk⟩
    change s.job j = some k at hk
    rw [hj, Option.some.injEq] at hk
    rw [← hk, hp] at hpk
    cases hpk
  exact ((hw.sound j (hw.jobs j (Table.has_of_get? hj))).unsettled hn).1.held sh

/-! ## Progress -/

/-- A change of a life, with an admitted label. -/
def Lives (E : Label → Prop) (v v' : View) : Prop := ∃ e, E e ∧ Life e v v'

/-- What every change keeps, a life keeps. -/
theorem Lives.invariant {E : Label → Prop} {P : View → Prop}
    (hstep : ∀ e v v', E e → P v → Life e v v' → P v') {v v' : View}
    (h : ReflTransGen (Lives E) v v') (hv : P v) : P v' := by
  induction h with
  | refl => exact hv
  | tail _ hl ih =>
    obtain ⟨e, he, hl⟩ := hl
    exact hstep e _ _ he ih hl

/-- What a part of a step does: every job makes changes of its life, and the account does not lose
cover. -/
structure Prog [Chain] (E : Label → Prop) (s s' : State) : Prop where
  lives : ∀ j, WfJobId j → ReflTransGen (Lives E) (view s j) (view s' j)
  slack : s.params.Bounded → s.slack ≤ s'.slack
  supply : s'.supply ≤ s.supply
  params : s'.params = s.params
  wf : s'.Wf

section Prog

variable [Chain] {E E' : Label → Prop} {s s' s'' : State} {j : Str}

theorem Prog.refl (hw : s.Wf) : Prog E s s :=
  ⟨fun _ _ => .refl, fun _ => le_rfl, le_rfl, rfl, hw⟩

theorem Prog.trans (h : Prog E s s') (h' : Prog E s' s'') : Prog E s s'' where
  lives j hj := (h.lives j hj).trans (h'.lives j hj)
  slack hb := (h.slack hb).trans (h'.slack (h.params ▸ hb))
  supply := h'.supply.trans h.supply
  params := h'.params.trans h.params
  wf := h'.wf

theorem Prog.mono (h : Prog E s s') (hE : ∀ e, E e → E' e) : Prog E' s s' :=
  { h with lives := fun j hj => (h.lives j hj).lift id fun _ _ ⟨e, he, hl⟩ => ⟨e, hE e he, hl⟩ }

/-- A pass over a list is treated entry by entry. -/
theorem Prog.foldl {α : Type} {g : State → α → State} (l : List α) (P : List α → State → Prop)
    (hg : ∀ a l s, P (a :: l) s → s.Wf → Prog E s (g s a) ∧ P l (g s a)) (hP : P l s) (hw : s.Wf) :
    Prog E s (l.foldl g s) := by
  induction l generalizing s with
  | nil => exact .refl hw
  | cons a l ih =>
    obtain ⟨h, hP⟩ := hg a l s hP hw
    exact h.trans (ih hP h.wf)

theorem Prog.foldlM {α : Type} {g : State → α → Except Err State} (l : List α)
    (P : List α → State → Prop)
    (hg : ∀ a l s s', P (a :: l) s → s.Wf → g s a = .ok s' → Prog E s s' ∧ P l s') (hP : P l s)
    (hw : s.Wf) (h : l.foldlM g s = .ok s') : Prog E s s' := by
  induction l generalizing s with
  | nil =>
    simp only [List.foldlM_nil, pure_ok] at h
    subst h
    exact .refl hw
  | cons a l ih =>
    rw [List.foldlM_cons, bind_ok] at h
    obtain ⟨s₁, h₁, h⟩ := h
    obtain ⟨hp, hP⟩ := hg a l s s₁ hP hw h₁
    exact hp.trans (ih hP hp.wf h)

/-- One job makes one change, and no other job changes. -/
theorem Prog.of_job {e : Label} (hE : E e) (hw : s.Wf)
    (hothers : ∀ k, WfJobId k → k ≠ j → view s' k = view s k)
    (hlife : Life e (view s j) (view s' j)) (hslack : s.params.Bounded → s.slack ≤ s'.slack)
    (hsupply : s'.supply ≤ s.supply) (hparams : s'.params = s.params)
    (hminers : ∀ m, s'.funds.miners.has m = s.funds.miners.has m)
    (hjobs : ∀ k, s'.jobs.has k = true → s.jobs.has k = true ∨ WfJobId k)
    (hcommits : s'.commits = s.commits)
    (hwork : ∀ k raw, s'.workCommittee.get k = some raw →
      s.workCommittee.get k = some raw ∨ IdList raw) : Prog E s s' := by
  refine ⟨fun k hk => ?_, hslack, hsupply, hparams,
    ⟨fun m hm => ?_, fun k hk => ?_, ?_, fun k raw hk => (hwork k raw hk).elim (hw.work k raw) id,
      ?_, fun k hk => ?_⟩⟩
  · by_cases hkj : k = j
    · subst hkj
      exact .single ⟨e, hE, hlife⟩
    · rw [hothers k hk hkj]
  · exact hw.miners m (hminers m ▸ hm)
  · exact (hjobs k hk).elim (hw.jobs k) id
  · rw [hcommits]
    exact hw.commits
  · rw [hparams]
    exact hw.params
  · by_cases hkj : k = j
    · subst hkj
      exact hlife.sound (hw.sound k hk)
    · rw [hothers k hk hkj]
      exact hw.sound k hk

/-- The record of one job is replaced, with what belongs to it. -/
theorem Prog.of_record {e : Label} (hE : E e) (hw : s.Wf) {job t : Job} {f : Funds} {q : Queues}
    {u : Juries} {r : Registry} (hj : s.job t.jobId = some job)
    (hpurse : ∀ k, k ≠ t.jobId → f.purse k = s.funds.purse k)
    (haudits : ∀ k, k ≠ t.jobId →
      q.pendingAudit.heights k = s.queues.pendingAudit.heights k)
    (hexpiry : ∀ k, k ≠ t.jobId →
      q.pendingJobExpiry.heights k = s.queues.pendingJobExpiry.heights k)
    (hsel : ∀ k, k ≠ t.jobId → u.auditSelected.has k = s.juries.auditSelected.has k)
    (hseats : ∀ k, WfJobId k → k ≠ t.jobId →
      u.auditCommittee.get k = s.juries.auditCommittee.get k)
    (hminers : ∀ m, f.miners.has m = s.funds.miners.has m)
    (hslack : s.params.Bounded → s.funds.slack - job.owed ≤ f.slack - t.owed)
    (hsupply : f.bank.balance + f.bank.outside ≤ s.supply)
    (hlife : Life e (view s t.jobId)
      { view s t.jobId with
        job := some t
        purse := f.purse t.jobId
        audits := q.pendingAudit.heights t.jobId
        expiry := q.pendingJobExpiry.heights t.jobId
        selected := u.auditSelected.has t.jobId
        seats := allowedSeats { s with juries := u } t.jobId }) :
    Prog E s { s with
      funds := f, jobs := s.jobs.put t, queues := q, juries := u, registry := r } := by
  have hj' : s.jobs.get? t.jobId = some job := hj
  have hm : {m | f.miners.has m = true} = (view s t.jobId).miners := by
    ext m
    simp only [view, Set.mem_ofPred_eq, hminers m]
  refine .of_job (j := t.jobId) hE hw (fun k hk hne => ?_) ?_ (fun hb => ?_) hsupply rfl hminers
    (fun k hk => .inl ?_) rfl (fun _ _ h => .inl h)
  · have hjob : (s.jobs.put t).get? k = s.jobs.get? k := Table.get?_put_ne hne
    have hs : allowedSeats { s with juries := u } k = allowedSeats s k :=
      allowedSeats_congr (hseats k hk hne)
    ext1
    · exact hjob
    · exact hpurse k hne
    · exact haudits k hne
    · exact hexpiry k hne
    · exact hsel k hne
    · exact hs
    · rfl
    · exact hm
  · convert hlife using 1
    ext1
    · exact Table.get?_put_self
    · rfl
    · rfl
    · rfl
    · rfl
    · rfl
    · rfl
    · exact hm
  · have hsum := Table.sum_put_of_some Job.owed hj'
    have hs := hslack hb
    show s.funds.slack - (s.jobs.sum Job.owed : Nat) ≤
      f.slack - ((s.jobs.put t).sum Job.owed : Nat)
    omega
  · rw [← hk]
    exact (Table.has_put_of_has (Table.has_of_get? hj')).symm

/-- No record changes; what belongs to one job does. -/
theorem Prog.of_entry {e : Label} (hE : E e) (hw : s.Wf) {f : Funds} {q : Queues} {u : Juries}
    (hpurse : ∀ k, WfJobId k → k ≠ j → f.purse k = s.funds.purse k)
    (haudits : ∀ k, k ≠ j → q.pendingAudit.heights k = s.queues.pendingAudit.heights k)
    (hexpiry : ∀ k, k ≠ j → q.pendingJobExpiry.heights k = s.queues.pendingJobExpiry.heights k)
    (hsel : ∀ k, k ≠ j → u.auditSelected.has k = s.juries.auditSelected.has k)
    (hseats : u.auditCommittee = s.juries.auditCommittee)
    (hminers : ∀ m, f.miners.has m = s.funds.miners.has m)
    (hslack : s.params.Bounded → s.funds.slack ≤ f.slack)
    (hsupply : f.bank.balance + f.bank.outside ≤ s.supply)
    (hlife : Life e (view s j)
      { view s j with
        purse := f.purse j
        audits := q.pendingAudit.heights j
        expiry := q.pendingJobExpiry.heights j
        selected := u.auditSelected.has j }) :
    Prog E s { s with funds := f, queues := q, juries := u } := by
  have hm : ∀ k, {m | f.miners.has m = true} = (view s k).miners := by
    intro k
    ext m
    simp only [view, Set.mem_ofPred_eq, hminers m]
  have hs : ∀ k, allowedSeats { s with juries := u } k = allowedSeats s k :=
    fun k => allowedSeats_congr (s := s) (by rw [hseats])
  refine .of_job (j := j) hE hw (fun k hk hne => ?_) ?_ (fun hb => ?_) hsupply rfl hminers
    (fun k hk => .inl hk) rfl (fun _ _ h => .inl h)
  · ext1
    · rfl
    · exact hpurse k hk hne
    · exact haudits k hne
    · exact hexpiry k hne
    · exact hsel k hne
    · exact hs k
    · rfl
    · exact hm k
  · convert hlife using 1
    ext1
    · rfl
    · rfl
    · rfl
    · rfl
    · rfl
    · exact hs j
    · rfl
    · exact hm j
  · have h := hslack hb
    show s.funds.slack - (s.jobs.sum Job.owed : Nat) ≤ f.slack - (s.jobs.sum Job.owed : Nat)
    omega

/-- No job changes, but for what others do: answers are anchored, and miners come and go. -/
theorem Prog.quiet (hE : E .plain) (hw : s.Wf) (hjobs : s'.jobs = s.jobs)
    (hpurse : ∀ k, WfJobId k → s'.funds.purse k = s.funds.purse k)
    (haudits : s'.queues.pendingAudit = s.queues.pendingAudit)
    (hexpiry : s'.queues.pendingJobExpiry = s.queues.pendingJobExpiry)
    (hjuries : s'.juries.auditSelected = s.juries.auditSelected ∧
      s'.juries.auditCommittee = s.juries.auditCommittee)
    (hcommits : ∀ key cm, s.commit key = some cm → s'.commit key = some cm)
    (hkeys : ∀ key, s'.commits.has key = true → s.commits.has key = true ∨
      ∃ k, parseCommitKey key = some k ∧ WfMinerId k.minerId)
    (hminers : ∀ m, s'.funds.miners.has m = true → s.funds.miners.has m = true ∨ WfMinerId m)
    (hfree : ∀ m k, s.funds.miners.has m = true →
      s'.funds.miners.has m = true ∨ (view s k).Free m)
    (hslack : s.params.Bounded → s.slack ≤ s'.slack) (hsupply : s'.supply ≤ s.supply)
    (hparams : s'.params = s.params)
    (hwork : ∀ k raw, s'.workCommittee.get k = some raw →
      s.workCommittee.get k = some raw ∨ IdList raw) : Prog E s s' := by
  have hlife : ∀ k, WfJobId k → Life .plain (view s k) (view s' k) := by
    intro k hk
    have hl := Life.quiet (v := view s k) (A := (view s' k).answers) (M := (view s' k).miners)
      (fun m hm => ?_) fun m hm => hfree m k hm
    · have e : view s' k = { view s k with
          answers := (view s' k).answers, miners := (view s' k).miners } := by
        have hjob : s'.job k = s.job k := by rw [State.job, State.job, hjobs]
        have hseats : auditCommitteeAllowed s' k = auditCommitteeAllowed s k :=
          allowedSeats_congr (by rw [hjuries.2])
        unfold view
        rw [hjob, hpurse k hk, haudits, hexpiry, hjuries.1, hseats]
      rw [e]
      exact hl
    · simp only [view, Set.mem_ofPred_eq, answerOf, Option.isSome_iff_exists,
        Option.bind_eq_some_iff] at hm ⊢
      obtain ⟨v, cm, hcm, hv⟩ := hm
      exact ⟨v, cm, hcommits _ cm hcm, hv⟩
  refine ⟨fun k hk => .single ⟨.plain, hE, hlife k hk⟩, hslack, hsupply, hparams,
    ⟨fun m hm => (hminers m hm).elim (hw.miners m) id, fun k hk => ?_,
      fun key hkey => (hkeys key hkey).elim (hw.commits key) id,
      fun k raw hk => (hwork k raw hk).elim (hw.work k raw) id, hparams ▸ hw.params,
      fun k hk => (hlife k hk).sound (hw.sound k hk)⟩⟩
  rw [hjobs] at hk
  exact hw.jobs k hk

end Prog

end Dendra.Jobs
