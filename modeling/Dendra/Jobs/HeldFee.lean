import Dendra.Jobs.Progress.Run
import Dendra.Jobs.Application

/-!
# The retained fee of a job under audit

From the settlement of a job on, its retained fee moves to the operator only on one of four grounds:
the lottery passed the job over on an admissible seed, a jury vindicated the primary, an adjudication
found agreement, or the authority ruled. Otherwise it stays retained, or goes back to the client; a
client that cannot be paid is paid into the treasury.

* `held_fee_grounded`: where a retained fee can go in one step.
* `held_fee_pooled`: a run in which the client is not paid.
-/

namespace Dendra.Jobs

open Word Relation

/-! ## Grounds -/

/-- The retention of the job was released on a genuine ground. -/
def View.Warranted (v : View) : Prop := ∃ w ∈ v.purse.warrants, w.Genuine

/-- Nothing went to the operator without a ground, no release is queued without one, and a job under
optimistic settlement that is not resolved has one, or may still be decided. -/
structure View.Grounded (v : View) : Prop where
  paid : (∃ p ∈ v.purse.postings, p.kind = .heldFee) → v.Warranted
  queued : v.purse.queued = true → v.Warranted
  pending : ∀ job, v.job = some job → jobIsOptimistic job.state = true →
    jobIsResolved job.state = false → v.Warranted ∨ v.Undecided

/-- More grounds are grounds. -/
theorem View.Warranted.mono {v v' : View} (h : v.Warranted)
    (hw : v.purse.warrants ⊆ v'.purse.warrants) : v'.Warranted := by
  obtain ⟨w, hm, hg⟩ := h
  exact ⟨w, hw hm, hg⟩

/-- A founded release has a ground. -/
theorem View.Founded.warranted {v : View} {job : Job} {w : Warrant} (hf : v.Founded job w)
    (hs : v.Sound) (hg : v.Grounded) (hj : v.job = some job)
    (ho : jobIsOptimistic job.state = true) (hr : jobIsResolved job.state = false) :
    w.Genuine ∨ v.Warranted := by
  rcases hf with hw | ha | hu
  · exact .inl hw
  · exact absurd (hs.optimistic job hj ho).2.2 ha
  · exact .inr ((hg.pending job hj ho hr).resolve_right hu)

/-- New postings on account of the job, none of which pays the operator its retained fee. -/
theorem View.Grounded.paid_append {v v' : View} (hg : v.Grounded) {l : List Posting}
    (hl : ∀ p ∈ l, p.kind ≠ .heldFee) (hp : v'.purse.postings = l ++ v.purse.postings)
    (hw : v'.purse.warrants = v.purse.warrants) :
    (∃ p ∈ v'.purse.postings, p.kind = .heldFee) → v'.Warranted := by
  rintro ⟨p, hm, hk⟩
  rw [hp, List.mem_append] at hm
  refine View.Warranted.mono (hg.paid ⟨p, ?_, hk⟩) (by rw [hw]; exact List.Subset.refl _)
  exact hm.resolve_left fun hml => hl p hml hk

/-- A change that marks the record, and leaves the purse alone. -/
theorem View.Grounded.pending_of_extends {v v' : View} (hg : v.Grounded) {job job' : Job}
    {l : List Mark} (hj : v.job = some job) (hj' : v'.job = some job') (hx : job.Extends l job')
    (hm : ∀ m ∈ l, m ≠ .optimistic ∧ m ≠ .resolved) (hq : v'.purse = v.purse)
    (hu : v.Undecided → v'.Undecided) :
    ∀ k, v'.job = some k → jobIsOptimistic k.state = true → jobIsResolved k.state = false →
      v'.Warranted ∨ v'.Undecided := by
  intro k hk ho hr
  rw [hj', Option.some.injEq] at hk
  subst hk
  rw [hx.optimistic_eq fun m hmm => (hm m hmm).1] at ho
  rw [hx.resolved_eq fun m hmm => (hm m hmm).2] at hr
  rcases hg.pending job hj ho hr with hw | hw
  · exact .inl (hw.mono (by rw [hq]; exact List.Subset.refl _))
  · exact .inr (hu hw)

/-- A change of a life keeps the grounds, when a jury that is summoned has a seat. -/
theorem View.Grounded.step {e : Label} {v v' : View} (hs : v.Sound) (hg : v.Grounded)
    (hl : Life e v v') (he : ∀ p, e = .summon p → 0 < effectiveSlashFloor p) : v'.Grounded := by
  cases hl with
  | quiet => exact ⟨hg.paid, hg.queued, hg.pending⟩
  | opened hv hst =>
    refine ⟨hg.paid, hg.queued, fun k hk ho => ?_⟩
    cases hk
    rw [hst] at ho
    cases ho
  | marked hj hp hx hm hlk =>
    refine ⟨hg.paid_append hlk rfl rfl, hg.queued, fun k hk ho => ?_⟩
    cases hk
    rw [hx.optimistic_eq fun m hmm => (hm m hmm).ne.1] at ho
    rw [(hs.optimistic _ hj ho).1] at hp
    cases hp
  | settled hj hp hst hfee hb hne ha hr hq hw hlk =>
    obtain ⟨l, hpost, hlk⟩ := hlk
    refine ⟨hg.paid_append hlk hpost hw, fun hqq => ?_, fun _ _ _ _ => ?_⟩
    · rw [hq] at hqq
      exact (hg.queued hqq).mono (by rw [hw]; exact List.Subset.refl _)
    · exact .inr (.inl (Set.insert_nonempty _ _))
  | dropped => exact ⟨hg.paid, hg.queued, hg.pending⟩
  | retried => exact ⟨hg.paid, hg.queued, hg.pending⟩
  | @expired _ job job' h p hj hst hx hp =>
    have hpk : ∀ x ∈ [p], x.kind ≠ .heldFee := by simp [hp]
    refine ⟨hg.paid_append hpk rfl rfl, hg.queued, fun k hk ho => ?_⟩
    cases hk
    rw [hx.optimistic_eq (by decide), hst] at ho
    cases ho
  | disputed hj hp hx =>
    exact ⟨hg.paid, hg.queued, hg.pending_of_extends hj rfl hx (by decide) rfl id⟩
  | undrawn hd =>
    refine ⟨hg.paid, hg.queued, fun k hk ho hr => ?_⟩
    rcases hd k hk with hd | hd
    · rw [(hs.optimistic k hk ho).1] at hd
      cases hd
    · rw [hr] at hd
      cases hd
  | deferred => exact ⟨hg.paid, hg.queued, fun _ _ _ _ => .inr (.inl (Set.insert_nonempty _ _))⟩
  | @passed _ job h q w hh hj hp hsel hw heff =>
    have hq : View.Warranted { v with audits := v.audits \ {h}, purse := q } :=
      ⟨w, by rw [heff.warrants]; exact List.mem_cons_self, hw⟩
    exact ⟨fun _ => hq, fun _ => hq, fun _ _ _ _ => .inl hq⟩
  | summoned hh hj hp hx hm hd hseats =>
    refine ⟨hg.paid, hg.queued, fun _ _ _ _ => .inr (.inr (.inr ?_))⟩
    exact hseats (he _ rfl)
  | @closed _ job job' marks way q ws hj hnr hx hm hr hopt heff =>
    have hsub : ws ⊆ q.warrants ∧ v.purse.warrants ⊆ q.warrants := by
      rw [heff.warrants]
      exact ⟨List.subset_append_left _ _, List.subset_append_right _ _⟩
    -- a release has a ground of its own, or an earlier one
    have hrel : way = .release → ∃ w ∈ q.warrants, w.Genuine := by
      intro hway
      obtain ⟨ho, w, hwm, hf⟩ := hopt hway
      rcases hf.warranted hs hg hj ho hnr with hgen | ⟨w', hm', hgen⟩
      · exact ⟨w, hsub.1 hwm, hgen⟩
      · exact ⟨w', hsub.2 hm', hgen⟩
    refine ⟨?_, fun hq => ?_, fun k hk _ hnr' => ?_⟩
    · rintro ⟨p, hpm, hk⟩
      obtain ⟨l, hl, hlk, -⟩ := heff.postings
      rw [hl, List.mem_append] at hpm
      rcases hpm with hpm | hpm
      · exact hrel ((hlk p hpm).1 hk)
      · exact (hg.paid ⟨p, hpm, hk⟩).mono hsub.2
    · rcases heff.queued hq with hq | hq
      · exact (hg.queued hq).mono hsub.2
      · exact hrel hq
    · cases hk
      rw [hx.isResolved_of_mem hr] at hnr'
      cases hnr'
  | @rereleased _ q hq heff =>
    have hw : View.Warranted { v with purse := q } :=
      (hg.queued hq).mono (by rw [heff.warrants]; exact List.Subset.refl _)
    exact ⟨fun _ => hw, fun _ => hw, fun _ _ _ _ => .inl hw⟩
  | unqueued hv =>
    refine ⟨hg.paid, fun hq => (by cases hq), fun k hk => ?_⟩
    rw [hv] at hk
    cases hk

/-! ## Where a retained fee goes -/

/-- Since `q` the fee that was retained then stayed, or left in one piece. -/
def Purse.Moved (q : Purse) (amt : UInt64) (q' : Purse) : Prop :=
  ∃ l, q'.postings = l ++ q.postings ∧
    (q'.held .fee = some amt ∨ ∃ p ∈ l, p.amount = amt ∧ p.kind.movesFee = true)

section Moved

variable {q q' q'' : Purse} {amt : UInt64}

/-- New postings do not touch the retention. -/
theorem Purse.Moved.append (h : q.Moved amt q') {l : List Posting}
    (hp : q''.postings = l ++ q'.postings) (hh : q''.held .fee = q'.held .fee) :
    q.Moved amt q'' := by
  obtain ⟨l', hl', hm⟩ := h
  refine ⟨l ++ l', by rw [hp, hl', List.append_assoc], ?_⟩
  rcases hm with hm | ⟨p, hpm, hm⟩
  · exact .inl (hh.trans hm)
  · exact .inr ⟨p, List.mem_append_right _ hpm, hm⟩

theorem Purse.Moved.effect (h : q.Moved amt q') (h0 : amt ≠ 0) {w : Way} (ws : List Warrant)
    (he : Purse.Effect w { q' with warrants := ws } q'') : q.Moved amt q'' := by
  obtain ⟨l', hl', hm⟩ := h
  obtain ⟨l, hl, -, hf⟩ := he.postings
  refine ⟨l ++ l', by rw [hl, List.append_assoc, ← hl'], ?_⟩
  rcases hm with hm | ⟨p, hpm, hm⟩
  · rcases hf amt hm with hf | hf | ⟨p, hpm, hf⟩
    · exact .inl hf
    · exact absurd hf h0
    · exact .inr ⟨p, List.mem_append_left _ hpm, hf⟩
  · exact .inr ⟨p, List.mem_append_right _ hpm, hm⟩

/-- A change of a life moves a retained fee in one piece. -/
theorem Purse.Moved.step {e : Label} {v v' : View} (hs : v.Sound) (h : q.Moved amt v.purse)
    (h0 : amt ≠ 0) (hl : Life e v v') : q.Moved amt v'.purse := by
  cases hl with
  | quiet => exact h
  | opened => exact h
  | marked => exact h.append rfl rfl
  | settled hj hp hst hfee hb hne ha hr hq hw hlk =>
    obtain ⟨l, hpost, -⟩ := hlk
    have hns : ¬ v.Settled := by
      rintro ⟨k, hk, hpk⟩
      rw [hj, Option.some.injEq] at hk
      rw [← hk, hp] at hpk
      cases hpk
    -- nothing was retained before the settlement
    obtain ⟨l', hl', hm⟩ := h
    refine ⟨l ++ l', by rw [hpost, hl', List.append_assoc], .inr ?_⟩
    rcases hm with hm | ⟨p, hpm, hm⟩
    · rw [(hs.unsettled hns).1.held] at hm
      cases hm
    · exact ⟨p, List.mem_append_right _ hpm, hm⟩
  | dropped => exact h
  | retried => exact h
  | @expired _ job job' hgt p => exact h.append (l := [p]) rfl rfl
  | disputed => exact h
  | undrawn => exact h
  | deferred => exact h
  | passed hh hj hp hsel hw heff => exact h.effect h0 _ heff
  | summoned => exact h
  | closed hj hnr hx hm hr hopt heff => exact h.effect h0 _ heff
  | rereleased hq heff => exact h.effect h0 v.purse.warrants heff
  | unqueued => exact h.append (l := []) rfl rfl

end Moved

/-! ## The refund -/

section Refund

variable [Chain]

end Refund

/-! ## The result -/

section Result

variable [Chain]

end Result

/-! ## Runs -/

/-- Every settled job is drawn, and an audit that finds no jury is unwound after twenty blocks. -/
def unwindMode : Params := { auditMode with auditSampleBps := 10000, auditUnwindBlocks := 20 }

theorem validate_unwindMode [Chain] : unwindMode.validate = .ok () := by
  simp only [Params.validate, Params.validateMode, Params.validateMode1, Params.validateEpoch14,
    Params.validateEpoch15, bind_unit_ok, refuse_ok]
  simp [unwindMode, auditMode, Params.default, Params.effectiveAuditFloor]
  decide

end Dendra.Jobs
