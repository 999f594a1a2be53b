import Dendra.Jobs.Progress.Dispute

/-!
# Progress of the expiry pass

An appointment of a job is taken off the queue when it is due. It is dropped, put off, or it sends
the escrow back to the client.

* `expireOne_prog`: one appointment.
* `runExpiry_prog`: the pass. The record of a job that it reads is the one at the start of the pass,
  or one whose escrow went back in the pass.
-/

namespace Dendra.Jobs

open Word

section Expiry

variable [Chain] {c : Ctx} {E : Label → Prop} {s s' : State} {j : Str} {h : Int}

/-- Only the appointments of one job change, and the bank may have refused a call. -/
theorem Prog.of_appointment {e : Label} (hE : E e) (hw : s.Wf) {q : Queue} {f : Funds}
    (hf : f = s.funds ∨ f = { s.funds with bank := s.funds.bank.called })
    (hq : ∀ k, k ≠ j → q.heights k = s.queues.pendingJobExpiry.heights k)
    (hlife : Life e (view s j) { view s j with expiry := q.heights j }) :
    Prog E s { s with funds := f, queues := { s.queues with pendingJobExpiry := q } } := by
  have hsp : Funds.Spends 0 (Funds.Beside []) s.funds f := by
    rcases hf with rfl | rfl
    · exact .refl _ _
    · exact .refused _ _
  have hpurse : ∀ k, f.purse k = s.funds.purse k := by
    intro k
    rcases hf with rfl | rfl
    · rfl
    · rfl
  refine .of_entry (j := j) (u := s.juries) hE hw (fun k _ _ => hpurse k) (fun _ _ => rfl) hq
    (fun _ _ => rfl) rfl hsp.registered (fun _ => by have := hsp.slack; omega) hsp.supply ?_
  rw [hpurse j]
  exact hlife

/-- An appointment is dropped. -/
theorem Prog.of_drop (hE : E (.drop (s.job j))) (hw : s.Wf)
    (hd : ∀ job, s.job j = some job → job.state ≠ [] ∨ job.fee = 0) :
    Prog E s (removeExpiry (qkey h j) s) := by
  refine .of_appointment (j := j) hE hw (.inl rfl) (fun k hk => Queue.heights_remove_ne hk) ?_
  rw [Queue.heights_remove_self]
  exact Life.dropped (v := view s j) hd

/-- An appointment is put off. -/
theorem Prog.of_retry (hE : E .plain) (hw : s.Wf) {f : Funds}
    (hf : f = s.funds ∨ f = { s.funds with bank := s.funds.bank.called }) :
    Prog E s (retryExpiry c j ((removeExpiry (qkey h j) s).setFunds f)) := by
  refine Prog.of_appointment (j := j) (q := (s.queues.pendingJobExpiry.remove (qkey h j)).insert
    (qkey (addInt64 c.h jobExpiryRetryBlocks) j)) hE hw hf (fun k hk => ?_) ?_
  · rw [Queue.heights_insert_ne hk, Queue.heights_remove_ne hk]
  · rw [Queue.heights_insert_self, Queue.heights_remove_self]
    exact Life.retried

omit [Chain] in
/-- The record of a job whose escrow went back. -/
theorem expired_extends (job : Job) :
    job.Extends [.expired, .refunded] { job with state := job.state ++ [.expired, .refunded] } :=
  ⟨rfl, rfl, rfl, rfl, rfl, fun _ => .inl rfl⟩

theorem refundEscrow_prog (hE : E .plain) (hw : s.Wf) {job : Job} (hj : s.job job.jobId = some job)
    (hs : job.state = []) : Prog E s (refundEscrow c job (removeExpiry (qkey h job.jobId) s)) := by
  unfold refundEscrow
  rcases hr : refundClient c .escrow job job.fee job.fee
    (removeExpiry (qkey h job.jobId) s).funds with ⟨sent, f⟩
  simp only
  rcases refundClient_cases hr with ⟨rfl, hf⟩ | ⟨-, hne, b, -, hf⟩
  · rw [if_pos rfl]
    exact .of_retry hE hw hf
  · rw [if_neg hne]
    obtain ⟨hspend, hle⟩ := Funds.Spends.refundClient (P := OfWork job.jobId) hr
      ⟨rfl, fun e => by cases e⟩
    obtain ⟨hothers, -⟩ := purse_of_spends_on hspend fun _ hp => hp.1
    have hx := expired_extends job
    have hpurse : f.purse job.jobId = { s.funds.purse job.jobId with
        postings := ⟨.escrow, job.jobId, job.client, sent⟩ ::
          (s.funds.purse job.jobId).postings } := by
      rw [hf]
      simp only [Funds.purse, List.filter_cons, decide_true, if_true]
      rfl
    refine Prog.of_record (u := s.juries) (r := s.registry) hE hw hj hothers
      (fun _ _ => rfl) (fun k hk => Queue.heights_remove_ne hk) (fun _ _ => rfl)
      (fun _ _ _ => rfl) hspend.registered (fun _ => ?_) hspend.supply ?_
    · have ho : job.owed = job.fee.toNat := by simp [Job.owed, Job.escrow, Job.openBond, hs,
        jobIsPaid, jobEscrowReturned, jobIsDisputed]
      have ho' : Job.owed { job with state := job.state ++ [.expired, .refunded] } = 0 := by
        simp [Job.owed, Job.escrow, Job.openBond, hs, jobIsPaid, jobEscrowReturned, jobIsDisputed]
      have hslack : s.funds.slack ≤ f.slack + sent.toNat := hspend.slack
      show s.funds.slack - (job.owed : Nat) ≤ f.slack -
        (Job.owed { job with state := job.state ++ [.expired, .refunded] } : Nat)
      rw [ho, ho']
      omega
    · have hl := Life.expired (v := view s job.jobId) (h := h)
        (p := ⟨.escrow, job.jobId, job.client, sent⟩) hj hs hx rfl
      show Life .plain (view s job.jobId)
        { view s job.jobId with
          job := some { job with state := job.state ++ [.expired, .refunded] }
          purse := f.purse job.jobId
          expiry := Queue.heights (s.queues.pendingJobExpiry.remove (qkey h job.jobId)) job.jobId }
      rw [hpurse, Queue.heights_remove_self]
      exact hl

/-- One due appointment. -/
theorem expireOne_prog (hE : E .plain) (hw : s.Wf) (hdrop : E (.drop (s.job j))) :
    Prog E s (expireOne c s (qkey h j)) := by
  show Prog E s (expireUnservedJob c j (removeExpiry (qkey h j) s))
  unfold expireUnservedJob
  have hjob : (removeExpiry (qkey h j) s).job j = s.job j := rfl
  split
  · next hn =>
    rw [hjob] at hn
    exact .of_drop hdrop hw fun job hj => by rw [hn] at hj; cases hj
  · next job hj =>
    rw [hjob] at hj
    have hid : job.jobId = j := Table.key_of_get? hj
    have hd : job.state ≠ [] ∨ job.fee = 0 → Prog E s (removeExpiry (qkey h j) s) := by
      intro hd
      refine .of_drop hdrop hw fun k hk => ?_
      rw [hj, Option.some.injEq] at hk
      rw [← hk]
      exact hd
    split
    · next hs => exact hd (.inl hs)
    · next hs =>
      split
      · exact .of_retry hE hw (.inl rfl)
      · split
        · exact .of_retry hE hw (.inl rfl)
        · split
          · next h0 => exact hd (.inr h0)
          · rw [← hid]
            exact refundEscrow_prog hE hw (by rw [hid]; exact hj) (by simpa using hs)

/-- A record after part of the pass: the one at its start, or one whose escrow went back. -/
def Returned (s s' : State) (j : Str) : Prop :=
  s'.job j = s.job j ∨ ∃ job, s'.job j = some job ∧ jobEscrowReturned job.state = true

theorem refundEscrow_returned (job : Job) (k : Str) : Returned s (refundEscrow c job s) k := by
  unfold refundEscrow
  rcases refundClient c .escrow job job.fee job.fee s.funds with ⟨x, f⟩
  simp only
  split
  · exact .inl rfl
  · by_cases hk : k = job.jobId
    · have hr : jobEscrowReturned (job.state ++ [.expired, .refunded]) = true := by
        rw [jobEscrowReturned_append]
        exact Bool.or_true _
      subst hk
      exact .inr ⟨_, State.job_setJob_self _ { job with state := _ }, hr⟩
    · exact .inl (State.job_setJob_ne _ hk)

/-- One appointment changes a record only by sending its escrow back. -/
theorem expireOne_returned (key : QueueKey) (k : Str) : Returned s (expireOne c s key) k := by
  show Returned (removeExpiry key s) (expireUnservedJob c (ofLex key).2 (removeExpiry key s)) k
  unfold expireUnservedJob
  split
  · exact .inl rfl
  · split
    · exact .inl rfl
    · split
      · exact .inl rfl
      · split
        · exact .inl rfl
        · split
          · exact .inl rfl
          · exact refundEscrow_returned _ _

omit [Chain] in
theorem Returned.trans {s'' : State} (h : Returned s s' j) (h' : Returned s' s'' j) :
    Returned s s'' j := by
  rcases h' with e | h'
  · rcases h with e' | ⟨job, hj, hr⟩
    · exact .inl (e.trans e')
    · exact .inr ⟨job, e.trans hj, hr⟩
  · exact .inr h'

theorem runExpiry_prog (hE : E .plain) (hw : s.Wf)
    (hdrop : ∀ key ∈ s.queues.pendingJobExpiry.due c.h jobExpiryMaxPerBlock, ∀ s',
      Returned s s' (ofLex key).2 → E (.drop (s'.job (ofLex key).2))) :
    Prog E s (runExpiry c s) := by
  refine Prog.foldl _ (fun l s' => (∀ key ∈ l, key ∈
    s.queues.pendingJobExpiry.due c.h jobExpiryMaxPerBlock) ∧ ∀ k, Returned s s' k)
    (fun key l s' hP hw' => ?_) ⟨fun _ h => h, fun _ => .inl rfl⟩ hw
  obtain ⟨hl, hret⟩ := hP
  refine ⟨?_, fun k hk => hl k (.tail _ hk), fun k => (hret k).trans (expireOne_returned key k)⟩
  exact expireOne_prog (h := (ofLex key).1) hE hw' (hdrop key (hl key (.head _)) s' (hret _))

end Expiry

end Dendra.Jobs
