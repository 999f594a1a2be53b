import Dendra.Jobs.Progress.Run
import Dendra.Jobs.Application

/-!
# Expiry and settlement

A due appointment of an open job sends the escrow back, unless the job counts as served: some commit
under the job's prefix names a member of its committee behind its last separator. A settlement reads
one commit only, the primary's, and parses it. So an answer of another member, a verdict or a redo
answer of a member, or an answer that does not parse, keeps the escrow of a job that cannot be
settled.

* `expiry_exact`: when the two agree.
* `expiry_blocked`: a run in which they do not.
-/

namespace Dendra.Jobs

section Expiry

variable [Chain]

/-- The primary has anchored an answer that a settlement accepts. -/
def settleable (s : State) (j : Str) : Bool :=
  match primaryOf s j with
  | .error _ => false
  | .ok primId =>
    (s.commit (j ++ commitKeySep ++ primId)).any fun pc => (parseIntVec pc.resultCommit).isSome

/-- The escrow of the job goes back at its appointment. -/
def refunds (c : Ctx) (s : State) (j : Str) : Bool :=
  ((expireUnservedJob c j s).job j).any fun job => jobEscrowReturned job.state

/-- The bank lets the refund of a job through. -/
def letsRefund (c : Ctx) (s : State) (job : Job) : Bool :=
  (Chain.addrBytes job.client).any fun bz =>
    (s.funds.pay c (.account bz) ⟨.escrow, job.jobId, job.client, job.fee⟩).1

/-- A commit under the job's prefix names a member of the committee behind its last separator. -/
def NamesMember (s : State) (j : Str) (members : List Str) : Prop :=
  ∃ cm ∈ s.commitRange (j ++ commitKeySep), ∃ e,
    Str.splitLast commitKeySep cm.jobId = some e ∧ e.2 ∈ members

variable {c : Ctx} {s : State} {j : Str} {job : Job} {members : List Str}

/-! ## The pass -/

/-- A refund of an escrow, let through or refused. -/
theorem refundEscrow_cases (hfee : job.fee ≠ 0) :
    (letsRefund c s job = true ∧ ∃ f, refundEscrow c job s =
      (s.setFunds f).setJob { job with state := job.state ++ [.expired, .refunded] }) ∨
    (letsRefund c s job = false ∧ ∃ f, refundEscrow c job s =
      retryExpiry c job.jobId (s.setFunds f)) := by
  unfold refundEscrow refundClient letsRefund
  simp only [refundable_self, if_neg hfee]
  cases hbz : Chain.addrBytes job.client with
  | none => exact .inr ⟨by simp, s.funds, rfl⟩
  | some bz =>
    simp only [Option.any_some]
    rcases hp : s.funds.pay c (.account bz) ⟨.escrow, job.jobId, job.client, job.fee⟩ with ⟨b, f⟩
    cases b with
    | true =>
      simp only [if_neg hfee]
      exact .inl ⟨trivial, f, rfl⟩
    | false => exact .inr ⟨rfl, f, rfl⟩

/-- A served job keeps its escrow, and its record. -/
theorem refunds_of_served (hj : s.job j = some job) (hs : job.state = [])
    (hm : assignedCommittee s j (workCommitteeSize s) = .ok members)
    (hserved : servedBy s j members = true) : refunds c s j = false := by
  have he : expireUnservedJob c j s = retryExpiry c j s := by
    unfold expireUnservedJob
    simp only [hj, hs, hm, hserved, if_true, ne_eq, not_true, if_false]
  have hj' : (retryExpiry c j s).job j = some job := hj
  rw [refunds, he, hj', Option.any_some, hs]
  rfl

/-- A job that is not served is refunded if the bank lets it. -/
theorem refunds_of_unserved (hj : s.job j = some job) (hs : job.state = []) (hfee : job.fee ≠ 0)
    (hm : assignedCommittee s j (workCommitteeSize s) = .ok members)
    (hserved : servedBy s j members = false) : refunds c s j = letsRefund c s job := by
  have hid : job.jobId = j := Table.key_of_get? hj
  have he : expireUnservedJob c j s = refundEscrow c job s := by
    unfold expireUnservedJob
    simp only [hj, hs, hm, hserved, if_neg hfee, ne_eq, not_true, if_false, Bool.false_eq_true]
  rw [refunds, he]
  rcases refundEscrow_cases (c := c) (s := s) hfee with ⟨hpay, f, hf⟩ | ⟨hpay, f, hf⟩
  · have hj' : (refundEscrow c job s).job job.jobId =
        some { job with state := job.state ++ [.expired, .refunded] } := by
      rw [hf]
      exact State.job_setJob_self _ { job with state := _ }
    rw [← hid, hj', Option.any_some, hs, hpay]
    rfl
  · have hj' : (refundEscrow c job s).job j = some job := by
      rw [hf]
      exact hj
    rw [hj', Option.any_some, hs, hpay]
    rfl

omit [Chain] in
theorem servedBy_iff : servedBy s j members = true ↔ NamesMember s j members := by
  simp only [servedBy, NamesMember, List.any_eq_true, Option.any_eq_true, List.contains_iff_mem]

/-! ## The settlement -/

/-- What a settlement accepts. -/
theorem settleable_iff : settleable s j = true ↔ ∃ primId pc, primaryOf s j = .ok primId ∧
    s.commit (j ++ commitKeySep ++ primId) = some pc ∧
      (parseIntVec pc.resultCommit).isSome = true := by
  unfold settleable
  cases primaryOf s j with
  | error e => simp
  | ok primId => simp [Option.any_eq_true]

/-- A job that is settled was settleable. -/
theorem settleable_of_settleOptimistic {s' : State} (h : settleOptimistic c job s = .ok s') :
    settleable s job.jobId = true := by
  obtain ⟨primId, pc, miner, f₁, f', right, hprim, -, hpc, hparse, -⟩ := settleOptimistic_spec h
  exact settleable_iff.2 ⟨primId, pc, hprim, hpc, hparse⟩

/-- The members of an assigned committee are derived ids. -/
theorem State.Wf.mem_assignedCommittee (hw : s.Wf) {size : Int}
    (hm : assignedCommittee s j size = .ok members) {m : Str} (hmem : m ∈ members) : WfMinerId m := by
  unfold assignedCommittee assignedCommitteeOrdered at hm
  split at hm
  · next a as hraw =>
    simp only [Except.ok.injEq] at hm
    subst hm
    obtain ⟨l, hl, hne, hwf⟩ := hw.work j _ hraw
    rw [hl, Str.split_join (fun x hx => (hwf x hx).comma) hne] at hmem
    exact hwf m (List.mem_of_mem_take hmem)
  · exact hw.miners m (mem_deriveCommitteeOrdered hm hmem)

/-- The primary is a member of the committee. -/
theorem State.Wf.primary_mem (hw : s.Wf)
    (hm : assignedCommittee s j (workCommitteeSize s) = .ok members) {primId : Str}
    (hprim : primaryOf s j = .ok primId) : primId ∈ members := by
  obtain ⟨ids, rfl, htake⟩ := assignedCommittee_take hm
  simp only [primaryOf, bind_ok, ensure_ok, pure_ok, assignedCommitteeOrFail, htake,
    Except.ok.injEq] at hprim
  obtain ⟨l, rfl, -, hne, rfl⟩ := hprim
  have hsize : 0 < (workCommitteeSize s).toNat := by
    have : 0 < workCommitteeSize s := Params.effectiveWorkCommitteeSize_pos hw.params
    omega
  cases ids with
  | nil => exact absurd rfl hne
  | cons a as =>
    obtain ⟨n, hn⟩ := Nat.exists_eq_add_of_lt hsize
    rw [hn, Nat.zero_add, List.take_succ_cons]
    exact .head _

/-- A job that can be settled is served. -/
theorem State.Wf.served_of_settleable (hw : s.Wf)
    (hm : assignedCommittee s j (workCommitteeSize s) = .ok members)
    (hset : settleable s j = true) : NamesMember s j members := by
  obtain ⟨primId, pc, hprim, hpc, -⟩ := settleable_iff.1 hset
  have hmem := hw.primary_mem hm hprim
  obtain ⟨hin, hkey⟩ := Table.get?_eq_some_iff.1 hpc
  refine ⟨pc, List.mem_filter.2 ⟨hin, ?_⟩, (j, primId), ?_, hmem⟩
  · rw [hkey, List.isPrefixOf_iff_prefix]
    exact ⟨primId, rfl⟩
  · rw [hkey]
    exact Str.splitLast_of_last commitKeySep_ne_nil ((hw.mem_assignedCommittee hm hmem).tail).2

/-! ## The two together -/

/-- For an open job with a fee and a committee: the appointment refunds it exactly when it cannot be
settled, if and only if it can be settled, or no commit under its prefix names a member of its
committee behind its last separator and the bank lets the refund through. -/
theorem expiry_exact {ok : State → Ctx × Action → Prop} (h : Reachable ok s)
    (hj : s.job j = some job) (hs : job.state = []) (hfee : job.fee > 0)
    (hm : assignedCommittee s j (workCommitteeSize s) = .ok members) :
    (refunds c s j = true ↔ settleable s j = false) ↔
      settleable s j = true ∨ ¬ NamesMember s j members ∧ letsRefund c s job = true := by
  have hfee' : job.fee ≠ 0 := fun e => by rw [e] at hfee; exact absurd hfee (by decide)
  cases hset : settleable s j with
  | true =>
    have hserved := servedBy_iff.2 ((Reachable.wf h).served_of_settleable hm hset)
    simp [refunds_of_served hj hs hm hserved]
  | false =>
    simp only [iff_true, Bool.false_eq_true, false_or]
    cases hserved : servedBy s j members with
    | true => simp [refunds_of_served hj hs hm hserved, servedBy_iff.1 hserved]
    | false =>
      have hn : ¬ NamesMember s j members := by
        rw [← servedBy_iff, hserved]
        simp
      rw [refunds_of_unserved hj hs hfee' hm hserved, and_iff_right hn]

end Expiry

/-- An open job that is appointed for block 100002, where the bank lets its refund through. -/
abbrev Appointed (s : State) (job : Job) : Prop :=
  job.state = [] ∧ job.fee > 0 ∧ letsRefund (blockAt 100002) s job = true

/-- Nobody answers. -/
abbrev Unserved (s : State) : Prop := ∃ job ∈ s.job ticket, Appointed s job ∧
  ∃ l ∈ (assignedCommittee s ticket (workCommitteeSize s)).toOption, servedBy s ticket l = false

/-- An answer keeps the job from its refund, and it cannot be settled. -/
abbrev Blocked (s : State) : Prop := ∃ job ∈ s.job ticket, Appointed s job ∧
  s.params.verificationMode = 1 ∧
  (∃ l ∈ (assignedCommittee s ticket (workCommitteeSize s)).toOption, l ≠ []) ∧
  settleable s ticket = false ∧ refunds (blockAt 100002) s ticket = false

/-- A job is opened, and then a member that is not the primary answers. -/
theorem exists_unserved : ∃ s t, Reachable (fun _ _ => True) s ∧ Reachable (fun _ _ => True) t ∧
    Unserved s ∧ Blocked t := by
  obtain ⟨s, hs, ht⟩ := exists_reachable (fun _ _ _ => trivial)
    (reachable_village validate_auditMode (by decide) fun _ _ _ _ => trivial)
    (show endsIn free
      (fun s => decide (Unserved s) &&
        endsIn free (fun s => decide (Blocked s)) [(blockAt 4, anchors 4 "" "1")] s)
      [(blockAt 2, opening 100), (blockAt 3, .endBlock)] (village auditMode) = true by
        delta Unserved Blocked Appointed
        rewrite [application_eq_tabled]
        decide +kernel)
  rw [Bool.and_eq_true] at ht
  obtain ⟨t, ht₁, hblocked⟩ := exists_reachable (fun _ _ _ => trivial) hs ht.2
  exact ⟨s, t, hs, ht₁, of_decide_eq_true ht.1, of_decide_eq_true hblocked⟩

/-- Nobody answers, and the block of the appointment refunds the job. -/
theorem expiry_unserved : ∃ s members job, s.job ticket = some job ∧
    assignedCommittee s ticket (workCommitteeSize s) = .ok members ∧
    (refunds (blockAt 100002) s ticket = true ↔ settleable s ticket = false) := by
  obtain ⟨s, -, hs, -, ⟨job, hj, ⟨hst, hfee, hpay⟩, l, hl, hserved⟩, -⟩ := exists_unserved
  have hm := eq_ok_of_toOption hl
  refine ⟨s, l, job, hj, hm, (expiry_exact hs hj hst hfee hm).2 (.inr ⟨?_, hpay⟩)⟩
  rw [← servedBy_iff, hserved]
  simp

/-- A member that is not the primary answers: the job cannot be settled, and the block of its
appointment keeps its escrow although the bank would let the refund through. -/
theorem expiry_blocked : ∃ s, Reachable (fun _ _ => True) s ∧ ∃ job, s.job ticket = some job ∧
    job.state = [] ∧ job.fee > 0 ∧ s.params.verificationMode = 1 ∧
    (∃ l, assignedCommittee s ticket (workCommitteeSize s) = .ok l) ∧
    letsRefund (blockAt 100002) s job = true ∧
    settleable s ticket = false ∧ refunds (blockAt 100002) s ticket = false := by
  obtain ⟨-, s, -, hs, -, job, hj, ⟨hst, hfee, hpay⟩, hmode, ⟨l, hl, -⟩, hset, href⟩ := exists_unserved
  exact ⟨s, hs, job, hj, hst, hfee, hmode, ⟨l, eq_ok_of_toOption hl⟩, hpay, hset, href⟩

end Dendra.Jobs
