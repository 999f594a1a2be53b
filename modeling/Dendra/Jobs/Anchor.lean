import Dendra.Jobs.Draws
import Dendra.Jobs.RoundTrip

/-!
# The anchored committee

A committee is anchored as soon as it can be drawn. From then on everything that asks for the committee of
the job reads that one list, whatever happens to the registry and to the parameters, and after a restart
from an export too.

* `assignedCommitteeQuery`: `query_assigned_committee.go`.
* `Reads`: what each reader makes of the list.
* `committee_fixed`: they read it in every later state.
-/

namespace Dendra.Jobs

open Word

/-! ## The query -/

/-- The status of a refused query. -/
inductive QueryCode
  | invalidArgument | notFound | failedPrecondition

structure QueryErr where
  code : QueryCode
  text : String

section Query

variable [Chain]

/-- `AssignedCommittee`: the committee in draw order; its first member is the primary. -/
def assignedCommitteeQuery (jobId : Str) (s : State) : Except QueryErr (List Str) :=
  if Str.trimSpace jobId = [] then .error ⟨.invalidArgument, "invalid request"⟩
  else if s.jobs.has jobId = false then .error ⟨.notFound, "unknown job"⟩
  else
    match assignedCommitteeOrdered s jobId (workCommitteeSize s) with
    | .error e => .error ⟨.failedPrecondition, e⟩
    | .ok [] =>
      .error ⟨.failedPrecondition, "no registered miner -> no committee can be derived"⟩
    | .ok (a :: as) => .ok (a :: as)

end Query

/-! ## Later states -/

section Later

variable [Chain]

/-- A step of the chain, or its restart: the state is exported at one block, and imported on a fresh chain
at another. -/
inductive Later (s : State) : State → Prop
  | step {c : Ctx} {a : Action} {s' : State} (h : Step s (c, a) s') : Later s s'
  | restart {c c' : Ctx} {unanchored : Option (List Str)} {p : Params} {balance outside : Nat}
    {s' : State}
    (h : initGenesis c' unanchored (exportGenesis c s) (genesis p balance outside) = .ok s') :
    Later s s'

variable {s s' : State} {c : Ctx} {j : Str} {a : Char} {as : Str}

/-- An anchored committee survives a step and a restart. -/
theorem Later.anchored (h : Later s s') (hs : s.workCommittee.get j = some (a :: as)) :
    s'.workCommittee.get j = some (a :: as) := by
  have hanch : (draw s j).Anchored := ⟨a, as, hs⟩
  cases h with
  | @step c act _ h =>
    by_cases hopen : ∃ msg, act = .openJob msg ∧ msg.jobId = j
    · obtain ⟨msg, rfl, rfl⟩ := hopen
      exact ((step_opened h).2.2.anchored hanch).trans hs
    · exact ((step_draw h fun msg h e => hopen ⟨msg, h, e⟩).anchored hanch).trans hs
  | restart h =>
    obtain ⟨r, d, z, rfl⟩ := initGenesis_spec h
    have hwork : (Table.empty : Store Str Str).putAll s.workCommittee.entries = s.workCommittee :=
      Table.putAll_entries _
    exact (congrArg (Store.get j) hwork).trans hs

/-- Every reader of the committee of a job reads one list. -/
structure Reads (s : State) (j : Str) (l : List Str) : Prop where
  /-- the list, for any size -/
  ordered : ∀ size, assignedCommitteeOrdered s j size = .ok (l.take size.toNat)
  /-- the query -/
  query : Str.trimSpace j ≠ [] → s.jobs.has j = true → l ≠ [] → 0 < workCommitteeSize s →
    assignedCommitteeQuery j s = .ok (l.take (workCommitteeSize s).toNat)
  /-- the settlements of the redundant mode -/
  redundant : ∀ size, assignedCommitteeOrFail s j size = .ok (l.take size.toNat)
  /-- the optimistic settlement -/
  primary : ∀ c job s', job.jobId = j → settleOptimistic c job s = .ok s' →
    (s'.job j).map Job.minerId = some (l.headD [])
  /-- the expiry -/
  expiry : ∀ c job, s.job j = some job → job.state = [] → expireUnservedJob c j s =
    if servedBy s j (l.take (workCommitteeSize s).toNat) then retryExpiry c j s
    else if job.fee = 0 then s else refundEscrow c job s
  /-- the exclusion from a redo jury -/
  redo : ∀ c primaryId disputerId freeze, jobPoolFreeze s j = .ok freeze → redoSeed c s.params ≠ [] →
    redoMembers c s j primaryId disputerId =
      .ok (drawMembersWithDomain redoCommitteeDomain (redoSeed c s.params) j
        (redoCandidates c s freeze (l.take (workCommitteeSize s).toNat) (commitAuthorsOf s j) primaryId
          disputerId) (redoDrawSize s.params))

/-- With an anchor, they do. -/
theorem reads_of_anchored (hs : s.workCommittee.get j = some (a :: as)) :
    Reads s j (Str.split (a :: as) ',') := by
  have hordered : ∀ size, assignedCommitteeOrdered s j size =
      .ok ((Str.split (a :: as) ',').take size.toNat) := by
    intro size
    unfold assignedCommitteeOrdered
    rw [hs]
  have hset : ∀ size, assignedCommittee s j size =
      .ok ((Str.split (a :: as) ',').take size.toNat) := hordered
  generalize Str.split (a :: as) ',' = l at hordered hset
  have hfail : ∀ size, assignedCommitteeOrFail s j size = .ok (l.take size.toNat) := by
    intro size
    unfold assignedCommitteeOrFail
    rw [hset]
  refine ⟨hordered, fun htrim hjob hne hsize => ?_, hfail, fun c job s' hj h => ?_,
    fun c job hjob hstate => ?_, fun c primaryId disputerId freeze hfreeze hseed => ?_⟩
  · unfold assignedCommitteeQuery
    rw [if_neg htrim, if_neg (by rw [hjob]; decide), hordered]
    cases hl : l.take (workCommitteeSize s).toNat with
    | nil =>
      rw [List.take_eq_nil_iff] at hl
      rcases hl with hl | hl
      · omega
      · exact absurd hl hne
    | cons b bs => rfl
  · obtain ⟨primId, -, -, -, -, -, hprim, -, -, -, -, -, -, -, r, rfl⟩ := settleOptimistic_spec h
    have hprim : (l.take 1).headD [] = primId := by
      simp only [primaryOf, hj, hfail, bind_ok, ensure_ok, pure_ok] at hprim
      obtain ⟨m, hm, -, -, hid⟩ := hprim
      rw [← hid, ← Except.ok.inj hm]
      rfl
    have hself : ∀ k : Job, ((s.jobs.put k).get? k.jobId).map Job.minerId = some k.minerId :=
      fun k => congrArg (Option.map Job.minerId) (Table.get?_put_self (v := k))
    rw [← hj]
    refine (hself { job with minerId := primId, state := job.state ++ [.paid, .optimistic] }).trans ?_
    rw [← hprim]
    cases l <;> rfl
  · unfold expireUnservedJob
    rw [hjob]
    simp only [hstate, ne_eq, not_true_eq_false, if_false, hset]
  · unfold redoMembers
    simp only [hset, hfreeze, if_neg hseed]

/-- Once a committee is anchored, every later state reads that same list. -/
theorem committee_fixed (hs : s.workCommittee.get j = some (a :: as))
    (h : Relation.ReflTransGen Later s s') : Reads s' j (Str.split (a :: as) ',') := by
  have hs' : s'.workCommittee.get j = some (a :: as) := by
    induction h with
    | refl => exact hs
    | tail _ hl ih => exact hl.anchored ih
  exact reads_of_anchored hs'

end Later

/-! ## A run -/

/-- A job whose committee was anchored reads it in the state that anchored it. -/
theorem committee_fixed_revealed : ∃ s a as, Reachable (fun _ _ => True) s ∧
    s.workCommittee.get ticket = some (a :: as) ∧ Reads s ticket (Str.split (a :: as) ',') := by
  obtain ⟨s, hs, ht⟩ := exists_reachable (fun _ _ _ => trivial)
    (reachable_village validate_auditMode (by decide) fun _ _ _ _ => trivial)
    (show endsIn free (fun s => decide (∃ raw ∈ s.workCommittee.get ticket, raw ≠ []))
      [(blockAt 2, opening 100), (blockAt 3, .endBlock)] (village auditMode) = true by
        rewrite [application_eq_tabled]
        decide +kernel)
  obtain ⟨raw, hraw, hne⟩ := of_decide_eq_true ht
  cases raw with
  | nil => exact absurd rfl hne
  | cons a as => exact ⟨s, a, as, hs, hraw, committee_fixed hraw .refl⟩

end Dendra.Jobs
