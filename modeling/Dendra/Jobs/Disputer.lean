import Dendra.Jobs.Tally
import Dendra.Jobs.Application

/-!
# The disputer and its juries

Both jury draws leave out the primary and the disputer, "a miner does not judge its own accusation".
The primary is named by its miner id, the disputer by its account address, and both are compared with
the miner ids of the registry: an address is no miner id, so the miners of the disputer stay
candidates.

* `disputer_unseated`: when no miner of the disputer is seated.
* `disputer_seated`: a dispute whose disputer sits on the redo jury.
-/

namespace Dendra.Jobs

/-- The miner belongs to an account. -/
def Miner.ownedBy (m : Miner) (d : Str) : Prop := m.creator = d ∨ m.operator = d

instance (m : Miner) (d : Str) : Decidable (m.ownedBy d) := inferInstanceAs (Decidable (_ ∨ _))

/-- No seat of a jury is held by a miner of an account. -/
def Unseated (s : State) (d : Str) (jury : List Str) : Prop :=
  ∀ m ∈ jury, ∀ r, s.miner m = some r → ¬ r.ownedBy d

section Draws

variable [Chain] {c : Ctx} {s : State} {j prim d : Str} {l : List Str}

/-- A miner of the registry does not reach the seats of a draw: it is no candidate, or as many
candidates as there are seats are drawn before it. -/
def OutOfReach (seed : Str) (cands : List MinerWeight) (seats : Int) (r : Miner) : Prop :=
  r.weight ∈ cands → seats.toNat ≤ (drawnBefore seed cands r.weight).length

/-- A draw from the registry seats no miner of an account exactly when each of them is out of reach. -/
theorem unseated_draw {p : Miner → Bool} {domain seed : Str} {k : Int} :
    Unseated s d (drawMembersWithDomain domain seed j ((s.funds.miners.entries.filter p).map
      Miner.weight) k) ↔
    ∀ m r, s.miner m = some r → r.ownedBy d → OutOfReach (drawSeed domain seed j)
      ((s.funds.miners.entries.filter p).map Miner.weight) k r := by
  constructor
  · intro h m r hr ho hc
    by_contra hlt
    obtain ⟨t, ht, hw⟩ := List.mem_map.1 hc
    obtain ⟨ht, hp⟩ := List.mem_filter.1 ht
    have hid : t.minerId = r.minerId := congrArg MinerWeight.id hw
    obtain ⟨hin, hkey⟩ := Table.get?_eq_some_iff.1 hr
    have e : t = r := Table.eq_of_mem_of_key_eq ht hin hid
    subst e
    refine h m (mem_draw.2 ⟨t, hr, hp, ?_⟩) t hr ho
    omega
  · intro h m hm r hr ho
    obtain ⟨r', hr', hp, hlt⟩ := mem_draw.1 hm
    have e : some r' = some r := hr'.symm.trans hr
    rw [Option.some.injEq] at e
    subst e
    have hin := (Table.get?_eq_some_iff.1 hr).1
    have := h m r' hr ho (List.mem_map_of_mem (List.mem_filter.2 ⟨hin, hp⟩))
    omega

/-- The juries of a dispute that an account opens: the redo jury that its opening draws, and an audit
jury that the lottery draws for the job. No seat is held by a miner of the account exactly when each
of its miners is out of reach of both draws. -/
theorem disputer_unseated {seed : Str} {frz : UInt64} {orig audit redo : List Str}
    (hfrz : jobPoolFreeze s j = .ok frz)
    (horig : assignedCommittee s j (workCommitteeSize s) = .ok orig)
    (hredo : redoMembers c s j prim d = .ok redo)
    (haudit : drawAuditCommittee c s seed j prim (Chain.addrString Chain.authority) = .ok audit) :
    (Unseated s d redo ∧ Unseated s d audit) ↔ ∀ m r, s.miner m = some r → r.ownedBy d →
      (redoSeed c s.params = [] ∨ OutOfReach (drawSeed redoCommitteeDomain (redoSeed c s.params) j)
        (redoCandidates c s frz orig (commitAuthorsOf s j) prim d) (redoDrawSize s.params) r) ∧
      OutOfReach (drawSeed auditCommitteeDomain seed j)
        (auditCandidates c s frz prim (Chain.addrString Chain.authority))
        (auditDrawSize s.params) r := by
  have hr : Unseated s d redo ↔ ∀ m r, s.miner m = some r → r.ownedBy d →
      redoSeed c s.params = [] ∨ OutOfReach (drawSeed redoCommitteeDomain (redoSeed c s.params) j)
        (redoCandidates c s frz orig (commitAuthorsOf s j) prim d) (redoDrawSize s.params) r := by
    by_cases hseed : redoSeed c s.params = []
    · simp only [redoMembers, horig, hfrz, if_pos hseed, Except.ok.injEq] at hredo
      subst hredo
      exact ⟨fun _ _ _ _ _ => .inl hseed, fun _ m hm => by cases hm⟩
    · simp only [redoMembers, horig, hfrz, if_neg hseed, Except.ok.injEq] at hredo
      subst hredo
      unfold redoCandidates
      rw [show (fun m : Miner => (⟨m.minerId, m.stake⟩ : MinerWeight)) = Miner.weight from rfl,
        unseated_draw]
      simp only [hseed, false_or]
  have ha : audit = drawMembersWithDomain auditCommitteeDomain seed j
      (auditCandidates c s frz prim (Chain.addrString Chain.authority))
      (auditDrawSize s.params) := by
    simp only [drawAuditCommittee, hfrz, Except.ok.injEq] at haudit
    exact haudit.symm
  rw [hr, ha]
  unfold auditCandidates
  rw [show (fun m : Miner => (⟨m.minerId, m.stake⟩ : MinerWeight)) = Miner.weight from rfl,
    unseated_draw]
  constructor
  · exact fun h m r hm ho => ⟨h.1 m r hm ho, h.2 m r hm ho⟩
  · exact fun h => ⟨fun m r hm ho => (h m r hm ho).1, fun m r hm ho => (h m r hm ho).2⟩

end Draws

/-! ## Runs -/

/-- The `i`-th miner declares as a judge. -/
def declares (i : Nat) : Action := .declareJudge ⟨nameOf i, idOf i, true⟩

/-- A block whose hash is known. -/
def hashedBlock : Ctx := { blockAt 6 with blockHash := some [1] }

/-- Two miners outside the committee declare as judges, and the job is settled. -/
def judged : List (Ctx × Action) := [(blockAt 2, opening 100), (blockAt 3, .endBlock),
  (blockAt 4, declares 0), (blockAt 4, declares 3), (blockAt 4, anchors 2 "" "1"),
  (blockAt 5, .settleSemantic ⟨client, ticket⟩)]

/-- The operator of a miner disputes the job. -/
def disputes (s : State) : Except Err State := disputeVerdict hashedBlock ⟨nameOf 0, ticket⟩ s

/-- Both juries can be drawn for the client, which owns no miner; and the dispute of the operator is
accepted, with its miner on the redo jury. -/
theorem exists_judged : ∃ s, Reachable (fun _ _ => True) s ∧ ((jobPoolFreeze s ticket).isOk = true ∧
    (assignedCommittee s ticket (workCommitteeSize s)).isOk = true ∧
    (∃ l ∈ (redoMembers hashedBlock s ticket (idOf 2) client).toOption, l ≠ []) ∧
    (drawAuditCommittee hashedBlock s [] ticket (idOf 2)
      (Chain.addrString Chain.authority)).isOk = true ∧
    ∀ r ∈ s.funds.miners.entries, ¬ r.ownedBy client) ∧ (disputes s).isOk = true ∧
    ∃ job ∈ (outcome (disputes s) s).job ticket, job.disputer = nameOf 0 ∧
      jobIsDisputed job.state = true ∧ idOf 0 ∈ redoCommitteeAllowed (outcome (disputes s) s) ticket ∧
      ∃ r ∈ (outcome (disputes s) s).miner (idOf 0), r.creator = job.disputer ∧
        r.operator = job.disputer := by
  obtain ⟨s, hs, ht⟩ := exists_reachable (fun _ _ _ => trivial)
    (reachable_village validate_auditMode (by decide) fun _ _ _ _ => trivial)
    (show endsIn free
      (fun s => decide (((jobPoolFreeze s ticket).isOk = true ∧
        (assignedCommittee s ticket (workCommitteeSize s)).isOk = true ∧
        (∃ l ∈ (redoMembers hashedBlock s ticket (idOf 2) client).toOption, l ≠ []) ∧
        (drawAuditCommittee hashedBlock s [] ticket (idOf 2)
          (Chain.addrString Chain.authority)).isOk = true ∧
        ∀ r ∈ s.funds.miners.entries, ¬ r.ownedBy client) ∧ (disputes s).isOk = true ∧
        ∃ job ∈ (outcome (disputes s) s).job ticket, job.disputer = nameOf 0 ∧
          jobIsDisputed job.state = true ∧
          idOf 0 ∈ redoCommitteeAllowed (outcome (disputes s) s) ticket ∧
          ∃ r ∈ (outcome (disputes s) s).miner (idOf 0), r.creator = job.disputer ∧
            r.operator = job.disputer))
      judged (village auditMode) = true by rewrite [application_eq_tabled]; decide +kernel)
  exact ⟨s, hs, of_decide_eq_true ht⟩

/-- A client that owns no miner disputes the job: nobody of it is seated. -/
theorem disputer_unseated_client : ∃ (s : State) (redo audit : List Str),
    Reachable (fun _ _ => True) s ∧ redo ≠ [] ∧
    redoMembers hashedBlock s ticket (idOf 2) client = .ok redo ∧
    Unseated s client redo ∧ Unseated s client audit := by
  obtain ⟨s, hs, ⟨hfrz, horig, ⟨redo, hredo, hne⟩, haudit, hown⟩, -⟩ := exists_judged
  obtain ⟨frz, hfrz⟩ := exists_ok hfrz
  obtain ⟨orig, horig⟩ := exists_ok horig
  obtain ⟨audit, haudit⟩ := exists_ok haudit
  have hnone : ∀ m r, s.miner m = some r → ¬ r.ownedBy client :=
    fun m r hr => hown r (Table.get?_eq_some_iff.1 hr).1
  obtain ⟨h1, h2⟩ := (disputer_unseated hfrz horig (eq_ok_of_toOption hredo) haudit).2
    fun m r hr ho => absurd ho (hnone m r hr)
  exact ⟨s, redo, audit, hs, hne, eq_ok_of_toOption hredo, h1, h2⟩

/-- The operator of a miner disputes the job, and its miner holds a seat of the redo jury. -/
theorem disputer_seated : ∃ s, Reachable (fun _ _ => True) s ∧ ∃ job m r,
    s.job ticket = some job ∧ job.disputer = nameOf 0 ∧ jobIsDisputed job.state = true ∧
    m ∈ redoCommitteeAllowed s ticket ∧ s.miner m = some r ∧ r.creator = job.disputer ∧
      r.operator = job.disputer := by
  obtain ⟨s, hs, -, hok, job, hj, hd, hdis, hm, r, hr, hc, ho⟩ := exists_judged
  have hstep : Step s (hashedBlock, .disputeVerdict ⟨nameOf 0, ticket⟩) (outcome (disputes s) s) :=
    eq_ok_outcome hok
  exact ⟨_, .step hs trivial hstep, job, idOf 0, r, hj, hd, hdis, hm, hr, hc, ho⟩

end Dendra.Jobs
