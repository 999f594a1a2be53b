import Dendra.Jobs.Committee

/-!
# Audits

`keeper/antievasion.go` (tallies and the slash), `audit_sampling.go`, `audit_unwind.go` and
`audit_jury_floor.go`: the lottery that picks settled jobs for an audit, the verdict tally, and what
the deadline of an audit or of an appeal does. They run at the end of a block, where a refused bank
call never stops the block.
-/

namespace Dendra.Jobs

open Word

/-! ## The verdict tally -/

/-- What `auditVerdictTally` returns. -/
structure Tally where
  cheated : Bool
  valid : Bool
  voters : Nat
  invalidVotes : Nat
  seats : Nat
  distinctOps : Nat
  maxOpVotes : Nat
  deriving DecidableEq

/-- A counted verdict. -/
structure Vote where
  miner : Miner
  invalid : Bool

/-- The sum of stakes, as the code adds them. -/
def stakeSum (l : List UInt64) : UInt64 := l.foldl (· + ·) 0

/-- How many answers each operator gave: the number of operators, and the most of one. -/
def operatorCounts (ops : List Str) : Nat × Nat :=
  (ops.dedup.length, (ops.dedup.map fun o => ops.count o).foldl max 0)

section TallyDefs

variable (s : State)

/-- The verdicts that count: of seated, registered miners other than the primary. -/
def verdictVotes (jobId primId : Str) : List Vote :=
  let pfx := commitKey .verdict jobId []
  (s.commitRange pfx).filterMap fun cm =>
    let mid := Str.trimPrefix cm.jobId pfx
    if mid = primId then none
    else if (auditCommitteeAllowed s jobId).contains mid = false then none
    else (s.miner mid).map fun m => ⟨m, decide (Str.trimSpace cm.resultCommit = "0".toList)⟩

/-- The seats still registered. -/
def registeredSeats (jobId : Str) : Nat :=
  (auditCommitteeAllowed s jobId).countP fun mid => s.funds.miners.has mid

def auditVerdictTally (jobId primId : Str) : Tally :=
  if auditCommitteeAllowed s jobId = [] then ⟨false, false, 0, 0, 0, 0, 0⟩
  else
    let seats := registeredSeats s jobId
    let votes := verdictVotes s jobId primId
    let (distinctOps, maxOpVotes) := operatorCounts (votes.map fun v => v.miner.operator)
    let invalid := votes.filter fun v => v.invalid
    let totalStake := stakeSum (votes.map fun v => v.miner.stake)
    let invalidStake := stakeSum (invalid.map fun v => v.miner.stake)
    if votes.length = 0 ∨ totalStake = 0 then ⟨false, false, 0, 0, seats, distinctOps, maxOpVotes⟩
    else
      ⟨decide (invalidStake * 2 > totalStake), decide (invalidStake * 2 < totalStake), votes.length,
        invalid.length, seats, distinctOps, maxOpVotes⟩

/-- `lotteryPending`. -/
def lotteryPending (jobId : Str) : Bool := s.queues.pendingAudit.holds jobId

/-- `effectiveAuditBps`: the sample rate of a job. -/
def effectiveAuditBps (p : Params) (job : Job) : UInt64 :=
  if p.auditProbationJobs > 0 ∧ job.minerId ≠ [] ∧
      (s.registry.optimisticCount.get job.minerId).any fun cnt =>
        decide (cnt ≤ p.auditProbationJobs) then 10000
  else if p.auditAdaptive > 0 then
    let eff := p.auditSampleBps + p.auditSampleBps * job.fee / p.auditAdaptive
    if eff > 10000 then 10000 else eff
  else p.auditSampleBps

end TallyDefs

/-! ## What a verdict does -/

section Verdict

variable [Chain] (c : Ctx)

/-- `refundDisputeBond`: the bond back to the disputer, if the bank lets it go. -/
def refundDisputeBond (job : Job) (f : Funds) : Job × Funds :=
  if job.disputeBond = 0 ∨ job.disputer = [] then (job, f)
  else
    match Chain.addrBytes job.disputer with
    | none => (job, f)
    | some bz =>
      match f.pay c (.account bz) ⟨.dispute, job.jobId, job.disputer, job.disputeBond⟩ with
      | (true, f') => ({ job with disputeBond := 0 }, f')
      | (false, f') => (job, f')

/-- The bond of a lost dispute, into the treasury of an existing pool. -/
def forfeitBond (job : Job) (f : Funds) : Funds :=
  match f.pools with
  | none => f
  | some pools =>
    (f.setPools { pools with treasury := pools.treasury + job.disputeBond }).post
      ⟨.forfeited, job.jobId, [], job.disputeBond⟩

/-- What a slash takes from the bond: to the client what the retention did not cover, and the rest
to the treasury. -/
def spendSlash (job : Job) (refunded amt : UInt64) (f : Funds) : Funds :=
  let owed := if job.fee > refunded then job.fee - refunded else 0
  let (fromBond, f) := refundClient c .bondRefund job owed amt f
  f.addTreasury .bondPool job.jobId (amt - fromBond)

/-- `slashCheatedPrimary`. -/
def slashCheatedPrimary (p : Params) (job : Job) (f : Funds) : Job × Funds :=
  match f.miners.get? job.minerId with
  | none => (job, (refundRetainedToClient c job f).2.2)
  | some miner =>
    let (refunded, hadRight, f) := refundRetainedToClient c job f
    let amt := bpsOf miner.stake p.slashLeakBps
    let miner := reverseDemand p job hadRight miner
    let f := f.setMiner { miner with stake := miner.stake - amt }
    if amt > 0 then
      ({ job with slashRecords := job.slashRecords ++ [⟨job.minerId, amt⟩] },
        spendSlash c job refunded amt f)
    else (job, f)

/-- A retained fee older than the unwind window, with its job. -/
def strandedRetention (p : Params) (jobId : Str) (s : State) : Option Job :=
  if p.auditUnwindBlocks = 0 then none
  else
    match s.funds.heldOf .fee jobId, s.funds.heldSince.get jobId with
    | some held, some since =>
      if held = 0 ∨ c.h64 < since ∨ c.h64 - since < p.auditUnwindBlocks then none else s.job jobId
    | _, _ => none

/-- Refund a retention, and take the demand it had earned off its miner. -/
def refundAndReverse (p : Params) (job : Job) (f : Funds) : Funds :=
  match f.miners.get? job.minerId with
  | none => (refundRetainedToClient c job f).2.2
  | some m =>
    let (_, hadRight, f) := refundRetainedToClient c job f
    f.setMiner (reverseDemand p job hadRight m)

/-- `unwindStrandedRetention`: undo a settlement that no audit could conclude; was it undone? -/
def unwindStrandedRetention (p : Params) (jobId : Str) (s : State) : Bool × State :=
  match strandedRetention c p jobId s with
  | none => (false, s)
  | some job =>
    let f := refundAndReverse c p job s.funds
    let (job, f) := refundDisputeBond c job f
    (true, (clearAuditCommittee (s.setFunds f) jobId).setJob
      { job with state := job.state ++ [.resolved, .unwound] })

end Verdict

/-! ## Deadlines -/

section Deadlines

variable [Chain] (c : Ctx)

/-- Close the instance of a job with its final record. -/
def closeInstance (job : Job) (f : Funds) (s : State) : State :=
  clearAuditCommittee ((s.setFunds f).setJob job) job.jobId

/-- An audit below quorum at its deadline: unwound when stranded, else appealed or tried again. -/
def deferResolution (p : Params) (jobId : Str) (allowAppeal : Bool) (s : State) : State :=
  match unwindStrandedRetention c p jobId s with
  | (true, s) => s
  | (false, s) =>
    if allowAppeal = true ∧ p.appealWindow > 0 then
      let key := qkey (addInt64 c.h (toInt64 p.appealWindow)) jobId
      { s with
        queues :=
          { s.queues with pendingAppealResolve := s.queues.pendingAppealResolve.insert key } }
    else
      let retry := if p.auditResolveTimeout > 0 then toInt64 p.auditResolveTimeout
        else auditDeferStride
      let key := qkey (addInt64 c.h retry) jobId
      { s with
        queues := { s.queues with pendingAuditResolve := s.queues.pendingAuditResolve.insert key } }

/-- The aggregates of its verdicts, on the record of a job. -/
def judgedJob (t : Tally) (job : Job) : Job :=
  { job with
    auditDistinctVoters := UInt64.ofNat t.distinctOps
    auditVoters := UInt64.ofNat t.voters
    auditMaxOperatorVotes := UInt64.ofNat t.maxOpVotes }

/-- The verdicts of an anchored audit, at its deadline. -/
def resolveByVerdicts (p : Params) (job : Job) (allowAppeal : Bool) (s : State) : State :=
  let t := auditVerdictTally s job.jobId job.minerId
  let judged := judgedJob t job
  if auditSlashDecision p t.cheated t.voters t.invalidVotes t.seats = true then
    let (judged, f) := slashCheatedPrimary c p judged s.funds
    let (judged, f) := refundDisputeBond c
      { judged with state := judged.state ++ [.resolved, .clawed, .quorum] } f
    closeInstance judged f s
  else if auditVindicateDecision p t.valid t.voters (t.voters - t.invalidVotes : Int) t.seats = true
  then
    let ground := Warrant.vindicated p t.valid t.voters (t.voters - t.invalidVotes : Int) t.seats
    let f := releaseHeld c p job (s.funds.warrant job.jobId ground)
    let f := if job.disputeBond > 0 then forfeitBond job f else f
    closeInstance
      { judged with disputeBond := 0, state := judged.state ++ [.resolved, .vindicated, .quorum] } f s
  else deferResolution c p job.jobId allowAppeal s

/-- `resolveDisputedAudit`: the deadline of an audit, of a dispute or of an appeal. -/
def resolveDisputedAudit (p : Params) (jobId : Str) (allowAppeal : Bool) (s : State) : State :=
  match s.job jobId with
  | none => s
  | some job =>
    if jobIsDisputed job.state = false ∨ jobIsResolved job.state = true then s
    else if jobIsOptimistic job.state = true ∧ job.minerId ≠ [] then
      let auditAnchored := decide (auditCommitteeAllowed s jobId ≠ [])
      let redoAnchored := decide (redoCommitteeAllowed s jobId ≠ [])
      let selected := s.juries.auditSelected.has jobId || lotteryPending s jobId
      if auditAnchored = false ∧ redoAnchored = true ∧ selected = false then
        -- a redo committee was summoned and stayed silent
        let f := releaseHeld c p job (s.funds.warrant jobId .silent)
        let (job, f) := refundDisputeBond c job f
        closeInstance { job with state := job.state ++ [.resolved] } f s
      else if auditAnchored = false ∧ selected = false ∧ isHumanDispute s jobId = true then
        -- no committee was ever summoned
        let f := forfeitBond job (releaseHeld c p job (s.funds.warrant jobId .unfounded))
        closeInstance { job with disputeBond := 0, state := job.state ++ [.resolved] } f s
      else resolveByVerdicts c p job allowAppeal s
    else
      let (job, f) := refundDisputeBond c { job with state := job.state ++ [.resolved] } s.funds
      closeInstance job f s

/-- `runAuditResolveTimeout`. -/
def runAuditResolveTimeout (s : State) : State :=
  (s.queues.pendingAuditResolve.due c.h auditMaxPerBlock).foldl
    (fun s key =>
      let s := resolveDisputedAudit c s.params (ofLex key).2 true s
      { s with
        queues := { s.queues with pendingAuditResolve := s.queues.pendingAuditResolve.remove key } })
    s

/-- `runAppealResolveTimeout`. -/
def runAppealResolveTimeout (s : State) : State :=
  (s.queues.pendingAppealResolve.due c.h auditMaxPerBlock).foldl
    (fun s key =>
      let s := resolveDisputedAudit c s.params (ofLex key).2 false s
      { s with
        queues :=
          { s.queues with pendingAppealResolve := s.queues.pendingAppealResolve.remove key } })
    s

end Deadlines

/-! ## The lottery -/

section Lottery

variable [Chain] (c : Ctx)

def removePendingAudit (key : QueueKey) (s : State) : State :=
  { s with queues := { s.queues with pendingAudit := s.queues.pendingAudit.remove key } }

def insertPendingAudit (key : QueueKey) (s : State) : State :=
  { s with queues := { s.queues with pendingAudit := s.queues.pendingAudit.insert key } }

def setJuries (j : Juries) (s : State) : State := { s with juries := j }

/-- The key of an audit put off to a later block. -/
def deferredKey (jobId : Str) : QueueKey := qkey (addInt64 c.h auditDeferStride) jobId

/-- One due job when the decentralised seed is required and missing: no draw is made. -/
def deferAudit (s : State) (key : QueueKey) : State :=
  let jobId := (ofLex key).2
  if (s.job jobId).any fun job => jobIsPaid job.state && !jobIsResolved job.state then
    match unwindStrandedRetention c s.params jobId s with
    | (true, s) => removePendingAudit key s
    | (false, s) => insertPendingAudit (deferredKey c jobId) (removePendingAudit key s)
  else removePendingAudit key s

/-- `deferAuditForSmallJury`. -/
def deferAuditForSmallJury (key : QueueKey) (s : State) : State :=
  match unwindStrandedRetention c s.params (ofLex key).2 s with
  | (true, s) => removePendingAudit key s
  | (false, s) => removePendingAudit key (insertPendingAudit (deferredKey c (ofLex key).2) s)

/-- The record of a job that the lottery sends to an audit. -/
def summonedJob (job : Job) : Job :=
  if jobIsDisputed job.state then job
  else
    { job with
      disputer := Chain.addrString Chain.authority
      disputeBond := 0
      disputeHeight := c.h
      state := job.state ++ [.disputed] }

/-- A job sent to an audit whose jury could be drawn. -/
def openAudit (job : Job) (members : List Str) (s : State) : State :=
  let jobId := job.jobId
  let s := setJuries { s.juries with auditSelected := s.juries.auditSelected.remove jobId } s
  let s := setJuries (anchorCommittee s c jobId (Str.join members ',')) s
  let s := s.setJob (summonedJob c job)
  if s.params.auditResolveTimeout > 0 then
    let key := qkey (addInt64 c.h (toInt64 s.params.auditResolveTimeout)) jobId
    { s with
      queues := { s.queues with pendingAuditResolve := s.queues.pendingAuditResolve.insert key } }
  else s

/-- A job picked by the lottery. -/
def selectAudit (seed : Str) (key : QueueKey) (job : Job) (s : State) : Except Err State :=
  let jobId := job.jobId
  let s :=
    if s.juries.auditSelected.has jobId = false ∧ jobIsDisputed job.state = false then
      setJuries (bumpAuditsOpened s) s
    else s
  match drawAuditCommittee c s seed jobId job.minerId (Chain.addrString Chain.authority) with
  | .error e => .error ⟨.plain, e⟩
  | .ok members =>
    if (members.length : Int) < effectiveSlashFloor s.params then
      let s := setJuries { s.juries with auditSelected := s.juries.auditSelected.insert jobId } s
      .ok (deferAuditForSmallJury c key s)
    else .ok (removePendingAudit key (openAudit c job members s))

/-- One due job of the lottery. -/
def auditOne (seed : Str) (s : State) (key : QueueKey) : Except Err State :=
  let jobId := (ofLex key).2
  match s.job jobId with
  | none => .ok (removePendingAudit key s)
  | some job =>
    if jobIsPaid job.state = false ∨ jobIsResolved job.state = true then
      .ok (removePendingAudit key s)
    else
      let draw := auditDraw seed jobId
      let bps := effectiveAuditBps s s.params job
      if s.juries.auditSelected.has jobId = true ∨ draw < bps then selectAudit c seed key job s
      else
        let ground := Warrant.passedOver (decide (s.params.committeeSeedSource = 1))
          (committeeBaseSeedSourced c s.params seed).2 draw bps
        .ok (removePendingAudit key
          (s.setFunds (releaseHeld c s.params job (s.funds.warrant jobId ground))))

/-- `runOptimisticAudit`. -/
def runOptimisticAudit (seed : Str) (s : State) : Except Err State :=
  if s.params.verificationMode ≠ 1 then .ok s
  else
    let due := s.queues.pendingAudit.due c.h auditMaxPerBlock
    if due = [] then .ok s
    else if (committeeBaseSeedSourced c s.params seed).2 = false ∧ s.params.committeeSeedSource = 1
    then .ok (due.foldl (deferAudit c) s)
    else due.foldlM (auditOne c seed) s

end Lottery

end Dendra.Jobs
