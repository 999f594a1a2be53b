import Dendra.Jobs.Audit
import Dendra.Jobs.Msg.Settle

/-!
# Disputes

`msg_server_dispute.go` and `msg_server_adjudicate.go`: opening a dispute on a settled job, resolving
it by the authority, and adjudicating it by the verdicts of the audit jury or by the fresh answers of
the redo jury.
-/

namespace Dendra.Jobs

open Word

variable [Chain] (c : Ctx)

/-! ## Opening -/

structure MsgDisputeVerdict where
  creator : Str
  jobId : Str

/-- A job under a fresh dispute. -/
def disputedJob (p : Params) (disputer : Str) (job : Job) : Job :=
  { job with
    disputer := disputer
    disputeBond := p.disputeBond
    disputeHeight := c.h
    state := job.state ++ [.disputed] }

/-- The instance of a fresh dispute: its record, its redo jury and its deadline. -/
def openDispute (disputer : Str) (job : Job) (s : State) : State :=
  let s := s.setJob (disputedJob c s.params disputer job)
  let s := if s.juries.auditSelected.has job.jobId then s else setJuries (bumpAuditsOpened s) s
  let s := setJuries
    { s.juries with
      auditCommittee := s.juries.auditCommittee.set (humanDisputeKey job.jobId) disputer } s
  let s := anchorRedoCommittee c s job.jobId job.minerId disputer
  if s.params.auditResolveTimeout > 0 then
    let key := qkey (addInt64 c.h (toInt64 s.params.auditResolveTimeout)) job.jobId
    { s with
      queues := { s.queues with pendingAuditResolve := s.queues.pendingAuditResolve.insert key } }
  else s

def disputeVerdict (msg : MsgDisputeVerdict) (s : State) : Except Err State := do
  let p := s.params
  ensure (p.disputeWindow ≠ 0) .invalidRequest "disputes are disabled (dispute_window=0)"
  let _ ← signer msg.creator "invalid creator address"
  let job ← require (s.job msg.jobId) .keyNotFound "unknown job"
  ensure (jobIsPaid job.state = true) .invalidRequest
    "only a settled job can be challenged (paid/settled)"
  ensure (jobIsDisputed job.state = false) .invalidRequest "job already challenged (anti-replay)"
  ensure (jobIsResolved job.state = false) .invalidRequest
    "job already resolved: no instance remains to hear a dispute, and its bond could never be returned"
  let funds ←
    if p.disputeBond > 0 then s.funds.collect c p.disputeBond "bond" else pure s.funds
  pure (openDispute c msg.creator job (s.setFunds funds))

/-! ## Restoring a slash, and the bond of the disputer -/

/-- Give back one recorded slash, as far as the treasury goes. -/
def restoreSlash (acc : Loop) (rec : SlashRecord) : Loop :=
  let amt := if rec.amount > acc.pools.treasury then acc.pools.treasury else rec.amount
  if amt = 0 then acc
  else
    match acc.funds.miners.get? rec.minerId with
    | none => acc
    | some m =>
      { acc with
        funds := acc.funds.setMiner { m with stake := m.stake + amt }
        pools := { acc.pools with treasury := acc.pools.treasury - amt } }

/-- The reward of a disputer who was right: as much again as its bond, if the treasury has it. -/
def disputeReward (bond : UInt64) (pools : Pools) : UInt64 :=
  if bond > pools.treasury then pools.treasury else bond

/-! ## Resolution by the authority -/

structure MsgResolveDispute where
  authority : Str
  jobId : Str
  upheld : Bool

/-- The bond and the reward of an upheld dispute. -/
def payDisputerOrFail (job : Job) (acc : Loop) : Except Err Loop := do
  let reward := disputeReward job.disputeBond acc.pools
  let pools := { acc.pools with treasury := acc.pools.treasury - reward }
  if job.disputeBond + reward > 0 then do
    let bz ← require (Chain.addrBytes job.disputer) .invalidAddress "disputer address"
    let f ← acc.funds.payOrFail c (.account bz)
      ⟨.dispute, job.jobId, job.disputer, job.disputeBond + reward⟩ "dispute payout"
    pure { acc with funds := f, pools := pools }
  else pure { acc with pools := pools }

/-- What a ruling of the authority does to the pools and to the bonds. -/
def authorityRuling (upheld : Bool) (job : Job) (acc : Loop) : Except Err Loop :=
  if upheld then payDisputerOrFail c job (job.slashRecords.foldl restoreSlash acc)
  else
    .ok { acc with
      pools := { acc.pools with treasury := acc.pools.treasury + job.disputeBond } }

def resolveDispute (msg : MsgResolveDispute) (s : State) : Except Err State := do
  let authBz ← signer msg.authority "invalid authority address"
  ensure (authBz = Chain.authority) .invalidSigner
    "resolve-dispute is reserved to the authority (interim; fresh-committee self-resolution is increment 3)"
  let job ← require (s.job msg.jobId) .keyNotFound "unknown job"
  ensure (jobIsDisputed job.state = true) .invalidRequest "no open dispute for this job"
  ensure (jobIsResolved job.state = false) .invalidRequest "dispute already resolved (anti-replay)"
  let acc ← authorityRuling c msg.upheld job ⟨s.funds, s.funds.poolsOrZero, []⟩
  let f := acc.funds.setPools acc.pools
  let f :=
    if jobIsOptimistic job.state = true ∧ job.minerId ≠ [] then
      if msg.upheld then refundAndReverse c s.params job f
      else releaseHeld c s.params job (f.warrant job.jobId .authority)
    else f
  pure (closeInstance { job with state := job.state ++ [.resolved] } f s)

/-! ## Adjudication -/

/-- A fresh answer of the redo jury. -/
structure FreshVote where
  vec : List Int
  stake : UInt64
  operator : Str

/-- The fresh answers that count: of seated, registered miners who did not answer the job itself. -/
def freshVotes (s : State) (jobId : Str) (orig authors : List Str) : List FreshVote :=
  let pfx := commitKey .redo jobId []
  (s.commitRange pfx).filterMap fun cm =>
    let mid := Str.trimPrefix cm.jobId pfx
    if (redoCommitteeAllowed s jobId).contains mid = false then none
    else if orig.contains mid = true ∨ authors.contains mid = true then none
    else
      match s.miner mid, parseIntVec cm.resultCommit with
      | some m, some v => some ⟨v, m.stake, m.operator⟩
      | _, _ => none

/-- The seats of the redo jury that may answer. -/
def redoSeats (s : State) (jobId : Str) (orig authors : List Str) : Nat :=
  (redoCommitteeAllowed s jobId).countP fun mid => !(orig.contains mid || authors.contains mid)

/-- Two thirds of the seats, and never fewer than three. -/
def redoQuorum (seats : Int) : Int :=
  if (2 * seats + 2) / 3 < redoQuorumFloor then redoQuorumFloor else (2 * seats + 2) / 3

/-- The fresh stake that agrees with an answer. -/
def agreeStake (fresh : List FreshVote) (ov : List Int) : UInt64 :=
  stakeSum ((fresh.filter fun fv => cosineGE ov fv.vec semanticThresholdBps).map FreshVote.stake)

/-- The stored answer of a miner to a job. -/
def answerOf (s : State) (jobId minerId : Str) : Option (List Int) :=
  (s.commit (jobId ++ commitKeySep ++ minerId)).bind fun cm => parseIntVec cm.resultCommit

/-- Give back the recorded slashes that the fresh answers contradict; was there one? -/
def restoreContradicted (s : State) (jobId : Str) (fresh : List FreshVote) (total : UInt64)
    (acc : Loop × Bool) (rec : SlashRecord) : Loop × Bool :=
  match answerOf s jobId rec.minerId with
  | none => acc
  | some ov =>
    if agreeStake fresh ov * 2 ≤ total then acc else (restoreSlash acc.1 rec, true)

/-- Did the primary cheat? By the verdicts when there are enough of them, else by the fresh stake
that agrees with its answer. -/
def decideCheated (p : Params) (t : Tally) (agree : Option UInt64) (total : UInt64) :
    Except Err Bool :=
  if (t.voters : Int) ≥ effectiveSlashFloor p then do
    let cheated := auditSlashDecision p t.cheated t.voters t.invalidVotes t.seats
    ensure (cheated = true ∨ auditVindicateDecision p t.valid t.voters
        (t.voters - t.invalidVotes : Int) t.seats = true) .invalidRequest
      "verdicts below the relative bar (neither slash nor vindication at 2/3 of the anchored seats) -> the adjudication does not conclude; the audit timeout will defer"
    pure cheated
  else
    match agree with
    | none => pure false
    | some agree =>
      if total > 0 then
        if agree * 2 < total then pure true
        else if agree * 2 = total then
          .error ⟨.invalidRequest, "fresh stake split evenly (neither majority disagreement nor majority agreement) -> the adjudication does not conclude; the audit timeout will defer"⟩
        else pure false
      else pure false

/-- The ground on which an adjudication releases a retention. -/
def adjudicatedGround (p : Params) (t : Tally) (agree : Option UInt64) (total : UInt64) : Warrant :=
  if (t.voters : Int) ≥ effectiveSlashFloor p then
    .vindicated p t.valid t.voters (t.voters - t.invalidVotes : Int) t.seats
  else .agreed agree.isSome (agree.getD 0) total

/-- The slash of a primary found to have cheated. The retention itself is refunded later. -/
def slashAdjudicated (p : Params) (job : Job) (acc : Loop) : Job × Loop :=
  match acc.funds.miners.get? job.minerId with
  | none => (job, acc)
  | some m =>
    let amt := bpsOf m.stake p.slashLeakBps
    let f := acc.funds.setMiner { m with stake := m.stake - amt }
    let retained := retainedTotal job.jobId f
    let (fromBond, f) :=
      if amt > 0 ∧ job.fee > retained then
        refundClient c .bondRefund job (job.fee - retained) amt f
      else (0, f)
    let pools := { acc.pools with treasury := acc.pools.treasury + (amt - fromBond) }
    (if amt > 0 then { job with slashRecords := job.slashRecords ++ [⟨job.minerId, amt⟩] } else job,
      { acc with funds := f.post ⟨.bondPool, job.jobId, [], amt - fromBond⟩, pools := pools })

/-- The bond and the reward of an upheld dispute; a disputer without a readable address is not paid. -/
def payDisputer (job : Job) (acc : Loop) : Except Err Loop := do
  let reward := disputeReward job.disputeBond acc.pools
  let pools := { acc.pools with treasury := acc.pools.treasury - reward }
  if job.disputeBond + reward > 0 then
    match Chain.addrBytes job.disputer with
    | none => pure { acc with pools := pools }
    | some bz => do
      let f ← acc.funds.payOrFail c (.account bz)
        ⟨.dispute, job.jobId, job.disputer, job.disputeBond + reward⟩ "dispute payout"
      pure { acc with funds := f, pools := pools }
  else pure { acc with pools := pools }

/-- What an adjudication looked at, before any coin moves. -/
structure Adjudication where
  fresh : List FreshVote
  total : UInt64
  tally : Tally
  agree : Option UInt64

/-- The quorum of an adjudication: enough verdicts, or enough fresh answers with a stake. -/
def adjudication (job : Job) (s : State) : Except Err Adjudication := do
  let p := s.params
  ensure (¬ (p.disputeWindow > 0 ∧
      c.h < addInt64 job.disputeHeight (toInt64 p.disputeWindow))) .invalidRequest
    "re-adjudication window has not elapsed"
  let orig ← assignedCommitteeOrFail s job.jobId p.effectiveWorkCommitteeSize
  let authors := commitAuthorsOf s job.jobId
  let fresh := freshVotes s job.jobId orig authors
  let total := stakeSum (fresh.map FreshVote.stake)
  let t := auditVerdictTally s job.jobId job.minerId
  ensure ((fresh.length : Int) ≥ redoQuorum (redoSeats s job.jobId orig authors) ∨
      (t.voters : Int) ≥ effectiveSlashFloor p) .invalidRequest
    "fresh committee below quorum (re-commits < 2/3 of the anchored seats and verdicts < participation floor) -> the audit timeout will decide"
  ensure (total ≠ 0 ∨ (t.voters : Int) ≥ effectiveSlashFloor p) .invalidRequest
    "fresh committee carries no stake"
  pure ⟨fresh, total, t, (answerOf s job.jobId job.minerId).map (agreeStake fresh)⟩

/-- The aggregates an adjudication leaves on the job. -/
def adjudicatedJob (p : Params) (a : Adjudication) (job : Job) : Job :=
  let (ops, maxOps) := operatorCounts (a.fresh.map FreshVote.operator)
  let byVerdicts := decide ((a.tally.voters : Int) ≥ effectiveSlashFloor p)
  { job with
    disputeBond := 0
    auditDistinctVoters := UInt64.ofNat (if byVerdicts then a.tally.distinctOps else ops)
    auditVoters := UInt64.ofNat (if byVerdicts then a.tally.voters else a.fresh.length)
    auditMaxOperatorVotes := UInt64.ofNat (if byVerdicts then a.tally.maxOpVotes else maxOps)
    state := job.state ++ [.resolved, .adjudicated] }

/-- Did the primary of a job under optimistic settlement cheat? Other jobs have no such instance. -/
def primaryCheated (p : Params) (job : Job) (a : Adjudication) : Except Err Bool :=
  if jobIsOptimistic job.state = true ∧ job.minerId ≠ [] then
    decideCheated p a.tally a.agree a.total
  else .ok false

/-- The bond of the disputer: paid with its reward, or forfeited. -/
def payOrForfeit (upheld : Prop) [Decidable upheld] (job : Job) (acc : Loop) : Except Err Loop :=
  if upheld then payDisputer c job acc
  else
    .ok { acc with
      pools := { acc.pools with treasury := acc.pools.treasury + job.disputeBond } }

structure MsgAdjudicateDispute where
  creator : Str
  jobId : Str

def adjudicateDispute (msg : MsgAdjudicateDispute) (s : State) : Except Err State := do
  let _ ← signer msg.creator "invalid creator address"
  let p := s.params
  let job ← require (s.job msg.jobId) .keyNotFound "unknown job"
  ensure (jobIsDisputed job.state = true) .invalidRequest "no open dispute for this job"
  ensure (jobIsResolved job.state = false) .invalidRequest "dispute already resolved (anti-replay)"
  let a ← adjudication c job s
  let start : Loop := ⟨s.funds, s.funds.poolsOrZero, []⟩
  let (acc, restored) := job.slashRecords.foldl
    (restoreContradicted s job.jobId a.fresh a.total) (start, false)
  let cheated ← primaryCheated p job a
  let (job, acc) := if cheated then slashAdjudicated c p job acc else (job, acc)
  let acc ← payOrForfeit c (restored = true ∨ cheated = true) job acc
  let f := acc.funds.setPools acc.pools
  let f :=
    if jobIsOptimistic job.state = true ∧ job.minerId ≠ [] then
      if cheated then refundAndReverse c p job f
      else releaseHeld c p job
        (f.warrant job.jobId (adjudicatedGround p a.tally a.agree a.total))
    else f
  pure (closeInstance (adjudicatedJob p a job) f s)

end Dendra.Jobs
