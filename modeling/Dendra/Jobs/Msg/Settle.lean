import Dendra.Jobs.Msg.Job

/-!
# Settling a job

`msg_server_settle_semantic.go`, `msg_server_verify_semantic.go`, `msg_server_finalize_job.go`,
`msg_server_payout.go` and `msg_server_settle_pay.go`. In redundant mode (`verification_mode = 0`) the
assigned committee is tallied, by cosine neighbourhoods or by equal answers; in optimistic mode the
primary alone is settled, and part of its fee is retained.

The maps of the source that go from a miner to its answer are lists here, in key order: the commits of
one job are walked in that order, and every loop sorts its keys first.
-/

namespace Dendra.Jobs

open Word

variable [Chain] (c : Ctx)

/-! ## Tallies -/

section Tally

variable (s : State)

/-- `commitByMiner`: the answers of the committee members to the job itself. -/
def commitByMiner (jobId : Str) (committee : List Str) : List (Str × Str) :=
  let pfx := jobId ++ commitKeySep
  ((s.commitRange pfx).map fun cm => (Str.trimPrefix cm.jobId pfx, cm.resultCommit)).filter
    fun e => committee.contains e.1

/-- `vecs`: those of them that parse as vectors. -/
def committeeVecs (jobId : Str) (committee : List Str) : List (Str × List Int) :=
  (commitByMiner s jobId committee).filterMap fun e => (parseIntVec e.2).map fun v => (e.1, v)

/-- `neighbors`: the other answers within the threshold of this one. -/
def neighbors (vecs : List (Str × List Int)) (e : Str × List Int) : Nat :=
  vecs.countP fun o => decide (o.1 ≠ e.1) && cosineGE e.2 o.2 semanticThresholdBps

/-- `required`: a strict majority of the answers. -/
def required (vecs : List (Str × List Int)) : Nat := vecs.length / 2 + 1

/-- The answer is close to a strict majority, itself counted. -/
def inMajority (vecs : List (Str × List Int)) (e : Str × List Int) : Bool :=
  decide (neighbors vecs e + 1 ≥ required vecs)

/-- `tally`: how many members gave this answer. -/
def tallyOf (answers : List (Str × Str)) (r : Str) : Nat := answers.countP fun e => decide (e.2 = r)

/-- `commits`: the distinct answers, sorted. -/
def distinctAnswers (answers : List (Str × Str)) : List Str :=
  (answers.map Prod.snd).dedup.insertionSort (· ≤ ·)

/-- `canonical`, `best`: the answer given most, the first in order where two tie. -/
def canonical (answers : List (Str × Str)) : Str × Int :=
  (distinctAnswers answers).foldl
    (fun acc r => if (tallyOf answers r : Int) > acc.2 then (r, (tallyOf answers r : Int)) else acc)
    ([], -1)

/-- `winners`: the members who gave the canonical answer. -/
def winners (answers : List (Str × Str)) : List Str :=
  (answers.filter fun e => decide (e.2 = (canonical answers).1)).map Prod.fst

end Tally

/-! ## Slashing and paying a committee -/

/-- What a settlement loop changes: the funds, the pools it holds, the slashes it notes. -/
structure Loop where
  funds : Funds
  pools : Pools
  slashed : List SlashRecord

/-- Slash one member on the losing side; `keepZero` notes a slash of zero too. -/
def slashLoser (p : Params) (keepZero : Bool) (acc : Loop) (mid : Str) : Loop :=
  match acc.funds.miners.get? mid with
  | none => acc
  | some miner =>
    let amt := bpsOf miner.stake p.slashLeakBps
    { funds := acc.funds.setMiner { miner with stake := miner.stake - amt }
      pools := { acc.pools with treasury := acc.pools.treasury + amt }
      slashed := if keepZero ∨ amt > 0 then acc.slashed ++ [⟨mid, amt⟩] else acc.slashed }

/-- Pay one winner, if it is registered and its operator has a readable address. -/
def payWinner (job : Job) (per : UInt64) (f : Funds) (mid : Str) : Except Err Funds :=
  match f.miners.get? mid with
  | none => .ok f
  | some miner =>
    match Chain.addrBytes miner.operator with
    | none => .ok f
    | some toBz => f.payOrFail c (.account toBz) ⟨.work, job.jobId, mid, per⟩ "payment"

/-- One member of a settled committee: paid in the majority, slashed outside it. -/
def settleMember (p : Params) (job : Job) (per : UInt64) (vecs : List (Str × List Int)) (acc : Loop)
    (e : Str × List Int) : Except Err Loop :=
  if inMajority vecs e then do
    let f ← payWinner c job per acc.funds e.1
    pure { acc with funds := f }
  else pure (slashLoser p false acc e.1)

/-- The burn and the remainder of an escrow that was shared out. -/
def closeEscrow (job : Job) (burnAmt surplus : UInt64) (f : Funds) : Except Err Funds := do
  let f ←
    if burnAmt > 0 then f.payOrFail c .burn ⟨.burn, job.jobId, [], burnAmt⟩ "burn" else pure f
  if surplus > 0 then
    match Chain.addrBytes job.client with
    | none => pure f
    | some cliBz =>
      f.payOrFail c (.account cliBz) ⟨.surplus, job.jobId, job.client, surplus⟩ "refund surplus"
  else pure f

/-! ## Optimistic settlement -/

/-- The parts of a fee under optimistic settlement. -/
structure Split where
  burn : UInt64
  validators : UInt64
  team : UInt64
  treasury : UInt64
  held : UInt64
  immediate : UInt64

/-- The cut of a fee. -/
def cutOf (p : Params) (fee : UInt64) : UInt64 := bpsOf fee p.protocolFeeBps

/-- What is left of a fee for its miner. -/
def minerNetOf (p : Params) (fee : UInt64) : UInt64 := fee - bpsOf fee p.feeBurnBps - cutOf p fee

/-- How a fee is split. -/
def splitFee (p : Params) (fee : UInt64) : Split :=
  let cut := cutOf p fee
  let validators := bpsOf cut p.validatorRewardBps
  let team := bpsOf cut p.teamFeeBps
  let held := bpsOf (minerNetOf p fee) p.holdBps
  { burn := bpsOf fee p.feeBurnBps
    validators := validators
    team := team
    treasury := cut - validators - team
    held := held
    immediate := minerNetOf p fee - held }

/-- What is paid to the operator at once. An operator without a readable address is not paid. -/
def payImmediate (job : Job) (miner : Miner) (immediate : UInt64) (f : Funds) : Except Err Funds :=
  if immediate > 0 then
    match Chain.addrBytes miner.operator with
    | none => pure f
    | some toBz =>
      f.payOrFail c (.account toBz) ⟨.immediate, job.jobId, miner.operator, immediate⟩ "payment"
  else pure f

/-- One retained share, when it is not zero. -/
def retainShare (sh : Share) (jobId : Str) (amt : UInt64) (f : Funds) : Funds :=
  if amt = 0 then f else f.setHeld sh jobId amt

/-- `retainCut`. -/
def retainCut (jobId : Str) (validators team treasury : UInt64) (f : Funds) : Funds :=
  retainShare .treasury jobId treasury (retainShare .team jobId team
    (retainShare .validator jobId validators f))

/-- What a settlement retains of the fee, and since when. -/
def retainFee (jobId : Str) (held : UInt64) (f : Funds) : Funds :=
  if held > 0 then
    { f.setHeld .fee jobId held with heldSince := f.heldSince.set jobId c.h64 }
  else f

/-- The demand right that a settlement earns, unless the client pays its own operator. -/
def retainDemand (job : Job) (miner : Miner) (right : UInt64) (f : Funds) : Funds :=
  if job.client ≠ miner.operator ∧ right > 0 then
    { f with heldDemand := f.heldDemand.set job.jobId right }
  else f

/-- The burn: retained with the fee, or at once when nothing is ever retained. -/
def retainBurn (p : Params) (jobId : Str) (burn : UInt64) (f : Funds) : Except Err Funds :=
  if burn > 0 then
    if p.holdBps > 0 then pure (f.setHeld .burn jobId burn)
    else f.payOrFail c .burn ⟨.burn, jobId, [], burn⟩ "burn"
  else pure f

/-- The primary of a job: the first member of its committee. -/
def primaryOf (s : State) (jobId : Str) : Except Err Str := do
  let prim ← assignedCommitteeOrFail s jobId 1
  ensure (prim.headD [] ≠ []) .invalidRequest "no primary assigned"
  pure (prim.headD [])

/-- `settleOptimistic`. -/
def settleOptimistic (job : Job) (s : State) : Except Err State := do
  let p := s.params
  let primId ← primaryOf s job.jobId
  let pc ← require (s.commit (job.jobId ++ commitKeySep ++ primId)) .invalidRequest
    "primary commit missing -> optimistic settlement impossible"
  ensure ((parseIntVec pc.resultCommit).isSome = true) .invalidRequest "primary commit invalid"
  ensure (job.fee ≥ bpsOf job.fee p.feeBurnBps + cutOf p job.fee) .invalidRequest
    "escrow too small (burn+cut)"
  ensure (minerNetOf p job.fee ≠ 0) .invalidRequest "escrow too small"
  let sp := splitFee p job.fee
  let miner ← getMiner s primId "primary not registered"
  let f ← payImmediate c job miner sp.immediate s.funds
  let f := retainFee c job.jobId sp.held f
  let f := retainCut job.jobId sp.validators sp.team sp.treasury f
  let f := retainDemand job miner (sp.treasury + sp.team) f
  let f ← retainBurn c p job.jobId sp.burn f
  let job := { job with minerId := primId, state := job.state ++ [.paid, .optimistic] }
  let cnt := (s.registry.optimisticCount.get primId).getD 0
  pure
    { s with
      funds := f
      jobs := s.jobs.put job
      registry :=
        { s.registry with optimisticCount := s.registry.optimisticCount.set primId (cnt + 1) }
      queues :=
        { s.queues with
          pendingAudit := s.queues.pendingAudit.insert (qkey (addInt64 c.h 1) job.jobId) } }

/-! ## Redundant settlement -/

/-- `SettleSemantic` in redundant mode. -/
def settleRedundant (job : Job) (s : State) : Except Err State := do
  let p := s.params
  let wcs := workCommitteeSize s
  let committee ← assignedCommitteeOrFail s job.jobId wcs
  let vecs := committeeVecs s job.jobId committee
  ensure ((vecs.length : Int) ≥ wcs) .invalidRequest "incomplete committee -> settlement refused"
  let nWin := vecs.countP (inMajority vecs)
  ensure (nWin ≠ 0) .invalidRequest "no strict semantic majority"
  let burnAmt := bpsOf job.fee p.feeBurnBps
  let distributable := job.fee - burnAmt
  let per := distributable / UInt64.ofNat nWin
  ensure (per ≠ 0) .invalidRequest "escrow too small for the number of winners"
  let acc ← vecs.foldlM (settleMember c p job per vecs) ⟨s.funds, s.funds.poolsOrZero, []⟩
  let f := acc.funds.setPools acc.pools
  let f ← closeEscrow c job burnAmt (distributable - per * UInt64.ofNat nWin) f
  pure { s with
    funds := f
    jobs := s.jobs.put
      { job with
        state := job.state ++ [.paid, .finalized]
        slashRecords := job.slashRecords ++ acc.slashed } }

structure MsgSettleSemantic where
  creator : Str
  jobId : Str

def settleSemantic (msg : MsgSettleSemantic) (s : State) : Except Err State := do
  let _ ← signer msg.creator "invalid creator address"
  let job ← require (s.job msg.jobId) .keyNotFound "job not open (no escrow)"
  ensure (jobIsPaid job.state = false) .invalidRequest "job already settled"
  ensure (jobEscrowReturned job.state = false) .invalidRequest
    "job escrow already returned to the client (expired): paying now would draw on other clients' escrows"
  ensure (jobK3Adjudicated job.state = false) .invalidRequest
    "k=3 committee already judged; pay through Payout"
  if s.params.verificationMode = 1 then settleOptimistic c job s else settleRedundant c job s

structure MsgVerifySemantic where
  creator : Str
  jobId : Str

def verifySemantic (msg : MsgVerifySemantic) (s : State) : Except Err State := do
  let _ ← signer msg.creator "invalid creator address"
  ensure (s.params.verificationMode = 0) .invalidRequest
    "verify-semantic is disabled in optimistic mode (verification_mode!=0): verification goes through the VRF audit"
  let job ← require (s.job msg.jobId) .keyNotFound "job not open"
  ensure (jobK3Adjudicated job.state = false) .invalidRequest
    "k=3 committee already judged (settled/verified/finalised): anti-replay"
  let wcs := workCommitteeSize s
  let committee ← assignedCommitteeOrFail s msg.jobId wcs
  let vecs := committeeVecs s msg.jobId committee
  ensure ((vecs.length : Int) ≥ wcs) .invalidRequest "incomplete committee -> verification refused"
  ensure (vecs.any (inMajority vecs) = true) .invalidRequest
    "no strict semantic majority -> nobody is slashed"
  let losers := (vecs.filter fun e => !inMajority vecs e).map Prod.fst
  let acc := losers.foldl (slashLoser s.params true) ⟨s.funds, s.funds.poolsOrZero, []⟩
  pure { s with
    funds := acc.funds.setPools acc.pools
    jobs := s.jobs.put
      { job with
        state := job.state ++ [.verified]
        slashRecords := job.slashRecords ++ acc.slashed } }

structure MsgFinalizeJob where
  creator : Str
  jobId : Str

def finalizeJob (msg : MsgFinalizeJob) (s : State) : Except Err State := do
  let _ ← signer msg.creator "invalid creator address"
  ensure (s.params.verificationMode = 0) .invalidRequest
    "finalize-job is disabled in optimistic mode (verification_mode != 0): verification goes through the VRF audit"
  let job ← require (s.job msg.jobId) .keyNotFound
    "job does not exist -> finalization and slash refused"
  ensure (jobK3Adjudicated job.state = false) .invalidRequest
    "the k=3 committee already ruled (settled, verified or finalized): anti-replay"
  let wcs := workCommitteeSize s
  let committee ← assignedCommitteeOrFail s msg.jobId wcs
  let answers := commitByMiner s msg.jobId committee
  ensure (answers ≠ []) .invalidRequest "no commit from an assigned miner for this job"
  ensure ((canonical answers).2 * 2 > wcs) .invalidRequest
    "no strict majority of the assigned committee -> finalization and slash refused (tie, or committee too incomplete)"
  let losers := (answers.filter fun e => decide (e.2 ≠ (canonical answers).1)).map Prod.fst
  let acc := losers.foldl (slashLoser s.params true) ⟨s.funds, s.funds.poolsOrZero, []⟩
  pure { s with
    funds := acc.funds.setPools acc.pools
    jobs := s.jobs.put
      { job with
        state := job.state ++ [.finalized]
        slashRecords := job.slashRecords ++ acc.slashed } }

structure MsgPayout where
  creator : Str
  jobId : Str

def payout (msg : MsgPayout) (s : State) : Except Err State := do
  let _ ← signer msg.creator "invalid creator address"
  ensure (s.params.verificationMode = 0) .invalidRequest
    "payout is disabled in optimistic mode (verification_mode != 0): settlement goes through settle-semantic, which retains the payment for the audit"
  let wcs := workCommitteeSize s
  let committee ← assignedCommitteeOrFail s msg.jobId wcs
  let job ← require (s.job msg.jobId) .keyNotFound "job not open (no escrow) -> open-job first"
  ensure (jobIsPaid job.state = false) .invalidRequest "job already paid"
  ensure (jobEscrowReturned job.state = false) .invalidRequest
    "job escrow already returned to the client (expired): paying now would draw on other clients' escrows"
  let answers := commitByMiner s msg.jobId committee
  ensure (answers ≠ []) .invalidRequest "no commit from an assigned miner for this job"
  ensure ((answers.length : Int) ≥ wcs) .invalidRequest "incomplete committee -> payout refused"
  let ws := winners answers
  ensure (ws ≠ []) .invalidRequest "no majority -> nothing to pay"
  let burnAmt := bpsOf job.fee s.params.feeBurnBps
  let distributable := job.fee - burnAmt
  let per := distributable / UInt64.ofNat ws.length
  ensure (per ≠ 0) .invalidRequest "escrow too small for the number of winners"
  let f ← ws.foldlM (payWinner c job per) s.funds
  let f ← closeEscrow c job burnAmt (distributable - per * UInt64.ofNat ws.length) f
  pure { s with funds := f, jobs := s.jobs.put { job with state := job.state ++ [.paid] } }

/-! ## Settlement between accounts -/

structure MsgSettlePay where
  creator : Str
  jobId : Str
  amount : UInt64

/-- One winner of a settlement that the client pays itself. -/
def sendWinner (amt : UInt64) (f : Funds) (mid : Str) : Except Err Funds :=
  match f.miners.get? mid with
  | none => .ok f
  | some miner =>
    match Chain.addrBytes miner.operator with
    | none => .ok f
    | some toBz =>
      match f.bank.send c toBz amt with
      | some b => .ok { f with bank := b }
      | none => .error ⟨.insufficientFunds, "payment"⟩

def settlePay (msg : MsgSettlePay) (s : State) : Except Err State := do
  let _ ← signer msg.creator "invalid creator address"
  let job ← require (s.job msg.jobId) .keyNotFound "job not open"
  ensure (job.client = msg.creator) .unauthorized
    "settle-pay is reserved to the job's own client: settling marks the job terminally, so letting a third party do it would strand the escrow with no path left to release or refund it"
  ensure (msg.amount ≠ 0) .invalidRequest
    "settle-pay with amount 0 pays nobody yet marks the job settled for good: refused"
  ensure (jobIsPaid job.state = false) .invalidRequest "job already settled (replay guard)"
  ensure (jobEscrowReturned job.state = false) .invalidRequest
    "job escrow already returned to the client (expired): paying now would draw on other clients' escrows"
  ensure (job.fee = 0) .invalidRequest
    s!"job {String.ofList msg.jobId} still holds the escrow OpenJob took (fee {job.fee}): settle-pay would mark it settled for good and no path could ever release that escrow. Use the protocol settlement (settle-semantic, or payout) which pays out of the escrow; settle-pay is for a job opened without one."
  let wcs := workCommitteeSize s
  let committee ← assignedCommitteeOrFail s msg.jobId wcs
  let answers := commitByMiner s msg.jobId committee
  ensure (answers ≠ []) .invalidRequest "no commit from an assigned miner for this job"
  ensure ((answers.length : Int) ≥ wcs) .invalidRequest
    "incomplete committee -> settlement refused"
  match winners answers with
  | [] => .error ⟨.invalidRequest, "no majority -> nothing to pay"⟩
  | first :: rest => do
    let per := msg.amount / UInt64.ofNat (rest.length + 1)
    let remainder := msg.amount - per * UInt64.ofNat (rest.length + 1)
    let f ← sendWinner c (per + remainder) s.funds first
    let f ← rest.foldlM (sendWinner c per) f
    pure { s with funds := f, jobs := s.jobs.put { job with state := job.state ++ [.settled] } }

end Dendra.Jobs
