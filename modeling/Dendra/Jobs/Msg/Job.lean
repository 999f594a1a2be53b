import Dendra.Jobs.Msg.Miner

/-!
# Opening a job and anchoring a commit

`msg_server_open_job.go` and `msg_server_commit.go`.
-/

namespace Dendra.Jobs

open Word

variable [Chain] (c : Ctx)

/-! ## Opening a job -/

structure MsgOpenJob where
  creator : Str
  jobId : Str
  fee : UInt64

/-- The fee is low enough for the bond to deter: `α·ℓ·stake > (1 − α)·10000·fee`. -/
def feeDeterred (p : Params) (fee : UInt64) : Bool :=
  let oneMinusS := if p.auditSampleBps < 10000 then 10000 - p.auditSampleBps else 0
  let lhs := p.auditSampleBps.toNat * p.slashLeakBps.toNat * p.minStake.toNat
  let rhs := oneMinusS.toNat * 10000 * fee.toNat
  decide (lhs > rhs)

/-- The beacon of a new job: the seed at once, or a reveal to come. -/
def openBeacon (jobId : Str) (s : State) : State :=
  let delay := s.params.committeeRevealDelay
  if delay = 0 then
    let fallback := Str.formatInt c.h ++ ':' :: Str.formatInt c.unixNano
    { s with beacons := s.beacons.put ⟨jobId, committeeBaseSeed c s.params fallback, []⟩ }
  else
    let key := qkey (addInt64 c.h (toInt64 delay)) jobId
    { s with
      beacons := s.beacons.put ⟨jobId, [], []⟩
      queues := { s.queues with pendingReveal := s.queues.pendingReveal.insert key } }

/-- The record of a new job. -/
def newJob (msg : MsgOpenJob) : Job :=
  { jobId := msg.jobId
    client := msg.creator
    minerId := []
    fee := msg.fee
    state := []
    disputer := []
    disputeBond := 0
    disputeHeight := 0
    slashRecords := []
    auditDistinctVoters := 0
    auditVoters := 0
    auditMaxOperatorVotes := 0 }

/-- The appointment of an escrow. -/
def scheduleExpiry (jobId : Str) (fee : UInt64) (s : State) : State :=
  if fee > 0 then
    let key := qkey (addInt64 c.h s.params.effectiveJobExpiry) jobId
    { s with
      queues := { s.queues with pendingJobExpiry := s.queues.pendingJobExpiry.insert key } }
  else s

def openJob (msg : MsgOpenJob) (s : State) : Except Err State := do
  let _ ← signer msg.creator "invalid creator address"
  ensure (WfJobId msg.jobId) .invalidRequest
    "invalid jobId (must be non-empty and contain no '__')"
  ensure (s.params.verificationMode = 1 → feeDeterred s.params msg.fee = true) .invalidRequest
    "fee too high for the optimistic Nash equilibrium: raise min_stake or lower the fee"
  let funds ← s.funds.collect c msg.fee "escrow"
  let s := openBeacon c msg.jobId (s.setFunds funds)
  let anchor := frozenPoolAnchor c
  enoughEligibleMinersToVerify s anchor
  let s := { s with jobPoolFreezeHeight := s.jobPoolFreezeHeight.set msg.jobId anchor }
  ensure (s.job msg.jobId = none) .invalidRequest
    s!"job \"{String.ofList msg.jobId}\" already exists: re-opening it would take a second escrow that no settlement path could ever return"
  let s := (scheduleExpiry c msg.jobId msg.fee s).setJob (newJob msg)
  pure (if s.params.committeeRevealDelay = 0 then anchorWorkCommittee s msg.jobId else s)

/-! ## Anchoring a commit -/

/-- 384 components of at most 8 characters, and their commas. -/
def maxCommitPayload : Nat := 384 * 8 + 383

def maxCommitKind : Nat := 32

def maxCommitWeightsHash : Nat := 64

def maxCommitModelId : Nat := 128

structure MsgCreateCommit where
  creator : Str
  jobId : Str
  promptCommit : Str
  resultCommit : Str
  kind : Str
  modelId : Str
  weightsHash : Str

/-- The model registry, when it is enforced. -/
def checkModel (p : Params) (msg : MsgCreateCommit) : Except Err Unit :=
  if p.enforceModelRegistry = false then .ok ()
  else do
    ensure (Str.trimSpace msg.modelId ≠ []) .invalidRequest
      "model_id required (model registry enforced)"
    ensure (c.modelActive msg.modelId = true) .unauthorized "model not registered or inactive"
    match c.expectedWeights msg.modelId with
    | none => pure ()
    | some want =>
      if Str.trimSpace want = [] then pure ()
      else do
        ensure (Str.trimSpace msg.weightsHash ≠ []) .invalidRequest
          "weights_hash required (registry enforced with a weights anchor)"
        ensure (Chain.equalFold (Str.trimSpace msg.weightsHash) (Str.trimSpace want) = true)
          .unauthorized "weights_hash does not match the weights registered for this model_id"

def createCommit (msg : MsgCreateCommit) (s : State) : Except Err State := do
  let _ ← signer msg.creator "invalid address"
  let k ← require (parseCommitKey msg.jobId) .invalidRequest
    "invalid commit key: expected \"<jobId>__<minerId>\", a role variant of it, or an epoch marker"
  ensure (k.jobScoped = true → (s.beacons.get? k.jobId).all fun b => b.seed ≠ []) .invalidRequest
    "committee not revealed yet (deferred reveal): retry after the reveal block"
  ensure (k.jobScoped = true → s.jobs.has k.jobId = true) .keyNotFound
    "no job with this id: a commit cannot be anchored under a job that was never opened"
  ensure (Str.byteLen msg.resultCommit ≤ maxCommitPayload) .invalidRequest "result_commit too long"
  ensure (Str.byteLen msg.promptCommit ≤ maxCommitPayload) .invalidRequest "prompt_commit too long"
  ensure (Str.byteLen msg.kind ≤ maxCommitKind) .invalidRequest "kind too long"
  ensure (Str.byteLen msg.modelId ≤ maxCommitModelId) .invalidRequest "model_id too long"
  ensure (Str.byteLen msg.weightsHash ≤ maxCommitWeightsHash) .invalidRequest
    "weights_hash too long"
  let miner ← getMiner s k.minerId "unknown miner for this commit"
  ensure (msg.creator = miner.operator) .unauthorized
    "only the miner's operator may anchor its commit"
  ensure (s.commit msg.jobId = none) .invalidRequest "index already set"
  checkModel c s.params msg
  let commit : Commit :=
    { jobId := msg.jobId
      promptCommit := msg.promptCommit
      resultCommit := msg.resultCommit
      kind := msg.kind
      creator := msg.creator
      modelId := msg.modelId
      weightsHash := msg.weightsHash }
  let s := { s with commits := s.commits.put commit }
  let s :=
    if c.height > 0 ∧ commitProvesAssignedWork s msg.jobId k.minerId = true then
      { s with registry :=
          { s.registry with
            lastCommitHeight := s.registry.lastCommitHeight.set k.minerId c.h64 } }
    else s
  pure { s with registry := noteJudgeAnswer s k commit.resultCommit c.h64 }

end Dendra.Jobs
