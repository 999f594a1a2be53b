import Dendra.Jobs.Msg.Dispute

/-!
# The end of a block

`keeper/abci.go` and the passes it runs: `job_expiry.go`, the reveal of committee seeds, the audits
(`Audit`), the inactivity prune of `miner_vitality.go`, the retry of held releases, and
`availability.go`.
-/

namespace Dendra.Jobs

open Word

variable [Chain] (c : Ctx)

/-! ## Expiry -/

def insertExpiry (key : QueueKey) (s : State) : State :=
  { s with queues := { s.queues with pendingJobExpiry := s.queues.pendingJobExpiry.insert key } }

def removeExpiry (key : QueueKey) (s : State) : State :=
  { s with queues := { s.queues with pendingJobExpiry := s.queues.pendingJobExpiry.remove key } }

/-- The appointment of a job is put off. -/
def retryExpiry (jobId : Str) (s : State) : State :=
  insertExpiry (qkey (addInt64 c.h jobExpiryRetryBlocks) jobId) s

/-- A commit under the job's prefix names a member of its committee, behind the last separator. -/
def servedBy (s : State) (jobId : Str) (members : List Str) : Bool :=
  (s.commitRange (jobId ++ commitKeySep)).any fun cm =>
    (Str.splitLast commitKeySep cm.jobId).any fun e => members.contains e.2

/-- An escrow whose job was never served, back to its client. -/
def refundEscrow (job : Job) (s : State) : State :=
  match refundClient c .escrow job job.fee job.fee s.funds with
  | (refunded, f) =>
    if refunded = 0 then retryExpiry c job.jobId (s.setFunds f)
    else (s.setFunds f).setJob { job with state := job.state ++ [.expired, .refunded] }

/-- `expireUnservedJob`. -/
def expireUnservedJob (jobId : Str) (s : State) : State :=
  match s.job jobId with
  | none => s
  | some job =>
    if job.state ≠ [] then s
    else
      match assignedCommittee s jobId (workCommitteeSize s) with
      | .error _ => retryExpiry c jobId s
      | .ok members =>
        if servedBy s jobId members then retryExpiry c jobId s
        else if job.fee = 0 then s
        else refundEscrow c job s

/-- One due appointment. -/
def expireOne (s : State) (key : QueueKey) : State :=
  expireUnservedJob c (ofLex key).2 (removeExpiry key s)

/-- The expiry pass. -/
def runExpiry (s : State) : State :=
  (s.queues.pendingJobExpiry.due c.h jobExpiryMaxPerBlock).foldl (expireOne c) s

/-! ## Reveal -/

def removeReveal (key : QueueKey) (s : State) : State :=
  { s with queues := { s.queues with pendingReveal := s.queues.pendingReveal.remove key } }

def insertReveal (key : QueueKey) (s : State) : State :=
  { s with queues := { s.queues with pendingReveal := s.queues.pendingReveal.insert key } }

/-- A due reveal when the decentralised seed is required and missing. -/
def deferReveal (s : State) (key : QueueKey) : State :=
  if s.beacons.has (ofLex key).2 then
    insertReveal (deferredKey c (ofLex key).2) (removeReveal key s)
  else removeReveal key s

/-- A due reveal: the seed is written, and the committee anchored. -/
def revealOne (seed : Str) (s : State) (key : QueueKey) : State :=
  let jobId := (ofLex key).2
  let s :=
    match s.beacons.get? jobId with
    | some b => if b.seed = [] then { s with beacons := s.beacons.put { b with seed := seed } } else s
    | none => s
  removeReveal key (anchorWorkCommittee s jobId)

/-- The reveal pass. -/
def runReveal (seed : Str) (s : State) : State :=
  let due := s.queues.pendingReveal.due c.h revealMaxPerBlock
  if s.params.committeeSeedSource = 1 ∧ due ≠ [] ∧
      (committeeBaseSeedSourced c s.params seed).2 = false then
    due.foldl (deferReveal c) s
  else due.foldl (revealOne seed) s

/-! ## Inactive miners -/

/-- The height that the inactivity of a miner is counted from. -/
def pruneReference (s : State) (m : Str) : Option UInt64 :=
  match s.registry.lastCommitHeight.get m with
  | some last => some last
  | none => s.registry.registeredHeight.get m

/-- The miner is idle for longer than the window, and nothing holds it. -/
def isDoomed (s : State) (m : Str) : Bool :=
  match pruneReference s m with
  | none => false
  | some ref =>
    !withinWindow c.h64 ref s.params.effectivePruneWindow && !hasOpenObligation c s m

/-- One idle miner: its bond goes back, and it is removed. A refused bond cancels the removal. -/
def pruneOne (s : State) (m : Str) : State :=
  match s.miner m with
  | none => s
  | some miner =>
    if miner.stake > 0 ∧ miner.creator ≠ [] then
      match Chain.addrBytes miner.creator with
      | none => s
      | some toBz =>
        match s.funds.pay c (.account toBz) ⟨.stake, [], miner.minerId, miner.stake⟩ with
        | (true, f) => removeMiner m f s
        | (false, f) => s.setFunds f
    else removeMiner m s.funds s

/-- `pruneInactiveMiners`. -/
def pruneInactiveMiners (s : State) : State :=
  if c.height = 0 then s
  else
    ((s.funds.miners.entries.map Miner.minerId).filter (isDoomed c s)).foldl (pruneOne c) s

/-! ## Held releases -/

/-- `retryHeldReleases`. -/
def retryHeldReleases (s : State) : State :=
  s.funds.pendingHeldRelease.entries.foldl
    (fun s jobId =>
      match s.job jobId with
      | none => s.setFunds (queueRelease false jobId s.funds)
      | some job => s.setFunds (releaseHeld c s.params job s.funds))
    s

/-! ## Availability -/

/-- The miners present in an epoch. -/
def presentAt (s : State) (epoch : Int) : List QueueKey :=
  s.registry.available.entries.filter fun k => decide ((ofLex k).1 = epoch)

def availSampleDomain : Str := "dendra/avail-sample/v1|".toList

/-- `availabilityProofOwed`: the miner was drawn for a proof in this epoch. -/
def availabilityProofOwed (challenge : Str) (epoch : UInt64) (minerId : Str) (bps : UInt64) : Bool :=
  if bps = 0 ∨ bps ≥ 10000 then true
  else
    let msg := availSampleDomain ++ challenge ++ '|' :: Str.formatUint epoch.toNat ++ '|' :: minerId
    decide (beNat ((Chain.sha256 (Str.utf8 msg)).take 8) % 10000 < bps.toNat)

/-- The failures of one miner within the window, this epoch included. -/
def failMask (p : Params) (e : UInt64) (challenge : Str) (present : List Str) (r : Registry)
    (minerId : Str) : UInt64 :=
  let w := if p.availFailWindow ≥ 64 then 64 else p.availFailWindow
  let winMask := if p.availFailWindow ≥ 64 then UInt64.ofNat (2 ^ 64 - 1) else (1 <<< w) - 1
  let mask :=
    match r.availFailWindowStart.get minerId, r.availFailCount.get minerId with
    | some last, some prev => if last < e ∧ e - last < 64 then prev <<< (e - last) else 0
    | _, _ => 0
  let mask :=
    if present.contains minerId = false ∧
        availabilityProofOwed challenge e minerId p.availSampleBps = true then mask ||| 1 else mask
  mask &&& winMask

/-- One miner in the count of failures: the registry with its window, and whether it is slashed. -/
def countFailure (p : Params) (e : UInt64) (challenge : Str) (present : List Str)
    (acc : Registry × List Str) (m : Miner) : Registry × List Str :=
  if m.stake = 0 ∨ m.stake < p.minStake then acc
  else
    let (r, toSlash) := acc
    let mask := failMask p e challenge present r m.minerId
    let failed := decide ((onesCount mask : Nat) ≥ p.availFailK.toNat)
    let toSlash := if failed then toSlash ++ [m.minerId] else toSlash
    if failed ∨ mask = 0 then
      if (r.availFailWindowStart.get m.minerId).isSome then
        ({ r with
            availFailCount := r.availFailCount.remove m.minerId
            availFailWindowStart := r.availFailWindowStart.remove m.minerId }, toSlash)
      else (r, toSlash)
    else
      ({ r with
          availFailCount := r.availFailCount.set m.minerId mask
          availFailWindowStart := r.availFailWindowStart.set m.minerId e }, toSlash)

/-- The share of a bond that a missed availability burns. -/
def availSlashOf (p : Params) (stake : UInt64) : UInt64 :=
  let amt := bpsOf stake p.availSlashBps
  if p.availSlashMax > 0 ∧ amt > p.availSlashMax then p.availSlashMax else amt

/-- One unavailable miner. A refused burn leaves the coins in the account. -/
def slashUnavailable (p : Params) (f : Funds) (minerId : Str) : Funds :=
  match f.miners.get? minerId with
  | none => f
  | some m =>
    let amt := availSlashOf p m.stake
    if amt = 0 then f
    else ((f.setMiner { m with stake := m.stake - amt }).pay c .burn ⟨.slash, [], minerId, amt⟩).2

/-- `runAvailabilitySlash`. -/
def runAvailabilitySlash (epoch : Int) (s : State) : State :=
  let p := s.params
  if p.availSlashBps = 0 ∨ p.availFailK = 0 ∨ p.availFailWindow = 0 ∨ epoch < 1 then s
  else if p.availSampleBps > 0 ∧ s.registry.availChallenge.getD [] = [] then s
  else
    let challenge := if p.availSampleBps > 0 then s.registry.availChallenge.getD [] else []
    let present := (presentAt s epoch).map fun k => (ofLex k).2
    let (r, toSlash) := s.funds.miners.entries.foldl
      (countFailure p (toUint64 epoch) challenge present) (s.registry, [])
    { s with registry := r, funds := toSlash.foldl (slashUnavailable c p) s.funds }

/-- `payAvailability`: what it pays comes from the emission module; it forgets the presences. -/
def payAvailability (epoch : Int) (s : State) : Except Err State :=
  let paying := (presentAt s epoch).filterMap fun k =>
    (s.miner (ofLex k).2).filter fun m =>
      !((s.params.availRequireDemand && decide (m.demand = 0)) ||
        (decide (s.params.verificationMode = 1) && decide (m.vrfPubkey = [])))
  if s.params.availPayoutBps > 0 ∧ stakeSum (paying.map Miner.stake) > 0 ∧ c.availPool = none then
    .error ⟨.plain, "avail pool balance"⟩
  else
    .ok { s with
      registry :=
        { s.registry with
          available := (presentAt s epoch).foldl (fun a k => a.remove k) s.registry.available } }

/-- `runAvailabilityEpoch`. -/
def runAvailabilityEpoch (s : State) : Except Err State :=
  let eb := toInt64 s.params.availEpochBlocks
  if eb ≤ 0 ∨ c.h ≤ 0 ∨ c.h % eb ≠ 0 then .ok s
  else do
    let epoch := c.h / eb
    let s ←
      if epoch ≥ 1 then payAvailability c (epoch - 1) (runAvailabilitySlash c (epoch - 1) s)
      else pure s
    let challenge := if c.appHash = [] then "genesis".toList else Str.hex c.appHash
    pure { s with
      registry :=
        { s.registry with
          availChallenge := some challenge
          availChallengeHeight := some c.h } }

/-! ## The block -/

/-- The seed of the block. -/
def blockSeed (p : Params) : Str :=
  let ah := if c.appHash = [] then "genesis".toList else Str.hex c.appHash
  committeeBaseSeed c p (ah ++ ':' :: Str.formatInt c.h)

/-- What runs every hundred blocks. -/
def runPeriodic (s : State) : State :=
  if c.height % 100 = 0 then retryHeldReleases c (pruneInactiveMiners c s) else s

/-- `EndBlock`. -/
def endBlock (s : State) : Except Err State := do
  let seed := blockSeed c s.params
  let s := runReveal c seed (runExpiry c s)
  let s ← runOptimisticAudit c seed s
  let s := runAppealResolveTimeout c (runAuditResolveTimeout c s)
  runAvailabilityEpoch c (runPeriodic c s)

end Dendra.Jobs
