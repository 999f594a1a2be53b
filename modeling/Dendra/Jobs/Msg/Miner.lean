import Dendra.Jobs.Committee

/-!
# The messages about one miner

`msg_server_miner.go`, `msg_server_declare_judge.go`, `msg_server_prove_availability.go`,
`msg_server_claim_subsidy.go`, `msg_server_reward_training.go`, `msg_server_slash_miner.go`,
`msg_server_report_divergence.go` and the beacon and parameter messages: registering, updating and
removing a miner, and what its operator or the authority does to its record. None of them touches a
job, a retention or a queue.
-/

namespace Dendra.Jobs

open Word

variable [Chain] (c : Ctx)

/-- The signer's address, or a refusal. -/
def signer (creator : Str) (text : String) : Except Err Addr :=
  require (Chain.addrBytes creator) .invalidAddress text

/-- `Miner.Get`, or a refusal. -/
def getMiner (s : State) (m : Str) (text : String) : Except Err Miner :=
  require (s.miner m) .keyNotFound text

/-! ## Registration -/

structure MsgCreateMiner where
  creator : Str
  minerId : Str
  operator : Str
  region : Str
  stake : UInt64
  encPubkey : Str
  vrfPubkey : Str

def createMiner (msg : MsgCreateMiner) (s : State) : Except Err State := do
  let signerBz ← signer msg.creator "invalid address"
  let wantID ← require (deriveMinerID signerBz) .invalidAddress
    "cannot derive the miner id: cannot derive a miner id from an empty address"
  ensure (msg.minerId = wantID) .invalidRequest
    s!"miner_id must be derived from the signer address, not chosen: expected \"{String.ofList wantID}\", got \"{String.ofList msg.minerId}\". One address registers exactly one miner, under exactly one identifier."
  ensure (s.miner msg.minerId = none) .invalidRequest "index already set"
  ensure (msg.stake ≥ s.params.minStake) .invalidRequest
    s!"stake {msg.stake} < min_stake {s.params.minStake}"
  let funds ← s.funds.collect c msg.stake "bond"
  ensure (msg.encPubkey = [] ∨ Str.isHexOf 32 msg.encPubkey = true) .invalidRequest
    "invalid enc_pubkey (expected 32 X25519 bytes, hex-encoded)"
  ensure (msg.vrfPubkey = [] ∨ Str.isHexOf 32 msg.vrfPubkey = true) .invalidRequest
    "invalid vrf_pubkey (expected 32 Ed25519 bytes, hex-encoded)"
  let miner : Miner :=
    { minerId := msg.minerId
      operator := if msg.operator = [] then msg.creator else msg.operator
      region := msg.region
      stake := msg.stake
      creator := msg.creator
      demand := 0
      subsidyClaimed := 0
      encPubkey := msg.encPubkey
      vrfPubkey := msg.vrfPubkey }
  pure
    { s with
      funds := funds.setMiner miner
      registry :=
        { s.registry with registeredHeight := s.registry.registeredHeight.set msg.minerId c.h64 } }

structure MsgUpdateMiner where
  creator : Str
  minerId : Str
  operator : Str
  region : Str
  stake : UInt64

def updateMiner (msg : MsgUpdateMiner) (s : State) : Except Err State := do
  let _ ← signer msg.creator "invalid signer address"
  let val ← getMiner s msg.minerId "index not set"
  ensure (msg.creator = val.creator) .unauthorized "incorrect owner"
  ensure (msg.stake = 0 ∨ msg.stake = val.stake) .invalidRequest
    "update-miner cannot change the bond: the escrow is real, and this handler moves no coins. To change it, delete the miner (the bond is refunded) and create it again with the new stake. Leave `stake` unset (or equal to the current one) to update the other fields."
  let miner : Miner :=
    { minerId := msg.minerId
      operator := msg.operator
      region := msg.region
      stake := val.stake
      creator := msg.creator
      demand := 0
      subsidyClaimed := 0
      encPubkey := val.encPubkey
      vrfPubkey := val.vrfPubkey }
  pure (s.setFunds (s.funds.setMiner miner))

/-- The registry without a miner that left. -/
def forgetMiner (minerId : Str) (r : Registry) : Registry :=
  clearJudgeState minerId
    { r with
      lastCommitHeight := r.lastCommitHeight.remove minerId
      registeredHeight := r.registeredHeight.remove minerId
      lastPresentEpoch := r.lastPresentEpoch.remove minerId }

/-- `s` without a miner, whose bond has been paid out in `f`. -/
def removeMiner (minerId : Str) (f : Funds) (s : State) : State :=
  { s with
    funds := { f with miners := f.miners.erase minerId }
    registry := forgetMiner minerId s.registry }

structure MsgDeleteMiner where
  creator : Str
  minerId : Str

def deleteMiner (msg : MsgDeleteMiner) (s : State) : Except Err State := do
  let _ ← signer msg.creator "invalid signer address"
  let val ← getMiner s msg.minerId "index not set"
  ensure (msg.creator = val.creator) .unauthorized "incorrect owner"
  ensure (hasOpenObligation c s msg.minerId = false) .invalidRequest
    "exit refused: open obligations (retained fee owed, unresolved audit-committee seat, or a job under dispute) — exit becomes possible again once the instance is closed"
  if val.stake > 0 then do
    let bz ← signer val.creator "creator address"
    let funds ← s.funds.payOrFail c (.account bz) ⟨.stake, [], val.minerId, val.stake⟩ "refund bond"
    pure (removeMiner msg.minerId funds s)
  else pure (removeMiner msg.minerId s.funds s)

structure MsgRotateMinerKeys where
  creator : Str
  minerId : Str
  newEncPubkey : Str
  newVrfPubkey : Str

def rotateMinerKeys (msg : MsgRotateMinerKeys) (s : State) : Except Err State := do
  let _ ← signer msg.creator "invalid signer address"
  let val ← getMiner s msg.minerId "unknown miner"
  ensure (msg.creator = val.operator) .unauthorized "only the miner's operator may rotate its keys"
  ensure (msg.newEncPubkey = [] ∨ Str.isHexOf 32 msg.newEncPubkey = true) .invalidRequest
    "invalid new_enc_pubkey (32 bytes, hex-encoded)"
  ensure (msg.newVrfPubkey = [] ∨ Str.isHexOf 32 msg.newVrfPubkey = true) .invalidRequest
    "invalid new_vrf_pubkey (32 bytes, hex-encoded)"
  let miner : Miner :=
    { val with
      encPubkey := if msg.newEncPubkey = [] then val.encPubkey else msg.newEncPubkey
      vrfPubkey := if msg.newVrfPubkey = [] then val.vrfPubkey else msg.newVrfPubkey }
  pure (s.setFunds (s.funds.setMiner miner))

/-! ## Judges and presence -/

structure MsgDeclareJudge where
  creator : Str
  minerId : Str
  judge : Bool

def declareJudge (msg : MsgDeclareJudge) (s : State) : Except Err State := do
  let _ ← signer msg.creator "invalid creator address"
  let miner ← getMiner s msg.minerId "unknown miner"
  ensure (msg.creator = miner.operator) .unauthorized
    "only the miner's operator may declare its judge"
  let registry :=
    if msg.judge then
      { s.registry with
        judge := s.registry.judge.insert msg.minerId
        judgeDeclaredHeight := s.registry.judgeDeclaredHeight.set msg.minerId c.h64
        missedDraws := s.registry.missedDraws.remove msg.minerId }
    else clearJudgeState msg.minerId s.registry
  pure { s with registry := registry }

/-- `availChallengeEpoch`: the epoch whose challenge is current. -/
def availChallengeEpoch (s : State) (eb : Int) : Int :=
  let epoch := c.h / eb
  if c.h ≤ 0 ∨ c.h % eb ≠ 0 then epoch
  else if s.registry.availChallengeHeight = some c.h then epoch
  else epoch - 1

structure MsgProveAvailability where
  creator : Str
  minerId : Str
  challenge : Str
  vrfProof : Str
  kitVersion : UInt64

/-- The bytes of a hex string of `n` bytes. -/
def decodeHexOf (n : Nat) (s : Str) : Option (List UInt8) :=
  if Str.isHexOf n s then Str.unhex s else none

def proveAvailability (msg : MsgProveAvailability) (s : State) : Except Err State := do
  let _ ← signer msg.creator "invalid creator address"
  let p := s.params
  let eb := toInt64 p.availEpochBlocks
  ensure (eb ≠ 0) .invalidRequest "availability disabled (avail_epoch_blocks=0)"
  let miner ← getMiner s msg.minerId "unknown miner"
  ensure (msg.creator = miner.operator) .unauthorized
    "only the miner's operator may prove its availability"
  ensure (¬ (p.minKitVersion > 0 ∧ msg.kitVersion < p.minKitVersion)) .invalidRequest
    s!"kit_version {msg.kitVersion} is below min_kit_version {p.minKitVersion}: this proof writes no presence, update the kit"
  let cur := s.registry.availChallenge.getD []
  ensure (cur ≠ []) .invalidRequest
    "no active availability challenge (wait for the next epoch boundary)"
  ensure (msg.challenge = cur) .invalidRequest
    "invalid or stale challenge (answer the current epoch's challenge)"
  let epoch := availChallengeEpoch c s eb
  let dl := toInt64 p.availDeadlineBlocks
  ensure (¬ (dl > 0 ∧ c.h > addInt64 (epoch * eb) dl)) .invalidRequest
    "availability proof too late (past avail_deadline_blocks within the epoch)"
  ensure (¬ (p.verificationMode = 1 ∧ miner.vrfPubkey = [])) .unauthorized
    "in incentivised mode (verification_mode=1), an anchored vrf_pubkey is required to prove availability (the GPU-less echo is closed)"
  if miner.vrfPubkey ≠ [] then do
    let pk ← require (decodeHexOf 32 miner.vrfPubkey) .invalidRequest
      "the miner's on-chain vrf_pubkey is invalid"
    let pi ← require (decodeHexOf 80 msg.vrfProof) .invalidRequest
      "vrf_proof required (ECVRF proof over the challenge, 80 bytes hex)"
    ensure ((Chain.vrfVerify pk (Str.utf8 cur) pi).isSome = true) .unauthorized
      "invalid VRF proof for this challenge"
  let r := s.registry
  let moves := decide (epoch ≥ 0) &&
    (r.lastPresentEpoch.get msg.minerId).all fun last => decide (toUint64 epoch > last)
  pure
    { s with
      registry :=
        { r with
          available := r.available.insert (qkey epoch msg.minerId)
          lastPresentEpoch :=
            if moves then r.lastPresentEpoch.set msg.minerId (toUint64 epoch)
            else r.lastPresentEpoch } }

/-! ## Rewards and slashes -/

structure MsgClaimSubsidy where
  creator : Str
  minerId : Str

/-- The subsidy is paid by the emission module, out of its own account. -/
def claimSubsidy (msg : MsgClaimSubsidy) (s : State) : Except Err State := do
  let _ ← signer msg.creator "invalid creator address"
  let miner ← getMiner s msg.minerId "miner not found"
  ensure (msg.creator = miner.operator) .unauthorized
    "only the miner operator may claim its subsidy"
  let subsidyCap := bpsOf miner.demand s.params.workGateBps
  ensure (subsidyCap > miner.subsidyClaimed) .invalidRequest
    "nothing to claim (cap reached or demand is zero)"
  let opBz ← signer miner.operator "invalid operator address"
  let paid ← require (c.payWork opBz (subsidyCap - miner.subsidyClaimed)) .logic "pay work"
  ensure (paid ≠ 0) .invalidRequest "emission work pool is empty -- retry after the next epoch"
  let pools := s.funds.poolsOrZero
  pure (s.setFunds
    ((s.funds.setMiner { miner with subsidyClaimed := miner.subsidyClaimed + paid }).setPools
      { pools with minerPaid := pools.minerPaid + paid }))

structure MsgRewardTraining where
  creator : Str
  minerId : Str
  units : UInt64

def rewardTraining (msg : MsgRewardTraining) (s : State) : Except Err State := do
  let creatorBz ← signer msg.creator "invalid creator address"
  ensure (creatorBz = Chain.authority) .invalidSigner
    "reward-training is reserved to the authority (gov)"
  let _ ← getMiner s msg.minerId "miner not found"
  ensure (msg.units ≤ 1000000000000000) .invalidRequest "units out of bounds"
  let pools := s.funds.poolsOrZero
  pure (s.setFunds
    (s.funds.setPools { pools with trainingPaid := pools.trainingPaid + msg.units * 10 }))

/-- A slash of the compiled share of a bond, into the treasury. -/
def slashToTreasury (miner : Miner) (s : State) : State :=
  let amt := bpsOf miner.stake s.params.slashLeakBps
  let pools := s.funds.poolsOrZero
  s.setFunds
    ((s.funds.setMiner { miner with stake := miner.stake - amt }).setPools
      { pools with treasury := pools.treasury + amt })

structure MsgSlashMiner where
  creator : Str
  minerId : Str

def slashMiner (msg : MsgSlashMiner) (s : State) : Except Err State := do
  let creatorBz ← signer msg.creator "invalid creator address"
  ensure (creatorBz = Chain.authority) .invalidSigner "slash-miner is reserved to the authority (gov)"
  let miner ← getMiner s msg.minerId "miner not found"
  pure (slashToTreasury miner s)

structure MsgReportDivergence where
  creator : Str
  jobId : Str
  minerCommit : Str
  correctCommit : Str

def reportDivergence (msg : MsgReportDivergence) (s : State) : Except Err State := do
  let creatorBz ← signer msg.creator "invalid creator address"
  ensure (creatorBz = Chain.authority) .invalidSigner
    "report-divergence is restricted to the governance authority until the proof is verified on-chain"
  ensure (msg.minerCommit ≠ msg.correctCommit) .invalidRequest
    "no divergence (commits are identical)"
  let job ← require (s.job msg.jobId) .keyNotFound "job not found"
  let miner ← getMiner s job.minerId "miner not found"
  pure (slashToTreasury miner s)

/-! ## Beacons and parameters -/

structure MsgSubmitVrfBeacon where
  creator : Str
  jobId : Str
  vrfProof : Str

def submitVrfBeacon (msg : MsgSubmitVrfBeacon) (s : State) : Except Err State := do
  let _ ← signer msg.creator "invalid address"
  ensure (s.params.vrfBeaconPubkey ≠ []) .invalidRequest
    "VRF beacon disabled (vrf_beacon_pubkey is empty)"
  let pk ← require (decodeHexOf 32 s.params.vrfBeaconPubkey) .logic
    "invalid on-chain vrf_beacon_pubkey"
  let pi ← require (decodeHexOf 80 msg.vrfProof) .invalidRequest
    "invalid vrf_proof (expected 80 bytes, hex-encoded)"
  let beta ← require (Chain.vrfVerify pk (Str.utf8 msg.jobId) pi) .unauthorized
    "invalid VRF proof for this job_id"
  ensure ((s.beacons.get? msg.jobId).all fun b => b.seed = []) .invalidRequest
    "seed already set for this job"
  pure { s with beacons := s.beacons.put ⟨msg.jobId, Str.hex beta, msg.creator⟩ }

/-- The module accounts that cannot receive the team's share. -/
def teamAddressForbiddenModules : List Str :=
  ["fee_collector", "distribution", "bonded_tokens_pool", "not_bonded_tokens_pool", "gov", "mint",
    "jobs", "emission", "nft", "transfer", "interchainaccounts"].map String.toList

/-- `checkTeamAddressPrefix`. -/
def checkTeamAddressPrefix (p : Params) : Except Err Unit :=
  if p.teamAddress = [] then .ok ()
  else do
    let bz ← require (Chain.addrBytes p.teamAddress) .plain
      s!"team_address \"{String.ofList p.teamAddress}\" is not an address of this chain"
    ensure (∀ name ∈ teamAddressForbiddenModules, bz ≠ Chain.moduleAddress name) .plain
      s!"team_address \"{String.ofList p.teamAddress}\" is a module account, which cannot receive the team share"

structure MsgUpdateParams where
  authority : Str
  params : Params

def updateParams (msg : MsgUpdateParams) (s : State) : Except Err State := do
  let authority ← signer msg.authority "invalid authority address"
  ensure (authority = Chain.authority) .invalidSigner
    s!"invalid authority; expected {String.ofList (Chain.addrString Chain.authority)}, got {String.ofList msg.authority}"
  match msg.params.validate with
  | .error e => .error ⟨.plain, e⟩
  | .ok () => do
    ensure (msg.params.washSubsidyNegativeEV msg.params.workGateBps = true) .invalidRequest
      "invariant #8 violated: these params would make Sybil self-dealing +EV (emission drain); lower work_gate_bps or raise cut+burn against team+treasury"
    checkTeamAddressPrefix msg.params
    pure { s with params := msg.params }

end Dendra.Jobs
