import Dendra.Jobs.System

/-!
# Export and import

`keeper/genesis.go`: what `ExportGenesis` writes of a state and what `InitGenesis` makes of it on
another chain. Deadlines travel as a remaining delay, the heights of disputes, retentions and summons
as an age, and the dates of miners, judges and jobs are set to the import; the rest travels as it is.

The bank is another module: an import finds the coins that its own genesis gave the account.

* `initGenesis_spec`: what an import writes, in one record.
-/

namespace Dendra.Jobs

open Word

/-- `types.PendingEntry`: a deadline, as a delay. -/
structure PendingEntry where
  id : Str
  blocksRemaining : Int
  deriving DecidableEq

/-- `types.GenesisState`. -/
structure GenesisState where
  params : Params
  minerMap : List Miner
  jobMap : List Job
  pools : Option Pools
  commitMap : List Commit
  beaconMap : List Beacon
  heldFee : List (Str × UInt64)
  heldBurn : List (Str × UInt64)
  heldValidatorShare : List (Str × UInt64)
  heldTeamShare : List (Str × UInt64)
  heldTreasuryShare : List (Str × UInt64)
  heldDemand : List (Str × UInt64)
  pendingReveal : List PendingEntry
  pendingJobExpiry : List PendingEntry
  pendingAudit : List PendingEntry
  pendingAuditResolve : List PendingEntry
  pendingAppealResolve : List PendingEntry
  auditCommittee : List (Str × Str)
  workCommittee : List (Str × Str)
  minerOptimisticCount : List (Str × UInt64)
  availFailCount : List (Str × UInt64)
  availFailWindowStart : List (Str × UInt64)
  minerJudge : List Str
  minerMissedDraws : List (Str × UInt64)
  auditSelected : List Str
  pendingHeldRelease : List Str
  auditsOpened : UInt64
  heldSinceElapsed : List (Str × UInt64)
  committeeSinceElapsed : List (Str × UInt64)
  availChallenge : Str

/-! ## Export -/

section Export

variable (c : Ctx)

/-- A deadline as a delay: one that has passed fires at the next block. -/
def remaining (deadline : Int) : Int :=
  let r := addInt64 deadline (-c.h)
  if r > 0 then r else 1

def exportQueue (q : Queue) : List PendingEntry :=
  q.entries.map fun key => ⟨(ofLex key).2, remaining c (ofLex key).1⟩

/-- A height as an age. -/
def elapsedSince (since : UInt64) : UInt64 := if c.h > toInt64 since then c.h64 - since else 0

def exportAges (t : Store Str UInt64) : List (Str × UInt64) :=
  t.entries.map fun e => (e.1, elapsedSince c e.2)

/-- The height of an open or closed dispute travels as an age. -/
def exportJob (job : Job) : Job :=
  if jobIsDisputed job.state then { job with disputeHeight := addInt64 c.h (-job.disputeHeight) }
  else job

/-- `ExportGenesis`. -/
def exportGenesis (s : State) : GenesisState where
  params := s.params
  minerMap := s.funds.miners.entries
  jobMap := s.jobs.entries.map (exportJob c)
  pools := s.funds.pools
  commitMap := s.commits.entries
  beaconMap := s.beacons.entries
  heldFee := (s.funds.held .fee).entries
  heldBurn := (s.funds.held .burn).entries
  heldValidatorShare := (s.funds.held .validator).entries
  heldTeamShare := (s.funds.held .team).entries
  heldTreasuryShare := (s.funds.held .treasury).entries
  heldDemand := s.funds.heldDemand.entries
  pendingReveal := exportQueue c s.queues.pendingReveal
  pendingJobExpiry := exportQueue c s.queues.pendingJobExpiry
  pendingAudit := exportQueue c s.queues.pendingAudit
  pendingAuditResolve := exportQueue c s.queues.pendingAuditResolve
  pendingAppealResolve := exportQueue c s.queues.pendingAppealResolve
  auditCommittee := s.juries.auditCommittee.entries
  workCommittee := s.workCommittee.entries
  minerOptimisticCount := s.registry.optimisticCount.entries
  availFailCount := s.registry.availFailCount.entries
  availFailWindowStart := s.registry.availFailWindowStart.entries
  minerJudge := s.registry.judge.entries
  minerMissedDraws := s.registry.missedDraws.entries
  auditSelected := s.juries.auditSelected.entries
  pendingHeldRelease := s.funds.pendingHeldRelease.entries
  auditsOpened := s.juries.auditsOpened
  heldSinceElapsed := exportAges c s.funds.heldSince
  committeeSinceElapsed := exportAges c s.juries.committeeSince
  availChallenge := s.registry.availChallenge.getD []

end Export

/-! ## Import -/

section Import

variable [Chain] (c : Ctx)

/-- `ValidateMinerIdentity`. -/
def validateMinerIdentity (minerID creator : Str) : Except Err Unit := do
  ensure (creator ≠ []) .plain
    s!"miner \"{String.ofList minerID}\" carries no creator: its identifier cannot be checked against the address it must be derived from"
  let want ← require ((Chain.decodeBech32 creator).bind deriveMinerID) .plain
    s!"miner \"{String.ofList minerID}\": creator \"{String.ofList creator}\" is not a decodable bech32 address"
  ensure (minerID = want) .plain
    s!"miner \"{String.ofList minerID}\" is not derived from its creator \"{String.ofList creator}\" (expected \"{String.ofList want}\"): a genesis may not register an identifier that CreateMiner would refuse"

/-- A miner, dated at the import. -/
def importMiner (s : State) (elem : Miner) : Except Err State := do
  validateMinerIdentity elem.minerId elem.creator
  let r := s.registry
  pure
    { s with
      funds := s.funds.setMiner elem
      registry :=
        if r.registeredHeight.get elem.minerId = none then
          { r with registeredHeight := r.registeredHeight.set elem.minerId (frozenPoolAnchor c) }
        else r }

/-- A declared judge, dated at the import. -/
def importJudge (r : Registry) (id : Str) : Registry :=
  let r := { r with judge := r.judge.insert id }
  if r.judgeDeclaredHeight.get id = none then
    { r with judgeDeclaredHeight := r.judgeDeclaredHeight.set id (frozenPoolAnchor c) }
  else r

/-- A job: its dispute is as old as it was, and its pool is frozen at the import. -/
def importJob (s : State) (elem : Job) : State :=
  let elem :=
    if jobIsDisputed elem.state then { elem with disputeHeight := addInt64 c.h (-elem.disputeHeight) }
    else elem
  let s := s.setJob elem
  if s.jobPoolFreezeHeight.get elem.jobId = none then
    { s with jobPoolFreezeHeight := s.jobPoolFreezeHeight.set elem.jobId (frozenPoolAnchor c) }
  else s

def importQueue (l : List PendingEntry) (q : Queue) : Queue :=
  l.foldl (fun q e => q.insert (qkey (addInt64 c.h e.blocksRemaining) e.id)) q

/-- An age as a height: an age that the chain has not reached is lost. -/
def sinceElapsed (elapsed : UInt64) : UInt64 :=
  if c.h > toInt64 elapsed then toUint64 (c.h - toInt64 elapsed) else 0

def importAges (l : List (Str × UInt64)) (t : Store Str UInt64) : Store Str UInt64 :=
  t.putAll (l.map fun e => (e.1, sinceElapsed c e.2))

/-- The held amounts. -/
def importHeld (g : GenesisState) (held : Share → Store Str UInt64) : Share → Store Str UInt64
  | .fee => (held .fee).putAll g.heldFee
  | .burn => (held .burn).putAll g.heldBurn
  | .validator => (held .validator).putAll g.heldValidatorShare
  | .team => (held .team).putAll g.heldTeamShare
  | .treasury => (held .treasury).putAll g.heldTreasuryShare

/-- What is written once the miners, the judges and the jobs are. -/
def importRest (g : GenesisState) (s : State) : State :=
  { s with
    funds :=
      { s.funds with
        pools := if g.pools.isSome then g.pools else s.funds.pools
        held := importHeld g s.funds.held
        heldSince := importAges c g.heldSinceElapsed s.funds.heldSince
        heldDemand := s.funds.heldDemand.putAll g.heldDemand
        pendingHeldRelease := s.funds.pendingHeldRelease.putAll g.pendingHeldRelease }
    commits := s.commits.putAll g.commitMap
    beacons := s.beacons.putAll g.beaconMap
    workCommittee := s.workCommittee.putAll g.workCommittee
    registry :=
      { s.registry with
        missedDraws := s.registry.missedDraws.putAll g.minerMissedDraws
        optimisticCount := s.registry.optimisticCount.putAll g.minerOptimisticCount
        availFailCount := s.registry.availFailCount.putAll g.availFailCount
        availFailWindowStart := s.registry.availFailWindowStart.putAll g.availFailWindowStart
        availChallenge :=
          if g.availChallenge ≠ [] then some g.availChallenge else s.registry.availChallenge }
    juries :=
      { auditCommittee := s.juries.auditCommittee.putAll g.auditCommittee
        committeeSince := importAges c g.committeeSinceElapsed s.juries.committeeSince
        auditSelected := s.juries.auditSelected.putAll g.auditSelected
        auditsOpened := if g.auditsOpened > 0 then g.auditsOpened else s.juries.auditsOpened }
    queues :=
      { pendingReveal := importQueue c g.pendingReveal s.queues.pendingReveal
        pendingAudit := importQueue c g.pendingAudit s.queues.pendingAudit
        pendingJobExpiry := importQueue c g.pendingJobExpiry s.queues.pendingJobExpiry
        pendingAuditResolve := importQueue c g.pendingAuditResolve s.queues.pendingAuditResolve
        pendingAppealResolve := importQueue c g.pendingAppealResolve s.queues.pendingAppealResolve } }

/-- The parameters that an import installs. `unanchored` is what the model registry answers:
`ActiveWithoutAnchor`. -/
def checkGenesisParams (unanchored : Option (List Str)) (p : Params) : Except Err Unit := do
  ensure (p.washSubsidyNegativeEV p.workGateBps = true) .plain
    "invariant #8 violated: these genesis params would make Sybil self-dealing +EV (emission drain)"
  match p.validate with
  | .error e => .error ⟨.plain, s!"invalid genesis parameters (refused at load time): {e}"⟩
  | .ok () => do
    checkTeamAddressPrefix p
    if p.enforceModelRegistry then
      let unanchored ← require unanchored .plain
        "model registry unreadable at load time (fail-closed refusal)"
      ensure (unanchored = []) .plain
        s!"enforce_model_registry=true but {unanchored.length} active model(s) have no weights_sha256"
    else pure ()

/-- `InitGenesis`. -/
def initGenesis (unanchored : Option (List Str)) (g : GenesisState) (s : State) :
    Except Err State := do
  let s ← g.minerMap.foldlM (importMiner c) s
  let s := { s with registry := g.minerJudge.foldl (importJudge c) s.registry }
  let s := importRest c g (g.jobMap.foldl (importJob c) s)
  checkGenesisParams unanchored g.params
  pure { s with params := g.params }

end Import

/-! ## What an import writes -/

section Spec

variable [Chain] {c : Ctx} {s s' : State}

theorem importMiners_spec {l : List Miner} (h : l.foldlM (importMiner c) s = .ok s') :
    ∃ r, s' = { s with
      funds := { s.funds with miners := s.funds.miners.putAll l }
      registry := { s.registry with registeredHeight := r } } := by
  induction l generalizing s with
  | nil =>
    rw [List.foldlM_nil, pure_ok] at h
    subst h
    exact ⟨s.registry.registeredHeight, rfl⟩
  | cons m l ih =>
    rw [List.foldlM_cons, bind_ok] at h
    obtain ⟨s₁, h₁, h⟩ := h
    simp only [importMiner, bind_ok, pure_ok] at h₁
    obtain ⟨-, -, rfl⟩ := h₁
    obtain ⟨r, rfl⟩ := ih h
    refine ⟨r, ?_⟩
    simp only
    split <;> rfl

omit [Chain] in
theorem importJudges_spec (l : List Str) (r : Registry) : ∃ d, l.foldl (importJudge c) r =
    { r with judge := r.judge.putAll l, judgeDeclaredHeight := d } := by
  induction l generalizing r with
  | nil => exact ⟨r.judgeDeclaredHeight, rfl⟩
  | cons m l ih =>
    obtain ⟨d, hd⟩ := ih (importJudge c r m)
    refine ⟨d, ?_⟩
    rw [List.foldl_cons, hd]
    unfold importJudge
    simp only
    split <;> rfl

/-- The record of an imported job. -/
def importedJob (c : Ctx) (job : Job) : Job :=
  if jobIsDisputed job.state then { job with disputeHeight := addInt64 c.h (-job.disputeHeight) }
  else job

omit [Chain] in
theorem importJobs_spec (l : List Job) (s : State) : ∃ z, l.foldl (importJob c) s =
    { s with jobs := s.jobs.putAll (l.map (importedJob c)), jobPoolFreezeHeight := z } := by
  induction l generalizing s with
  | nil => exact ⟨s.jobPoolFreezeHeight, rfl⟩
  | cons job l ih =>
    obtain ⟨z, hz⟩ := ih (importJob c s job)
    refine ⟨z, ?_⟩
    rw [List.foldl_cons, hz, List.map_cons]
    have hput : (importJob c s job).jobs = s.jobs.put (importedJob c job) ∧
        { importJob c s job with
          jobs := s.jobs, jobPoolFreezeHeight := s.jobPoolFreezeHeight } = s := by
      unfold importJob importedJob
      simp only
      split <;> split <;> exact ⟨rfl, rfl⟩
    obtain ⟨hjobs, hrest⟩ := hput
    rw [hjobs]
    conv_rhs => rw [← hrest]
    rfl

/-- An import: the miners, the judges and the jobs get new dates, and the rest is `importRest`. -/
theorem initGenesis_spec {u : Option (List Str)} {g : GenesisState}
    (h : initGenesis c u g s = .ok s') : ∃ r d z, s' = { importRest c g { s with
        funds := { s.funds with miners := s.funds.miners.putAll g.minerMap }
        registry := { s.registry with
          registeredHeight := r
          judge := s.registry.judge.putAll g.minerJudge
          judgeDeclaredHeight := d }
        jobs := s.jobs.putAll (g.jobMap.map (importedJob c))
        jobPoolFreezeHeight := z } with params := g.params } := by
  simp only [initGenesis, bind_ok, pure_ok] at h
  obtain ⟨s₁, h₁, -, -, rfl⟩ := h
  obtain ⟨r, rfl⟩ := importMiners_spec h₁
  obtain ⟨d, hd⟩ := importJudges_spec (c := c) g.minerJudge
    { s.registry with registeredHeight := r }
  simp only [hd]
  obtain ⟨z, hz⟩ := importJobs_spec (c := c) g.jobMap { s with
    funds := { s.funds with miners := s.funds.miners.putAll g.minerMap }
    registry := { s.registry with
      registeredHeight := r
      judge := s.registry.judge.putAll g.minerJudge
      judgeDeclaredHeight := d } }
  refine ⟨r, d, z, ?_⟩
  rw [hz]

end Spec

end Dendra.Jobs
