import Dendra.Jobs.State
import Dendra.Jobs.Draw

/-!
# Pools, committees and juries

Who may be drawn and who was: `pool_freeze.go`, `presence.go`, `miner_vitality.go`, `judge.go`,
`committee.go`, `work_committee.go`, `audit_committee.go` and `redo_committee.go`.

A jury is anchored under a key as a comma list of miner ids; `anchoredSeats` reads it back.
-/

namespace Dendra.Jobs

open Word

/-! ## Answers -/

/-- `parseIntVec`: a comma list of integers, of bounded length and magnitude. -/
def parseIntVec (s : Str) : Option (List Int) :=
  let parts := Str.split s ','
  if parts.length = 0 ∨ parts.length > embedMaxDim then none
  else
    parts.mapM fun p =>
      (Str.parseInt (Str.trimSpace p)).filter fun v => decide (-embedMaxMag ≤ v ∧ v ≤ embedMaxMag)

/-- `cosineGE`: the cosine of two vectors is at least `tbps` basis points. -/
def cosineGE (a b : List Int) (tbps : Int) : Bool :=
  if a.length ≠ b.length ∨ a.length = 0 then false
  else
    let dot := (List.zipWith (· * ·) a b).sum
    let na := (a.map fun x => x * x).sum
    let nb := (b.map fun x => x * x).sum
    if dot < 0 ∨ na = 0 ∨ nb = 0 then false
    else decide (dot * dot * 100000000 ≥ tbps * tbps * na * nb)

/-! ## The frozen pool -/

section Pool

variable (s : State)

/-- `minerInFrozenPool`: registered at or before the freeze. -/
def minerInFrozenPool (minerId : Str) (freeze : UInt64) : Bool :=
  match s.registry.registeredHeight.get minerId with
  | none => false
  | some reg => decide (reg ≤ freeze)

/-- The date is not older than the window. -/
def withinWindow (height date window : UInt64) : Bool :=
  decide (height ≤ date) || decide (height - date ≤ window)

def eligibleAsJurorInWindow (minerId : Str) (height window : UInt64) : Bool :=
  match s.registry.lastCommitHeight.get minerId with
  | some last => withinWindow height last window
  | none =>
    match s.registry.registeredHeight.get minerId with
    | none => true
    | some reg => withinWindow height reg window

def eligibleAsJuror (minerId : Str) (height : UInt64) : Bool :=
  eligibleAsJurorInWindow s minerId height s.params.effectiveJurorFreshness

/-- `minerPresentAt`: proved available in the epoch of `height` or the one before. -/
def minerPresentAt (minerId : Str) (height : UInt64) (p : Params) : Bool :=
  let eb := p.availEpochBlocks
  if eb = 0 then true
  else
    let e := height / eb
    if (s.registry.lastPresentEpoch.get minerId).any fun last => decide (last + 1 ≥ e) then true
    else
      match s.registry.registeredHeight.get minerId with
      | none => false
      | some reg => decide (reg / eb + 1 ≥ e)

/-- `frozenPoolAnchor`: the block before. -/
def frozenPoolAnchor (c : Ctx) : UInt64 := if c.height = 0 then 0 else c.h64 - 1

/-- `enoughEligibleMinersToVerify`: a job opened now could be judged. -/
def enoughEligibleMinersToVerify (anchor : UInt64) : Except Err Unit :=
  let p := s.params
  let need :=
    if p.verificationMode = 1 ∧ p.auditUnwindBlocks > 0 ∧ p.holdBps ≥ 10000 then 1
    else addInt64 (effectiveSlashFloor p) 1
  let n := s.funds.miners.entries.countP fun m =>
    minerInFrozenPool s m.minerId anchor &&
      eligibleAsJurorInWindow s m.minerId anchor p.effectiveJurorFreshness &&
      minerPresentAt s m.minerId anchor p
  ensure ((n : Int) ≥ need) .invalidRequest
    s!"job refused: {n} eligible miner(s) (and present, when availability windows are armed) in the pool this job would freeze (anchored at height {anchor}), {need} needed (effective audit floor={effectiveSlashFloor p}, plus the miner under audit which the jury excludes; one suffices when audit_unwind_blocks and a full hold are armed). A job opened now would freeze this pool permanently and could never reach a verdict — the refusal is what keeps it from being lost silently. A miner registering in this block is not in it: the pool closes on the block before"

end Pool

/-! ## The work committee -/

section Work

variable [Chain] (s : State)

/-- `workCommitteeSize`. -/
def workCommitteeSize : Int := s.params.effectiveWorkCommitteeSize

/-- The candidates for the work of a job. -/
def workCandidates (freeze : UInt64) : List MinerWeight :=
  (s.funds.miners.entries.filter fun m =>
    minerInFrozenPool s m.minerId freeze && eligibleAsJuror s m.minerId freeze &&
      minerPresentAt s m.minerId freeze s.params).map fun m => ⟨m.minerId, m.stake⟩

/-- `jobPoolFreezeHeight`. -/
def jobPoolFreeze (jobId : Str) : Except String UInt64 :=
  match s.jobPoolFreezeHeight.get jobId with
  | some h => .ok h
  | none => .error s!"pool freeze height missing for job \"{String.ofList jobId}\": draw deferred, neither permissive nor restrictive. A job is only born through OpenJob, which sets this anchor; an imported job receives it at init"

/-- The seed of the work draw: the revealed beacon, if the job has one. -/
def workSeed (jobId : Str) : Except String Str :=
  match s.beacons.get? jobId with
  | none => .ok jobId
  | some b =>
    if b.seed = [] then
      .error s!"committee not revealed for job \"{String.ofList jobId}\" (deferred reveal pending)"
    else .ok (b.seed ++ '|' :: jobId)

def deriveCommitteeOrdered (jobId : Str) (size : Int) : Except String (List Str) :=
  match workSeed s jobId with
  | .error e => .error e
  | .ok seed =>
    match jobPoolFreeze s jobId with
    | .error e => .error e
    | .ok freeze =>
      .ok (selectCommitteeOrdered seed (capAssignmentWeights (workCandidates s freeze)
        s.params.minStake s.params.effectiveStakeCapMultiple) size)

/-- The committee of a job, in draw order: the anchored one, else a fresh draw. -/
def assignedCommitteeOrdered (jobId : Str) (size : Int) : Except String (List Str) :=
  match s.workCommittee.get jobId with
  | some (a :: as) => .ok ((Str.split (a :: as) ',').take size.toNat)
  | _ => deriveCommitteeOrdered s jobId size

/-- `assignedCommittee`: the committee as a set. -/
def assignedCommittee (jobId : Str) (size : Int) : Except String (List Str) :=
  assignedCommitteeOrdered s jobId size

/-- The committee, or a failed message. -/
def assignedCommitteeOrFail (jobId : Str) (size : Int) : Except Err (List Str) :=
  match assignedCommittee s jobId size with
  | .ok l => .ok l
  | .error e => .error ⟨.logic, e⟩

/-- `anchorWorkCommittee`: fix the committee of a job once it can be drawn. -/
def anchorWorkCommittee (jobId : Str) : State :=
  match s.workCommittee.get jobId with
  | some (_ :: _) => s
  | _ =>
    match deriveCommitteeOrdered s jobId (workCommitteeSize s) with
    | .error _ => s
    | .ok [] => s
    | .ok (a :: as) =>
      { s with workCommittee := s.workCommittee.set jobId (Str.join (a :: as) ',') }

end Work

/-! ## Seats -/

section Seats

variable (s : State)

/-- `anchoredSeats`: the members anchored under a key. -/
def anchoredSeats (key : Str) : List Str :=
  match s.juries.auditCommittee.get key with
  | none => []
  | some raw =>
    if Str.trimSpace raw = [] then []
    else ((Str.split raw ',').map Str.trimSpace).filter fun id => decide (id ≠ [])

/-- The members of a jury, as a set. -/
def allowedSeats (key : Str) : List Str := (anchoredSeats s key).dedup

/-- `auditCommitteeAllowed`. -/
def auditCommitteeAllowed (jobId : Str) : List Str := allowedSeats s jobId

/-- `redoCommitteeAllowed`. -/
def redoCommitteeAllowed (jobId : Str) : List Str := allowedSeats s (redoAnchorKey jobId)

/-- `committeeContains`, of a raw comma list. -/
def committeeContains (members id : Str) : Bool :=
  decide (id ≠ []) && (Str.split members ',').contains id

/-- `anchoredOn`. -/
def anchoredOn (key mid : Str) : Bool :=
  (s.juries.auditCommittee.get key).any fun members => committeeContains members mid

/-- `isHumanDispute`. -/
def isHumanDispute (jobId : Str) : Bool :=
  (s.juries.auditCommittee.get (humanDisputeKey jobId)).any fun raw =>
    decide (Str.trimSpace raw ≠ [])

/-- `anchorCommittee`: anchor a jury, and when. -/
def anchorCommittee (c : Ctx) (key members : Str) : Juries :=
  { s.juries with
    auditCommittee := s.juries.auditCommittee.set key members
    committeeSince := s.juries.committeeSince.set key c.h64 }

/-- `bumpAuditsOpened`. -/
def bumpAuditsOpened : Juries := { s.juries with auditsOpened := s.juries.auditsOpened + 1 }

/-- `contestedSuffix`: the tail of a key that holds an answer to the job itself. -/
def contestedSuffix (mid : Str) : Bool :=
  decide (mid ≠ []) && !("redo__".toList.isPrefixOf mid) && !("verdict__".toList.isPrefixOf mid)

/-- `commitAuthorsOf`: who answered the job itself. -/
def commitAuthorsOf (jobId : Str) : List Str :=
  let pfx := jobId ++ commitKeySep
  ((s.commitRange pfx).map fun cm => Str.trimPrefix cm.jobId pfx).filter contestedSuffix

/-- `contestedAuthor`. -/
def contestedAuthor (jobId mid : Str) : Bool :=
  contestedSuffix mid && s.commits.has (jobId ++ commitKeySep ++ mid)

/-! ## Judges -/

/-- `judgeFilter`: how recent a judge's last verdict or declaration must be, and how many seats it
may leave unanswered. -/
structure JudgeFilter where
  window : UInt64
  missedMax : UInt64

def judgeFilterOf (p : Params) : JudgeFilter :=
  ⟨p.effectiveJudgeVerdictWindow, p.effectiveJudgeMissedDrawsMax⟩

def eligibleAsJudgeAt (minerId : Str) (height : UInt64) (f : JudgeFilter) : Bool :=
  if s.registry.judge.has minerId = false then false
  else if (s.registry.missedDraws.get minerId).any fun missed => decide (missed ≥ f.missedMax) then
    false
  else if (s.registry.lastVerdictHeight.get minerId).any fun last =>
      withinWindow height last f.window then true
  else (s.registry.judgeDeclaredHeight.get minerId).any fun decl =>
    withinWindow height decl f.window

/-- `juryAnswer`: does this commit answer a seat? -/
def juryAnswer (kind : CommitKeyKind) (jobId mid : Str) (onAudit onRedo : Bool) (result : Str) :
    Bool :=
  match kind with
  | .verdict => onAudit
  | .redo => onRedo && (parseIntVec result).isSome && !contestedAuthor s jobId mid
  | _ => false

/-- `seatAnswered`. -/
def seatAnswered (jobId mid : Str) (onAudit onRedo : Bool) : Bool :=
  [CommitKeyKind.verdict, .redo].any fun kind =>
    (s.commit (commitKey kind jobId mid)).any fun cm =>
      juryAnswer s kind jobId mid onAudit onRedo cm.resultCommit

/-- `seatsPredateDeclaration`: every seat it holds was anchored before it declared as a judge. -/
def seatsPredateDeclaration (jobId mid : Str) (onAudit onRedo : Bool) : Bool :=
  match s.registry.judgeDeclaredHeight.get mid with
  | none => false
  | some declared =>
    let keys := (if onAudit then [jobId] else []) ++ if onRedo then [redoAnchorKey jobId] else []
    keys ≠ [] && keys.all fun key =>
      (s.juries.committeeSince.get key).any fun since => !decide (since ≥ declared)

/-- One seat at the close of a jury: a registered judge that did not answer is noted. -/
def recordMissedDraw (jobId : Str) (audit redo : List Str) (missed : Store Str UInt64) (mid : Str) :
    Store Str UInt64 :=
  let onAudit := audit.contains mid
  let onRedo := redo.contains mid
  if s.funds.miners.has mid && s.registry.judge.has mid &&
      !seatAnswered s jobId mid onAudit onRedo &&
      !seatsPredateDeclaration s jobId mid onAudit onRedo then
    missed.set mid ((missed.get mid).getD 0 + 1)
  else missed

/-- `recordMissedDraws`, over the distinct seats of the audit jury. -/
def recordMissedDraws (jobId : Str) : Registry :=
  let audit := anchoredSeats s jobId
  let redo := anchoredSeats s (redoAnchorKey jobId)
  { s.registry with
    missedDraws := audit.dedup.foldl (recordMissedDraw s jobId audit redo) s.registry.missedDraws }

/-- `clearAuditCommittee`: close the instance of a job. -/
def clearAuditCommittee (jobId : Str) : State :=
  { s with
    registry := recordMissedDraws s jobId
    juries :=
      { s.juries with
        auditCommittee := ((s.juries.auditCommittee.remove jobId).remove
          (redoAnchorKey jobId)).remove (humanDisputeKey jobId)
        committeeSince :=
          (s.juries.committeeSince.remove jobId).remove (redoAnchorKey jobId)
        auditSelected := s.juries.auditSelected.remove jobId } }

/-- `clearJudgeState`. -/
def clearJudgeState (minerId : Str) (r : Registry) : Registry :=
  { r with
    judge := r.judge.remove minerId
    judgeDeclaredHeight := r.judgeDeclaredHeight.remove minerId
    lastVerdictHeight := r.lastVerdictHeight.remove minerId
    missedDraws := r.missedDraws.remove minerId }

/-- `noteJudgeAnswer`: an answered seat renews its judge. -/
def noteJudgeAnswer (k : ParsedCommitKey) (result : Str) (height : UInt64) : Registry :=
  if k.jobScoped && juryAnswer s k.kind k.jobId k.minerId (anchoredOn s k.jobId k.minerId)
      (anchoredOn s (redoAnchorKey k.jobId) k.minerId) result then
    { s.registry with
      lastVerdictHeight := s.registry.lastVerdictHeight.set k.minerId height
      missedDraws := s.registry.missedDraws.remove k.minerId }
  else s.registry

end Seats

/-! ## Juries -/

section Juries

variable [Chain] (c : Ctx) (s : State)

/-- The candidates of an audit jury. -/
def auditCandidates (freeze : UInt64) (primaryId disputerId : Str) : List MinerWeight :=
  (s.funds.miners.entries.filter fun m =>
    !(decide (m.minerId = primaryId) ||
        (decide (disputerId ≠ []) && decide (m.minerId = disputerId))) &&
      minerInFrozenPool s m.minerId freeze &&
      eligibleAsJurorInWindow s m.minerId c.h64 s.params.effectiveJurorFreshness &&
      minerPresentAt s m.minerId c.h64 s.params &&
      eligibleAsJudgeAt s m.minerId c.h64 (judgeFilterOf s.params)).map
    fun m => ⟨m.minerId, m.stake⟩

/-- `asUint64`. -/
def asUint64 (n : Int) : UInt64 := if n < 0 then 0 else toUint64 n

/-- The seats an audit asks for. -/
def auditDrawSize (p : Params) : Int :=
  let size := p.effectiveAuditDrawSize
  if p.auditMinQuorum > asUint64 size then toInt64 p.auditMinQuorum else size

def drawAuditCommittee (seed jobId primaryId disputerId : Str) : Except String (List Str) :=
  match jobPoolFreeze s jobId with
  | .error e => .error e
  | .ok freeze =>
    .ok (drawAuditMembers seed jobId (auditCandidates c s freeze primaryId disputerId)
      (auditDrawSize s.params))

/-- The candidates of a redo jury. -/
def redoCandidates (freeze : UInt64) (orig authors : List Str) (primaryId disputerId : Str) :
    List MinerWeight :=
  (s.funds.miners.entries.filter fun m =>
    !(decide (m.minerId = primaryId) ||
        (decide (disputerId ≠ []) && decide (m.minerId = disputerId)) ||
        orig.contains m.minerId || authors.contains m.minerId) &&
      minerInFrozenPool s m.minerId freeze &&
      minerPresentAt s m.minerId c.h64 s.params &&
      eligibleAsJudgeAt s m.minerId c.h64 (judgeFilterOf s.params)).map
    fun m => ⟨m.minerId, m.stake⟩

/-- The seats a redo asks for. -/
def redoDrawSize (p : Params) : Int :=
  if p.effectiveAuditDrawSize < redoQuorumFloor then redoQuorumFloor else p.effectiveAuditDrawSize

/-- The seed of a redo draw: decentralised, or the block hash, or none. -/
def redoSeed (p : Params) : Str :=
  committeeBaseSeed c p
    (match c.blockHash with
    | some (b :: bs) => "dispute:".toList ++ Str.hex (b :: bs)
    | _ => [])

/-- The members that `anchorRedoCommittee` draws. -/
def redoMembers (jobId primaryId disputerId : Str) : Except String (List Str) :=
  match assignedCommittee s jobId (workCommitteeSize s) with
  | .error e => .error e
  | .ok orig =>
    match jobPoolFreeze s jobId with
    | .error e => .error e
    | .ok freeze =>
      if redoSeed c s.params = [] then .ok []
      else
        .ok (drawMembersWithDomain redoCommitteeDomain (redoSeed c s.params) jobId
          (redoCandidates c s freeze orig (commitAuthorsOf s jobId) primaryId disputerId)
          (redoDrawSize s.params))

/-- `anchorRedoCommittee`: what its failure leaves undone is only logged by its caller. -/
def anchorRedoCommittee (jobId primaryId disputerId : Str) : State :=
  match redoMembers c s jobId primaryId disputerId with
  | .ok (a :: as) =>
    { s with juries := anchorCommittee s c (redoAnchorKey jobId) (Str.join (a :: as) ',') }
  | _ => s

/-- `countRedoResponders`. -/
def countRedoResponders (jobId : Str) (allowed : List Str) : Nat :=
  let pfx := commitKey .redo jobId []
  (s.commitRange pfx).countP fun cm => allowed.contains (Str.trimPrefix cm.jobId pfx)

/-- `commitProvesAssignedWork`: the commit answers a seat or an assignment of its miner. -/
def commitProvesAssignedWork (key minerId : Str) : Bool :=
  match parseCommitKey key with
  | none => false
  | some k =>
    if k.jobScoped = false then false
    else if anchoredOn s k.jobId minerId then true
    else if anchoredOn s (redoAnchorKey k.jobId) minerId then true
    else if s.jobs.has k.jobId = false then false
    else
      match assignedCommittee s k.jobId (workCommitteeSize s) with
      | .error _ => false
      | .ok comm => comm.contains minerId

/-! ## The exit guard -/

/-- A retained fee is owed to the miner. -/
def owedHeldFee (minerId : Str) : Bool :=
  (s.funds.held .fee).entries.any fun e =>
    (s.job e.1).any fun job => decide (job.minerId = minerId)

/-- The miner sits on a jury whose job is not resolved. -/
def sitsOnOpenJury (minerId : Str) : Bool :=
  s.juries.auditCommittee.entries.any fun e =>
    committeeContains e.2 minerId &&
      !(s.job (baseJobIdFromCommitteeKey e.1)).any fun job => jobIsResolved job.state

/-- A job holds the miner: disputed under it, or answered by it and not settled. -/
def jobHolds (minerId : Str) (job : Job) : Bool :=
  (decide (job.minerId = minerId) && jobIsDisputed job.state && !jobIsResolved job.state) ||
    (!(jobIsPaid job.state || jobEscrowReturned job.state || jobIsResolved job.state) &&
      s.commits.has (job.jobId ++ commitKeySep ++ minerId))

/-- `hasOpenObligation`: the miner may not leave. -/
def hasOpenObligation (minerId : Str) : Bool :=
  owedHeldFee s minerId || (eligibleAsJuror s minerId c.h64 && sitsOnOpenJury s minerId) ||
    s.jobs.entries.any fun job => jobHolds s minerId job

end Juries

end Dendra.Jobs
