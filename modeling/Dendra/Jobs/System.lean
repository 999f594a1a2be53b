import Dendra.Lib.Run
import Dendra.Jobs.EndBlock

/-!
# The module as a transition system

One step is one message, one end of block, or a deposit into the module account by somebody outside.
A message that fails is rolled back, so it is no step; each step sees its own `Ctx`, and nothing is
assumed of one context from another. The messages that always refuse (`CreateJob`, `UpdateCommit`
and the like) are no steps either.
-/

namespace Dendra.Jobs

/-- What can happen to the module. -/
inductive Action
  | createMiner (msg : MsgCreateMiner)
  | updateMiner (msg : MsgUpdateMiner)
  | deleteMiner (msg : MsgDeleteMiner)
  | rotateMinerKeys (msg : MsgRotateMinerKeys)
  | declareJudge (msg : MsgDeclareJudge)
  | proveAvailability (msg : MsgProveAvailability)
  | claimSubsidy (msg : MsgClaimSubsidy)
  | rewardTraining (msg : MsgRewardTraining)
  | slashMiner (msg : MsgSlashMiner)
  | reportDivergence (msg : MsgReportDivergence)
  | submitVrfBeacon (msg : MsgSubmitVrfBeacon)
  | updateParams (msg : MsgUpdateParams)
  | openJob (msg : MsgOpenJob)
  | createCommit (msg : MsgCreateCommit)
  | settleSemantic (msg : MsgSettleSemantic)
  | verifySemantic (msg : MsgVerifySemantic)
  | finalizeJob (msg : MsgFinalizeJob)
  | payout (msg : MsgPayout)
  | settlePay (msg : MsgSettlePay)
  | disputeVerdict (msg : MsgDisputeVerdict)
  | resolveDispute (msg : MsgResolveDispute)
  | adjudicateDispute (msg : MsgAdjudicateDispute)
  | endBlock
  | deposit (amt : UInt64)

variable [Chain]

/-- Coins that somebody sends to the module account. -/
def deposit (c : Ctx) (amt : UInt64) (s : State) : Except Err State := do
  let f ← s.funds.collect c amt "deposit"
  pure (s.setFunds f)

/-- What an action does. -/
def Action.run (c : Ctx) : Action → State → Except Err State
  | .createMiner msg => Jobs.createMiner c msg
  | .updateMiner msg => Jobs.updateMiner msg
  | .deleteMiner msg => Jobs.deleteMiner c msg
  | .rotateMinerKeys msg => Jobs.rotateMinerKeys msg
  | .declareJudge msg => Jobs.declareJudge c msg
  | .proveAvailability msg => Jobs.proveAvailability c msg
  | .claimSubsidy msg => Jobs.claimSubsidy c msg
  | .rewardTraining msg => Jobs.rewardTraining msg
  | .slashMiner msg => Jobs.slashMiner msg
  | .reportDivergence msg => Jobs.reportDivergence msg
  | .submitVrfBeacon msg => Jobs.submitVrfBeacon msg
  | .updateParams msg => Jobs.updateParams msg
  | .openJob msg => Jobs.openJob c msg
  | .createCommit msg => Jobs.createCommit c msg
  | .settleSemantic msg => Jobs.settleSemantic c msg
  | .verifySemantic msg => Jobs.verifySemantic msg
  | .finalizeJob msg => Jobs.finalizeJob msg
  | .payout msg => Jobs.payout c msg
  | .settlePay msg => Jobs.settlePay c msg
  | .disputeVerdict msg => Jobs.disputeVerdict c msg
  | .resolveDispute msg => Jobs.resolveDispute c msg
  | .adjudicateDispute msg => Jobs.adjudicateDispute c msg
  | .endBlock => Jobs.endBlock c
  | .deposit amt => Jobs.deposit c amt

/-- One step of the module, in a context. -/
def Step (s : State) (a : Ctx × Action) (s' : State) : Prop := a.2.run a.1 s = .ok s'

/-- The state of a fresh chain: parameters and two balances. -/
def genesis (p : Params) (balance outside : Nat) : State where
  params := p
  funds :=
    { bank := ⟨balance, outside, 0⟩
      miners := .empty
      pools := none
      held := fun _ => .empty
      heldSince := .empty
      heldDemand := .empty
      pendingHeldRelease := .empty
      journal := []
      warrants := [] }
  jobs := .empty
  commits := .empty
  beacons := .empty
  workCommittee := .empty
  jobPoolFreezeHeight := .empty
  registry :=
    { lastCommitHeight := .empty
      registeredHeight := .empty
      lastPresentEpoch := .empty
      judge := .empty
      judgeDeclaredHeight := .empty
      lastVerdictHeight := .empty
      missedDraws := .empty
      optimisticCount := .empty
      availFailCount := .empty
      availFailWindowStart := .empty
      available := .empty
      availChallenge := none
      availChallengeHeight := none }
  juries :=
    { auditCommittee := .empty
      committeeSince := .empty
      auditSelected := .empty
      auditsOpened := 0 }
  queues :=
    { pendingReveal := .empty
      pendingAudit := .empty
      pendingJobExpiry := .empty
      pendingAuditResolve := .empty
      pendingAppealResolve := .empty }

/-- A fresh chain with accepted parameters. -/
def Genesis (s : State) : Prop :=
  ∃ p balance outside, p.validate = .ok () ∧ s = genesis p balance outside

/-- The states that the module can reach by steps that all meet `ok`. -/
abbrev Reachable (ok : State → Ctx × Action → Prop) : State → Prop := Reach Genesis Step ok

end Dendra.Jobs
