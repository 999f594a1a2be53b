import Dendra.Lib.Table
import Dendra.Lib.Str
import Dendra.Lib.Word

/-!
# The records of `x/jobs`

The protobuf records the keeper stores, the job's state, and the errors of the handlers.

`job.State` is the string `open` followed by markers, each behind a `+` (`open+paid+optimistic`).
It is modelled as the list of its markers (`JobState`); `JobState.render` gives the string back and
`contains_render` says that a marker is found in the string (`strings.Contains`) exactly when it
was appended, which is how every predicate of `job_state.go` reads it.
-/

namespace Dendra.Jobs

/-! ## Errors -/

/-- The registered errors the handlers wrap; `plain` is an error without a code. -/
inductive ErrCode
  | invalidAddress | invalidRequest | logic | insufficientFunds | keyNotFound | unauthorized
  | invalidSigner | plain
  deriving DecidableEq, Repr

/-- `errorsmod.Wrap(code, text)`. -/
structure Err where
  code : ErrCode
  text : String
  deriving Repr

/-- Go on only if `p` holds. -/
def ensure (p : Prop) [Decidable p] (code : ErrCode) (text : String) : Except Err Unit :=
  if p then .ok () else .error ⟨code, text⟩

/-- The value, or the error. -/
def require {α : Type} (o : Option α) (code : ErrCode) (text : String) : Except Err α :=
  match o with
  | some a => .ok a
  | none => .error ⟨code, text⟩

section Errors

variable {α β : Type} {p : Prop} [Decidable p] {code : ErrCode} {text : String} {b : β}

@[simp] theorem bind_ok {x : Except Err α} {f : α → Except Err β} :
    x >>= f = .ok b ↔ ∃ a, x = .ok a ∧ f a = .ok b := by
  cases x <;> simp [bind, Except.bind]

@[simp] theorem pure_ok {a : α} {a' : α} : (pure a : Except Err α) = .ok a' ↔ a = a' := by
  simp [pure, Except.pure]

@[simp] theorem ensure_ok {u : Unit} : ensure p code text = .ok u ↔ p := by
  unfold ensure
  split <;> simp_all

@[simp] theorem require_ok {o : Option α} {a : α} : require o code text = .ok a ↔ o = some a := by
  cases o <;> simp [require]

end Errors

/-! ## The state of a job -/

/-- The markers that the handlers append to `job.State`. -/
inductive Mark
  | paid | settled | finalized | verified | optimistic | disputed | resolved | adjudicated | clawed
  | quorum | vindicated | unwound | expired | refunded
  deriving DecidableEq, Repr

/-- The marker's text. -/
def Mark.word : Mark → Str
  | .paid => "paid".toList
  | .settled => "settled".toList
  | .finalized => "finalized".toList
  | .verified => "verified".toList
  | .optimistic => "optimistic".toList
  | .disputed => "disputed".toList
  | .resolved => "resolved".toList
  | .adjudicated => "adjudicated".toList
  | .clawed => "clawed".toList
  | .quorum => "quorum".toList
  | .vindicated => "vindicated".toList
  | .unwound => "unwound".toList
  | .expired => "expired".toList
  | .refunded => "refunded".toList

/-- `job.State`: the markers after `open`, in the order they were appended. -/
abbrev JobState : Type := List Mark

/-- The string the store holds. -/
def JobState.render (st : JobState) : Str :=
  "open".toList ++ st.flatMap fun m => '+' :: m.word

/-- The settlement replay guard: `+paid` or `+settled`. -/
def jobIsPaid (st : JobState) : Bool := st.contains .paid || st.contains .settled

/-- The expiry pass returned the escrow. -/
def jobEscrowReturned (st : JobState) : Bool := st.contains .refunded

def jobIsDisputed (st : JobState) : Bool := st.contains .disputed

def jobIsResolved (st : JobState) : Bool := st.contains .resolved

def jobIsOptimistic (st : JobState) : Bool := st.contains .optimistic

/-- The redundant committee was judged, by any of the three paths. -/
def jobK3Adjudicated (st : JobState) : Bool :=
  jobIsPaid st || st.contains .verified || st.contains .finalized

/-- A word without `+` that occurs in `a ++ '+' :: b` occurs on one side of the `+`. -/
theorem infix_append_plus {w a b : Str} (hw : '+' ∉ w) :
    w <:+: a ++ '+' :: b ↔ w <:+: a ∨ w <:+: b := by
  constructor
  · rintro ⟨p, q, h⟩
    rw [List.append_assoc] at h
    rcases List.append_eq_append_iff.1 h with ⟨r, rfl, hr⟩ | ⟨r, rfl, hr⟩
    · -- `w` starts in `a`
      rcases List.append_eq_append_iff.1 hr with ⟨r', rfl, -⟩ | ⟨r', hr', hb⟩
      · exact .inl ⟨p, r', by simp⟩
      · cases r' with
        | nil => exact .inl ⟨p, [], by simp [hr']⟩
        | cons x xs =>
          obtain ⟨rfl, -⟩ := List.cons.inj hb
          exact absurd (by simp [hr']) hw
    · -- `w` starts at the `+` or after it
      cases r with
      | nil =>
        cases w with
        | nil => exact .inl (List.nil_infix)
        | cons x xs =>
          obtain ⟨rfl, -⟩ := List.cons.inj hr
          exact absurd List.mem_cons_self hw
      | cons x xs =>
        obtain ⟨-, rfl⟩ := List.cons.inj hr
        exact .inr ⟨xs, q, by simp⟩
  · rintro (h | h)
    · exact h.trans (List.prefix_append _ _).isInfix
    · exact h.trans ⟨a ++ ['+'], [], by simp⟩

theorem infix_render {w : Str} (hw : '+' ∉ w) (a : Str) (st : JobState) :
    w <:+: a ++ (st.flatMap fun m => '+' :: m.word) ↔ w <:+: a ∨ ∃ m ∈ st, w <:+: m.word := by
  induction st generalizing a with
  | nil => simp
  | cons m st ih =>
    rw [List.flatMap_cons, List.cons_append, infix_append_plus hw, ih]
    simp only [List.mem_cons, exists_eq_or_imp]

/-- A marker is found in the stored string exactly when it was appended: no marker's text occurs
inside `open` or inside another marker. -/
theorem contains_render (st : JobState) (m : Mark) : Str.contains st.render m.word = st.contains m := by
  have hopen : ¬ m.word <:+: "open".toList := by cases m <;> decide
  have hother : ∀ m', m.word <:+: m'.word ↔ m' = m := by
    intro m'
    cases m <;> cases m' <;> decide
  rw [Bool.eq_iff_iff, Str.contains, decide_eq_true_iff, JobState.render,
    infix_render (by cases m <;> decide), List.contains_iff_mem]
  rw [or_iff_right hopen]
  exact ⟨fun ⟨m', hm, h⟩ => (hother m').1 h ▸ hm, fun h => ⟨m, h, (hother m).2 rfl⟩⟩

/-! ## Records -/

/-- The module parameters (`params.proto`), in the order of the file. -/
structure Params where
  minStake : UInt64
  protocolFeeBps : UInt64
  validatorRewardBps : UInt64
  teamFeeBps : UInt64
  minerVestBps : UInt64
  slashLeakBps : UInt64
  workGateBps : UInt64
  feeBurnBps : UInt64
  enforceModelRegistry : Bool
  committeeRevealDelay : UInt64
  availEpochBlocks : UInt64
  availPayoutBps : UInt64
  availRequireDemand : Bool
  vrfBeaconPubkey : Str
  committeeSeedSource : UInt64
  disputeWindow : UInt64
  disputeBond : UInt64
  verificationMode : UInt64
  auditSampleBps : UInt64
  auditAdaptive : UInt64
  auditProbationJobs : UInt64
  auditResolveTimeout : UInt64
  silenceSlashBps : UInt64
  appealWindow : UInt64
  auditMinQuorum : UInt64
  holdBps : UInt64
  committeeMinVrfContributors : UInt64
  availThresholdBps : UInt64
  availDeadlineBlocks : UInt64
  availSlashBps : UInt64
  availSlashMax : UInt64
  availFailWindow : UInt64
  availFailK : UInt64
  jurorFreshnessBlocks : UInt64
  minerPruneBlocks : UInt64
  auditUnwindBlocks : UInt64
  teamAddress : Str
  jobExpiryBlocks : UInt64
  workCommitteeSize : UInt64
  assignmentStakeCapMultiple : UInt64
  auditCommitteeDrawSize : UInt64
  minKitVersion : UInt64
  judgeVerdictWindowBlocks : UInt64
  judgeMissedDrawsMax : UInt64
  availSampleBps : UInt64
  committeeMinVrfPowerBps : UInt64

structure Miner where
  minerId : Str
  operator : Str
  region : Str
  stake : UInt64
  creator : Str
  demand : UInt64
  subsidyClaimed : UInt64
  encPubkey : Str
  vrfPubkey : Str

/-- One slash of one miner, kept with the job so that a dispute can undo it. -/
structure SlashRecord where
  minerId : Str
  amount : UInt64

structure Job where
  jobId : Str
  client : Str
  minerId : Str
  fee : UInt64
  state : JobState
  disputer : Str
  disputeBond : UInt64
  disputeHeight : Int
  slashRecords : List SlashRecord
  auditDistinctVoters : UInt64
  auditVoters : UInt64
  auditMaxOperatorVotes : UInt64

/-- A commit; `jobId` is its whole key (`<jobId>__<minerId>` or a role variant). -/
structure Commit where
  jobId : Str
  promptCommit : Str
  resultCommit : Str
  kind : Str
  creator : Str
  modelId : Str
  weightsHash : Str

structure Beacon where
  jobId : Str
  seed : Str
  creator : Str

structure Pools where
  minerPaid : UInt64
  validators : UInt64
  team : UInt64
  treasury : UInt64
  minerLocked : UInt64
  trainingPaid : UInt64

/-- `types.Pools{}`. -/
instance : Inhabited Pools := ⟨⟨0, 0, 0, 0, 0, 0⟩⟩

end Dendra.Jobs
