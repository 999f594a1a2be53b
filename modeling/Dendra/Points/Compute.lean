import Dendra.Lib.Str
import Dendra.Lib.Share
import Dendra.Lib.Tally

/-!
# The points of a season

`compute_points` of `points_indexer.py`: what every identity has earned, from the jobs it served, the jobs it paid
for and the verdicts it gave, and what three caps leave of it.

* `auditClass`, `r2JobBucket`, `auditIssue`: what the state of a job says.
* `credits`: what is credited for, in order. `rawRows`: the rows, where a miner that was slashed has no points.
* `useStage`, `ownerStage`, `identityStage`: the caps; each reads what the one before it left.
* `computePoints`: the leaderboard. `groupPoints` and `share`: what the miners of an operator have of it.

Points are exact: nothing is rounded. The weights of the dormant dimensions are left out.
-/

namespace Dendra.Points

/-! ## The state of a job -/

/-- `state_markers`. -/
def stateMarkers (state : Str) : List Str := (Str.split state '+').filter fun m => decide (m ≠ [])

/-- The partition classes of audits. -/
inductive AuditClass
  | auditPending | resolvedNoQuorum | resolvedByQuorum | resolvedByAdjudication | resolvedUnwound | resolvedUnmarked
  | undisputedUnwound
  deriving DecidableEq

/-- `audit_class`. -/
def auditClass (markers : List Str) : Option AuditClass :=
  if markers.contains "disputed".toList then
    some <|
      if !markers.contains "resolved".toList then .auditPending
      else if markers.contains "noquorum".toList then .resolvedNoQuorum
      else if markers.contains "quorum".toList then .resolvedByQuorum
      else if markers.contains "adjudicated".toList then .resolvedByAdjudication
      else if markers.contains "unwound".toList then .resolvedUnwound
      else .resolvedUnmarked
  else if markers.contains "resolved".toList && markers.contains "unwound".toList then some .undisputedUnwound
  else none

/-- `R2_BUCKETS`. -/
inductive Bucket
  | counted | pending | clawed | unwound | subsidized | operatorClient | unpaid
  deriving DecidableEq

/-- `r2_job_bucket`. -/
def r2JobBucket (state client : Str) (operators excluded : List Str) : Bucket :=
  let mk := stateMarkers state
  if !mk.contains "paid".toList && !mk.contains "settled".toList then .unpaid
  else if mk.contains "clawed".toList then .clawed
  else if auditClass mk = some .auditPending then .pending
  else if auditClass mk = some .resolvedUnwound ∨ auditClass mk = some .undisputedUnwound then .unwound
  else if excluded.contains client then .subsidized
  else if operators.contains client then .operatorClient
  else .counted

/-- `CONCLUDED_CLASSES`. -/
def concluded : Option AuditClass → Bool
  | some .resolvedByQuorum | some .resolvedNoQuorum | some .resolvedByAdjudication | some .resolvedUnmarked => true
  | _ => false

/-- `audit_issue`: the verdict that agrees with a concluded audit. -/
def auditIssue (state : Str) : Option Str :=
  if concluded (auditClass (stateMarkers state)) then
    some (if (stateMarkers state).contains "clawed".toList then ['0'] else ['1'])
  else none

/-! ## What is read -/

structure Slash where
  miner : Str
  amount : Nat
  deriving DecidableEq

/-- A job as `list_jobs_full` gives it. -/
structure Job where
  id : Str
  state : Str
  miner : Str
  client : Str
  fee : Nat
  slashes : List Slash
  deriving DecidableEq

structure Miner where
  id : Str
  operator : Str
  deriving DecidableEq

/-- The jobs, the registered miners, and the verdicts by job and judge. -/
structure Ledger where
  jobs : List Job
  miners : List Miner
  verdicts : List (Str × List (Str × Str))

structure Weights where
  work : Rat
  judge : Rat
  use : Rat

/-- `excluded` and the three caps, in basis points. -/
structure Config where
  weights : Weights
  excluded : List Str
  capBps : Int
  ownerCapBps : Int
  useShareMaxBps : Int

/-- The points of an identity, by dimension. -/
@[ext] structure Detail where
  work : Rat
  judge : Rat
  use : Rat

namespace Detail

instance : Zero Detail := ⟨⟨0, 0, 0⟩⟩

instance : Add Detail := ⟨fun a b => ⟨a.work + b.work, a.judge + b.judge, a.use + b.use⟩⟩

instance : AddZeroClass Detail where
  zero_add _ := Detail.ext (zero_add _) (zero_add _) (zero_add _)
  add_zero _ := Detail.ext (add_zero _) (add_zero _) (add_zero _)

def total (a : Detail) : Rat := a.work + a.judge + a.use

theorem total_add (a b : Detail) : (a + b).total = a.total + b.total := by
  change a.work + b.work + (a.judge + b.judge) + (a.use + b.use) = _
  unfold total
  ring

end Detail

def clientPrefix : Str := "client:".toList

def isClient (id : Str) : Bool := clientPrefix.isPrefixOf id

/-- The operators of the miners that have one. -/
def operators (miners : List Miner) : List Str :=
  (miners.map Miner.operator).filter fun o => decide (o ≠ [])

def Job.bucket (excluded : List Str) (ops : List Str) (j : Job) : Bucket := r2JobBucket j.state j.client ops excluded

/-- What a job credits: its miner with the work, then its client with the use. -/
def jobCredits (c : Config) (ops : List Str) (j : Job) : List (Str × Detail) :=
  let b := j.bucket c.excluded ops
  (if (b = .counted ∨ b = .subsidized ∨ b = .operatorClient) ∧ j.miner ≠ [] then
      [(j.miner, ⟨c.weights.work * j.fee, 0, 0⟩)] else []) ++
    if b = .counted then [(clientPrefix ++ j.client, ⟨0, 0, c.weights.use * j.fee⟩)] else []

/-- `issue.get(jid)`: the last concluded job of that id. -/
def issue (jobs : List Job) (id : Str) : Option Str :=
  jobs.reverse.findSome? fun j => if j.id = id then auditIssue j.state else none

/-- `str.isspace`, of one character. -/
def isBlank (c : Char) : Bool := Str.isSpace c || decide (0x1c ≤ c.toNat ∧ c.toNat ≤ 0x1f)

/-- `str.strip`. -/
def strip (s : Str) : Str := ((s.dropWhile isBlank).reverse.dropWhile isBlank).reverse

/-- What the verdicts on a job credit. -/
def verdictCredits (c : Config) (jobs : List Job) (v : Str × List (Str × Str)) : List (Str × Detail) :=
  match issue jobs v.1 with
  | none => []
  | some want => v.2.filterMap fun e => if strip e.2 = want then some (e.1, ⟨0, c.weights.judge, 0⟩) else none

def credits (c : Config) (x : Ledger) : List (Str × Detail) :=
  x.jobs.flatMap (jobCredits c (operators x.miners)) ++ x.verdicts.flatMap (verdictCredits c x.jobs)

/-- `slashed_gate`: the miners that were slashed on a clawed job. -/
def slashedGate (c : Config) (x : Ledger) : List Str :=
  x.jobs.flatMap fun j =>
    if j.bucket c.excluded (operators x.miners) = .clawed then
      (j.slashes.filter fun s => decide (0 < s.amount ∧ s.miner ≠ [])).map Slash.miner
    else []

/-! ## Rows -/

structure Row where
  id : Str
  points : Rat
  gatedSlash : Bool
  detail : Detail
  useScaled : Bool
  /-- The group whose cap has scaled the row. -/
  ownerCapped : Option Str
  capped : Bool

def rawRow (gate : List Str) (e : Str × Detail) : Row :=
  ⟨e.1, if gate.contains e.1 then 0 else e.2.total, gate.contains e.1, e.2, false, none, false⟩

/-- The rows before any cap. -/
def rawRows (c : Config) (x : Ledger) : List Row :=
  (Ordered.tally (credits c x)).items.map (rawRow (slashedGate c x))

/-- The points of some rows. -/
def points (p : Row → Bool) (rows : List Row) : Rat := ((rows.filter p).map Row.points).sum

def total (rows : List Row) : Rat := (rows.map Row.points).sum

/-! ## The caps -/

/-- A cap in basis points, as a share. -/
def bps (n : Int) : Rat := n / 10000

/-- `_cap_abs`. -/
def capAbs (n : Int) (others : Rat) : Rat := Share.bound (bps n) others

/-- The conditions under which a cap is looked at. -/
def active (n : Int) (tot : Rat) : Bool := decide (0 < tot ∧ n ≠ 0 ∧ n < 10000)

/-- (i): the points of the clients together. -/
def useStage (c : Config) (tot : Rat) (rows : List Row) : List Row :=
  if active c.useShareMaxBps tot then
    let useTot := points (fun r => isClient r.id) rows
    let useMax := capAbs c.useShareMaxBps (tot - useTot)
    if 0 < tot - useTot ∧ useMax < useTot ∧ 0 < useTot then
      rows.map fun r =>
        if isClient r.id then { r with points := r.points * (useMax / useTot), useScaled := true } else r
    else rows
  else rows

/-- `op_of`: the last miner of an id counts. -/
def operatorOf (miners : List Miner) (id : Str) : Str :=
  ((miners.reverse.find? fun m => decide (m.id = id)).map Miner.operator).getD []

/-- The group of a miner: its operator's, or its own. -/
def groupKey (miners : List Miner) (id : Str) : Str :=
  if operatorOf miners id = [] then "solo:".toList ++ id else operatorOf miners id

/-- The row stands in a group of miners. -/
def inGroup (miners : List Miner) (key : Str) (r : Row) : Bool :=
  !isClient r.id && decide (groupKey miners r.id = key)

/-- What the cap of its group leaves of a row. -/
def ownerRow (c : Config) (miners : List Miner) (rows : List Row) (r : Row) : Row :=
  if isClient r.id then r
  else
    let key := groupKey miners r.id
    let gsum := points (inGroup miners key) rows
    let ownerCap := capAbs c.ownerCapBps (total rows - gsum)
    if ownerCap < gsum ∧ 0 < gsum then { r with points := r.points * (ownerCap / gsum), ownerCapped := some key }
    else r

/-- (ii): the points of the miners of an operator. No group reads what the cap of another has left. -/
def ownerStage (c : Config) (miners : List Miner) (tot : Rat) (rows : List Row) : List Row :=
  if active c.ownerCapBps tot then rows.map (ownerRow c miners rows) else rows

/-- The cap of an identity, where the rows have `stageTot` points. -/
def identityRow (c : Config) (stageTot : Rat) (r : Row) : Row :=
  let cap := capAbs c.capBps (stageTot - r.points)
  if cap < r.points then { r with points := cap, capped := true } else r

/-- The cap of each identity. -/
def identityStage (c : Config) (tot : Rat) (rows : List Row) : List Row :=
  if active c.capBps tot then rows.map (identityRow c (total rows)) else rows

/-- The rows that the cap per identity reads. -/
def entering (c : Config) (x : Ledger) : List Row :=
  let rows := rawRows c x
  ownerStage c x.miners (total rows) (useStage c (total rows) rows)

/-- What is left of them, in the order of the identities. -/
def finalRows (c : Config) (x : Ledger) : List Row := identityStage c (total (rawRows c x)) (entering c x)

/-- The order of the leaderboard. -/
def before (r r' : Row) : Prop := r'.points < r.points ∨ r'.points = r.points ∧ r.id ≤ r'.id

instance : DecidableRel before := fun _ _ => inferInstanceAs (Decidable (_ ∨ _))

/-- The leaderboard, and what its `meta` says of it. -/
structure Board where
  rows : List Row
  identities : Nat
  gatedSlash : List Str
  capped : Nat
  ownerGroupsCapped : Nat
  useBucketScaled : Bool

def board (c : Config) (x : Ledger) : Board where
  rows := (finalRows c x).insertionSort before
  identities := (finalRows c x).length
  gatedSlash := (slashedGate c x).dedup.insertionSort (· ≤ ·)
  capped := (finalRows c x).countP Row.capped
  ownerGroupsCapped := ((finalRows c x).filterMap Row.ownerCapped).dedup.length
  useBucketScaled := (finalRows c x).any Row.useScaled

/-- `compute_points`: it raises where the jobs could not be read. -/
def computePoints (c : Config) (jobs : Option (List Job)) (miners : List Miner)
    (verdicts : List (Str × List (Str × Str))) : Option Board :=
  jobs.map fun jobs => board c ⟨jobs, miners, verdicts⟩

/-! ## An operator -/

/-- The final points of the group of an operator. -/
def groupPoints (c : Config) (x : Ledger) (operator : Str) : Rat :=
  points (inGroup x.miners operator) (board c x).rows

/-- The share that the group has of the final points. -/
def share (c : Config) (x : Ledger) (operator : Str) : Rat := groupPoints c x operator / total (board c x).rows

end Dendra.Points
