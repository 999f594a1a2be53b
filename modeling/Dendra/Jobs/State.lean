import Dendra.Jobs.CommitKey
import Dendra.Jobs.Retention

/-!
# The state of the module

The collections of `keeper.go`, grouped by what they are about: the money (`Funds`), the registry of
miners and judges, the juries, and the queues of the end of block. A read of the store finds the
value or finds nothing; the store's own failures are not modelled.
-/

namespace Dendra.Jobs

/-- The key of a queue: a height and a job (`collections.Pair[int64, string]`). -/
abbrev QueueKey : Type := Int ×ₗ Str

/-- `collections.Join`. -/
def qkey (h : Int) (j : Str) : QueueKey := toLex (h, j)

abbrev Queue : Type := KeySet QueueKey

namespace Queue

/-- The entries up to height `h`, at most `cap` of them, in order. -/
def due (h : Int) (cap : Nat) (q : Queue) : List QueueKey :=
  (q.entries.takeWhile fun k => decide ((ofLex k).1 ≤ h)).take cap

/-- Does the queue hold an entry of job `j`? -/
def holds (q : Queue) (j : Str) : Bool := q.entries.any fun k => decide ((ofLex k).2 = j)

theorem holds_iff {q : Queue} {j : Str} : q.holds j = true ↔ ∃ h, qkey h j ∈ q.entries := by
  simp only [holds, List.any_eq_true, decide_eq_true_eq]
  exact ⟨fun ⟨k, hk, e⟩ => ⟨(ofLex k).1, by rw [← e]; exact hk⟩, fun ⟨h, hk⟩ => ⟨_, hk, rfl⟩⟩

theorem mem_due {q : Queue} {h : Int} {cap : Nat} {k : QueueKey} (hk : k ∈ q.due h cap) :
    k ∈ q.entries ∧ (ofLex k).1 ≤ h := by
  have h1 := List.mem_of_mem_take hk
  exact ⟨(List.takeWhile_sublist _).mem h1, by simpa using List.mem_takeWhile_imp h1⟩

theorem nodup_due (q : Queue) (h : Int) (cap : Nat) : (q.due h cap).Nodup :=
  ((List.take_sublist _ _).trans (List.takeWhile_sublist _)).nodup q.nodup_entries

theorem qkey_inj {h h' : Int} {j j' : Str} : qkey h j = qkey h' j' ↔ h = h' ∧ j = j' := by
  simp [qkey, Prod.ext_iff]

theorem qkey_eta (k : QueueKey) : qkey (ofLex k).1 (ofLex k).2 = k := rfl

end Queue

/-- What the module knows of each miner beside its record. -/
structure Registry where
  lastCommitHeight : Store Str UInt64
  registeredHeight : Store Str UInt64
  lastPresentEpoch : Store Str UInt64
  judge : KeySet Str
  judgeDeclaredHeight : Store Str UInt64
  lastVerdictHeight : Store Str UInt64
  missedDraws : Store Str UInt64
  optimisticCount : Store Str UInt64
  availFailCount : Store Str UInt64
  availFailWindowStart : Store Str UInt64
  available : KeySet QueueKey
  availChallenge : Option Str
  availChallengeHeight : Option Int

/-- The committees of audits and disputes, by anchor key. -/
structure Juries where
  auditCommittee : Store Str Str
  committeeSince : Store Str UInt64
  auditSelected : KeySet Str
  auditsOpened : UInt64

/-- The queues of the end of block. -/
structure Queues where
  pendingReveal : Queue
  pendingAudit : Queue
  pendingJobExpiry : Queue
  pendingAuditResolve : Queue
  pendingAppealResolve : Queue

/-- The state of the module. -/
structure State where
  params : Params
  funds : Funds
  jobs : Table Job.jobId
  commits : Table Commit.jobId
  beacons : Table Beacon.jobId
  workCommittee : Store Str Str
  jobPoolFreezeHeight : Store Str UInt64
  registry : Registry
  juries : Juries
  queues : Queues

namespace State

def setFunds (f : Funds) (s : State) : State := { s with funds := f }

def setJob (job : Job) (s : State) : State := { s with jobs := s.jobs.put job }

variable (s : State)

/-- `Miner.Get`. -/
def miner (m : Str) : Option Miner := s.funds.miners.get? m

/-- `Job.Get`. -/
def job (j : Str) : Option Job := s.jobs.get? j

/-- `Commit.Get`. -/
def commit (key : Str) : Option Commit := s.commits.get? key

theorem job_setJob_self (job : Job) : (s.setJob job).job job.jobId = some job := Table.get?_put_self

theorem job_setJob_ne {job : Job} {k : Str} (hk : k ≠ job.jobId) :
    (s.setJob job).job k = s.job k := Table.get?_put_ne hk

/-- The commits whose key starts with `pfx` (`commitRange`), in key order. -/
def commitRange (pfx : Str) : List Commit := s.commits.entries.filter fun c => pfx.isPrefixOf c.jobId

end State

/-! ## Keys of anchored committees -/

def redoSuffix : Str := "__redo".toList

def humanDisputeSuffix : Str := "__humandispute".toList

/-- The key of a redo jury. -/
def redoAnchorKey (j : Str) : Str := j ++ redoSuffix

/-- The key under which the opener of a dispute is noted. -/
def humanDisputeKey (j : Str) : Str := j ++ humanDisputeSuffix

/-- The job of an anchor key. -/
def baseJobIdFromCommitteeKey (key : Str) : Str :=
  Str.trimSuffix (Str.trimSuffix key redoSuffix) humanDisputeSuffix

/-- A job id is no anchor key of another job. -/
theorem WfJobId.ne_redoAnchorKey {j : Str} (h : WfJobId j) (k : Str) : j ≠ redoAnchorKey k :=
  h.ne_append k "redo".toList

theorem WfJobId.ne_humanDisputeKey {j : Str} (h : WfJobId j) (k : Str) : j ≠ humanDisputeKey k :=
  h.ne_append k "humandispute".toList

end Dendra.Jobs
