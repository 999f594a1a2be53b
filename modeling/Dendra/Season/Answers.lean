import Dendra.Season.Payments
import Dendra.Lib.Run

/-!
# Answers to the programme's requests

The generator forwards the answers that miners gave. The service keeps them in a private file while their day
runs; once it is over it draws a sample of each identity into the evidence, records which answers arrived, and
removes the file. It may crash between any two writes, and rebuilds its memory from the files.

* `workAnswer`: what a forward is answered. `drawn`: the sample of a day.
* `ServeAction`, `next`: forwards, what the chain shows, the writes of a seal one by one, rankings, crashes.
* `Fresh`: the forwards that a run may make. `SealedOnce`: what then holds in every state.
-/

namespace Dendra.Season

/-! ## The evidence -/

/-- A line of a private file. Only the first answers of an identity's day keep their text. -/
structure Line where
  jobId : Str
  minerId : Str
  height : Nat
  text : Option (Str × Str)
  deriving DecidableEq

/-- The records that a seal files, and the day that each is filed under. -/
inductive Entry
  | workAnswer (day : Nat) (r : Line)
  | workSealed (day : Nat) (answers drawn : Nat) (answered : List (Str × List Str))
  deriving DecidableEq

/-- The job ids that a `work_sealed` record carries. -/
def Entry.jobs : Entry → List Str
  | .workAnswer _ _ => []
  | .workSealed _ _ _ answered => answered.flatMap Prod.snd

/-- The day of a `work_sealed` record. -/
def Entry.sealedDay : Entry → Option Nat
  | .workAnswer _ _ => none
  | .workSealed day _ _ _ => some day

/-- The job id of a `work_answer` record. -/
def Entry.answerId : Entry → Option Str
  | .workAnswer _ r => some r.jobId
  | .workSealed _ _ _ _ => none

/-- `answered_jobs`. -/
def answeredJobs (evidence : List Entry) : List Str := evidence.flatMap Entry.jobs

def sealedDays (evidence : List Entry) : List Nat := evidence.filterMap Entry.sealedDay

def answerIds (evidence : List Entry) : List Str := evidence.filterMap Entry.answerId

/-! ## The draw -/

/-- `WORK_SAMPLE` and `WORK_PENDING_MAX`. -/
def workSample : Nat := 3
def workPendingMax : Nat := 50

/-- `sorted(set(…))`. -/
def sortedSet (l : List Str) : List Str := l.dedup.insertionSort (· ≤ ·)

def minersOf (recs : List Line) : List Str := sortedSet (recs.map Line.minerId)

/-- The answers that arrived, by identity. -/
def answeredOf (recs : List Line) : List (Str × List Str) :=
  (minersOf recs).map fun m => (m, sortedSet ((recs.filter fun r => decide (r.minerId = m)).map Line.jobId))

/-- The sample: the first answers of each identity, in the order that the secret sets. -/
def drawn (workOrder : Str → Nat) (recs : List Line) : List Line :=
  let kept := recs.filter fun r => r.text.isSome
  (minersOf kept).flatMap fun m =>
    ((kept.filter fun r => decide (r.minerId = m)).insertionSort fun a b =>
      workOrder a.jobId ≤ workOrder b.jobId).take workSample

/-! ## The service -/

/-- Where a seal stands: the file is read; the sample is being filed, `todo` of it left; the record is filed;
the day is marked; the answers are dropped from memory. -/
inductive Stage
  | read
  | filing (todo : List Line)
  | recorded
  | marked
  | dropped

structure Sealing where
  day : Nat
  recs : List Line
  stage : Stage

/-- The memory of a run. A height of 0 and an end of `none` are not read yet. -/
structure Memory where
  height : Nat
  ended : Option Bool
  endHeight : Option Nat
  work : Ordered Str (Nat × Str)
  pending : Ordered Str (Nat × Str)
  workSealed : List Nat
  sealing : Option Sealing

/-- What is on disk: the evidence, the private files by day, the days that are ranked. -/
structure Disk where
  evidence : List Entry
  files : Ordered Nat (List Line)
  ranked : List Nat

/-- `chain` and `endSeen` are the last height and whether a block at or after the season's end was shown. `filed`,
`accepted` and `sampled` are history: the lines written, the forwards answered 200 and the jobs drawn. -/
structure Server where
  mem : Memory
  disk : Disk
  chain : Nat
  endSeen : Bool
  filed : List (Str × Nat)
  accepted : List (Str × Nat)
  sampled : List Str

/-- `DAY_BLOCKS`. -/
def dayBlocks : Nat := 17280

/-- `day_of_height`; `none` stands for -1. -/
def dayOfHeight (start h : Nat) : Option Nat := if h < start then none else some ((h - start) / dayBlocks)

variable (start : Nat) (workOrder : Str → Nat)

inductive Response
  | tooEarly
  | seasonOver
  | alreadyFiled
  | ok
  deriving DecidableEq

/-- The memory takes answers: its height is known, the season has begun and has not ended. -/
def Memory.isOpen (m : Memory) : Bool :=
  decide (m.height ≠ 0) && (dayOfHeight start m.height).isSome && m.ended == some false

/-- What a well-formed forward is answered. -/
def workAnswer (m : Memory) (jid : Str) : Response :=
  if m.height = 0 ∨ dayOfHeight start m.height = none then .tooEarly
  else
    match m.ended with
    | none => .tooEarly
    | some true => .seasonOver
    | some false => if m.work.has jid ∨ m.pending.has jid then .alreadyFiled else .ok

/-- The answers of an identity that a day already keeps. -/
def keptCount (m : Memory) (day : Nat) (mid : Str) : Nat :=
  (m.pending.items.filter fun e => decide (e.2 = (day, mid))).length

/-- One record of the evidence, read back. -/
def replay (m : Memory) : Entry → Memory
  | .workAnswer day r => { m with work := m.work.set r.jobId (day, r.minerId) }
  | .workSealed day _ _ _ => { m with workSealed := day :: m.workSealed }

def addPending (day : Nat) (p : Ordered Str (Nat × Str)) (r : Line) : Ordered Str (Nat × Str) :=
  p.set r.jobId (day, r.minerId)

/-- `State.__init__`. -/
def restart (d : Disk) : Memory :=
  let m := d.evidence.foldl replay ⟨0, none, none, .empty, .empty, [], none⟩
  let unsealed := (d.files.items.insertionSort fun a b => a.1 ≤ b.1).filter fun e => decide (e.1 ∉ m.workSealed)
  { m with pending := unsealed.foldl (fun p e => e.2.foldl (addPending e.1) p) .empty }

/-- What becomes of a forward that is not refused: the answer arrives; it is lost after the line was written;
the line could not be written. -/
inductive Fate
  | answered
  | unanswered
  | failed

inductive ServeAction
  | watchHeight (h : Nat)
  | watchTime (past : Bool)
  | watchEnd (e : Nat)
  | forward (jid mid prompt answer : Str) (fate : Fate)
  | sealDay (day : Nat)
  | sealNext
  | sealStops
  | removeSealed (day : Nat)
  | rank (day : Nat)
  | crash

/-- A day is over when the next one starts, or once the chain is past the season's last block. -/
def Memory.dayOver (m : Memory) (day : Nat) : Bool :=
  (dayOfHeight start m.height).any (fun d => decide (day < d)) ||
    m.endHeight.any fun e => decide (e < m.height)

/-- The write of a forward. -/
def Server.write (s : Server) (day : Nat) (jid mid prompt answer : Str) (fate : Fate) : Server :=
  let kept := decide (keptCount s.mem day mid < workPendingMax)
  let r : Line := ⟨jid, mid, s.mem.height, if kept then some (prompt, answer) else none⟩
  let s := { s with mem := { s.mem with pending := s.mem.pending.set jid (day, mid) } }
  let filed := { s with
    disk := { s.disk with files := s.disk.files.set day (((s.disk.files.get? day).getD []) ++ [r]) }
    filed := s.filed ++ [(jid, day)] }
  match fate with
  | .answered => { filed with accepted := s.accepted ++ [(jid, day)] }
  | .unanswered => filed
  | .failed => s

def Server.setSealing (s : Server) (q : Option Sealing) : Server :=
  { s with mem := { s.mem with sealing := q } }

/-- The next write of a seal. -/
def Server.sealStep (s : Server) (q : Sealing) : Server :=
  match q.stage with
  | .read =>
    if q.day ∈ s.disk.ranked then s.setSealing (some { q with stage := .recorded })
    else s.setSealing (some { q with stage := .filing (drawn workOrder q.recs) })
  | .filing (r :: todo) =>
    let s := s.setSealing (some { q with stage := .filing todo })
    if s.mem.work.has r.jobId then s
    else
      { s with
        mem := { s.mem with work := s.mem.work.set r.jobId (q.day, r.minerId) }
        disk := { s.disk with evidence := s.disk.evidence ++ [.workAnswer q.day r] } }
  | .filing [] =>
    let s := s.setSealing (some { q with stage := .recorded })
    { s with
      disk := { s.disk with
        evidence := s.disk.evidence ++
          [.workSealed q.day q.recs.length (drawn workOrder q.recs).length (answeredOf q.recs)] }
      sampled := s.sampled ++ (drawn workOrder q.recs).map Line.jobId }
  | .recorded =>
    let s := s.setSealing (some { q with stage := .marked })
    { s with mem := { s.mem with workSealed := q.day :: s.mem.workSealed } }
  | .marked =>
    let s := s.setSealing (some { q with stage := .dropped })
    { s with mem := { s.mem with pending := q.recs.foldl (fun p r => p.pop r.jobId) s.mem.pending } }
  | .dropped =>
    let s := s.setSealing none
    { s with disk := { s.disk with files := s.disk.files.pop q.day } }

/-- A seal stops at a write that fails: of the sample or of the record, or the removal of the file. -/
def Stage.mayStop : Stage → Bool
  | .read | .filing _ | .dropped => true
  | .recorded | .marked => false

/-- The step of an action; `none` when it cannot happen. A ranking waits until its day is over and its answers
are sealed. -/
def next (s : Server) : ServeAction → Option Server
  | .watchHeight h =>
    if s.chain ≤ h then some { s with mem := { s.mem with height := h }, chain := h } else none
  | .watchTime past =>
    if s.endSeen = true → past = true then
      some { s with mem := { s.mem with ended := some past }, endSeen := past }
    else none
  | .watchEnd e =>
    if s.mem.ended = some true ∧ s.mem.endHeight = none then
      some { s with mem := { s.mem with endHeight := some e } }
    else none
  | .forward jid mid prompt answer fate =>
    match workAnswer start s.mem jid, dayOfHeight start s.mem.height with
    | .ok, some day => some (s.write day jid mid prompt answer fate)
    | _, _ => some s
  | .sealDay day =>
    match s.mem.sealing, s.disk.files.get? day with
    | none, some recs =>
      if s.mem.height ≠ 0 ∧ day ∉ s.mem.workSealed ∧ s.mem.dayOver start day = true then
        some (s.setSealing (some ⟨day, recs, .read⟩))
      else none
    | _, _ => none
  | .sealNext => s.mem.sealing.map fun q => s.sealStep workOrder q
  | .sealStops =>
    match s.mem.sealing with
    | some q => if q.stage.mayStop then some (s.setSealing none) else none
    | none => none
  | .removeSealed day =>
    if s.mem.sealing.isNone ∧ day ∈ s.mem.workSealed then
      some { s with disk := { s.disk with files := s.disk.files.pop day } }
    else none
  | .rank day =>
    if s.mem.height ≠ 0 ∧ s.mem.dayOver start day = true ∧
        (s.disk.files.get? day = none ∨ day ∈ s.mem.workSealed) then
      some { s with disk := { s.disk with ranked := day :: s.disk.ranked } }
    else none
  | .crash => some { s with mem := restart s.disk }

def Step (s : Server) (a : ServeAction) (s' : Server) : Prop := next start workOrder s a = some s'

/-- A first start on an empty directory. -/
def Server.init : Server := ⟨restart ⟨[], .empty, []⟩, ⟨[], .empty, []⟩, 0, false, [], [], []⟩

/-- No job is forwarded that a seal recorded as answered and did not draw. -/
def Fresh (s : Server) (a : ServeAction) : Prop :=
  ∀ jid mid prompt answer fate, a = .forward jid mid prompt answer fate →
    jid ∈ answeredJobs s.disk.evidence → s.mem.work.has jid = true

end Dendra.Season
