import Mathlib
import Dendra.Judge.Loop
import Dendra.Reveal.Marker

/-!
# The reveal worker's loop

A round of `reveal_worker.py` with what it touches: the lists at the relay, the commits on chain, and the
transactions that the chain accepted and has not executed.

* `anchorMarker`: the list first, the root second.
* `epochTurn`: the epochs that are over are anchored, if the height is read and the epoch is another one.
* `rowTurn`: one job of `list-job` is revealed, or is not.
* `System.step`: a round, a restart, which forgets what the process remembers, and what becomes of a transaction.

What the height, the list of jobs, the relay and the chain answer in a round is given (`Round`). Printed texts, and
`noted`, which decides on them, are left out.
-/

namespace Dendra.Reveal

/-! ## What is read -/

structure Settings where
  me : Str
  poll : Rat
  noMarker : Bool
  epochBlocks : Int

/-- A row of `list_jobs`. -/
structure Row where
  job : Str
  state : Str
  primary : Str

/-- The outcomes of `reveal_disputed_job` that the loop tells apart. -/
inductive Action
  | revealed | incomplete
  /-- The request, the answer or the registry was not read. -/
  | unreadable
  /-- Nothing is sealed, or the reveal raised. -/
  | held
  deriving DecidableEq

/-- `Outcome`: the action, and the jury of the plan it was reached under. -/
structure Outcome where
  action : Action
  plan : Option (List Str)

/-- What the deposit of a list meets. One that is refused may be stored: its answer was lost. -/
inductive Deposit
  | taken
  | refused (stored : Bool)
  | raised
  deriving DecidableEq

/-- What the transaction of a root meets: code 0; a text with `already` or `exists`; another text; an exception. -/
inductive Answer
  | accepted
  | already
  | failed (sent : Bool)
  | raised (sent : Bool)
  deriving DecidableEq

structure Closing where
  deposit : Deposit
  answer : Answer

/-- What is answered in a round. The outer `none` is a call that raises, the inner one is not read. -/
structure Round where
  height : Option (Option Nat)
  closing : Nat → Closing
  rows : Option (Option (List Row))
  clock : Str → Rat
  reveal : Str → Option (List Str) → Outcome
  later : Str → Rat

/-! ## What is kept -/

/-- What the process remembers. -/
structure Worker where
  done : Str → Bool
  attempts : Str → Nat
  nextTry : Str → Rat
  juries : Str → Option (List Str)
  pending : Nat → List Str
  curEpoch : Option Nat

def Worker.fresh : Worker := ⟨fun _ => false, fun _ => 0, fun _ => 0, fun _ => none, fun _ => [], none⟩

/-- The commit of a marker: `create-commit <key> <root> <number of jobs> revealmark`. -/
structure Commit where
  root : Str
  jobs : Nat
  deriving DecidableEq

def Commit.promptCommit (c : Commit) : Str := c.root

def Commit.resultCommit (c : Commit) : Str := Str.formatUint c.jobs

/-- `offered e` says that a round closed the epoch `e` while relay and chain took its marker, after the last job was
filed under it; `delivered` holds the jobs that were revealed, with the epochs they were filed under. -/
structure System where
  worker : Worker
  lists : Str → Option (List Str)
  commits : Str → Option Commit
  flight : List (Str × Commit)
  offered : Nat → Bool
  delivered : List (Str × Option Nat)

variable (cfg : Settings)

/-! ## The epochs that are over -/

/-- The relay keeps the first list of a key. -/
def System.putList (key : Str) (jobs : List Str) (s : System) : System :=
  if s.lists key = none then { s with lists := Function.update s.lists key (some jobs) } else s

def System.send (key : Str) (c : Commit) (sent : Bool) (s : System) : System :=
  if sent then { s with flight := s.flight ++ [(key, c)] } else s

/-- `anchor_marker`; no result where it raises. -/
def anchorMarker (c : Closing) (e : Nat) (s : System) : System × Option Bool :=
  let jobs := sortedSet (s.worker.pending e)
  let key := markerKey e cfg.me
  let commit : Commit := ⟨merkleRoot jobs, jobs.length⟩
  if jobs = [] then (s, some false)
  else
    match c.deposit with
    | .raised => (s, none)
    | .refused stored => (if stored then s.putList (listKey e cfg.me) jobs else s, some false)
    | .taken =>
      let s := s.putList (listKey e cfg.me) jobs
      if s.lists (listKey e cfg.me) ≠ some jobs then (s, some false)
      else
        match c.answer with
        | .accepted => (s.send key commit true, some true)
        | .already => (s, some true)
        | .failed sent => (s.send key commit sent, some false)
        | .raised sent => (s.send key commit sent, none)

def Closing.willing (c : Closing) : Bool := decide (c.deposit = .taken ∧ c.answer = .accepted)

/-- An epoch is closed: its jobs are dropped if the marker is anchored. -/
def closeOne (c : Closing) (e : Nat) (s : System) : System × Bool :=
  let r := anchorMarker cfg c e { s with offered := Function.update s.offered e (s.offered e || c.willing) }
  match r.2 with
  | none => (r.1, true)
  | some false => (r.1, false)
  | some true =>
    ({ r.1 with worker := { r.1.worker with pending := Function.update r.1.worker.pending e [] } }, false)

/-- The epochs are closed one after another, up to one that raises. -/
def closeAll (ρ : Round) : List Nat → System → System × Bool
  | [], s => (s, false)
  | e :: es, s =>
    match closeOne cfg (ρ.closing e) e s with
    | (s, true) => (s, true)
    | (s, false) => closeAll ρ es s

/-- The epochs that a round at the epoch `e` closes. -/
def closable (w : Worker) (e : Nat) : List Nat :=
  if w.curEpoch = none ∨ w.curEpoch = some e then []
  else (List.range e).filter fun x => decide (w.pending x ≠ [])

/-- Tier 1 of a round, and whether it raised. -/
def epochTurn (ρ : Round) (s : System) : System × Bool :=
  if cfg.noMarker then (s, false)
  else
    match ρ.height with
    | none => (s, true)
    | some none => (s, false)
    | some (some h) =>
      match epochOf h cfg.epochBlocks with
      | none => (s, true)
      | some e =>
        match closeAll cfg ρ (closable s.worker e) s with
        | (s, true) => (s, true)
        | (s, false) => ({ s with worker := { s.worker with curEpoch := some e } }, false)

/-! ## The jobs -/

/-- `RECHECK_CAP_S` and `recheck_delay`. -/
def recheckDelay (attempt : Nat) (poll : Rat) : Rat := min 60 (max poll (1 / 2) * 2 ^ min attempt 16)

/-- The bookkeeping of a job is dropped. -/
def Worker.drop (w : Worker) (job : Str) : Worker :=
  { w with
    attempts := Function.update w.attempts job 0
    nextTry := Function.update w.nextTry job 0
    juries := Function.update w.juries job none }

/-- A job is filed under the current epoch. -/
def System.file (job : Str) (s : System) : System :=
  match s.worker.curEpoch with
  | none => { s with delivered := (job, none) :: s.delivered }
  | some e =>
    if cfg.noMarker then { s with delivered := (job, none) :: s.delivered }
    else
      { s with
        worker := { s.worker with pending := Function.update s.worker.pending e (job :: s.worker.pending e) }
        offered := Function.update s.offered e false
        delivered := (job, some e) :: s.delivered }

/-- A job of this miner that is disputed and was not revealed. -/
def owed (w : Worker) (r : Row) : Bool := Judge.isDisputed r.state && decide (r.primary = cfg.me) && !w.done r.job

/-- One row, and whether its job is one of `mine`. -/
def rowTurn (ρ : Round) (r : Row) (s : System) : System × Bool :=
  let w := s.worker
  if owed cfg w r = false then (s, false)
  else if Judge.safeJobId r.job = false then
    ({ s with worker := { w with done := Function.update w.done r.job true } }, false)
  else if ρ.clock r.job < w.nextTry r.job then (s, true)
  else
    let o := ρ.reveal r.job (w.juries r.job)
    let w := { w with juries := Function.update w.juries r.job (o.plan <|> w.juries r.job) }
    match o.action with
    | .revealed =>
      (System.file cfg r.job
        { s with worker := { w with done := Function.update w.done r.job true }.drop r.job }, true)
    | .incomplete | .unreadable => ({ s with worker := w }, true)
    | .held =>
      ({ s with
          worker :=
            { w with
              attempts := Function.update w.attempts r.job (w.attempts r.job + 1)
              nextTry := Function.update w.nextTry r.job
                (ρ.later r.job + recheckDelay (w.attempts r.job) cfg.poll) } }, true)

/-- The rows of a round, and `mine`. -/
def rowsTurn (ρ : Round) : List Row → System → System × List Str
  | [], s => (s, [])
  | r :: rows, s =>
    let t := rowTurn cfg ρ r s
    let u := rowsTurn ρ rows t.1
    (u.1, if t.2 then r.job :: u.2 else u.2)

/-- The bookkeeping of the jobs that left the set is dropped. -/
def Worker.keep (mine : List Str) (w : Worker) : Worker :=
  { w with
    attempts := fun j => if mine.contains j then w.attempts j else 0
    nextTry := fun j => if mine.contains j then w.nextTry j else 0
    juries := fun j => if mine.contains j then w.juries j else none }

/-! ## Runs -/

/-- A round of the loop. -/
def round (ρ : Round) (s : System) : System :=
  match epochTurn cfg ρ s with
  | (s, true) => s
  | (s, false) =>
    match ρ.rows with
    | none | some none => s
    | some (some rows) =>
      let t := rowsTurn cfg ρ rows s
      { t.1 with worker := t.1.worker.keep t.2 }

inductive Step
  | round (ρ : Round)
  | restart
  /-- A transaction that the chain accepted is executed; a key keeps its first commit. -/
  | executed (t : Str × Commit)
  /-- It fails, or is lost. -/
  | dropped (t : Str × Commit)

def System.step (s : System) : Step → Option System
  | .round ρ => some (round cfg ρ s)
  | .restart => some { s with worker := .fresh }
  | .executed t =>
    if t ∈ s.flight then
      some { s with
        flight := s.flight.erase t
        commits := if s.commits t.1 = none then Function.update s.commits t.1 (some t.2) else s.commits }
    else none
  | .dropped t => if t ∈ s.flight then some { s with flight := s.flight.erase t } else none

/-- Nothing was revealed. -/
def System.Init (s : System) : Prop :=
  s.worker = .fresh ∧ (∀ k, s.lists k = none) ∧ (∀ k, s.commits k = none) ∧ s.flight = [] ∧ (∀ e, s.offered e = false) ∧
    s.delivered = []

/-- `anchored_root` of a commit that is read. -/
def anchoredRoot (c : Option Commit) : Str := (c.map fun c => strip c.resultCommit).getD []

theorem lower_anchoredRoot (c : Commit) : lower (strip (anchoredRoot (some c))) ≠ [] := by
  show lower (strip (strip (Str.formatUint c.jobs))) ≠ []
  rw [strip_formatUint, strip_formatUint, lower, Ne, List.map_eq_nil_iff]
  exact Nat.toDigits_ne_nil

end Dendra.Reveal
