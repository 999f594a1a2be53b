import Dendra.Lib.Ordered
import Dendra.Lib.Run
import Dendra.Lib.Str

/-!
# The owner's alerts

`chain/cmd/dendra-alert`: one pass compares what the checks found with the alerts on record, posts the differences
and saves the record (`reconcile`, `cmdRun`).

What a check reads is its own: here a check is what it found. A message is its parts; its delivery is told for
each attempt of a pass.
-/

namespace Dendra.Alert

structure Finding where
  key : Str
  fingerprint : Str
  text : Str
  read : Str
  deriving DecidableEq

/-- `checkResult`. `err` is the text of the error, as `clean` leaves it. -/
structure CheckResult where
  findings : List Finding
  note : Str
  err : Option Str

/-- `alertRecord`. -/
structure Record where
  check : Str
  fingerprint : Str
  since : Int
  lastSent : Int
  deriving DecidableEq

/-- `alertState`, without what the blocks check keeps for itself. -/
structure State where
  unknown : Ordered Str Nat
  alerts : Ordered Str Record

def newState : State := ⟨.empty, .empty⟩

structure Config where
  unknownN : Nat
  repeatH : Int

def Config.default : Config := ⟨3, 12⟩

inductive Prefix
  | firing | changed | stillFiring
  deriving DecidableEq

inductive Message
  | alert (pre : Prefix) (key text read : Str)
  | resolved (key note : Str)
  deriving DecidableEq

def Message.key : Message → Str
  | .alert _ key _ _ => key
  | .resolved key _ => key

/-! ## A pass -/

/-- What a pass carries: the state, the messages delivered so far, the deliveries tried and whether one failed. -/
structure Pass where
  unknown : Ordered Str Nat
  alerts : Ordered Str Record
  sent : List Message
  tries : Nat
  failed : Bool

/-- What a pass takes from outside: the settings, the clock and the fate of each delivery. -/
structure World where
  cfg : Config
  now : Int
  send : Nat → Bool

def post (w : World) (m : Message) (p : Pass) : Bool × Pass :=
  if w.send p.tries then (true, { p with sent := p.sent ++ [m], tries := p.tries + 1 })
  else (false, { p with tries := p.tries + 1, failed := true })

/-- Whether there is something to say, and what. -/
def prefixOf (w : World) (known : Option Record) (f : Finding) : Option Prefix :=
  match known with
  | none => some .firing
  | some r =>
    if r.fingerprint ≠ f.fingerprint then some .changed
    else if w.now - r.lastSent ≥ w.cfg.repeatH * 3600 then some .stillFiring
    else none

/-- The record of a finding that was posted. -/
def recordOf (w : World) (name : Str) (known : Option Record) (f : Finding) : Record :=
  { known.getD ⟨name, [], w.now, 0⟩ with fingerprint := f.fingerprint, lastSent := w.now }

/-- One firing condition. -/
def tell (w : World) (name : Str) (p : Pass) (f : Finding) : Pass :=
  let known := p.alerts.get? f.key
  match prefixOf w known f with
  | none => p
  | some pre =>
    let (ok, p) := post w (.alert pre f.key f.text f.read) p
    if ok then { p with alerts := p.alerts.set f.key (recordOf w name known f) } else p

/-- One condition that ended. -/
def resolve (w : World) (note : Str) (p : Pass) (key : Str) : Pass :=
  let (ok, p) := post w (.resolved key note) p
  if ok then { p with alerts := p.alerts.pop key } else p

/-- The findings by key, in the order of the keys; of two with one key, the last. -/
def byKey (findings : List Finding) : List Finding :=
  ((Ordered.ofList (findings.map fun f => (f.key, f))).items.insertionSort fun e f => e.1 ≤ f.1).map Prod.snd

def unreadable (name : Str) (n : Nat) (err : Str) : Finding where
  key := name ++ "-unreadable".toList
  fingerprint := "unreadable".toList
  text := "The ".toList ++ name ++ " check could not read its source for ".toList ++ Str.formatUint n ++
    " passes in a row: ".toList ++ err
  read := "dendra-alert status".toList

/-- `firstNonEmpty`. -/
def firstNonEmpty (a b : Str) : Str := if a ≠ [] then a else b

/-- The alerts that a check raised and that no longer fire. -/
def ended (alerts : Ordered Str Record) (name : Str) (firing : List Finding) : List Str :=
  ((alerts.items.filter fun e => decide (e.2.check = name ∧ e.1 ∉ firing.map Finding.key)).map Prod.fst).insertionSort
    (· ≤ ·)

/-- One check of a pass. -/
def checkOne (w : World) (p : Pass) (nr : Str × CheckResult) : Pass :=
  let (name, r) := nr
  match r.err with
  | some err =>
    let n := (p.unknown.get? name).getD 0 + 1
    let p := { p with unknown := p.unknown.set name n }
    if n ≥ w.cfg.unknownN then tell w name p (unreadable name n err) else p
  | none =>
    let p := { p with unknown := p.unknown.set name 0 }
    let firing := byKey r.findings
    let p := firing.foldl (tell w name) p
    (ended p.alerts name firing).foldl (resolve w (firstNonEmpty r.note "read ok".toList)) p

/-- `reconcile`. The records of a check that is left out go without a message. -/
def reconcile (w : World) (s : State) (results : List (Str × CheckResult)) : Pass :=
  let p := results.foldl (checkOne w) ⟨s.unknown, s.alerts, [], 0, false⟩
  { p with alerts := p.alerts.filter fun _ r => (results.map Prod.fst).contains r.check }

/-! ## Runs -/

/-- The state on disk, and the messages the channel got, with the clock of their pass. -/
structure System where
  disk : State
  log : List (Int × Message)

/-- A pass of `cmdRun`. The state is saved in one rename, or not at all. -/
structure Run where
  world : World
  results : List (Str × CheckResult)
  saved : Bool

def cmdRun (s : System) (r : Run) : System :=
  let p := reconcile r.world s.disk r.results
  ⟨if r.saved then ⟨p.unknown, p.alerts⟩ else s.disk, s.log ++ p.sent.map fun m => (r.world.now, m)⟩

/-- The first pass finds no state. -/
def Init (s : System) : Prop := s = ⟨newState, []⟩

def Step (s : System) (r : Run) (s' : System) : Prop := cmdRun s r = s'

end Dendra.Alert
