import Dendra.Lib.Ordered
import Dendra.Lib.Run
import Dendra.Lib.Str

/-!
# The free tier of the gateway

`_QUOTA` counts the tokens of a day, over all keys and for each key, and is written to `QUOTA_FILE` whole. A
job is debited its estimate before it runs (`reserve`) and settled at what it used (`settle`). An estimate that
no escrow bounds stands in `open` until its settlement is on disk: a start that finds one there cannot tell what
was spent, and charges the caps (`chargeOpenAtCap`).

* `Gate`: the counters, the file and the jobs of the day; `Gate.step`: a reservation, a settlement, midnight, a
  crash. Each save of the file can fail.
* `Gate.used`: what the jobs of the day stand for, in all or for one key.

A write of the file is atomic, and the file is configured, as `main` demands of a gateway that others reach.
-/

namespace Dendra.Gateway

/-- `FREE_TOK_DAY`, `FREE_TOK_IP` and `OUT_ALLOW`. -/
structure Config where
  freeTokDay : Nat
  freeTokIp : Nat
  outAllow : Nat

/-- `_QUOTA`. No day is the `""` of a fresh process. -/
structure Quota where
  day : Option Nat
  glob : Int
  ip : Ordered Str Int
  opened : Ordered Str Int

/-- `d.get(key, 0)`. -/
def tokens (d : Ordered Str Int) (key : Str) : Int := (d.get? key).getD 0

/-- `d[key] = d.get(key, 0) + n`. -/
def addTokens (d : Ordered Str Int) (key : Str) (n : Int) : Ordered Str Int :=
  d.set key (tokens d key + n)

/-- `d[key] -= n`, and the entry goes when nothing is left of it. -/
def takeTokens (d : Ordered Str Int) (key : Str) (n : Int) : Ordered Str Int :=
  if tokens d key - n ≤ 0 then d.pop key else d.set key (tokens d key - n)

/-- The counters in memory and the file, if there is one. -/
structure Store where
  mem : Quota
  file : Option Quota

/-! ## The file -/

/-- `_quota_save`, and whether it could write. -/
def save (written : Bool) (s : Store) : Bool × Store :=
  (written, if written then { s with file := some s.mem } else s)

/-- `_quota_roll`. -/
def roll (today : Nat) (written : Bool) (s : Store) : Store :=
  if s.mem.day ≠ some today then (save written { s with mem := ⟨some today, 0, .empty, .empty⟩ }).2 else s

/-- `_open_valid`, of a map that JSON has read as one of integers. -/
def openValid (opened : Ordered Str Int) : Bool := opened.items.all fun e => decide (0 ≤ e.2)

/-- `_charge_open_at_cap`. -/
def chargeOpenAtCap (conf : Config) (today : Nat) (q : Quota) : Quota :=
  let pending := q.opened.items.filter fun e => decide (0 < e.2)
  if pending ≠ [] ∧ q.day = some today then
    { q with
      glob := max q.glob conf.freeTokDay
      ip := pending.foldl (fun ip e => ip.set e.1 (max (tokens ip e.1) conf.freeTokIp)) q.ip
      opened := .empty }
  else { q with opened := .empty }

/-- `_quota_load`, in a process that has just started. -/
def load (conf : Config) (today : Nat) : Option Quota → Quota
  | none => ⟨none, 0, .empty, .empty⟩
  | some stored =>
    if openValid stored.opened then chargeOpenAtCap conf today stored
    else ⟨some today, conf.freeTokDay, .empty, .empty⟩

/-! ## Reservations and settlements -/

inductive Reply
  | ok
  | globalReached
  | keyReached
  | unsaved
  deriving DecidableEq

/-- The counters with a reservation in them. -/
def Quota.debit (q : Quota) (key : Str) (est : Int) (ceiling : Bool) : Quota :=
  { q with
    glob := q.glob + est
    ip := addTokens q.ip key est
    opened := if ceiling then q.opened else addTokens q.opened key est }

/-- A reservation taken back. -/
def Quota.credit (q : Quota) (key : Str) (est : Int) (ceiling : Bool) : Quota :=
  { q with
    glob := q.glob - est
    ip := takeTokens q.ip key est
    opened := if ceiling then q.opened else takeTokens q.opened key est }

/-- `quota_reserve`. `rolled` and `saved` say whether its two saves succeed. -/
def reserve (conf : Config) (today : Nat) (rolled saved : Bool) (key : Str) (est : Int) (ceiling : Bool)
    (s : Store) : Reply × Store :=
  let s := roll today rolled s
  if conf.freeTokDay < s.mem.glob + est then (.globalReached, s)
  else if conf.freeTokIp < tokens s.mem.ip key + est then (.keyReached, s)
  else
    let (written, s) := save saved { s with mem := s.mem.debit key est ceiling }
    if written then (.ok, s)
    else (.unsaved, { s with mem := s.mem.credit key est ceiling })

/-- The counters after the estimate of a job is replaced by what it used. -/
def Quota.replace (q : Quota) (key : Str) (est real : Int) (ceiling : Bool) : Quota :=
  let delta := real - est
  { q with
    glob := max 0 (q.glob + delta)
    ip := q.ip.set key (max 0 (tokens q.ip key + delta))
    opened := if !ceiling && q.opened.has key then takeTokens q.opened key est else q.opened }

/-- `quota_settle`. -/
def settle (today : Nat) (rolled saved : Bool) (key : Str) (est real : Int) (ceiling : Bool) (s : Store) :
    Store :=
  let real := if ceiling then min real est else real
  let s := roll today rolled s
  (save saved { s with mem := s.mem.replace key est real ceiling }).2

/-- The estimate of `run_dendra`: the prompt at four characters a token, and the output allowance. -/
def estimate (conf : Config) (prompt : Str) : Nat := max 1 (prompt.length / 4) + conf.outAllow

theorem estimate_pos (conf : Config) (prompt : Str) : 0 < estimate conf prompt :=
  Nat.lt_of_lt_of_le (Nat.lt_of_lt_of_le Nat.one_pos (Nat.le_max_left _ _)) (Nat.le_add_right _ _)

/-- A job that was admitted. -/
structure Job where
  key : Str
  est : Nat
  ceiling : Bool
  pos : 0 < est

/-- What a job used. The escrow bounds it by the estimate where that is a ceiling. -/
def Job.consumed (j : Job) (real : Nat) : Int := if j.ceiling then min (real : Int) j.est else real

/-! ## Runs -/

/-- A gateway. `older` are the open jobs that were reserved on an earlier day; the other lists are about the
current day: `live` jobs are open, `lost` ones were when the process died, `settled` ones come with their
tokens. No save has succeeded since the jobs of `unsaved`, which no escrow bounds, were settled; `forgotten`
are those of which this was so at a crash. -/
structure Gate where
  store : Store
  today : Nat
  live : List Job
  older : List Job
  lost : List Job
  settled : List (Job × Nat)
  unsaved : List Job
  forgotten : List Job

inductive Event
  | reserve (key prompt : Str) (ceiling rolled saved : Bool)
  /-- Job `i` of today, settled today. -/
  | settle (i real : Nat) (rolled saved : Bool)
  /-- Job `i` of an earlier day. -/
  | settleLate (i real : Nat) (rolled saved : Bool)
  | newDay (day : Nat)
  /-- The process dies and is started again. -/
  | crash

namespace Gate

/-- The gateway after a job was settled. -/
def afterSettle (g : Gate) (j : Job) (real : Nat) (rolled saved : Bool) : Gate :=
  { g with
    store := Gateway.settle g.today rolled saved j.key j.est real j.ceiling g.store
    settled := (j, real) :: g.settled
    unsaved := if saved then [] else if j.ceiling then g.unsaved else j :: g.unsaved }

def step (conf : Config) (g : Gate) : Event → Option Gate
  | .reserve key prompt ceiling rolled saved =>
    let j : Job := ⟨key, estimate conf prompt, ceiling, estimate_pos conf prompt⟩
    match Gateway.reserve conf g.today rolled saved j.key j.est j.ceiling g.store with
    | (.ok, store) => some { g with store := store, live := j :: g.live, unsaved := [] }
    | (_, store) => some { g with store := store }
  | .settle i real rolled saved =>
    (g.live[i]?).map fun j => { g.afterSettle j real rolled saved with live := g.live.eraseIdx i }
  | .settleLate i real rolled saved =>
    (g.older[i]?).map fun j => { g.afterSettle j real rolled saved with older := g.older.eraseIdx i }
  | .newDay day =>
    if g.today < day then
      some ⟨g.store, day, [], g.live ++ g.older, [], [], [], []⟩
    else none
  | .crash =>
    some { g with
      store := { g.store with mem := load conf g.today g.store.file }
      live := []
      older := []
      lost := g.live ++ g.lost
      unsaved := []
      forgotten := g.unsaved ++ g.forgotten }

/-- A gateway that starts for the first time. -/
def Init (g : Gate) : Prop :=
  ∃ today, g = ⟨⟨⟨none, 0, .empty, .empty⟩, none⟩, today, [], [], [], [], [], []⟩

end Gate

/-! ## What is counted -/

/-- The counter of all keys, or that of one. -/
abbrev Scope : Type := Option Str

def Scope.has : Scope → Str → Bool
  | none, _ => true
  | some k, key => decide (key = k)

def Scope.cap (conf : Config) : Scope → Int
  | none => conf.freeTokDay
  | some _ => conf.freeTokIp

namespace Quota

def count (q : Quota) : Scope → Int
  | none => q.glob
  | some k => tokens q.ip k

end Quota

/-- The estimates of the jobs in scope. -/
def estimates (sc : Scope) (l : List Job) : Int :=
  (l.map fun j => if sc.has j.key then (j.est : Int) else 0).sum

/-- What the settled jobs in scope used. -/
def consumption (sc : Scope) (l : List (Job × Nat)) : Int :=
  (l.map fun p => if sc.has p.1.key then p.1.consumed p.2 else 0).sum

namespace Gate

/-- What the jobs of the day used, with the estimate where they are open. -/
def used (g : Gate) (sc : Scope) : Int :=
  estimates sc g.live + estimates sc g.lost + consumption sc g.settled

/-- The counter of the day, as the next call reads it. -/
def count (g : Gate) (sc : Scope) : Int :=
  if g.store.mem.day = some g.today then g.store.mem.count sc else 0

end Gate

end Dendra.Gateway
