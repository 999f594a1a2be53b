import Mathlib
import Dendra.Lib.Str

/-!
# The judge's loop

A pass of `judge_worker.py` over the disputed audits that seat this judge.

* `observeTurn` (pass 1a): which audits are looked at, and their reveals opened.
* `absentTurn` (pass 1b): an audit without a usable reveal waits, abstains or is voted "0".
* `judgeTurn` (pass 2): a revealed audit is judged, unless its verdict was decided before, and the verdict posted.
* `pass`: the three in order. What a reveal holds is looked at before any audit is decided, outside the guard that
  each audit has in pass 2: `Value.usable` may raise, and then nothing is decided.

Everything the loop remembers is remembered for one audit (`Audit`). What the chain, the relay, the engine and the
clock answer about an audit in a pass is given (`Look`); a call of the first pass may raise too. Counters, traces
and texts are left out.
-/

namespace Dendra.Judge

/-! ## A reveal -/

/-- What `json.loads` gives; `null` is also the reveal that `open_reveal` could not open. Of a float only matters
whether it is zero. -/
inductive Value
  | null
  | bool (b : Bool)
  | int (n : Int)
  | float (zero : Bool)
  | str (s : Str)
  | arr (l : List Value)
  | obj (l : List (Str × Value))

namespace Value

/-- The truth value of a Python object. -/
def truthy : Value → Bool
  | null => false
  | bool b => b
  | int n => decide (n ≠ 0)
  | float zero => !zero
  | str s => !s.isEmpty
  | arr l => !l.isEmpty
  | obj l => !l.isEmpty

/-- The text is `"prompt"`. -/
def isPrompt : Value → Bool
  | str s => decide (s = "prompt".toList)
  | _ => false

/-- `"prompt" in v`, where it does not raise. -/
def hasPrompt : Value → Option Bool
  | str s => some (Str.contains s "prompt".toList)
  | arr l => some (l.any isPrompt)
  | obj l => some (l.any fun e => decide (e.1 = "prompt".toList))
  | _ => none

/-- `v and "prompt" in v`, where it does not raise. -/
def usable (v : Value) : Option Bool := if v.truthy then v.hasPrompt else some false

/-- The last value of a key. -/
def field (name : Str) : Value → Option Value
  | obj l => (l.reverse.find? fun e => decide (e.1 = name)).map Prod.snd
  | _ => none

def isText : Option Value → Bool
  | some (str _) => true
  | _ => false

/-- The shape that `judge_revealed` asks for. -/
def wellShaped (v : Value) : Bool := isText (v.field "answer".toList) && isText (v.field "prompt".toList)

end Value

/-! ## What is read -/

/-- The flags of the process. -/
structure Flags where
  noRevealAbstain : Bool
  twoStage : Bool
  abstainVote : Bool
  revealGrace : Int
  abandonAfter : Rat
  retryPause : Rat

/-- A row of `list-job`. -/
structure Row where
  job : Str
  state : Str
  primary : Str
  disputeHeight : Int

/-- What `list-job` answers. The chain keeps its jobs by their id. -/
structure Listing where
  rows : List Row
  nodup : (rows.map Row.job).Nodup

/-- `seat_reading`. -/
inductive Seat
  | seated | notSeated | noJury | unknown
  deriving DecidableEq

/-- `verdict_post_outcome`, or the call raises. -/
inductive Outcome
  | anchored | alreadySet | refused | unconfirmed | raised
  deriving DecidableEq

/-- How the judgment of an audit ends. A vote is `true` for "1". -/
inductive Judged
  /-- The memory guard does not let it begin. -/
  | closed
  | abstains (stage : Str)
  | verdict (vote : Bool)
  | raised

/-- What is answered about one audit in a pass. `owns` and `ownsLater` say whether this judge's verdict is read on
chain, before the vote on an absent reveal and before the judgment. -/
structure Look where
  now : Rat
  seat : Seat
  reveal : Value
  marker : Option Bool
  hasMarker : Bool
  owns : Bool
  zero : Outcome
  ownsLater : Bool
  /-- May the benefit of the doubt be given? -/
  judged : Bool → Judged
  post : Outcome
  later : Rat

/-! ## What is remembered -/

/-- What the process keeps about an audit, in `done`, `miss`, `first_seen`, `next_try`, `abstained`, `seat_of`,
`tries`, `decided` and `agreed_refs`. -/
structure Audit where
  done : Bool
  miss : Nat
  firstSeen : Option Rat
  nextTry : Rat
  abstained : Bool
  seat : Option Seat
  tries : Nat
  decided : Option Bool
  agreedRefs : Bool

def Audit.fresh : Audit := ⟨false, 0, none, 0, false, none, 0, none, false⟩

/-- What the process does about an audit. -/
inductive Event
  | judged (job : Str)
  | decided (job : Str) (vote : Bool)
  /-- A `create-commit` of the verdict. -/
  | sent (job : Str) (vote : Bool)
  deriving DecidableEq

def Event.job : Event → Str
  | judged j => j
  | decided j _ => j
  | sent j _ => j

/-- What is done about one audit in its turn: `kept` hands it on, `stop` ends the pass. -/
structure Turn where
  audit : Audit
  events : List Event
  kept : Bool
  stop : Bool

/-! ## The three turns -/

/-- `is_disputed`. -/
def isDisputed (state : Str) : Bool :=
  Str.contains state "+disputed".toList && !Str.contains state "+resolved".toList

/-- A letter or a digit of ASCII. -/
def isAlnum (c : Char) : Bool := c.isAlphanum

/-- A character of `_JOB_ID_RE` after the first. -/
def isIdChar (c : Char) : Bool := isAlnum c || c == '.' || c == '_' || c == ':' || c == '-'

/-- The expression of `_JOB_ID_RE`, up to its `$`. -/
def matchesId : Str → Bool
  | [] => false
  | c :: cs => isAlnum c && cs.all isIdChar && decide (cs.length ≤ 127)

/-- `safe_job_id`. The `$` also stands before a line feed that ends the text. -/
def safeJobId (s : Str) : Bool :=
  matchesId s || (s.getLast? == some '\n' && matchesId s.dropLast)

/-- `retry_delay`. -/
def retryDelay (attempt : Nat) (base : Rat) : Rat := min 1800 (base * 2 ^ min 20 (attempt - 1))

/-- An attempt without a judgment. -/
def Audit.retry (f : Flags) (now : Rat) (a : Audit) : Audit :=
  { a with tries := a.tries + 1, nextTry := now + retryDelay (a.tries + 1) f.retryPause }

/-- Pass 1a on one row. -/
def observeTurn (f : Flags) (me : Str) (look : Str → Look) (r : Row) (a : Audit) : Turn :=
  let l := look r.job
  if !isDisputed r.state || a.done || r.primary = me then ⟨a, [], false, false⟩
  else if !safeJobId r.job then ⟨{ a with done := true }, [], false, false⟩
  else if l.now < a.nextTry then ⟨a, [], false, false⟩
  else
    let seat := a.seat.getD l.seat
    let a := if seat = .seated ∨ seat = .notSeated then { a with seat := some seat } else a
    match seat with
    | .notSeated => ⟨{ a with done := true }, [], false, false⟩
    | .noJury => ⟨a.retry f l.now, [], false, false⟩
    | _ => ⟨{ a with firstSeen := some (a.firstSeen.getD l.now) }, [], true, false⟩

/-- `noreveal_action`. -/
inductive Action
  | wait
  | giveUp
  | retry (delay : Rat)

def noRevealAction (f : Flags) (now firstSeen : Rat) (misses : Nat) : Action :=
  if (misses : Int) < f.revealGrace then .wait
  else if f.abandonAfter ≠ 0 ∧ f.abandonAfter ≤ now - firstSeen then .giveUp
  else .retry (min 600 (30 * 2 ^ min 20 (misses - f.revealGrace).toNat))

/-- What the correlation of a pass knows: the audits looked at, by primary, and whether the reveal is usable, and
whether a primary without a usable reveal has a marker. -/
structure Stats where
  reveals : List (Str × Bool)
  anyMarker : Bool

def Stats.count (st : Stats) (p : Str → Bool) (ok : Bool) : Nat :=
  st.reveals.countP fun e => p e.1 && (e.2 == ok)

/-- `noreveal_verdict`: is the vote "0"? -/
def noRevealVerdict (marker : Option Bool) (othersOk othersMissing mine : Nat) : Bool :=
  if marker = some false then true
  else if othersOk + othersMissing < 2 then false
  else if othersMissing ≠ 0 ∧ othersOk = 0 then false
  else decide (2 ≤ othersOk ∧ 0 < mine)

/-- The vote on an absent reveal when the two stages are armed. -/
def twoStageVote (st : Stats) (l : Look) (primary : Str) : Bool :=
  noRevealVerdict (if st.anyMarker then l.marker else none)
    (st.count (fun p => !decide (p = primary)) true) (st.count (fun p => !decide (p = primary)) false)
    (st.count (fun p => decide (p = primary)) false)

/-- What pass 1b does about an absent reveal; `misses` counts this one. -/
inductive Absent
  | wait
  | giveUp
  | abstain (delay : Rat)
  /-- The vote is "0"; `delay` where a next attempt was planned. -/
  | vote (delay : Option Rat)

def absent (f : Flags) (st : Stats) (l : Look) (primary : Str) (firstSeen : Rat) (misses : Nat) : Absent :=
  if f.noRevealAbstain then
    match noRevealAction f l.now firstSeen misses with
    | .wait => .wait
    | .giveUp => .giveUp
    | .retry delay => if f.twoStage && twoStageVote st l primary then .vote (some delay) else .abstain delay
  else .vote none

/-- Pass 1b on one row. -/
def absentTurn (f : Flags) (look : Str → Look) (st : Stats) (r : Row) (a : Audit) : Turn :=
  let l := look r.job
  if l.reveal.usable = some true then
    ⟨{ a with abstained := false, miss := 0, nextTry := 0 }, [], true, false⟩
  else
    let a := { a with miss := a.miss + 1 }
    match absent f st l r.primary (a.firstSeen.getD l.now) a.miss with
    | .wait => ⟨a, [], false, false⟩
    | .giveUp => ⟨{ a with done := true }, [], false, false⟩
    | .abstain delay => ⟨{ a with nextTry := l.now + delay, abstained := true }, [], false, false⟩
    | .vote delay =>
      let a := { a with nextTry := delay.elim a.nextTry (l.now + ·) }
      if l.owns then ⟨{ a with done := true }, [], false, false⟩
      else
        ⟨{ a with done := a.done || decide (l.zero = .anchored ∨ l.zero = .alreadySet) },
          [.decided r.job false, .sent r.job false], false, decide (l.zero = .raised)⟩

/-- `RETRY_STAGES`. -/
def retryStages : List Str :=
  ["judge-error".toList, "gen-fail".toList, "request-unreadable".toList, "anchor-unreadable".toList,
    "sc-unreadable".toList, "multiok-unreadable".toList, "legacy-unreadable".toList, "prompt-unreadable".toList,
    "memory-guard".toList, "memory-settings".toList, "judge-engine-unread".toList]

/-- `AGREED_REFS_STAGES`. -/
def agreedRefsStages : List Str := ["sc-unreadable".toList, "multiok-unreadable".toList]

/-- `judge_revealed`, which looks at the shape first. -/
def judgeRevealed (f : Flags) (l : Look) (a : Audit) : Judged :=
  match l.judged (f.abstainVote && !a.agreedRefs) with
  | .closed => .closed
  | j => if l.reveal.wellShaped then j else .abstains "reveal-shape".toList

/-- The verdict is posted. -/
def postTurn (f : Flags) (l : Look) (job : Str) (v : Bool) (events : List Event) (a : Audit) : Turn :=
  if l.post = .anchored ∨ l.post = .alreadySet then
    ⟨{ a with decided := none, done := true }, events ++ [.sent job v], false, false⟩
  else ⟨a.retry f l.later, events ++ [.sent job v], false, false⟩

/-- Pass 2 on one row. -/
def judgeTurn (f : Flags) (look : Str → Look) (r : Row) (a : Audit) : Turn :=
  let l := look r.job
  if l.ownsLater then ⟨{ a with decided := none, done := true }, [], false, false⟩
  else
    match a.decided with
    | some v => postTurn f l r.job v [] a
    | none =>
      match judgeRevealed f l a with
      | .closed => ⟨a.retry f l.later, [], false, false⟩
      | .raised => ⟨a.retry f l.later, [.judged r.job], false, false⟩
      | .abstains stage =>
        let a := if agreedRefsStages.contains stage then { a with agreedRefs := true } else a
        if retryStages.contains stage then ⟨a.retry f l.later, [.judged r.job], false, false⟩
        else ⟨{ a with done := true }, [.judged r.job], false, false⟩
      | .verdict v =>
        postTurn f l r.job v [.judged r.job, .decided r.job v] { a with decided := some v }

/-! ## A pass -/

/-- What a sweep over rows leaves. -/
structure Swept where
  audits : Str → Audit
  events : List Event
  kept : List Row
  stopped : Bool

def sweep (g : Row → Audit → Turn) : List Row → (Str → Audit) → Swept
  | [], s => ⟨s, [], [], false⟩
  | r :: rows, s =>
    let t := g r (s r.job)
    let s := Function.update s r.job t.audit
    if t.stop then ⟨s, t.events, [], true⟩
    else
      let w := sweep g rows s
      ⟨w.audits, t.events ++ w.events, if t.kept then r :: w.kept else w.kept, w.stopped⟩

/-- What is answered in a pass; an unreadable list is no list. -/
structure Env where
  listing : Option Listing
  look : Str → Look

def revealed (env : Env) (r : Row) : Bool := (env.look r.job).reveal.usable == some true

/-- `marker_cache`: has a primary a marker, of those without a usable reveal? Each is asked once. -/
def anyMarker (env : Env) : List Row → List Str → Bool
  | [], _ => false
  | r :: rows, asked =>
    if asked.contains r.primary || revealed env r then anyMarker env rows asked
    else (env.look r.job).hasMarker || anyMarker env rows (r.primary :: asked)

/-- What the loop over `observed` counts. -/
def stats (env : Env) (observed : List Row) : Stats where
  reveals := observed.map fun r => (r.primary, revealed env r)
  anyMarker := anyMarker env observed []

/-- The order of pass 2: the oldest dispute first, an unknown height last. -/
def older (r r' : Row) : Bool :=
  if decide (r.disputeHeight ≤ 0) = decide (r'.disputeHeight ≤ 0) then decide (r.disputeHeight ≤ r'.disputeHeight)
  else decide (0 < r.disputeHeight)

/-- What a pass leaves and does, and whether it raised. -/
structure Passed where
  audits : Str → Audit
  events : List Event
  raised : Bool

/-- The audits whose reveals are opened. -/
def observed (f : Flags) (me : Str) (env : Env) (s : Str → Audit) : List Row :=
  match env.listing with
  | none => []
  | some l => (sweep (observeTurn f me env.look) l.rows s).kept

def pass (f : Flags) (me : Str) (env : Env) (s : Str → Audit) : Passed :=
  match env.listing with
  | none => ⟨s, [], false⟩
  | some l =>
    let one := sweep (observeTurn f me env.look) l.rows s
    if one.kept.any fun r => (env.look r.job).reveal.usable == none then ⟨one.audits, [], true⟩
    else
      let triage := sweep (absentTurn f env.look (stats env one.kept)) one.kept one.audits
      if triage.stopped then ⟨triage.audits, triage.events, true⟩
      else
        let two := sweep (judgeTurn f env.look) (triage.kept.mergeSort older) triage.audits
        ⟨two.audits, triage.events ++ two.events, false⟩

end Dendra.Judge
