import Dendra.Lib.Ordered
import Dendra.Lib.Run
import Dendra.Lib.Str

/-!
# The capacity registry

`services/capacity_server.py`: the store of reports, its two namespaces, what a deposit does to it
(`do_POST`), and the allowances a deposit draws from (`_rate_ok`).

A report is what `_clean` keeps of a body, with the miner that its signature proves and the order it was signed
at. Its hardware fields are left out: nothing here reads them. The clock is read anew at each place the code
reads it.
-/

namespace Dendra.Capacity

/-! ## Reports -/

/-- `JUDGE_ROLES`. -/
inductive JudgeRole
  | active | mute | off | unknown
  deriving DecidableEq

/-- A stored report. `signed` is absent from one that is not signed, or that an older server wrote. -/
structure Report where
  nodeId : Str
  minerIds : List Str
  machine : Str
  kitVersion : Nat
  judgeRole : JudgeRole
  ts : Int
  /-- `_proven` -/
  proven : Str
  /-- `_signed_height` and `_signed_sequence` -/
  signed : Option (Nat × Nat)
  deriving DecidableEq

abbrev Store : Type := Ordered Str Report

/-- `STALE_S` and `PURGE_S`, in seconds. -/
structure Config where
  staleS : Int
  purgeS : Int

def Config.default : Config := ⟨24 * 3600, 7 * 24 * 3600⟩

def declaredMax : Nat := 2000

/-- `_is_stale`. -/
def isStale (c : Config) (r : Report) (now : Rat) : Bool := decide (now - r.ts > c.staleS)

/-! ## Keys -/

def keyProven : Str := ['s', 'i', 'g', 'n', 'e', 'd', ':', ':']

def keyDeclared : Str := ['d', 'e', 'c', 'l', ':', ':']

/-- `_KEY_PROVEN_BEFORE_2026_10_10`. -/
def keyProvenBefore : Str := ['s', 'i', 'g', 'n', 'e', ':', ':']

/-- `x or "?"`. -/
def orUnknown (s : Str) : Str := if s = [] then ['?'] else s

/-- `_declared_tail`. -/
def declaredTail (r : Report) : Str := orUnknown r.machine ++ [':', ':'] ++ orUnknown r.nodeId

def storageKey (r : Report) : Str :=
  if r.proven ≠ [] then keyProven ++ r.proven else keyDeclared ++ declaredTail r

def supersededKeys (r : Report) : List Str :=
  let old := declaredTail r
  if keyProven.isPrefixOf old || keyDeclared.isPrefixOf old || keyProvenBefore.isPrefixOf old then [] else [old]

/-- One record under the older prefix, moved. -/
def migrateOne (d : Store) (old : Str) : Store :=
  match d.get? old with
  | none => d
  | some rec =>
    let d := d.pop old
    let key := keyProven ++ old.drop keyProvenBefore.length
    match d.get? key with
    | none => d.set key rec
    | some cur => if rec.ts > cur.ts then d.set key rec else d

/-- `_migrate_proven_prefix`, at each `_load`. -/
def migrateProvenPrefix (d : Store) : Store :=
  (d.keys.filter keyProvenBefore.isPrefixOf).foldl migrateOne d

/-! ## A deposit -/

/-- The order of two signed orders: the height first. -/
def before (o p : Nat × Nat) : Bool := decide (o.1 < p.1 ∨ o.1 = p.1 ∧ o.2 < p.2)

def olderThanStored (c : Config) (prev : Option Report) (mid : Str) (order : Nat × Nat) (now : Rat) : Bool :=
  match prev with
  | none => false
  | some p =>
    if p.proven ≠ mid || isStale c p now then false
    else
      match p.signed with
      | none => false
      | some o => before order o

/-- The order in which declared entries leave: the oldest first, then by key. -/
def leavesFirst (e f : Str × Report) : Prop := e.2.ts < f.2.ts ∨ e.2.ts = f.2.ts ∧ e.1 ≤ f.1

instance : DecidableRel leavesFirst := fun _ _ => inferInstanceAs (Decidable (_ ∨ _))

def isDeclared (k : Str) : Bool := keyDeclared.isPrefixOf k

/-- The declared entries that leave. -/
def evicted (d : Store) (keep : Str) : List (Str × Report) :=
  let declared := d.items.filter fun e => isDeclared e.1
  ((declared.filter fun e => decide (e.1 ≠ keep)).insertionSort leavesFirst).take (declared.length - declaredMax)

def capDeclared (d : Store) (keep : Str) : Store := (evicted d keep).foldl (fun d e => d.pop e.1) d

/-- The clock where the deposit compares and where it purges, and whether the file can be read and written. -/
structure Turn where
  now : Rat
  cut : Rat
  reads : Bool
  writes : Bool

inductive Answer
  | ok | older | unavailable | rateLimited | tooLarge | badJson | noNodeId | orderUnreadable
  deriving DecidableEq

/-- What the store becomes when the report is written. -/
def written (c : Config) (t : Turn) (r : Report) (d : Store) : Store :=
  let d := (supersededKeys r).foldl (fun d k => d.pop k) (migrateProvenPrefix d)
  let d := d.set (storageKey r) r
  capDeclared (d.filter fun _ v => decide (t.cut - c.purgeS ≤ v.ts)) (storageKey r)

/-- What `do_POST` does under the lock. -/
def deposit (c : Config) (t : Turn) (r : Report) (d : Store) : Answer × Store :=
  let prev := (migrateProvenPrefix d).get? (storageKey r)
  if t.reads = false then (.unavailable, d)
  else if r.proven ≠ [] ∧ olderThanStored c prev r.proven (r.signed.getD (0, 0)) t.now = true then (.older, d)
  else if t.writes = false then (.unavailable, d)
  else (.ok, written c t r d)

/-! ## The allowances -/

def rateN : Nat := 30

def rateSignedN : Nat := 10

def rateW : Rat := 60

abbrev Rates : Type := Ordered Str (List Rat)

/-- Whether a table keeps the calls of a key: the last of them is in the window. -/
def alive (now : Rat) (calls : List Rat) : Bool :=
  match calls.getLast? with
  | none => false
  | some last => decide (now - last ≤ rateW)

/-- `_rate_ok`. -/
def rateOk (key : Str) (limit : Nat) (now : Rat) (t : Rates) : Bool × Rates :=
  let t := t.filter fun k calls => decide (k = key) || alive now calls
  let calls := ((t.get? key).getD []).dropWhile fun at' => decide (now - at' > rateW)
  if limit ≤ calls.length then (false, t.set key calls) else (true, t.set key (calls ++ [now]))

/-- A call that is charged to a key only on a condition. -/
def allow (charged : Bool) (key : Str) (limit : Nat) (now : Rat) (t : Rates) : Bool × Rates :=
  if charged then rateOk key limit now t else (true, t)

/-! ## A request -/

/-- What the body of a request reads as: a report as `_clean` leaves it, dated by its own reading of the clock. -/
inductive Body
  | tooLarge | badJson | noNodeId
  | report (nodeId : Str) (minerIds : List Str) (machine : Str) (kitVersion : Nat) (judgeRole : JudgeRole) (ts : Int)

structure Request where
  ip : Str
  /-- `_carries_signature` -/
  signedAttempt : Bool
  body : Body
  /-- `_proven_miner_of` -/
  proven : Str
  /-- `_signed_order` -/
  order : Option (Nat × Nat)
  /-- the clock at the allowance -/
  rateAt : Rat
  turn : Turn

structure State where
  store : Store
  rate : Rates
  rateSigned : Rates

/-- The allowance of a signed report: one for each identity and order. -/
def signedKey (proven : Str) (order : Nat × Nat) : Str :=
  proven ++ '@' :: Str.formatUint order.1 ++ ':' :: Str.formatUint order.2

/-- From a report on. -/
def accept (c : Config) (q : Request) (r : Report) (s : State) : Answer × State :=
  if q.proven ≠ [] then
    match q.order with
    | none => (.orderUnreadable, s)
    | some order =>
      let (ok, rateSigned) := rateOk (signedKey q.proven order) rateSignedN q.rateAt s.rateSigned
      let s := { s with rateSigned := rateSigned }
      if ok then
        let (answer, store) := deposit c q.turn { r with proven := q.proven, signed := some order } s.store
        (answer, { s with store := store })
      else (.rateLimited, s)
  else
    let (ok, rate) := allow q.signedAttempt q.ip rateN q.rateAt s.rate
    let s := { s with rate := rate }
    if ok then
      let (answer, store) := deposit c q.turn { r with proven := [], signed := none } s.store
      (answer, { s with store := store })
    else (.rateLimited, s)

/-- `do_POST`. -/
def doPost (c : Config) (q : Request) (s : State) : Answer × State :=
  let (ok, rate) := allow (!q.signedAttempt) q.ip rateN q.rateAt s.rate
  let s := { s with rate := rate }
  if ok then
    match q.body with
    | .tooLarge => (.tooLarge, s)
    | .badJson => (.badJson, s)
    | .noNodeId => (.noNodeId, s)
    | .report nodeId minerIds machine kitVersion judgeRole ts =>
      accept c q ⟨nodeId, minerIds, machine, kitVersion, judgeRole, ts, [], none⟩ s
  else (.rateLimited, s)

/-- One request is answered. -/
def Step (c : Config) (s : State) (q : Request) (s' : State) : Prop := (doPost c q s).2 = s'

end Dendra.Capacity
