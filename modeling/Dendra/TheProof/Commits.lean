import Dendra.Lib.Run
import Dendra.Lib.Str
import Dendra.Lib.Table

/-!
# The commits, read by increment

`services/the_proof.py`: the commits of the chain are kept between builds, and a build reads what the chain gained
(`_first_gap`, `read_commits_by_increment`).

The rows are `(key, model_id)`, in key order. What the node answers to each read is given, by the moment of the read.
-/

namespace Dendra.TheProof

abbrev Rows : Type := Store Str Str

/-- What the node answers. A row at an offset: `none` when it could not be read, `some none` when there is none. -/
structure Node where
  total : Nat → Option Nat
  rowAt : Nat → Nat → Option (Option (Str × Str))
  readFrom : Nat → Option Str → Option Nat → Option (List (Str × Str))

structure Cache where
  rows : Rows
  sinceFull : Nat

/-- `new_commit_cache`. -/
def newCommitCache : Cache := ⟨.empty, 0⟩

inductive How
  | full | cached | increment | unread
  deriving DecidableEq

/-- What a build returns, the cache that it leaves, and the moment of its end. -/
structure Build where
  listing : Option (List (Str × Str))
  how : How
  cache : Cache
  time : Nat

/-- `COMMIT_WINDOW`, `COMMIT_PATCHES`, `COMMIT_FULL_EVERY`. -/
structure Bounds where
  window : Nat
  patches : Nat
  fullEvery : Nat

def commitBounds : Bounds := ⟨100, 12, 20⟩

section Read

variable (nd : Node) (b : Bounds)

/-! ## The first gap -/

inductive Seen
  | same | differs | absent | unread

inductive Gap
  | unread
  | notASubset
  | index (i : Nat)

def look (rows : Rows) (t i : Nat) : Seen :=
  match nd.rowAt t i with
  | none => .unread
  | some none => .absent
  | some (some row) => if rows.entries[i]? = some row then .same else .differs

/-- The bisection of `_first_gap`: the rows differ at `hi`. -/
def bisectGap (rows : Rows) (t lo hi : Nat) : Gap × Nat :=
  if lo < hi then
    match look nd rows t ((lo + hi) / 2) with
    | .same => bisectGap rows (t + 1) ((lo + hi) / 2 + 1) hi
    | .differs => bisectGap rows (t + 1) lo ((lo + hi) / 2)
    | .absent => (.notASubset, t + 1)
    | .unread => (.unread, t + 1)
  else (.index lo, t)
termination_by hi - lo

/-- `_first_gap`. -/
def firstGap (rows : Rows) (t : Nat) : Gap × Nat :=
  let last := rows.entries.length - 1
  match look nd rows t last with
  | .same => (.index rows.entries.length, t + 1)
  | .differs => bisectGap nd rows (t + 1) 0 last
  | .absent => (.notASubset, t + 1)
  | .unread => (.unread, t + 1)

/-! ## A build -/

def keep (cache : Cache) (rows : Rows) (how : How) (t : Nat) : Build :=
  ⟨some rows.entries, how, ⟨rows, if how = .full then 0 else cache.sinceFull + 1⟩, t⟩

def unread (cache : Cache) (t : Nat) : Build := ⟨none, .unread, cache, t⟩

/-- Rows that were read, as a dictionary over another. -/
def update (rows : Rows) (got : List (Str × Str)) : Rows := got.foldl (fun rows e => rows.set e.1 e.2) rows

def full (cache : Cache) (t : Nat) : Build :=
  match nd.readFrom t none none with
  | none => unread cache (t + 1)
  | some got =>
    let rows := update .empty got
    if rows.entries.length ≠ got.length then unread cache (t + 1) else keep cache rows .full (t + 1)

/-- A read starts on the kept row that it should start on. -/
def startsOn (rows : Rows) (got : List (Str × Str)) (start : Option Str) : Bool :=
  match start with
  | none => true
  | some k => got.head?.any fun e => decide (e.1 = k ∧ rows.get k = some e.2)

def merge (rows : Rows) (got : List (Str × Str)) (start : Option Str) : Option Rows :=
  let fresh := update .empty got
  if startsOn rows got start = false then none
  else if fresh.entries.length ≠ got.length ∨
      (fresh.entries.any fun e => (rows.get e.1).any fun m => decide (m ≠ e.2)) = true then none
  else some (update rows fresh.entries)

/-- The key before an index. -/
def keyBefore (rows : Rows) (i : Nat) : Option Str :=
  if 0 < i then (rows.entries[i - 1]?).map Prod.fst else none

/-- The loop: `n` rows were counted first, and `tries` gaps may still be looked for. -/
def patch (cache : Cache) (n : Nat) : Nat → Rows → Nat → Build
  | 0, _, t => full nd cache t
  | tries + 1, rows, t =>
    match firstGap nd rows t with
    | (.unread, t) => unread cache t
    | (.notASubset, t) => full nd cache t
    | (.index gap, t) =>
      let start := keyBefore rows gap
      if gap = rows.entries.length then
        if n = cache.rows.entries.length ∧ cache.rows.entries.length = rows.entries.length then
          keep cache cache.rows .cached t
        else
          match nd.readFrom t start none with
          | none => unread cache (t + 1)
          | some got =>
            match merge rows got start with
            | none => full nd cache (t + 1)
            | some rows =>
              if rows.entries.length < n then full nd cache (t + 1) else keep cache rows .increment (t + 1)
      else
        match nd.readFrom t start (some (b.window + if start = none then 0 else 1)) with
        | none => unread cache (t + 1)
        | some got =>
          match merge rows got start with
          | none => full nd cache (t + 1)
          | some rows => patch cache n tries rows (t + 1)

/-- `read_commits_by_increment`. -/
def readCommitsByIncrement (cache : Cache) (t : Nat) : Build :=
  match nd.total t with
  | none => full nd cache (t + 1)
  | some n =>
    if cache.rows.entries = [] ∨ cache.sinceFull ≥ b.fullEvery ∨ n < cache.rows.entries.length then
      full nd cache (t + 1)
    else patch nd b cache n (b.patches + 1) cache.rows (t + 1)

end Read

/-! ## The chain -/

/-- Every row of `a` is one of `b`. -/
def Within (a b : Rows) : Prop := ∀ e ∈ a.entries, e ∈ b.entries

/-- The node tells the chain, which gains rows and loses none. A read of many rows may see what comes while it is
made: it has every row that was there, and none that is not there at its end. -/
structure Truthful (nd : Node) (chain : Nat → Rows) : Prop where
  grows : ∀ t, Within (chain t) (chain (t + 1))
  total : ∀ t n, nd.total t = some n → n = (chain t).entries.length
  rowAt : ∀ t i row, nd.rowAt t i = some row → row = (chain t).entries[i]?
  real : ∀ t start max got, nd.readFrom t start max = some got → ∀ e ∈ got, e ∈ (chain (t + 1)).entries
  whole : ∀ t start got, nd.readFrom t start none = some got →
    ∀ e ∈ (chain t).entries, (∀ k ∈ start, k ≤ e.1) → e ∈ got

/-! ## Builds over a run -/

/-- The moment of the end of the last build, and what is kept. -/
structure System where
  time : Nat
  cache : Cache

def Init (s : System) : Prop := s.cache = newCommitCache

/-- A build that starts later. -/
def Step (nd : Node) (b : Bounds) (s : System) (t : Nat) (s' : System) : Prop :=
  s.time ≤ t ∧ s' = ⟨(readCommitsByIncrement nd b s.cache t).time, (readCommitsByIncrement nd b s.cache t).cache⟩

end Dendra.TheProof
