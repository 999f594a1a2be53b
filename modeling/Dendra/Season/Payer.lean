import Dendra.Season.Cap

/-!
# Payments on the chain

The chain is the payer's only ledger. A run plans a week or an amendment from the rankings of the moment, looks
on the chain for the parts already paid, and sends the others one by one, each signed at the account's sequence
number. It may stop after any part, and what it broadcast may land later.

* `weekPlanOf`, `amendPlanOf`, `decideParts`: what a run decides to send.
* `PayerStep`: runs, transactions that land, rankings published again.
* `PaidOnce`: no part and no row is paid twice. `Undisturbed`: what a run has to find for that.
-/

namespace Dendra.Season

/-! ## Plans -/

inductive PayKind
  | week
  | amendment
  deriving DecidableEq

/-- What a run pays: its parts, and, as history, the rows that it pays with their addresses and the days that it
was planned from. -/
structure Plan where
  kind : PayKind
  number : Nat
  digest : Str
  parts : List (List (Str × Int))
  paidRows : List (Nat × Str × Str)
  days : List DayResult
  weekDays : List Nat

/-- A signed part. -/
structure Tx where
  sequence : Nat
  plan : Plan
  part : Nat

/-- What the memo of a part names, but its digest. -/
def Tx.key (t : Tx) : PayKind × Nat × Nat := (t.plan.kind, t.plan.number, t.part)

def Plan.rows (p : Plan) : List (Nat × Str) := p.paidRows.map fun r => (r.1, r.2.1)

/-- The rows that a part pays: those of its addresses. -/
def Tx.rows (t : Tx) : List (Nat × Str) :=
  (t.plan.paidRows.filter fun r => ((t.plan.parts[t.part]?).getD []).any fun e => decide (e.1 = r.2.2)).map fun r =>
    (r.1, r.2.1)

/-- `BATCH`. -/
def batch : Nat := 100

/-- `parts`. -/
def partsOf (payable : List (Str × Int)) : List (List (Str × Int)) :=
  (List.range ((payable.length + (batch - 1)) / batch)).map fun i => (payable.drop (i * batch)).take batch

/-- The rows that the days of a week pay. -/
def paidRowsOf (days : List DayResult) (wd : List Nat) : List (Nat × Str × Str) :=
  wd.flatMap fun d => (days[d]?).elim [] fun day =>
    (day.rows.filter fun x => decide (x.paid > 0)).map fun x => (d, x.minerId, x.payoutAddress)

variable (keys : Keys) (payableAddress : Str → Bool) (doubledFrom : Option Nat)
  (planDigest : List (Str × Int) → Str) (amendmentDigest : Amendment → Str)

/-- The plan of a week, from the published rankings and the frozen amendments. -/
def weekPlanOf (rankings : List (DayResult × Option Int)) (frozen : List Amendment) (week : Nat) : Option Plan :=
  match planDays keys payableAddress week (fun d => rankings[d]?) doubledFrom frozen,
    loadDays (fun d => rankings[d]?) 0 (7 * week + 7) with
  | some (payable, wd), some (loaded, _) =>
    some ⟨.week, week, planDigest payable, partsOf payable, paidRowsOf loaded wd, loaded, wd⟩
  | _, _ => none

/-- The plan of a frozen amendment, on the rankings published. -/
def amendPlanOf (rankings : List (DayResult × Option Int)) (frozen : List Amendment) (n : Nat) : Option Plan :=
  match frozen.find? fun a => decide (a.id = n) with
  | none => none
  | some doc =>
    let days := amendmentDays (fun d => rankings[d]?) 0 rankings.length
    if (∀ row ∈ doc.rows, row.day < days.length) ∧ checkDays keys days = none ∧
        doubledFromOk keys days doubledFrom = true ∧ amendmentRefusal keys n frozen days = none then
      some ⟨.amendment, n, amendmentDigest doc, partsOf (amendmentPayable doc),
        doc.rows.map fun row => (row.day, row.minerId, row.address), days, []⟩
    else none

/-- `paid_parts` and the parts of one amendment: the digest under which the chain executed each part last. -/
def doneParts (executed : List Tx) (p : Plan) : Ordered Nat Str :=
  .ofList ((executed.filter fun t => decide (t.plan.kind = p.kind ∧ t.plan.number = p.number)).map fun t =>
    (t.part, t.plan.digest))

/-- `_decide`: the parts to send; `none` on a part under another digest. -/
def decideParts (digest : Str) (count : Nat) (done : Ordered Nat Str) : Option (List Nat) :=
  if done.items.any fun e => decide (e.2 ≠ digest) then none
  else some ((List.range count).filter fun i => !done.has i)

/-- `amendment_chain_refusal` accepts. -/
def amendmentChainOk (executed : List Tx) (frozen : List Amendment) (n : Nat) : Bool :=
  executed.all fun t =>
    decide (t.plan.kind ≠ .amendment) ||
      (match frozen.find? fun a => decide (a.id = t.plan.number) with
        | none => false
        | some a => decide (t.plan.number = n ∨ t.plan.digest = amendmentDigest a))

/-! ## The system -/

/-- A run: the parts it has left to send, and the one that it waits for. -/
structure PayRun where
  plan : Plan
  todo : List Nat
  waiting : Option Tx

/-- `pool` holds what was broadcast and `executed` what the chain executed, under the account's `sequence`. -/
structure Payer where
  rankings : List (DayResult × Option Int)
  frozen : List Amendment
  sequence : Nat
  pool : List Tx
  executed : List Tx
  run : Option PayRun

inductive PayerAction
  | publish (rankings : List (DayResult × Option Int))
  | freeze (a : Amendment)
  | week (n : Nat)
  | amend (n : Nat)
  | send
  | seen
  | stop
  | lands (t : Tx)
  | spent

/-- Rankings may be published again at any time and amendments are only added. Runs are one at a time; `--due`
is a run for each week. A sequence number takes one transaction, which may be another than a payment, or fail. -/
inductive PayerStep : Payer → PayerAction → Payer → Prop
  | publish {s : Payer} (rankings : List (DayResult × Option Int)) :
      PayerStep s (.publish rankings) { s with rankings := rankings }
  | freeze {s : Payer} (a : Amendment) : PayerStep s (.freeze a) { s with frozen := s.frozen ++ [a] }
  | week {s : Payer} {n : Nat} {p : Plan} {todo : List Nat} (hrun : s.run = none)
      (hp : weekPlanOf keys payableAddress doubledFrom planDigest s.rankings s.frozen n = some p)
      (hd : decideParts p.digest p.parts.length (doneParts s.executed p) = some todo) :
      PayerStep s (.week n) { s with run := some ⟨p, todo, none⟩ }
  | amend {s : Payer} {n : Nat} {p : Plan} {todo : List Nat} (hrun : s.run = none)
      (hp : amendPlanOf keys doubledFrom amendmentDigest s.rankings s.frozen n = some p)
      (hchain : amendmentChainOk amendmentDigest s.executed s.frozen n = true)
      (hd : decideParts p.digest p.parts.length (doneParts s.executed p) = some todo) :
      PayerStep s (.amend n) { s with run := some ⟨p, todo, none⟩ }
  | send {s : Payer} {p : Plan} {i : Nat} {todo : List Nat} (hrun : s.run = some ⟨p, i :: todo, none⟩) :
      PayerStep s .send
        { s with pool := ⟨s.sequence, p, i⟩ :: s.pool, run := some ⟨p, todo, some ⟨s.sequence, p, i⟩⟩ }
  | seen {s : Payer} {p : Plan} {todo : List Nat} {t : Tx} (hrun : s.run = some ⟨p, todo, some t⟩)
      (ht : t ∈ s.executed) : PayerStep s .seen { s with run := some ⟨p, todo, none⟩ }
  | stop {s : Payer} : PayerStep s .stop { s with run := none }
  | lands {s : Payer} {t : Tx} (ht : t ∈ s.pool) (hs : t.sequence = s.sequence) :
      PayerStep s (.lands t) { s with executed := s.executed ++ [t], sequence := s.sequence + 1 }
  | spent {s : Payer} : PayerStep s .spent { s with sequence := s.sequence + 1 }

/-- Nothing paid yet. -/
def Payer.IsStart (s : Payer) : Prop := s.pool = [] ∧ s.executed = [] ∧ s.run = none

/-- A run finds nothing in flight; an amendment finds its days ranked as the weeks that were paid had them. -/
structure Undisturbed (s : Payer) (a : PayerAction) : Prop where
  quiet : (∃ n, a = .week n ∨ a = .amend n) → ∀ t ∈ s.pool, t.sequence < s.sequence
  agree : ∀ n, a = .amend n → ∀ doc, s.frozen.find? (fun b => decide (b.id = n)) = some doc →
    ∀ row ∈ doc.rows, ∀ t ∈ s.executed, t.plan.kind = .week → row.day ∈ t.plan.weekDays →
      t.plan.days[row.day]? = (s.rankings[row.day]?).map Prod.fst

/-- What the chain executed pays no part twice, no part of a week or an amendment under two digests, and no row
by a week and by an amendment. -/
structure PaidOnce (executed : List Tx) : Prop where
  once : (executed.map Tx.key).Nodup
  digest : ∀ t ∈ executed, ∀ t' ∈ executed, t.plan.kind = t'.plan.kind → t.plan.number = t'.plan.number →
    t.plan.digest = t'.plan.digest
  rows : ∀ t ∈ executed, ∀ t' ∈ executed, t.plan.kind ≠ t'.plan.kind → ∀ r ∈ t.rows, r ∉ t'.rows

end Dendra.Season
