import Dendra.Season.Formula
import Dendra.Lib.Tally

/-!
# Weeks and amendments

A week pays what its seven days paid, by address. An amendment pays, later, rows that a ranking refused for
want of a capacity report alone; it is frozen in a file, and checked against the rankings when it is paid.

* `weekPlan`, `planDays`: the plan of a week, from the rankings that are published.
* `rowRefusal`, `amendmentRefusal`: what an amendment is refused for. `none` stands for `''`.
* `sum_weekPlan_le`: a week sends at most what its days paid.
-/

namespace Dendra.Season

/-! ## Sums by address -/

/-- `out[a] = out.get(a, 0) + v`. -/
def addTo (out : Ordered Str Int) (e : Str × Int) : Ordered Str Int :=
  out.set e.1 ((out.get? e.1).getD 0 + e.2)

def byAddress (l : List (Str × Int)) : Ordered Str Int := l.foldl addTo .empty

def total (l : List (Str × Int)) : Int := (l.map Prod.snd).sum

section Sums

variable {out : Ordered Str Int} {l l' : List (Str × Int)} {p : Str × Int → Bool}

theorem total_addTo (e : Str × Int) : total (addTo out e).items = total out.items + e.2 := by
  have hadd : addTo out e = out.add e.1 e.2 := rfl
  rw [hadd]
  rcases Ordered.items_add (d := out) (k := e.1) (v := e.2) with ⟨-, hitems⟩ | ⟨p, u, q, hout, hitems⟩
  · rw [hitems]
    simp [total]
  · rw [hitems, hout]
    simp only [total, List.map_append, List.map_cons, List.sum_append, List.sum_cons]
    omega

/-- A sum by address is the sum. -/
theorem total_byAddress : total (byAddress l).items = total l :=
  Ordered.sum_tally (w := fun v : Int => v) fun _ _ => rfl

theorem total_perm (h : l.Perm l') : total l = total l' := (h.map Prod.snd).sum_eq

theorem total_filter_le (h : ∀ e ∈ l, 0 ≤ e.2) : total (l.filter p) ≤ total l := by
  induction l with
  | nil => simp [total]
  | cons e l ih =>
    have ih := ih fun e' he' => h e' (List.mem_cons_of_mem _ he')
    have he := h e List.mem_cons_self
    simp only [total, List.filter_cons, List.map_cons, List.sum_cons] at ih ⊢
    split
    · rw [List.map_cons, List.sum_cons]
      omega
    · omega

/-- A sum by address of amounts that are not negative has none that is. -/
theorem byAddress_nonneg (h : ∀ e ∈ l, 0 ≤ e.2) : ∀ e ∈ (byAddress l).items, 0 ≤ e.2 :=
  Ordered.forall_tally (P := fun v : Int => 0 ≤ v) (fun _ _ => add_nonneg) h

end Sums

/-! ## Weeks -/

/-- What the days pay, row by row. `none` on a row paid with no address. -/
def paidRows (days : List DayResult) : Option (List (Str × Int)) :=
  ((days.flatMap DayResult.rows).filter fun x => decide (x.paid > 0)).mapM fun x =>
    if x.payoutAddress = [] then none else some (x.payoutAddress, x.paid)

/-- `sorted(out.items())`. -/
def sortItems (l : List (Str × Int)) : List (Str × Int) := l.insertionSort fun a b => a.1 ≤ b.1

/-- `week_totals`. -/
def weekTotals (days : List DayResult) : Option (List (Str × Int)) :=
  (paidRows days).map fun l => sortItems (byAddress l).items

variable (keys : Keys) (payableAddress : Str → Bool)

/-- `week_plan`: what can be sent, and what is set aside because its address cannot receive it. -/
def weekPlan (days : List DayResult) : Option (List (Str × Int) × List (Str × Int)) :=
  (weekTotals days).map fun l =>
    (l.filter fun e => payableAddress e.1, l.filter fun e => !payableAddress e.1)

/-- `week_days`: the days of a week, up to the season's last. -/
def weekDays (week : Nat) (lastDay : Option Nat) : Option (List Nat) :=
  let days := (List.range 7).map fun i => 7 * week + i
  match lastDay with
  | none => some days
  | some last =>
    let days := days.filter fun d => decide (d ≤ last)
    if days = [] then none else some days

/-- The published rankings, by day: each day, and the season's last block on the day that holds it. -/
abbrev Rankings : Type := Nat → Option (DayResult × Option Int)

/-- The reading of `plan_days`, from day `d`: up to `fuel` days, or to the season's last. -/
def loadDays (src : Rankings) (d : Nat) : Nat → Option (List DayResult × Option Nat)
  | 0 => some ([], none)
  | fuel + 1 =>
    match src d with
    | none => none
    | some (day, some _) => some ([day], some d)
    | some (day, none) => (loadDays src (d + 1) fuel).map fun r => (day :: r.1, r.2)

/-- A set of `doubled_sets`: every set from the doubled rates on. -/
def isDoubled (fp : Str) : Bool := (ruleSetOf keys fp).any fun e => decide (2 ≤ e.1)

/-- `check_doubled_from` accepts. -/
def doubledFromOk (days : List DayResult) (doubledFrom : Option Nat) : Bool :=
  days.zipIdx.all fun e =>
    isDoubled keys e.1.rulesFingerprint == doubledFrom.any fun n => decide (n ≤ e.2)

/-! ## Amendments -/

/-- A row that an amendment pays; `kitVersion` is the kit of its proof. -/
structure AmendRow where
  day : Nat
  minerId : Str
  address : Str
  udndr : Int
  kitVersion : Int
  deriving DecidableEq

/-- A frozen amendment that is well formed: at least one row, and each pays something. -/
structure Amendment where
  id : Nat
  rows : List AmendRow
  rows_ne : rows ≠ []
  udndr_pos : ∀ row ∈ rows, 0 < row.udndr
  deriving DecidableEq

def Amendment.udndr (a : Amendment) : Int := (a.rows.map AmendRow.udndr).sum

/-- `amendment_payable`. -/
def amendmentPayable (a : Amendment) : List (Str × Int) :=
  sortItems (byAddress (a.rows.map fun row => (row.address, row.udndr))).items

/-- `_PROBATION_NOTE`, with the line end that `$` lets pass. -/
def probationNote (s : Str) : Bool :=
  match Str.cutPrefix s "probation: first full day after registration, ".toList with
  | none => false
  | some t =>
    let t := Str.trimSuffix t ['\n']
    match Str.cutSuffix t " percent of the gross".toList with
    | none => false
    | some digits => !digits.isEmpty && digits.all Char.isDigit

/-- `_refused_for_the_report_alone`. -/
def refusedForTheReportAlone (x : Row) : Bool :=
  x.kitVersion.isNone &&
    (x.reason = noKitReport ||
      (x.probation &&
        match Str.cutSuffix x.reason ("; ".toList ++ noKitReport) with
        | none => false
        | some note => probationNote note))

/-- Why a row of an amendment, or an amendment, is refused. -/
inductive AmendRefusal
  | notFrozen
  | paidTwice (day : Nat) (minerId : Str)
  | notRanked (day : Nat)
  | noIdentity (minerId : Str)
  | reason (minerId : Str)
  | nowPaid (minerId : Str)
  | gross (minerId : Str)
  | address (minerId : Str)
  | kitProof (minerId : Str)
  | dayCap (day : Nat)
  | seasonCap
  deriving DecidableEq

/-- `_row_refusal`. -/
def rowRefusal (row : AmendRow) (days : List DayResult) : Option AmendRefusal :=
  match days[row.day]? with
  | none => some (.notRanked row.day)
  | some day =>
    match day.rows.filter fun x => decide (x.minerId = row.minerId) with
    | [x] =>
      if !refusedForTheReportAlone x then some (.reason row.minerId)
      else if x.payable ≠ 0 ∨ x.paid ≠ 0 then some (.nowPaid row.minerId)
      else if x.gross ≠ row.udndr then some (.gross row.minerId)
      else if x.payoutAddress ≠ row.address then some (.address row.minerId)
      else if !(day.kitMin.any fun k => decide (row.kitVersion ≥ k)) then some (.kitProof row.minerId)
      else none
    | _ => some (.noIdentity row.minerId)

/-- Every row of every frozen amendment. -/
def frozenRows (amendments : List Amendment) : List AmendRow := amendments.flatMap Amendment.rows

/-- `cap_season` of the set of a day. -/
def capSeasonOf (d : DayResult) : Int := ((ruleSetOf keys d.rulesFingerprint).map fun e => e.2.capSeason).getD 0

def capDayOf (d : DayResult) : Int :=
  ((ruleSetOf keys d.rulesFingerprint).map fun e => e.2.capProgrammeDay).getD 0

/-- The first row whose day and identity an earlier row has. -/
def firstRepeated : List (Nat × Str) → List AmendRow → Option AmendRow
  | _, [] => none
  | seen, row :: rows =>
    if (row.day, row.minerId) ∈ seen then some row else firstRepeated ((row.day, row.minerId) :: seen) rows

/-- `amendment_refusal`. -/
def amendmentRefusal (n : Nat) (amendments : List Amendment) (days : List DayResult) : Option AmendRefusal :=
  match amendments.find? fun a => decide (a.id = n) with
  | none => some .notFrozen
  | some doc =>
    let rows := frozenRows amendments
    let added := (rows.map AmendRow.udndr).sum
    match firstRepeated [] rows with
    | some row => some (.paidTwice row.day row.minerId)
    | none =>
      match doc.rows.findSome? fun row => rowRefusal row days with
      | some why => some why
      | none =>
        let pastCap := (doc.rows.map AmendRow.day).find? fun d =>
          match days[d]? with
          | none => true
          | some day =>
            decide (day.totalPaid + ((rows.filter fun row => decide (row.day = d)).map AmendRow.udndr).sum >
              capDayOf keys day)
        match pastCap with
        | some d => some (.dayCap d)
        | none =>
          match days.getLast? with
          | none => some .seasonCap
          | some last =>
            if (days.map DayResult.totalPaid).sum + added > capSeasonOf keys last then some .seasonCap
            else none

/-- `amended_rows_refusal` accepts. -/
def amendedRowsOk (amendments : List Amendment) (days : List DayResult) (wd : List Nat) : Bool :=
  (frozenRows amendments).all fun row => decide (row.day ∉ wd) || (rowRefusal row days).isNone

/-- `plan_days`: the payable part of the week's plan and its days. `none` stands for a refusal. -/
def planDays (week : Nat) (src : Rankings) (doubledFrom : Option Nat) (amendments : List Amendment) :
    Option (List (Str × Int) × List Nat) :=
  match loadDays src 0 (7 * week + 7) with
  | none => none
  | some (loaded, last) =>
    match weekDays week last with
    | none => none
    | some wd =>
      if (checkDays keys loaded).isSome ∨ !doubledFromOk keys loaded doubledFrom then none
      else
        match weekPlan payableAddress (wd.filterMap fun d => loaded[d]?) with
        | none => none
        | some (payable, _) => if amendedRowsOk amendments loaded wd then some (payable, wd) else none

/-! ## What is sent -/

section Sent

variable {keys payableAddress} {days loaded : List DayResult} {payable aside : List (Str × Int)} {src : Rankings}
  {d fuel week n : Nat} {last : Option Nat} {wd : List Nat} {amendments : List Amendment}

theorem mem_paidRows {l : List (Str × Int)} (h : paidRows days = some l) :
    total l = (((days.flatMap DayResult.rows).filter fun x => decide (x.paid > 0)).map Row.paid).sum ∧
      ∀ e ∈ l, 0 ≤ e.2 := by
  unfold paidRows at h
  rw [mapM_eq_some] at h
  have hone : List.Forall₂ (fun (x : Row) (e : Str × Int) => x.paid = e.2 ∧ x.paid > 0)
      ((days.flatMap DayResult.rows).filter fun x => decide (x.paid > 0)) l := by
    rw [List.forall₂_iff_zip] at h ⊢
    refine ⟨h.1, fun {x e} hxe => ?_⟩
    have he := h.2 hxe
    split at he
    · cases he
    · obtain rfl := Option.some.inj he
      exact ⟨rfl, of_decide_eq_true (List.mem_filter.1 (List.of_mem_zip hxe).1).2⟩
  refine ⟨congrArg List.sum (map_eq_of_forall₂ hone fun x e hxe => hxe.1).symm, fun e he => ?_⟩
  obtain ⟨i, hi, rfl⟩ := List.getElem_of_mem he
  have hlen := hone.length_eq
  have := (List.forall₂_iff_get.1 hone).2 i (by omega) hi
  simp only [List.get_eq_getElem] at this
  omega

theorem sum_paid_filter {rows : List Row} (h : ∀ x ∈ rows, 0 ≤ x.paid) :
    ((rows.filter fun x => decide (x.paid > 0)).map Row.paid).sum = (rows.map Row.paid).sum := by
  induction rows with
  | nil => rfl
  | cons x rows ih =>
    have ih := ih fun y hy => h y (List.mem_cons_of_mem _ hy)
    have hx := h x List.mem_cons_self
    rw [List.filter_cons, List.map_cons, List.sum_cons]
    split
    · rw [List.map_cons, List.sum_cons, ih]
    · next hno =>
      have hno : ¬ x.paid > 0 := fun hp => hno (decide_eq_true hp)
      omega

/-- A week sends at most what its days paid. -/
theorem sum_weekPlan_le (hpaid : ∀ d ∈ days, ∀ x ∈ d.rows, 0 ≤ x.paid)
    (htotal : ∀ d ∈ days, (d.rows.map Row.paid).sum = d.totalPaid)
    (h : weekPlan payableAddress days = some (payable, aside)) :
    total payable ≤ (days.map DayResult.totalPaid).sum := by
  unfold weekPlan weekTotals at h
  rw [Option.map_map, Option.map_eq_some_iff] at h
  obtain ⟨l, hl, heq⟩ := h
  obtain ⟨hsum, hnonneg⟩ := mem_paidRows hl
  have hpayable := (Prod.mk.inj heq).1
  have hitems : ∀ e ∈ sortItems (byAddress l).items, 0 ≤ e.2 := by
    intro e he
    unfold sortItems at he
    rw [List.mem_insertionSort] at he
    exact byAddress_nonneg hnonneg e he
  have hall : total (sortItems (byAddress l).items) = (days.map DayResult.totalPaid).sum := by
    have hperm : (sortItems (byAddress l).items).Perm (byAddress l).items := List.perm_insertionSort _ _
    rw [total_perm hperm, total_byAddress, hsum, sum_paid_filter ?_]
    · rw [List.map_flatMap, List.flatMap, List.sum_flatten, List.map_map]
      congr 1
      exact List.map_congr_left fun d hd => htotal d hd
    · intro x hx
      obtain ⟨d, hd, hxd⟩ := List.mem_flatMap.1 hx
      exact hpaid d hd x hxd
  rw [← hpayable, ← hall]
  exact total_filter_le hitems

/-- What an amendment sends. -/
theorem total_amendmentPayable (a : Amendment) : total (amendmentPayable a) = a.udndr := by
  have hperm : (amendmentPayable a).Perm (byAddress (a.rows.map fun row => (row.address, row.udndr))).items :=
    List.perm_insertionSort _ _
  rw [total_perm hperm, total_byAddress]
  unfold total Amendment.udndr
  rw [List.map_map]
  rfl

end Sent

end Dendra.Season
