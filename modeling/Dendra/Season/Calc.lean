import Dendra.Season.Rules

/-!
# The calculation of a day

The facts of a day, one identity each, give its ranking: what the formula gives each identity, whether it can
be paid, and what it is paid once the day's budget is shared.

* `grossOf`, `kitAllowsPay`, `registrationAllowsPay`, `rowOf`: one identity. `none` stands for an error.
* `dayBudget`, `dayScale`, `computeDay`: the day.
* `share_le`: shares of a budget in proportion do not exceed it.
-/

namespace Dendra.Season

/-- The facts of one identity. -/
structure Identity where
  minerId : Str
  presence : Int
  verifiedRequests : Int
  verdicts : Int
  payoutAddress : Str
  judgeActive : Int
  probation : Bool
  kitVersion : Option Int
  registrationNotDated : Bool
  deriving DecidableEq

structure Row where
  minerId : Str
  payoutAddress : Str
  presence : Int
  verifiedRequests : Int
  verdicts : Int
  gross : Int
  payable : Int
  paid : Int
  reason : Str
  judgeActive : Int
  probation : Bool
  kitVersion : Option Int
  registrationNotDated : Bool
  deriving DecidableEq

structure DayResult where
  day : Int
  rulesFingerprint : Str
  totalGross : Int
  totalPayable : Int
  dayBudget : Int
  totalPaid : Int
  scaleNum : Int
  scaleDen : Int
  rows : List Row
  kitMin : Option Int
  deriving DecidableEq

/-! ## One identity -/

def presencePaid (i : Identity) (r : Rules) : Int :=
  if i.verifiedRequests < 1 then 0 else max 0 (min i.presence r.presenceMaxWindows)

/-- The formula on the facts. -/
def grossOf (i : Identity) (r : Rules) : Option Int :=
  if i.judgeActive ≠ 0 ∧ i.judgeActive ≠ 1 then none
  else
    let g := presencePaid i r * r.presencePerWindow + max 0 i.verifiedRequests * r.workPerRequest +
      max 0 i.verdicts * r.jurorPerVerdict
    match r.kit with
    | some k =>
      let g := g + i.judgeActive * k.judgeActivePerDay
      some (if i.probation then g * k.probationFirstDayBps / 10000 else g)
    | none => if i.judgeActive ≠ 0 ∨ i.probation ∨ i.registrationNotDated then none else some g

def kitAllowsPay (i : Identity) (r : Rules) : Option Bool :=
  match r.kit with
  | none => some true
  | some k =>
    match i.kitVersion with
    | none => some false
    | some kv => if kv < 0 then none else some (decide (kv ≥ k.kitMin))

def registrationAllowsPay (i : Identity) (r : Rules) : Bool :=
  !(paysJudgePresence r && i.registrationNotDated)

/-- `NO_KIT_REPORT`. -/
def noKitReport : Str := "no signed capacity report at or before the day's end".toList

/-- The notes on a row, before the budget is shared. -/
def notes (i : Identity) (r : Rules) (g : Int) (kitOk : Bool) : List Str :=
  let bps := (r.kit.elim 0 KitRules.probationFirstDayBps) / 100
  (if i.presence > 0 ∧ i.verifiedRequests < 1 then
    ["presence not paid: no verified request counted that day".toList] else []) ++
  (if paysJudgePresence r ∧ i.probation ∧ g ≠ 0 then
    ["probation: first full day after registration, ".toList ++ Str.formatInt bps ++
      " percent of the gross".toList] else []) ++
  (if g ≠ 0 ∧ i.payoutAddress = [] then ["no payout address known".toList] else []) ++
  (if g ≠ 0 ∧ !kitOk then
    [match i.kitVersion with
      | none => noKitReport
      | some kv =>
        "kit ".toList ++ Str.formatInt kv ++ " below the floor ".toList ++
          Str.formatInt (r.kit.elim 0 KitRules.kitMin) ++ ": not paid".toList] else []) ++
  (if g ≠ 0 ∧ !registrationAllowsPay i r then ["registration not datable: not paid".toList] else [])

def joinNotes (l : List Str) : Str := "; ".toList.intercalate l

/-- The row of an identity, nothing paid yet. -/
def rowOf (i : Identity) (r : Rules) : Option Row :=
  match grossOf i r with
  | none => none
  | some g =>
    match kitAllowsPay i r with
    | none => none
    | some kitOk =>
      some
        { minerId := i.minerId
          payoutAddress := i.payoutAddress
          presence := i.presence
          verifiedRequests := i.verifiedRequests
          verdicts := i.verdicts
          gross := g
          payable := if i.payoutAddress ≠ [] ∧ kitOk ∧ registrationAllowsPay i r then g else 0
          paid := 0
          reason := joinNotes (notes i r g kitOk)
          judgeActive := i.judgeActive
          probation := i.probation
          kitVersion := i.kitVersion
          registrationNotDated := i.registrationNotDated }

/-! ## The day -/

def dayBudget (r : Rules) (paidBefore : Int) : Int := max 0 (min r.capProgrammeDay (r.capSeason - paidBefore))

/-- The ratio of the day: the budget over what is payable, or one. -/
def dayScale (budget totalPayable : Int) : Int × Int :=
  if totalPayable > budget then (budget, totalPayable) else (1, 1)

/-- A row with its share. -/
def Row.pay (scale : Int × Int) (x : Row) : Row :=
  let paid := x.payable * scale.1 / scale.2
  { x with
    paid := paid
    reason :=
      if x.payable ≠ 0 ∧ paid < x.payable then
        (if x.reason ≠ [] then x.reason ++ "; ".toList else []) ++ "daily budget shared pro rata".toList
      else x.reason }

/-- The order of a ranking: the most paid first, then by identity. -/
def rankedBefore (x y : Row) : Prop := y.paid < x.paid ∨ (y.paid = x.paid ∧ x.minerId ≤ y.minerId)

instance : DecidableRel rankedBefore := fun x y =>
  inferInstanceAs (Decidable (y.paid < x.paid ∨ (y.paid = x.paid ∧ x.minerId ≤ y.minerId)))

/-- The ranking of one day. `paidBefore` is what the season has paid on the days before. -/
def computeDay (day : Int) (identities : List Identity) (paidBefore : Int) (r : Rules) : Option DayResult :=
  if (identities.map Identity.minerId).Nodup then
    match identities.mapM fun i => rowOf i r with
    | none => none
    | some rows =>
      let totalPayable := (rows.map Row.payable).sum
      let budget := dayBudget r paidBefore
      let scale := dayScale budget totalPayable
      let paid := (rows.map (Row.pay scale)).insertionSort rankedBefore
      some ⟨day, fingerprint r, (paid.map Row.gross).sum, totalPayable, budget, (paid.map Row.paid).sum, scale.1,
        scale.2, paid, none⟩
  else none

/-! ## Shares -/

section Shares

variable {r : Rules} {i : Identity} {l : List Int} {budget g : Int}

theorem dayBudget_nonneg (r : Rules) (paidBefore : Int) : 0 ≤ dayBudget r paidBefore := le_max_left _ _

theorem dayBudget_le (hr : r.Sound) (paidBefore : Int) : dayBudget r paidBefore ≤ r.capProgrammeDay :=
  max_le hr.capProgrammeDay (min_le_left _ _)

/-- A share is between nothing and the whole. -/
theorem share_le_self {p : Int} (total : Int) (hp : 0 ≤ p) (hb : 0 ≤ budget) :
    0 ≤ p * (dayScale budget total).1 / (dayScale budget total).2 ∧
      p * (dayScale budget total).1 / (dayScale budget total).2 ≤ p := by
  unfold dayScale
  split
  · next h =>
    have htotal : 0 < total := lt_of_le_of_lt hb h
    refine ⟨Int.ediv_nonneg (mul_nonneg hp hb) (le_of_lt htotal), ?_⟩
    refine Int.ediv_le_of_le_mul htotal ?_
    exact mul_le_mul_of_nonneg_left (le_of_lt h) hp
  · simpa using hp

/-- The floors of the shares add up to at most the floor of the total's share. -/
theorem sum_ediv_le {num den : Int} (hden : 0 < den) :
    (l.map fun p => p * num / den).sum ≤ l.sum * num / den := by
  induction l with
  | nil => simp
  | cons p l ih =>
    rw [List.map_cons, List.sum_cons, List.sum_cons, add_mul]
    have h : p * num / den + l.sum * num / den ≤ (p * num + l.sum * num) / den := by
      rw [Int.le_ediv_iff_mul_le hden]
      have h1 := Int.ediv_mul_le (p * num) (ne_of_gt hden)
      have h2 := Int.ediv_mul_le (l.sum * num) (ne_of_gt hden)
      rw [add_mul]
      omega
    omega

/-- The shares of a day stay within its budget. -/
theorem share_le (hb : 0 ≤ budget) :
    (l.map fun p => p * (dayScale budget l.sum).1 / (dayScale budget l.sum).2).sum ≤ budget := by
  unfold dayScale
  split
  · next h =>
    have htotal : 0 < l.sum := lt_of_le_of_lt hb h
    refine (sum_ediv_le htotal).trans ?_
    rw [Int.mul_ediv_cancel_left _ (ne_of_gt htotal)]
  · next h =>
    have hid : (l.map fun p => p * (1 : Int) / 1) = l := by
      conv_rhs => rw [← List.map_id l]
      refine List.map_congr_left fun p _ => ?_
      simp
    dsimp only
    rw [hid]
    exact not_lt.1 h

theorem presencePaid_nonneg : 0 ≤ presencePaid i r := by
  unfold presencePaid
  split
  · exact le_refl _
  · exact le_max_left _ _

/-- A gross is never negative. -/
theorem grossOf_nonneg (hr : r.Sound) (h : grossOf i r = some g) : 0 ≤ g := by
  have hbase : 0 ≤ presencePaid i r * r.presencePerWindow + max 0 i.verifiedRequests * r.workPerRequest +
      max 0 i.verdicts * r.jurorPerVerdict :=
    add_nonneg (add_nonneg (mul_nonneg presencePaid_nonneg hr.presencePerWindow)
      (mul_nonneg (le_max_left _ _) hr.workPerRequest)) (mul_nonneg (le_max_left _ _) hr.jurorPerVerdict)
  unfold grossOf at h
  split at h
  · cases h
  · next hja =>
    dsimp only at h
    split at h
    · next k hk =>
      obtain ⟨hj, hbps⟩ := hr.kit k hk
      have hja' : 0 ≤ i.judgeActive := by omega
      have hg := add_nonneg hbase (mul_nonneg hja' hj)
      obtain rfl := Option.some.inj h
      split
      · exact Int.ediv_nonneg (mul_nonneg hg hbps) (by decide)
      · exact hg
    · split at h
      · cases h
      · obtain rfl := Option.some.inj h
        exact hbase

end Shares

end Dendra.Season
