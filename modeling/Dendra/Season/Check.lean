import Dendra.Season.Calc

/-!
# The payer's check

Before it pays, the payer checks the published days against the rules, from their figures alone. Its formula
is the calculator's, written a second time.

* `checkDays`: the check. `Violation` names the first day that is refused and why.
* `DayOk`: what the check asks of a day, once what follows from the rest is left out; `checkDay_ok`.
-/

namespace Dendra.Season

/-- Why a day is refused. -/
inductive Refusal
  | notThisDay
  | unknownRules
  | earlierRules
  | kitFloor
  | noKitFloor
  | rankedTwice (minerId : Str)
  | count (minerId : Str)
  | fields (minerId : Str)
  | noFields (minerId : Str)
  | gross (minerId : Str)
  | payable (minerId : Str)
  | paid (minerId : Str)
  | totals
  | budget
  | overBudget
  | proRata
  | seasonCap
  deriving DecidableEq

structure Violation where
  day : Nat
  why : Refusal
  deriving DecidableEq

/-- The rest of a check goes on if `c` holds. -/
def ensure (c : Prop) [Decidable c] (why : Refusal) : Except Refusal Unit :=
  if c then .ok () else .error why

@[simp] theorem ensure_bind_eq_ok {α : Type} {c : Prop} [Decidable c] {why : Refusal}
    {k : Unit → Except Refusal α} {a : α} :
    (ensure c why >>= k) = .ok a ↔ c ∧ k () = .ok a := by
  unfold ensure
  by_cases h : c
  · rw [if_pos h]
    simp [h, bind, Except.bind]
  · rw [if_neg h]
    simp [h, bind, Except.bind]

/-- The facts that a row carries. -/
def Row.facts (x : Row) : Identity :=
  ⟨x.minerId, x.presence, x.verifiedRequests, x.verdicts, x.payoutAddress, x.judgeActive, x.probation,
    x.kitVersion, x.registrationNotDated⟩

/-- What a row is payable, by its facts. The two errors of `kitAllowsPay` and `grossOf` are ruled out before. -/
def payableOf (i : Identity) (r : Rules) (gross : Int) : Int :=
  if i.payoutAddress ≠ [] ∧ (kitAllowsPay i r).getD false ∧ registrationAllowsPay i r then gross else 0

/-- The checks of one row. -/
def checkRow (r : Rules) (x : Row) : Except Refusal Unit := do
  ensure (x.presence ≥ 0 ∧ x.verifiedRequests ≥ 0 ∧ x.verdicts ≥ 0) (.count x.minerId)
  ensure ((x.judgeActive = 0 ∨ x.judgeActive = 1) ∧ ∀ kv, x.kitVersion = some kv → kv ≥ 0)
    (.fields x.minerId)
  ensure (paysJudgePresence r ∨
    (x.judgeActive = 0 ∧ x.probation = false ∧ x.kitVersion = none ∧ x.registrationNotDated = false))
    (.noFields x.minerId)
  ensure (grossOf x.facts r = some x.gross) (.gross x.minerId)
  ensure (x.payable = payableOf x.facts r x.gross) (.payable x.minerId)
  ensure (0 ≤ x.paid ∧ x.paid ≤ x.payable) (.paid x.minerId)
  pure ()

/-- The loop over the rows, with the identities already seen. -/
def checkRows (r : Rules) : List Str → List Row → Except Refusal Unit
  | _, [] => pure ()
  | seen, x :: rows => do
    ensure (x.minerId ∉ seen) (.rankedTwice x.minerId)
    checkRow r x
    checkRows r (x.minerId :: seen) rows

/-- The checks of day `n`, given the position of the last day's set and what the days before paid: both for
the day after. -/
def checkDay (keys : Keys) (n prev : Nat) (paidBefore : Int) (d : DayResult) : Except Refusal (Nat × Int) := do
  ensure (d.day = n) .notThisDay
  match ruleSetOf keys d.rulesFingerprint with
  | none => .error .unknownRules
  | some (pos, r) =>
    ensure (prev ≤ pos) .earlierRules
    ensure (paysJudgePresence r → d.kitMin = r.kit.map KitRules.kitMin) .kitFloor
    ensure (paysJudgePresence r ∨ d.kitMin = none) .noKitFloor
    checkRows r [] d.rows
    ensure ((d.rows.map Row.paid).sum = d.totalPaid ∧ (d.rows.map Row.payable).sum = d.totalPayable ∧
      (d.rows.map Row.gross).sum = d.totalGross) .totals
    let budget := dayBudget r paidBefore
    ensure (d.dayBudget = budget) .budget
    ensure (d.totalPaid ≤ d.dayBudget ∧ d.dayBudget ≤ r.capProgrammeDay) .overBudget
    let scale := dayScale budget d.totalPayable
    ensure ((d.scaleNum, d.scaleDen) = scale ∧
      ∀ x ∈ d.rows, x.paid = x.payable * scale.1 / scale.2) .proRata
    ensure (paidBefore + d.totalPaid ≤ r.capSeason) .seasonCap
    pure (pos, paidBefore + d.totalPaid)

def checkFrom (keys : Keys) : Nat → Nat → Int → List DayResult → Option Violation
  | _, _, _, [] => none
  | n, prev, paidBefore, d :: days =>
    match checkDay keys n prev paidBefore d with
    | .error why => some ⟨n, why⟩
    | .ok (pos, paid) => checkFrom keys (n + 1) pos paid days

/-- `check_days`: `none` stands for `''`. -/
def checkDays (keys : Keys) (days : List DayResult) : Option Violation := checkFrom keys 0 0 0 days

/-! ## What the check asks -/

section Row

variable {r : Rules} {x : Row} {rows : List Row} {seen : List Str}

/-- A row carries nothing that its set does not have, and its gross and payable are those of its facts. -/
structure RowOk (r : Rules) (x : Row) : Prop where
  counts : 0 ≤ x.presence ∧ 0 ≤ x.verifiedRequests ∧ 0 ≤ x.verdicts
  judgeActive : x.judgeActive = 0 ∨ x.judgeActive = 1
  kitVersion : ∀ kv, x.kitVersion = some kv → 0 ≤ kv
  plain : r.kit = none →
    x.judgeActive = 0 ∧ x.probation = false ∧ x.kitVersion = none ∧ x.registrationNotDated = false
  gross : grossOf x.facts r = some x.gross
  payable : x.payable = payableOf x.facts r x.gross

theorem paysJudgePresence_eq_false : ¬ paysJudgePresence r = true ↔ r.kit = none := by
  unfold paysJudgePresence
  rw [Bool.not_eq_true, Option.isSome_eq_false_iff, Option.isNone_iff_eq_none]

theorem checkRow_ok : checkRow r x = .ok () ↔ RowOk r x ∧ 0 ≤ x.paid ∧ x.paid ≤ x.payable := by
  unfold checkRow
  simp only [ensure_bind_eq_ok]
  constructor
  · rintro ⟨h1, ⟨h2, h3⟩, h4, h5, h6, h7, -⟩
    refine ⟨⟨h1, h2, h3, fun hk => ?_, h5, h6⟩, h7⟩
    exact h4.resolve_left (paysJudgePresence_eq_false.2 hk)
  · rintro ⟨h, h7⟩
    refine ⟨h.counts, ⟨h.judgeActive, h.kitVersion⟩, ?_, h.gross, h.payable, h7, rfl⟩
    by_cases hk : paysJudgePresence r = true
    · exact .inl hk
    · exact .inr (h.plain (paysJudgePresence_eq_false.1 hk))

theorem checkRow_bind_ok {α : Type} {k : Unit → Except Refusal α} {a : α} :
    (checkRow r x >>= k) = .ok a ↔ checkRow r x = .ok () ∧ k () = .ok a := by
  cases checkRow r x <;> simp [bind, Except.bind]

theorem checkRows_ok : checkRows r seen rows = .ok () ↔
    (rows.map Row.minerId).Nodup ∧ (∀ x ∈ rows, x.minerId ∉ seen) ∧
      ∀ x ∈ rows, RowOk r x ∧ 0 ≤ x.paid ∧ x.paid ≤ x.payable := by
  induction rows generalizing seen with
  | nil => simp [checkRows, pure, Except.pure]
  | cons x rows ih =>
    unfold checkRows
    rw [ensure_bind_eq_ok, checkRow_bind_ok, checkRow_ok, ih, List.map_cons, List.nodup_cons]
    constructor
    · rintro ⟨hx, hok, hn, hseen, hrest⟩
      refine ⟨⟨fun hmem => ?_, hn⟩, ?_, ?_⟩
      · obtain ⟨y, hy, heq⟩ := List.mem_map.1 hmem
        exact hseen y hy (heq ▸ List.mem_cons_self)
      · intro y hy
        rcases List.mem_cons.1 hy with rfl | hy
        · exact hx
        · exact fun h => hseen y hy (List.mem_cons_of_mem _ h)
      · intro y hy
        rcases List.mem_cons.1 hy with rfl | hy
        · exact hok
        · exact hrest y hy
    · rintro ⟨⟨hx, hn⟩, hseen, hrest⟩
      refine ⟨hseen x List.mem_cons_self, hrest x List.mem_cons_self, hn, ?_, ?_⟩
      · intro y hy hmem
        rcases List.mem_cons.1 hmem with heq | hmem
        · exact hx (heq ▸ List.mem_map_of_mem hy)
        · exact hseen y (List.mem_cons_of_mem _ hy) hmem
      · exact fun y hy => hrest y (List.mem_cons_of_mem _ hy)

end Row

section Day

variable {keys : Keys} {n prev pos : Nat} {paidBefore : Int} {d : DayResult} {r : Rules}

/-- What the check asks of a day under the set `r`. -/
structure DayOk (n : Nat) (paidBefore : Int) (r : Rules) (d : DayResult) : Prop where
  day : d.day = n
  kitMin : d.kitMin = r.kit.map KitRules.kitMin
  nodup : (d.rows.map Row.minerId).Nodup
  rows : ∀ x ∈ d.rows, RowOk r x
  totalPaid : (d.rows.map Row.paid).sum = d.totalPaid
  totalPayable : (d.rows.map Row.payable).sum = d.totalPayable
  totalGross : (d.rows.map Row.gross).sum = d.totalGross
  budget : d.dayBudget = dayBudget r paidBefore
  scale : (d.scaleNum, d.scaleDen) = dayScale (dayBudget r paidBefore) d.totalPayable
  paid : ∀ x ∈ d.rows, x.paid = x.payable * d.scaleNum / d.scaleDen

theorem RowOk.payable_nonneg {x : Row} (h : RowOk r x) (hr : r.Sound) : 0 ≤ x.payable := by
  rw [h.payable]
  unfold payableOf
  split
  · exact grossOf_nonneg hr h.gross
  · exact le_refl _

/-- The shares of a day that is right are within its budget. -/
theorem DayOk.totalPaid_le (h : DayOk n paidBefore r d) : d.totalPaid ≤ dayBudget r paidBefore := by
  rw [← h.totalPaid]
  have hpaid : d.rows.map Row.paid = (d.rows.map Row.payable).map fun p =>
      p * (dayScale (dayBudget r paidBefore) (d.rows.map Row.payable).sum).1 /
        (dayScale (dayBudget r paidBefore) (d.rows.map Row.payable).sum).2 := by
    rw [List.map_map]
    refine List.map_congr_left fun x hx => ?_
    rw [h.totalPayable, ← h.scale]
    exact h.paid x hx
  rw [hpaid]
  exact share_le (dayBudget_nonneg r paidBefore)

theorem DayOk.totalPaid_nonneg (h : DayOk n paidBefore r d) (hr : r.Sound) : 0 ≤ d.totalPaid := by
  rw [← h.totalPaid]
  refine List.sum_nonneg fun p hp => ?_
  obtain ⟨x, hx, rfl⟩ := List.mem_map.1 hp
  rw [h.paid x hx]
  have hs := share_le_self d.totalPayable ((h.rows x hx).payable_nonneg hr)
    (dayBudget_nonneg r paidBefore)
  rw [← h.scale] at hs
  exact hs.1

/-- The season stays within the cap of its set. -/
theorem DayOk.season_le (h : DayOk n paidBefore r d) (hb : paidBefore ≤ r.capSeason) :
    paidBefore + d.totalPaid ≤ r.capSeason := by
  have hle := h.totalPaid_le
  have : dayBudget r paidBefore ≤ r.capSeason - paidBefore := by
    unfold dayBudget
    refine max_le (by omega) (min_le_right _ _)
  omega

/-- The check of a day, once what follows from the rest is left out. -/
theorem checkDay_ok (hset : ruleSetOf keys d.rulesFingerprint = some (pos, r)) (hprev : prev ≤ pos)
    (hb : paidBefore ≤ r.capSeason) {out : Nat × Int} :
    checkDay keys n prev paidBefore d = .ok out ↔
      DayOk n paidBefore r d ∧ out = (pos, paidBefore + d.totalPaid) := by
  have hr : r.Sound := sound_of_mem (List.mem_of_getElem? (ruleSetOf_eq_some hset).1)
  have hrows : ∀ {α : Type} {k : Unit → Except Refusal α} {a : α},
      (checkRows r [] d.rows >>= k) = .ok a ↔ checkRows r [] d.rows = .ok () ∧ k () = .ok a := by
    intro α k a
    cases checkRows r [] d.rows <;> simp [bind, Except.bind]
  unfold checkDay
  simp only [hset, ensure_bind_eq_ok, hrows, checkRows_ok]
  constructor
  · rintro ⟨h1, -, h3, h4, ⟨h5, -, h6⟩, ⟨h7, h8, h9⟩, h10, -, ⟨h12, h13⟩, -, hout⟩
    refine ⟨⟨h1, ?_, h5, fun x hx => (h6 x hx).1, h7, h8, h9, h10, h12, ?_⟩, (Except.ok.inj hout).symm⟩
    · by_cases hk : paysJudgePresence r = true
      · exact h3 hk
      · rw [paysJudgePresence_eq_false.1 hk]
        exact h4.resolve_left hk
    · intro x hx
      rw [h13 x hx, ← h12]
  · rintro ⟨h, rfl⟩
    have hpaid : ∀ x ∈ d.rows, x.paid = x.payable * (dayScale (dayBudget r paidBefore) d.totalPayable).1 /
        (dayScale (dayBudget r paidBefore) d.totalPayable).2 := by
      intro x hx
      rw [← h.scale]
      exact h.paid x hx
    refine ⟨h.day, hprev, fun _ => h.kitMin, ?_, ⟨h.nodup, by simp, ?_⟩,
      ⟨h.totalPaid, h.totalPayable, h.totalGross⟩, h.budget, ⟨?_, ?_⟩, ⟨h.scale, hpaid⟩, h.season_le hb, rfl⟩
    · by_cases hk : paysJudgePresence r = true
      · exact .inl hk
      · rw [h.kitMin, paysJudgePresence_eq_false.1 hk]
        exact .inr rfl
    · intro x hx
      refine ⟨h.rows x hx, ?_⟩
      have hs := share_le_self d.totalPayable ((h.rows x hx).payable_nonneg hr)
        (dayBudget_nonneg r paidBefore)
      rw [hpaid x hx]
      exact hs
    · rw [h.budget]
      exact h.totalPaid_le
    · rw [h.budget]
      exact dayBudget_le hr paidBefore

end Day

end Dendra.Season
