import Dendra.Season.Formula

/-!
# The shares of a day

The budget of a day is shared in proportion to what the rows are payable. The rows of a ranking are those of
the identities, whatever the order in which they were given, and a row that is payable nothing has no part in
what the others are paid.

* `computeDay_perm`: the order of the identities.
* `Shared`: how the budget is shared.
* `shared_of_computeDay`, `computeDay_shares`: so it is on every computed day.
-/

namespace Dendra.Season

section Order

variable {l : List Row} {x y : Row}

instance : Std.Total rankedBefore where
  total x y := by
    unfold rankedBefore
    obtain h | h | h := lt_trichotomy x.paid y.paid
    · exact .inr (.inl h)
    · obtain hle | hle := le_total x.minerId y.minerId
      · exact .inl (.inr ⟨h.symm, hle⟩)
      · exact .inr (.inr ⟨h, hle⟩)
    · exact .inl (.inl h)

instance : IsTrans Row rankedBefore where
  trans x y z hxy hyz := by
    unfold rankedBefore at *
    obtain h | ⟨h, hle⟩ := hxy <;> obtain h' | ⟨h', hle'⟩ := hyz
    · exact .inl (h'.trans h)
    · exact .inl (h' ▸ h)
    · exact .inl (h ▸ h')
    · exact .inr ⟨h'.trans h, hle.trans hle'⟩

/-- Two rows that stand before each other are of one identity. -/
theorem minerId_of_rankedBefore (h : rankedBefore x y) (h' : rankedBefore y x) : x.minerId = y.minerId := by
  unfold rankedBefore at h h'
  obtain h | ⟨h, hle⟩ := h <;> obtain h' | ⟨h', hle'⟩ := h'
  · exact absurd h (lt_asymm h')
  · omega
  · omega
  · exact le_antisymm hle hle'

/-- Rows of distinct identities have one order. -/
theorem insertionSort_perm {l' : List Row} (hp : l.Perm l') (hn : (l.map Row.minerId).Nodup) :
    l.insertionSort rankedBefore = l'.insertionSort rankedBefore := by
  have hsort : (l.insertionSort rankedBefore).Perm l := List.perm_insertionSort _ _
  have hsort' : (l'.insertionSort rankedBefore).Perm l := (List.perm_insertionSort _ _).trans hp.symm
  refine (hsort.trans hsort'.symm).eq_of_pairwise (fun x y hx hy h h' => ?_)
    (List.pairwise_insertionSort _ _) (List.pairwise_insertionSort _ _)
  exact List.inj_on_of_nodup_map hn (hsort.mem_iff.1 hx) (hsort'.mem_iff.1 hy) (minerId_of_rankedBefore h h')

end Order

/-- How the budget of a day is shared among its rows: within the caps, each row is paid what it is payable if
all of it fits and the floor of its share otherwise, and nobody is paid less for being payable more. -/
structure Shared (r : Rules) (paidBefore : Int) (d : DayResult) : Prop where
  sum : (d.rows.map Row.paid).sum ≤ min r.capProgrammeDay (max 0 (r.capSeason - paidBefore))
  fits : (d.rows.map Row.payable).sum ≤ min r.capProgrammeDay (max 0 (r.capSeason - paidBefore)) →
    ∀ x ∈ d.rows, x.paid = x.payable
  scaled : ¬(d.rows.map Row.payable).sum ≤ min r.capProgrammeDay (max 0 (r.capSeason - paidBefore)) →
    ∀ x ∈ d.rows, x.paid =
      x.payable * min r.capProgrammeDay (max 0 (r.capSeason - paidBefore)) / (d.rows.map Row.payable).sum
  mono : ∀ x ∈ d.rows, ∀ y ∈ d.rows, x.payable ≤ y.payable → x.paid ≤ y.paid

/-- The rows of a ranking that are payable something. -/
def DayResult.payableRows (d : DayResult) : List Row := d.rows.filter fun x => decide (x.payable ≠ 0)

section Day

variable {n : Nat} {paidBefore : Int} {r : Rules} {ids ids' : List Identity} {d d' : DayResult} {x : Row}

/-- A ranking does not depend on the order of the facts. -/
theorem computeDay_perm (h : ids.Perm ids') : computeDay n ids' paidBefore r = computeDay n ids paidBefore r := by
  unfold computeDay
  by_cases hn : (ids.map Identity.minerId).Nodup
  · rw [if_pos hn, if_pos ((h.map _).nodup_iff.1 hn)]
    obtain ⟨ys, ys', hys, hys', hp⟩ | ⟨hno, hno'⟩ := mapM_perm (f := fun i => rowOf i r) h
    · have hids : (ys.map Row.minerId) = ids.map Identity.minerId :=
        (map_eq_of_forall₂ (mapM_eq_some.1 hys) fun i y hy => by rw [← (rowOf_spec hy).1]; rfl).symm
      have hsum : (ys'.map Row.payable).sum = (ys.map Row.payable).sum := (hp.map _).sum_eq.symm
      have hsort (scale : Int × Int) : (ys'.map (Row.pay scale)).insertionSort rankedBefore =
          (ys.map (Row.pay scale)).insertionSort rankedBefore := by
        refine (insertionSort_perm (hp.map _) ?_).symm
        rw [List.map_map]
        exact hids ▸ hn
      rw [hys, hys']
      dsimp only
      rw [hsum, hsort]
    · rw [hno, hno']
  · rw [if_neg hn, if_neg fun hn' => hn ((h.map _).nodup_iff.2 hn')]

/-- The rows of a ranking are those of the identities. -/
theorem facts_rows (h : computeDay n ids paidBefore r = some d) : (d.rows.map Row.facts).Perm ids := by
  obtain ⟨-, ys, hys, rfl⟩ := computeDay_eq_some.1 h
  have hids : ys.map Row.facts = ids :=
    ((map_eq_of_forall₂ (f := id) (mapM_eq_some.1 hys) fun i y hy => (rowOf_spec hy).1.symm).symm.trans
      (List.map_id _))
  refine ((List.perm_insertionSort rankedBefore _).map Row.facts).trans ?_
  rw [List.map_map]
  exact .of_eq hids

/-- A row of a ranking is that of its facts, with its share. -/
theorem pay_of_mem (h : computeDay n ids paidBefore r = some d) (hx : x ∈ d.rows) :
    ∃ y, rowOf x.facts r = some y ∧
      x = y.pay (dayScale (dayBudget r paidBefore) (d.rows.map Row.payable).sum) := by
  obtain ⟨-, ys, hys, rfl⟩ := computeDay_eq_some.1 h
  have hsum : (((ys.map (Row.pay (dayScale (dayBudget r paidBefore) (ys.map Row.payable).sum))).insertionSort
      rankedBefore).map Row.payable).sum = (ys.map Row.payable).sum := by
    rw [((List.perm_insertionSort rankedBefore _).map Row.payable).sum_eq, List.map_map]
    rfl
  dsimp only at hx ⊢
  rw [hsum]
  rw [List.mem_insertionSort, List.mem_map] at hx
  obtain ⟨y, hy, rfl⟩ := hx
  obtain ⟨i, -, hi⟩ := exists_of_forall₂ (mapM_eq_some.1 hys) hy
  obtain rfl : y.facts = i := (rowOf_spec hi).1
  exact ⟨y, hi, rfl⟩

/-- The budget that the code computes is that of the caps. -/
theorem dayBudget_eq (hr : r.Sound) :
    dayBudget r paidBefore = min r.capProgrammeDay (max 0 (r.capSeason - paidBefore)) := by
  have := hr.capProgrammeDay
  unfold dayBudget
  omega

/-- A row of a ranking is payable by its facts. -/
theorem payable_nonneg (hr : r.Sound) (h : computeDay n ids paidBefore r = some d) (hx : x ∈ d.rows) :
    0 ≤ x.payable := by
  obtain ⟨y, hy, rfl⟩ := pay_of_mem h hx
  obtain ⟨-, hg, -, hp, -⟩ := rowOf_spec hy
  change 0 ≤ y.payable
  rw [hp]
  unfold payableOf
  split
  · exact grossOf_nonneg hr hg
  · exact le_rfl

theorem paid_eq (h : computeDay n ids paidBefore r = some d) (hx : x ∈ d.rows) :
    x.paid = x.payable * (dayScale (dayBudget r paidBefore) (d.rows.map Row.payable).sum).1 /
      (dayScale (dayBudget r paidBefore) (d.rows.map Row.payable).sum).2 := by
  obtain ⟨y, -, hy⟩ := pay_of_mem h hx
  rw [hy]
  rfl

theorem shared_of_computeDay (hr : r.Sound) (h : computeDay n ids paidBefore r = some d) :
    Shared r paidBefore d := by
  have hb := dayBudget_nonneg r paidBefore
  have hpaid : d.rows.map Row.paid = (d.rows.map Row.payable).map fun p =>
      p * (dayScale (dayBudget r paidBefore) (d.rows.map Row.payable).sum).1 /
        (dayScale (dayBudget r paidBefore) (d.rows.map Row.payable).sum).2 := by
    rw [List.map_map]
    exact List.map_congr_left fun x hx => paid_eq h hx
  refine ⟨?_, fun hfit x hx => ?_, fun hfit x hx => ?_, fun x hx y hy hle => ?_⟩
  · rw [← dayBudget_eq hr, hpaid]
    exact share_le hb
  · rw [← dayBudget_eq hr, ← not_lt] at hfit
    rw [paid_eq h hx, dayScale, if_neg hfit]
    simp
  · rw [← dayBudget_eq hr, not_le] at hfit
    rw [paid_eq h hx, dayScale, if_pos hfit, dayBudget_eq hr]
  · rw [paid_eq h hx, paid_eq h hy]
    unfold dayScale
    split
    · next hlt =>
      exact Int.ediv_le_ediv (hb.trans_lt hlt) (mul_le_mul_of_nonneg_right hle hb)
    · simpa using hle

/-- What is payable of the day is payable of its payable rows. -/
theorem sum_payableRows (d : DayResult) :
    (d.payableRows.map Row.payable).sum = (d.rows.map Row.payable).sum := by
  unfold DayResult.payableRows
  induction d.rows with
  | nil => rfl
  | cons x l ih =>
    by_cases hx : x.payable = 0
    · rw [List.filter_cons_of_neg (by simpa using hx), ih, List.map_cons, List.sum_cons, hx, zero_add]
    · rw [List.filter_cons_of_pos (by simpa using hx), List.map_cons, List.sum_cons, ih, List.map_cons,
        List.sum_cons]

theorem payable_eq (h : computeDay n ids paidBefore r = some d) (hx : x ∈ d.rows) :
    x.payable = ((rowOf x.facts r).map Row.payable).getD 0 := by
  obtain ⟨y, hy, hpay⟩ := pay_of_mem h hx
  rw [hy, hpay]
  rfl

/-- Two rankings with the same payable rows share the same total. -/
theorem sum_payable_congr (h : computeDay n ids paidBefore r = some d)
    (h' : computeDay n ids' paidBefore r = some d')
    (hsame : (d.payableRows.map Row.facts).Perm (d'.payableRows.map Row.facts)) :
    (d.rows.map Row.payable).sum = (d'.rows.map Row.payable).sum := by
  have hmap {ids : List Identity} {d : DayResult} (h : computeDay n ids paidBefore r = some d) :
      d.payableRows.map Row.payable =
        (d.payableRows.map Row.facts).map fun i => ((rowOf i r).map Row.payable).getD 0 := by
    rw [List.map_map]
    exact List.map_congr_left fun x hx => payable_eq h (List.mem_of_mem_filter hx)
  rw [← sum_payableRows d, ← sum_payableRows d', hmap h, hmap h']
  exact (hsame.map _).sum_eq

/-- The shares of a day: they do not depend on the order of the identities, they are those of `Shared`, and
rows that are payable nothing have no part in what the others are paid. The published sets are sound
(`sound_of_mem`). -/
theorem computeDay_shares (r : Rules) (hr : r.Sound) (n : Nat) (ids : List Identity) (paidBefore : Int) :
    (∀ ids', ids.Perm ids' → computeDay n ids' paidBefore r = computeDay n ids paidBefore r) ∧
      ∀ d, computeDay n ids paidBefore r = some d →
        (d.rows.map Row.facts).Perm ids ∧ Shared r paidBefore d ∧
        ∀ ids' d', computeDay n ids' paidBefore r = some d' →
          (d.payableRows.map Row.facts).Perm (d'.payableRows.map Row.facts) →
          ∀ x ∈ d.rows, ∀ x' ∈ d'.rows, x.facts = x'.facts → x'.paid = x.paid := by
  refine ⟨fun ids' h => computeDay_perm h, fun d h => ⟨facts_rows h, shared_of_computeDay hr h, ?_⟩⟩
  intro ids' d' h' hsame x hx x' hx' hfacts
  rw [paid_eq h hx, paid_eq h' hx', payable_eq h hx, payable_eq h' hx', hfacts,
    sum_payable_congr h h' hsame]

/-- Two identities under the first set, in either order. -/
theorem computeDay_shares_first :
    computeDay 0 [⟨['b'], 0, 1, 3, ['y'], 0, false, none, false⟩,
      ⟨['a'], 10, 2, 0, ['x'], 0, false, none, false⟩] 0 rules17 =
    computeDay 0 [⟨['a'], 10, 2, 0, ['x'], 0, false, none, false⟩,
      ⟨['b'], 0, 1, 3, ['y'], 0, false, none, false⟩] 0 rules17 :=
  (computeDay_shares rules17 (sound_plain (by decide) rfl) 0 _ 0).1 _ (.swap _ _ _)

end Day

end Dendra.Season
