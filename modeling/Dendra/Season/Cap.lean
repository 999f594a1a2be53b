import Dendra.Season.Payments
import Dendra.Lib.Run

/-!
# What the season really sends

The rankings are published day by day, weeks are paid as their days are ranked, and amendments when they are
frozen. The budget of a day is what the rankings before it left of the season's cap; it does not count the
amendments. So a day ranked after an amendment was paid may spend again what the amendment spent.

* `PayStep`: publications, weeks and amendments, in any order.
* `BudgetCounts`: a day is published within what the cap leaves after the rankings and the amendments paid.
* `sent_within_cap`: then the season never sends more than its cap.
* `sent_past_cap`: a run that sends 3 500 DNDR under a cap of 3 000.
-/

namespace Dendra.Season

variable (keys : Keys) (payableAddress : Str → Bool) (doubledFrom : Option Nat)
  (rankings : List (DayResult × Option Int))

/-! ## The system -/

/-- What the payer has done: how many days are ranked, the weeks and amendments paid, and the udndr sent. -/
structure Ledger where
  ranked : Nat
  weeks : Finset Nat
  amended : List Amendment
  sent : Int

def Ledger.start : Ledger := ⟨0, ∅, [], 0⟩

/-- The rankings that are published. -/
def Ledger.published (s : Ledger) : Rankings := fun d => if d < s.ranked then rankings[d]? else none

/-- `_amendment_days`: the published days from day `d` on, up to the season's last. -/
def amendmentDays (src : Rankings) (d : Nat) : Nat → List DayResult
  | 0 => []
  | fuel + 1 =>
    match src d with
    | none => []
    | some (day, some _) => [day]
    | some (day, none) => day :: amendmentDays src (d + 1) fuel

inductive PayAction
  | publish
  | week (week : Nat) (amendments : List Amendment)
  | amend (a : Amendment) (amendments : List Amendment)

/-- A week or an amendment is paid once, on the rankings published then. Every amendment that was paid is among
the frozen ones (`amendment_chain_refusal`), and they have distinct names. -/
inductive PayStep : Ledger → PayAction → Ledger → Prop
  | publish {s : Ledger} (h : s.ranked < rankings.length) :
      PayStep s .publish { s with ranked := s.ranked + 1 }
  | week {s : Ledger} {w : Nat} {amendments : List Amendment} {payable : List (Str × Int)} {wd : List Nat}
      (hw : w ∉ s.weeks)
      (hp : planDays keys payableAddress w (s.published rankings) doubledFrom amendments = some (payable, wd)) :
      PayStep s (.week w amendments) { s with weeks := insert w s.weeks, sent := s.sent + total payable }
  | amend {s : Ledger} {a : Amendment} {amendments : List Amendment} (ha : a ∉ s.amended)
      (hsub : ∀ b ∈ s.amended, b ∈ amendments)
      (hfile : amendments.find? (fun b => decide (b.id = a.id)) = some a)
      (hok : amendmentRefusal keys a.id amendments
        (amendmentDays (s.published rankings) 0 rankings.length) = none) :
      PayStep s (.amend a amendments)
        { s with amended := a :: s.amended, sent := s.sent + total (amendmentPayable a) }

/-- Rankings that an honest service publishes: they pass the check, and only the last day holds the season's
end. -/
structure Honest : Prop where
  accepted : checkDays keys (rankings.map Prod.fst) = none
  last : ∀ i d e, rankings[i]? = some (d, some e) → i + 1 = rankings.length

/-- What day `d` paid, once it is ranked. -/
def paidOn (ranked d : Nat) : Int := if d < ranked then (rankings[d]?).elim 0 fun e => e.1.totalPaid else 0

/-- What the ranked days paid. -/
def rankedTotal (ranked : Nat) : Int := ∑ d ∈ Finset.range ranked, paidOn rankings ranked d

def amendedTotal (s : Ledger) : Int := (s.amended.map Amendment.udndr).sum

/-- The cap of the set of the last day ranked. -/
def lastCap (ranked : Nat) : Int :=
  ((rankings.take ranked).getLast?).elim 0 fun e => capSeasonOf keys e.1

/-- A day that pays is published within what the cap of its set leaves after the earlier days and the
amendments paid. -/
def BudgetCounts (s : Ledger) (a : PayAction) : Prop :=
  a = .publish → ∀ e, rankings[s.ranked]? = some e → e.1.totalPaid = 0 ∨
    rankedTotal rankings s.ranked + e.1.totalPaid + amendedTotal s ≤ capSeasonOf keys e.1

/-! ## The days -/

section Days

variable {keys rankings} {n prev pos : Nat} {paidBefore : Int} {days : List DayResult} {d d' : DayResult} {i : Nat}

/-- An accepted list has its sets in order. -/
theorem setsInOrder_of_accepted (h : checkFrom keys n prev paidBefore days = none) :
    SetsInOrder keys prev days := by
  induction days generalizing n prev paidBefore with
  | nil => trivial
  | cons d days ih =>
    unfold checkFrom at h
    split at h
    · cases h
    · next out pos paid hc =>
      cases hset : ruleSetOf keys d.rulesFingerprint with
      | none =>
        unfold checkDay at hc
        simp [hset] at hc
      | some e =>
        obtain ⟨pos', r⟩ := e
        have hpos : pos' = pos ∧ prev ≤ pos' := by
          unfold checkDay at hc
          simp only [hset, ensure_bind_eq_ok] at hc
          obtain ⟨-, hprev, -, -, hrest⟩ := hc
          cases hr : checkRows r [] d.rows with
          | error why =>
            rw [hr] at hrest
            cases hrest
          | ok u =>
            rw [hr] at hrest
            simp only [bind, Except.bind] at hrest
            have hrest := hrest
            simp only [ensure] at hrest
            repeat' split at hrest
            all_goals simp only [pure, Except.pure, reduceCtorEq, Except.ok.injEq, Prod.mk.injEq] at hrest
            exact ⟨hrest.1, hprev⟩
        obtain ⟨rfl, hprev⟩ := hpos
        exact ⟨pos', r, hset, hprev, ih h⟩

/-- Each day of an accepted list is right, under a set that it names. -/
theorem dayOk_of_accepted (h : checkFrom keys n prev paidBefore days = none)
    (hb : WithinCaps keys prev paidBefore) (hd : d ∈ days) :
    ∃ m pos r pb, ruleSetOf keys d.rulesFingerprint = some (pos, r) ∧ DayOk m pb r d := by
  have hsets := setsInOrder_of_accepted h
  induction days generalizing n prev paidBefore with
  | nil => cases hd
  | cons a days ih =>
    obtain ⟨pos, r, hset, hprev, hrest⟩ := hsets
    obtain ⟨hget, -⟩ := ruleSetOf_eq_some hset
    obtain ⟨hok, hdays⟩ := (checkFrom_cons hset hprev hb).1 h
    rcases List.mem_cons.1 hd with rfl | hd
    · exact ⟨n, pos, r, paidBefore, hset, hok⟩
    · exact ih hdays (hok.withinCaps hget (hb pos r hget hprev)) hd hrest

theorem capSeasonOf_nonneg : 0 ≤ capSeasonOf keys d := by
  unfold capSeasonOf
  cases h : ruleSetOf keys d.rulesFingerprint with
  | none => exact le_refl _
  | some e => exact (sound_of_mem (List.mem_of_getElem? (ruleSetOf_eq_some h).1)).capSeason

/-- The cap does not shrink from one day to the next. -/
theorem capSeasonOf_le (h : SetsInOrder keys prev days) (hd : days[i]? = some d)
    (hd' : days[i + 1]? = some d') : capSeasonOf keys d ≤ capSeasonOf keys d' := by
  induction days generalizing prev i with
  | nil => simp at hd
  | cons a days ih =>
    obtain ⟨pos, r, hset, -, hrest⟩ := h
    cases i with
    | succ i => exact ih hrest hd hd'
    | zero =>
      obtain rfl : a = d := by simpa using hd
      cases days with
      | nil => simp at hd'
      | cons b days =>
        obtain rfl : b = d' := by simpa using hd'
        obtain ⟨pos', r', hset', hle, -⟩ := hrest
        unfold capSeasonOf
        rw [hset, hset']
        exact capSeason_mono (ruleSetOf_eq_some hset).1 (ruleSetOf_eq_some hset').1 hle

variable (hr : Honest keys rankings)

include hr

theorem Honest.dayOk {e : DayResult × Option Int} (h : rankings[i]? = some e) :
    ∃ m pos r pb, ruleSetOf keys e.1.rulesFingerprint = some (pos, r) ∧ DayOk m pb r e.1 :=
  dayOk_of_accepted hr.accepted withinCaps_zero (List.mem_map_of_mem (List.mem_of_getElem? h))

theorem Honest.totalPaid_nonneg {e : DayResult × Option Int} (h : rankings[i]? = some e) :
    0 ≤ e.1.totalPaid := by
  obtain ⟨m, pos, r, pb, hset, hok⟩ := hr.dayOk h
  exact hok.totalPaid_nonneg (sound_of_mem (List.mem_of_getElem? (ruleSetOf_eq_some hset).1))

theorem Honest.paid_nonneg {e : DayResult × Option Int} (h : rankings[i]? = some e) :
    ∀ x ∈ e.1.rows, 0 ≤ x.paid := by
  obtain ⟨m, pos, r, pb, hset, hok⟩ := hr.dayOk h
  have hsound := sound_of_mem (List.mem_of_getElem? (ruleSetOf_eq_some hset).1)
  intro x hx
  have hs := share_le_self e.1.totalPayable ((hok.rows x hx).payable_nonneg hsound)
    (dayBudget_nonneg r pb)
  rw [hok.paid x hx]
  rw [← hok.scale] at hs
  exact hs.1

theorem Honest.paidOn_nonneg (ranked d : Nat) : 0 ≤ paidOn rankings ranked d := by
  unfold paidOn
  split
  · cases h : rankings[d]? with
    | none => exact le_refl _
    | some e => exact hr.totalPaid_nonneg h
  · exact le_refl _

end Days

/-! ## The sums -/

section Sums

variable {keys payableAddress doubledFrom rankings} {ranked : Nat}

theorem paidOn_of_lt {d : Nat} {e : DayResult × Option Int} (hd : d < ranked) (h : rankings[d]? = some e) :
    paidOn rankings ranked d = e.1.totalPaid := by
  unfold paidOn
  rw [if_pos hd, h]
  rfl

/-- One day more. -/
theorem rankedTotal_succ {e : DayResult × Option Int} (h : rankings[ranked]? = some e) :
    rankedTotal rankings (ranked + 1) = rankedTotal rankings ranked + e.1.totalPaid := by
  unfold rankedTotal
  rw [Finset.sum_range_succ, paidOn_of_lt (Nat.lt_succ_self ranked) h]
  congr 1
  refine Finset.sum_congr rfl fun d hd => ?_
  have hd := Finset.mem_range.1 hd
  unfold paidOn
  rw [if_pos hd, if_pos (by omega)]

/-- What the weeks may have sent: the ranked days of each, every day in one week at most. -/
theorem sum_weeks_le (hr : Honest keys rankings) (weeks : Finset Nat) (ranked : Nat) :
    ∑ w ∈ weeks, ∑ i ∈ Finset.range 7, paidOn rankings ranked (7 * w + i) ≤ rankedTotal rankings ranked := by
  rw [← Finset.sum_product']
  have hinj : Set.InjOn (fun p : Nat × Nat => 7 * p.1 + p.2) (weeks ×ˢ Finset.range 7 : Finset (Nat × Nat)) := by
    intro p hp q hq hpq
    have hp2 := Finset.mem_range.1 (Finset.mem_product.1 hp).2
    have hq2 := Finset.mem_range.1 (Finset.mem_product.1 hq).2
    have hpq : 7 * p.1 + p.2 = 7 * q.1 + q.2 := hpq
    exact Prod.ext (by omega) (by omega)
  rw [← Finset.sum_image (f := paidOn rankings ranked) hinj]
  unfold rankedTotal
  rw [← Finset.sum_filter_of_ne (p := fun d => d < ranked)]
  · refine Finset.sum_le_sum_of_subset_of_nonneg ?_ fun d _ _ => hr.paidOn_nonneg ranked d
    intro d hd
    exact Finset.mem_range.2 (Finset.mem_filter.1 hd).2
  · intro d _ hne
    by_contra hlt
    exact hne (if_neg hlt)

/-- The days that `plan_days` loads are published ones. -/
theorem loadDays_get {src : Rankings} {d fuel : Nat} {l : List DayResult} {last : Option Nat}
    (h : loadDays src d fuel = some (l, last)) {i : Nat} {day : DayResult} (hi : l[i]? = some day) :
    ∃ e, src (d + i) = some (day, e) := by
  induction fuel generalizing d l i last with
  | zero =>
    obtain ⟨rfl, -⟩ := Prod.mk.inj (Option.some.inj h)
    simp at hi
  | succ fuel ih =>
    unfold loadDays at h
    split at h
    · cases h
    · next day' end' hsrc =>
      obtain ⟨rfl, -⟩ := Prod.mk.inj (Option.some.inj h)
      cases i with
      | zero =>
        obtain rfl : day' = day := by simpa using hi
        exact ⟨_, hsrc⟩
      | succ i => simp at hi
    · next day' hsrc =>
      obtain ⟨⟨l', last'⟩, hl, heq⟩ := Option.map_eq_some_iff.1 h
      obtain ⟨rfl, -⟩ := Prod.mk.inj heq
      cases i with
      | zero =>
        obtain rfl : day' = day := by simpa using hi
        exact ⟨_, hsrc⟩
      | succ i =>
        obtain ⟨e, he⟩ := ih hl (i := i) (by simpa using hi)
        exact ⟨e, by rwa [show d + (i + 1) = d + 1 + i by omega]⟩

theorem weekDays_sublist {week : Nat} {last : Option Nat} {wd : List Nat} (h : weekDays week last = some wd) :
    wd.Sublist ((List.range 7).map fun i => 7 * week + i) := by
  unfold weekDays at h
  dsimp only at h
  split at h
  · obtain rfl := Option.some.inj h
    exact List.Sublist.refl _
  · split at h
    · cases h
    · obtain rfl := Option.some.inj h
      exact List.filter_sublist

/-- A week sends at most what its ranked days paid. -/
theorem sum_planDays_le (hr : Honest keys rankings) {s : Ledger} {w : Nat} {amendments : List Amendment}
    {payable : List (Str × Int)} {wd : List Nat}
    (h : planDays keys payableAddress w (s.published rankings) doubledFrom amendments = some (payable, wd)) :
    total payable ≤ ∑ i ∈ Finset.range 7, paidOn rankings s.ranked (7 * w + i) := by
  unfold planDays at h
  split at h
  · cases h
  · next loaded last hload =>
    split at h
    · cases h
    · next wd' hwd =>
      split at h
      · cases h
      · split at h
        · cases h
        · next payable' aside hplan =>
          split at h
          · obtain ⟨rfl, rfl⟩ := Prod.mk.inj (Option.some.inj h)
            have hget : ∀ (i : Nat) (day : DayResult), loaded[i]? = some day → i < s.ranked ∧ ∃ e, rankings[i]? = some (day, e) := by
              intro i day hi
              obtain ⟨e, he⟩ := loadDays_get hload hi
              rw [Nat.zero_add] at he
              unfold Ledger.published at he
              split at he
              · next hlt => exact ⟨hlt, e, he⟩
              · cases he
            have hdays : ∀ day ∈ wd'.filterMap (fun d => loaded[d]?), ∃ (i : Nat) (e : Option Int), rankings[i]? = some (day, e) := by
              intro day hday
              obtain ⟨i, -, hi⟩ := List.mem_filterMap.1 hday
              obtain ⟨-, e, he⟩ := hget i day hi
              exact ⟨i, e, he⟩
            have hsum := sum_weekPlan_le (fun day hday => by
                obtain ⟨i, e, he⟩ := hdays day hday
                exact hr.paid_nonneg he)
              (fun day hday => by
                obtain ⟨i, e, he⟩ := hdays day hday
                obtain ⟨m, pos, r, pb, -, hok⟩ := hr.dayOk he
                exact hok.totalPaid) hplan
            have hstep : ∀ l : List Nat, ((l.filterMap fun d => loaded[d]?).map DayResult.totalPaid).sum ≤
                (l.map (paidOn rankings s.ranked)).sum := by
              intro l
              induction l with
              | nil => exact le_refl _
              | cons d l ih =>
                rw [List.map_cons, List.sum_cons, List.filterMap_cons]
                have hnonneg := hr.paidOn_nonneg s.ranked d
                cases hd : loaded[d]? with
                | none =>
                  dsimp only
                  omega
                | some day =>
                  obtain ⟨hlt, e, he⟩ := hget d day hd
                  have hpaid := paidOn_of_lt hlt he
                  dsimp only at hpaid ⊢
                  rw [List.map_cons, List.sum_cons]
                  omega
            have hsub : (wd'.map (paidOn rankings s.ranked)).sum ≤
                (((List.range 7).map fun i => 7 * w + i).map (paidOn rankings s.ranked)).sum := by
              refine ((weekDays_sublist hwd).map _).sum_le_sum fun v hv => ?_
              obtain ⟨d, -, rfl⟩ := List.mem_map.1 hv
              exact hr.paidOn_nonneg s.ranked d
            have hrange : (((List.range 7).map fun i => 7 * w + i).map (paidOn rankings s.ranked)).sum =
                ∑ i ∈ Finset.range 7, paidOn rankings s.ranked (7 * w + i) := by
              rw [List.map_map]
              rfl
            exact hsum.trans ((hstep wd').trans (hsub.trans (le_of_eq hrange)))
          · cases h

end Sums

/-! ## The invariant -/

section Invariant

variable {keys payableAddress doubledFrom rankings} {s s' : Ledger} {act : PayAction}

theorem lastCap_succ {n : Nat} {e : DayResult × Option Int} (h : rankings[n]? = some e) :
    lastCap keys rankings (n + 1) = capSeasonOf keys e.1 := by
  unfold lastCap
  rw [List.take_add_one, h]
  simp

/-- The cap does not shrink. -/
theorem lastCap_le_succ (hr : Honest keys rankings) {n : Nat} {e : DayResult × Option Int}
    (h : rankings[n]? = some e) : lastCap keys rankings n ≤ lastCap keys rankings (n + 1) := by
  rw [lastCap_succ h]
  cases n with
  | zero => exact capSeasonOf_nonneg
  | succ n =>
    have hlt : n + 1 < rankings.length := (List.getElem?_eq_some_iff.1 h).1
    have hn : rankings[n]? = some rankings[n] := List.getElem?_eq_getElem (by omega)
    rw [lastCap_succ hn]
    refine capSeasonOf_le (i := n) (setsInOrder_of_accepted hr.accepted) ?_ ?_
    · rw [List.getElem?_map, hn]
      rfl
    · rw [List.getElem?_map, h]
      rfl

/-- An amendment is checked against the days that are ranked. -/
theorem amendmentDays_published (hr : Honest keys rankings) (hle : s.ranked ≤ rankings.length) {d fuel : Nat}
    (hfuel : s.ranked ≤ d + fuel) :
    amendmentDays (s.published rankings) d fuel = ((rankings.take s.ranked).drop d).map Prod.fst := by
  induction fuel generalizing d with
  | zero =>
    rw [List.drop_eq_nil_of_le (by rw [List.length_take]; omega)]
    rfl
  | succ fuel ih =>
    unfold amendmentDays Ledger.published
    by_cases hd : d < s.ranked
    · have hlen : d < rankings.length := by omega
      have hdrop : (rankings.take s.ranked).drop d =
          rankings[d] :: (rankings.take s.ranked).drop (d + 1) := by
        rw [List.drop_eq_getElem_cons (by rw [List.length_take]; omega), List.getElem_take]
      rw [if_pos hd, List.getElem?_eq_getElem hlen, hdrop, List.map_cons]
      cases hday : rankings[d] with
      | mk day last =>
        cases last with
        | none => exact congrArg (day :: ·) (ih (by omega))
        | some e =>
          have hlast := hr.last d day e (by rw [List.getElem?_eq_getElem hlen, hday])
          rw [List.drop_eq_nil_of_le (by rw [List.length_take]; omega)]
          rfl
    · rw [if_neg hd, List.drop_eq_nil_of_le (by rw [List.length_take]; omega)]
      rfl

theorem rankedTotal_eq_sum (hle : s.ranked ≤ rankings.length) :
    rankedTotal rankings s.ranked =
      (((rankings.take s.ranked).map Prod.fst).map DayResult.totalPaid).sum := by
  have h : ∀ n ≤ rankings.length, rankedTotal rankings n =
      (((rankings.take n).map Prod.fst).map DayResult.totalPaid).sum := by
    intro n
    induction n with
    | zero => exact fun _ => rfl
    | succ n ih =>
      intro hn
      have hget : rankings[n]? = some rankings[n] := List.getElem?_eq_getElem (by omega)
      rw [rankedTotal_succ hget, ih (by omega), List.take_add_one, hget]
      simp only [Option.toList_some, List.map_append, List.map_cons, List.map_nil, List.sum_append,
        List.sum_cons, List.sum_nil, add_zero]
  exact h s.ranked hle

theorem Amendment.udndr_nonneg (a : Amendment) : 0 ≤ a.udndr :=
  List.sum_nonneg fun v hv => by
    obtain ⟨row, hrow, rfl⟩ := List.mem_map.1 hv
    exact (a.udndr_pos row hrow).le

/-- Amendments that are all frozen, none twice, spend no more than what is frozen. -/
theorem sum_udndr_le {paid amendments : List Amendment} (hnodup : paid.Nodup)
    (hsub : ∀ b ∈ paid, b ∈ amendments) :
    (paid.map Amendment.udndr).sum ≤ ((frozenRows amendments).map AmendRow.udndr).sum := by
  obtain ⟨l, hperm, hl⟩ := List.subperm_of_subset hnodup hsub
  have hflat : ((frozenRows amendments).map AmendRow.udndr).sum = (amendments.map Amendment.udndr).sum := by
    unfold frozenRows
    rw [List.map_flatMap, List.flatMap, List.sum_flatten, List.map_map]
    rfl
  rw [hflat, ← (hperm.map Amendment.udndr).sum_eq]
  refine (hl.map _).sum_le_sum fun v hv => ?_
  obtain ⟨a, -, rfl⟩ := List.mem_map.1 hv
  exact a.udndr_nonneg

/-- What an accepted amendment is: each of its rows is refused by no check, and what is frozen is within the
caps of its days and of the last one. -/
theorem amendmentRefusal_eq_none {n : Nat} {amendments : List Amendment} {days : List DayResult} :
    amendmentRefusal keys n amendments days = none ↔
      ∃ doc last, amendments.find? (fun a => decide (a.id = n)) = some doc ∧
        firstRepeated [] (frozenRows amendments) = none ∧
        (doc.rows.findSome? fun row => rowRefusal row days) = none ∧
        (∀ row ∈ doc.rows, ∃ day, days[row.day]? = some day ∧
          day.totalPaid + (((frozenRows amendments).filter fun r => decide (r.day = row.day)).map
            AmendRow.udndr).sum ≤ capDayOf keys day) ∧
        days.getLast? = some last ∧
        (days.map DayResult.totalPaid).sum + ((frozenRows amendments).map AmendRow.udndr).sum ≤
          capSeasonOf keys last := by
  unfold amendmentRefusal
  dsimp only
  constructor
  · intro h
    split at h
    · cases h
    · next doc hdoc =>
      split at h
      · cases h
      · next hrepeated =>
        split at h
        · cases h
        · next hrows =>
          split at h
          · cases h
          · next hpast =>
            split at h
            · cases h
            · next last hlast =>
              split at h
              · cases h
              · next hcap =>
                refine ⟨doc, last, hdoc, hrepeated, hrows, fun row hrow => ?_, hlast, not_lt.1 hcap⟩
                have hrow := List.find?_eq_none.1 hpast row.day (List.mem_map_of_mem hrow)
                split at hrow
                · exact absurd rfl hrow
                · next day hday => exact ⟨day, hday, not_lt.1 fun hgt => hrow (decide_eq_true hgt)⟩
  · rintro ⟨doc, last, hdoc, hrepeated, hrows, hdays, hlast, hcap⟩
    rw [hdoc]
    dsimp only
    rw [hrepeated]
    dsimp only
    rw [hrows]
    dsimp only
    rw [List.find?_eq_none.2 fun d hd => ?_]
    · dsimp only
      rw [hlast]
      exact if_neg (not_lt.2 hcap)
    · obtain ⟨row, hrow, rfl⟩ := List.mem_map.1 hd
      obtain ⟨day, hday, hle⟩ := hdays row hrow
      rw [hday]
      exact fun hgt => absurd (of_decide_eq_true hgt) (not_lt.2 hle)

variable (keys rankings) in
/-- The invariant: what was sent is what weeks and amendments paid, and both are within the cap. -/
structure PayInv (s : Ledger) : Prop where
  ranked_le : s.ranked ≤ rankings.length
  sent : s.sent ≤
    ∑ w ∈ s.weeks, ∑ i ∈ Finset.range 7, paidOn rankings s.ranked (7 * w + i) + amendedTotal s
  cap : rankedTotal rankings s.ranked + amendedTotal s ≤ lastCap keys rankings s.ranked
  nodup : s.amended.Nodup

theorem PayInv.start : PayInv keys rankings Ledger.start where
  ranked_le := Nat.zero_le _
  sent := le_refl _
  cap := le_refl _
  nodup := List.nodup_nil

/-- A day that is ranked counts for no less in what was paid before. -/
theorem paidOn_le_succ (hr : Honest keys rankings) (ranked d : Nat) :
    paidOn rankings ranked d ≤ paidOn rankings (ranked + 1) d := by
  by_cases hd : d < ranked
  · unfold paidOn
    rw [if_pos hd, if_pos (by omega)]
  · have h0 : paidOn rankings ranked d = 0 := if_neg hd
    rw [h0]
    exact hr.paidOn_nonneg (ranked + 1) d

theorem PayInv.step (hr : Honest keys rankings) (h : PayInv keys rankings s)
    (hs : PayStep keys payableAddress doubledFrom rankings s act s')
    (hb : BudgetCounts keys rankings s act) : PayInv keys rankings s' := by
  cases hs with
  | publish hlt =>
    have hget : rankings[s.ranked]? = some rankings[s.ranked] := List.getElem?_eq_getElem hlt
    refine ⟨hlt, ?_, ?_, h.nodup⟩
    · refine h.sent.trans (add_le_add_left (Finset.sum_le_sum fun w _ => Finset.sum_le_sum fun i _ => ?_) _)
      exact paidOn_le_succ hr s.ranked _
    · have hcap := h.cap
      have hmono := lastCap_le_succ hr hget
      have hsucc : lastCap keys rankings (s.ranked + 1) = _ := lastCap_succ hget
      have hday := hb rfl _ hget
      unfold amendedTotal at hcap hday ⊢
      dsimp only at hcap hday ⊢
      rw [rankedTotal_succ hget]
      omega
  | week hw hp =>
    refine ⟨h.ranked_le, ?_, h.cap, h.nodup⟩
    have hsent := h.sent
    have hplan := sum_planDays_le hr hp
    unfold amendedTotal at hsent ⊢
    dsimp only at hsent ⊢
    rw [Finset.sum_insert hw]
    omega
  | @amend a amendments ha hsub hfile hok =>
    have hnodup : (a :: s.amended).Nodup := List.nodup_cons.2 ⟨ha, h.nodup⟩
    have hmem : ∀ b ∈ a :: s.amended, b ∈ amendments :=
      List.forall_mem_cons.2 ⟨List.mem_of_find?_eq_some hfile, hsub⟩
    obtain ⟨-, last, -, -, -, -, hlast, hcap⟩ := amendmentRefusal_eq_none.1 hok
    rw [amendmentDays_published hr h.ranked_le (by have := h.ranked_le; omega), List.drop_zero] at hlast hcap
    refine ⟨h.ranked_le, ?_, ?_, hnodup⟩
    · have hsent := h.sent
      unfold amendedTotal at hsent ⊢
      dsimp only
      rw [total_amendmentPayable, List.map_cons, List.sum_cons]
      omega
    · have hle := sum_udndr_le hnodup hmem
      have hlastCap : lastCap keys rankings s.ranked = capSeasonOf keys last := by
        unfold lastCap
        rw [List.getLast?_map] at hlast
        obtain ⟨e, he, rfl⟩ := Option.map_eq_some_iff.1 hlast
        rw [he]
        rfl
      unfold amendedTotal
      dsimp only
      rw [hlastCap, rankedTotal_eq_sum h.ranked_le]
      omega

end Invariant

/-! ## The runs -/

/-- If every day is published within what the cap leaves after the days and the amendments before it, the
weeks and the amendments never send more than the cap, in any order. -/
theorem sent_within_cap (keys : Keys) (payableAddress : Str → Bool) (doubledFrom : Option Nat)
    (rankings : List (DayResult × Option Int)) (hr : Honest keys rankings) {s : Ledger}
    (h : Reach (· = Ledger.start) (PayStep keys payableAddress doubledFrom rankings)
      (BudgetCounts keys rankings) s) : s.sent ≤ lastCap keys rankings s.ranked := by
  have hinv : PayInv keys rankings s := h.invariant (fun _ hs => hs ▸ PayInv.start)
    fun _ _ _ _ hinv hok hstep => hinv.step hr hstep hok
  have hweeks := sum_weeks_le hr s.weeks s.ranked
  have hsent := hinv.sent
  have hcap := hinv.cap
  omega

/-- One day is ranked, which ends the season, and its week is paid. -/
theorem sent_within_cap_first : (106000 : Int) ≤ lastCap someKeys [(firstDay, some 17280)] 1 := by
  have hr : Honest someKeys [(firstDay, some 17280)] :=
    ⟨by decide +kernel, fun i d e h => by
      have := (List.getElem?_eq_some_iff.1 h).1
      simp only [List.length_cons, List.length_nil] at this ⊢
      omega⟩
  have hplan : planDays someKeys (fun _ => true) 0 (Ledger.published [(firstDay, some 17280)] ⟨1, ∅, [], 0⟩)
      none [] = some ([(['a'], 106000)], [0]) := by decide +kernel
  have hpublish : PayStep someKeys (fun _ => true) none [(firstDay, some 17280)] Ledger.start .publish
      ⟨1, ∅, [], 0⟩ := .publish Nat.one_pos
  have hpay : PayStep someKeys (fun _ => true) none [(firstDay, some 17280)] ⟨1, ∅, [], 0⟩ (.week 0 [])
      ⟨1, insert 0 ∅, [], 106000⟩ := .week (Finset.notMem_empty 0) hplan
  have hbudget : BudgetCounts someKeys [(firstDay, some 17280)] Ledger.start .publish := by
    rintro - e he
    obtain rfl := Option.some.inj he
    exact .inr (by decide +kernel)
  have hweek : BudgetCounts someKeys [(firstDay, some 17280)] ⟨1, ∅, [], 0⟩ (.week 0 []) := by
    rintro ⟨⟩
  exact sent_within_cap someKeys (fun _ => true) none _ hr (.step (.step (.init rfl) hbudget hpublish) hweek hpay)

/-! ## A run that sends more -/

section Late

/-- A day on which 100 DNDR are refused for want of a capacity report. -/
def unreportedDay (n : Nat) : DayResult :=
  ⟨n, fingerprint (kitRules 3), 100000000, 0, 100000000, 0, 1, 1,
    [⟨['m'], ['a'], 0, 1000, 0, 100000000, 0, 0, noKitReport, 0, false, none, false⟩], some 3⟩

/-- A day that pays 100 DNDR. -/
def fullDay (n : Nat) : DayResult :=
  ⟨n, fingerprint (kitRules 3), 100000000, 100000000, 100000000, 100000000, 1, 1,
    [⟨['m'], ['a'], 0, 1000, 0, 100000000, 100000000, 100000000, [], 0, false, some 3, false⟩], some 3⟩

def lateDays : List DayResult := (List.range' 0 28).map unreportedDay ++ (List.range' 28 7).map fullDay

def lateRankings : List (DayResult × Option Int) := lateDays.map fun d => (d, none)

/-- The amendment of the first 28 days, frozen when they are ranked. -/
def lateAmendment : Amendment where
  id := 1
  rows := (List.range' 0 28).map fun n => ⟨n, ['m'], ['a'], 100000000, 3⟩
  rows_ne := by decide
  udndr_pos := by decide

theorem ruleSetOf_kit : ruleSetOf someKeys (fingerprint (kitRules 3)) = some (4, kitRules 3) := by
  -- one hash at a time: the kernel keeps all that it computes within one fact
  have hkit : (fingerprint (kitRules 3)).take 8 = "e297f5ca".toList := by decide +kernel
  have h18 : (fingerprint rules18).take 8 = "532100a1".toList := by decide +kernel
  have hdoubled : (fingerprint rulesDoubled).take 8 = "a7248db8".toList := by decide +kernel
  have hmore : (fingerprint rulesMoreRequests).take 8 = "58769883".toList := by decide +kernel
  show ruleSetFrom (fingerprint (kitRules 3)) 0 [rules17, rules18, rulesDoubled, rulesMoreRequests,
    kitRules 3, juryRules 3 someKeys.jury] = some (4, kitRules 3)
  rw [ruleSetFrom_of_ne (fingerprint_ne_of_head head_rules17 hkit (by decide)),
    ruleSetFrom_of_ne (fingerprint_ne_of_head h18 hkit (by decide)),
    ruleSetFrom_of_ne (fingerprint_ne_of_head hdoubled hkit (by decide)),
    ruleSetFrom_of_ne (fingerprint_ne_of_head hmore hkit (by decide)), ruleSetFrom, if_pos rfl]

theorem dayOk_unreported (n : Nat) : DayOk n 0 (kitRules 3) (unreportedDay n) where
  day := rfl
  kitMin := rfl
  nodup := List.nodup_singleton _
  rows := by
    intro x hx
    obtain rfl := List.mem_singleton.1 hx
    exact ⟨by decide, by decide, by decide, by decide, by decide, by decide⟩
  totalPaid := rfl
  totalPayable := rfl
  totalGross := rfl
  budget := show (100000000 : Int) = dayBudget (kitRules 3) 0 by decide
  scale := show ((1, 1) : Int × Int) = dayScale (dayBudget (kitRules 3) 0) 0 by decide
  paid := by
    intro x hx
    obtain rfl := List.mem_singleton.1 hx
    rfl

theorem dayOk_full (n : Nat) {paidBefore : Int} (h : paidBefore + 100000000 ≤ 3000000000) :
    DayOk n paidBefore (kitRules 3) (fullDay n) := by
  have hbudget : dayBudget (kitRules 3) paidBefore = 100000000 := by
    have hcap : (kitRules 3).capProgrammeDay = 100000000 := rfl
    have hseason : (kitRules 3).capSeason = 3000000000 := rfl
    unfold dayBudget
    omega
  refine ⟨rfl, rfl, List.nodup_singleton _, ?_, rfl, rfl, rfl, hbudget.symm, ?_, ?_⟩
  · intro x hx
    obtain rfl := List.mem_singleton.1 hx
    exact ⟨by decide, by decide, by decide, by decide, by decide, by decide⟩
  · rw [hbudget]
    exact show ((1, 1) : Int × Int) = dayScale 100000000 100000000 by decide
  · intro x hx
    obtain rfl := List.mem_singleton.1 hx
    rfl

theorem withinCaps_kit {prev : Nat} {paidBefore : Int} (hprev : 4 ≤ prev) (h : paidBefore ≤ 3000000000) :
    WithinCaps someKeys prev paidBefore := by
  intro pos r hr hle
  have hkit : (ruleHistory someKeys)[4]? = some (kitRules 3) := rfl
  exact h.trans (capSeason_mono hkit hr (hprev.trans hle))

theorem checkFrom_full {m n : Nat} {paidBefore : Int} (h : paidBefore + (m : Int) * 100000000 ≤ 3000000000) :
    checkFrom someKeys n 4 paidBefore ((List.range' n m).map fullDay) = none := by
  induction m generalizing n paidBefore with
  | zero => rfl
  | succ m ih =>
    push_cast at h
    have hpaid : (fullDay n).totalPaid = 100000000 := rfl
    rw [List.range'_succ, List.map_cons,
      checkFrom_cons ruleSetOf_kit (le_refl 4) (withinCaps_kit (le_refl 4) (by omega)), hpaid]
    exact ⟨dayOk_full n (by omega), ih (by omega)⟩

theorem checkFrom_unreported {m n prev : Nat} {days : List DayResult} (hprev : prev ≤ 4)
    (h : checkFrom someKeys (n + m + 1) 4 0 days = none) :
    checkFrom someKeys n prev 0 ((List.range' n (m + 1)).map unreportedDay ++ days) = none := by
  have hb : WithinCaps someKeys prev 0 :=
    fun _ _ hr _ => (sound_of_mem (List.mem_of_getElem? hr)).capSeason
  have hpaid : (unreportedDay n).totalPaid = 0 := rfl
  induction m generalizing n prev with
  | zero =>
    rw [List.range'_succ, List.map_cons, List.cons_append, checkFrom_cons ruleSetOf_kit hprev hb, hpaid]
    exact ⟨dayOk_unreported n, h⟩
  | succ m ih =>
    rw [List.range'_succ, List.map_cons, List.cons_append, checkFrom_cons ruleSetOf_kit hprev hb, hpaid]
    refine ⟨dayOk_unreported n, ih (le_refl 4) ?_ ?_ rfl⟩
    · rwa [show n + 1 + m + 1 = n + (m + 1) + 1 by omega]
    · exact fun _ _ hr _ => (sound_of_mem (List.mem_of_getElem? hr)).capSeason

theorem lateRankings_honest : Honest someKeys lateRankings where
  accepted := by
    have hfst : lateRankings.map Prod.fst = lateDays := by
      unfold lateRankings
      rw [List.map_map]
      exact List.map_id lateDays
    rw [hfst]
    exact checkFrom_unreported (Nat.zero_le 4) (checkFrom_full (by decide))
  last := by
    intro i d e h
    unfold lateRankings at h
    rw [List.getElem?_map] at h
    obtain ⟨d', -, heq⟩ := Option.map_eq_some_iff.1 h
    cases (Prod.mk.inj heq).2

variable {keys : Keys} {payableAddress : Str → Bool} {doubledFrom : Option Nat}
  {rankings : List (DayResult × Option Int)} {s : Ledger}

/-- Days can be published at any time. -/
theorem reach_published {n : Nat} (hn : s.ranked + n ≤ rankings.length)
    (h : Reach (· = Ledger.start) (PayStep keys payableAddress doubledFrom rankings) (fun _ _ => True) s) :
    Reach (· = Ledger.start) (PayStep keys payableAddress doubledFrom rankings) (fun _ _ => True)
      { s with ranked := s.ranked + n } := by
  induction n with
  | zero => exact h
  | succ n ih => exact .step (ih (by omega)) trivial (PayStep.publish (by dsimp only; omega))

theorem fingerprint_lateDays {d : DayResult} (h : d ∈ lateDays) :
    d.rulesFingerprint = fingerprint (kitRules 3) := by
  rcases List.mem_append.1 h with h | h
  · obtain ⟨n, -, rfl⟩ := List.mem_map.1 h
    rfl
  · obtain ⟨n, -, rfl⟩ := List.mem_map.1 h
    rfl

theorem capDayOf_unreported (n : Nat) : capDayOf someKeys (unreportedDay n) = 100000000 := by
  unfold capDayOf
  have hset : ruleSetOf someKeys (unreportedDay n).rulesFingerprint = some (4, kitRules 3) := ruleSetOf_kit
  rw [hset]
  rfl

theorem capSeasonOf_lateDays {d : DayResult} (h : d ∈ lateDays) : capSeasonOf someKeys d = 3000000000 := by
  unfold capSeasonOf
  rw [fingerprint_lateDays h, ruleSetOf_kit]
  rfl

/-- When the first 28 days are ranked, the amendment is within the caps. -/
theorem lateAmendment_accepted :
    amendmentRefusal someKeys 1 [lateAmendment] ((List.range' 0 28).map unreportedDay) = none := by
  have honce : firstRepeated [] (frozenRows [lateAmendment]) = none := by decide
  have hrows : (lateAmendment.rows.findSome? fun row =>
      rowRefusal row ((List.range' 0 28).map unreportedDay)) = none := by decide
  have hsum : ∀ d < 28, (((frozenRows [lateAmendment]).filter fun row => decide (row.day = d)).map
      AmendRow.udndr).sum = 100000000 := by decide
  have hget : ∀ d < 28, ((List.range' 0 28).map unreportedDay)[d]? = some (unreportedDay d) := by
    intro d hd
    rw [List.getElem?_map, List.getElem?_range' hd]
    simp
  have hcap : (((List.range' 0 28).map unreportedDay).map DayResult.totalPaid).sum +
      ((frozenRows [lateAmendment]).map AmendRow.udndr).sum = 2800000000 := by decide
  refine amendmentRefusal_eq_none.2 ⟨lateAmendment, unreportedDay 27, rfl, honce, hrows, ?_, rfl, ?_⟩
  · intro row hrow
    obtain ⟨n, hn, rfl⟩ := List.mem_map.1 hrow
    have hn : n < 28 := by simpa using (List.mem_range'_1.1 hn).2
    refine ⟨unreportedDay n, hget n hn, ?_⟩
    rw [capDayOf_unreported, hsum n hn]
    exact le_refl (100000000 : Int)
  · rw [hcap, capSeasonOf_lateDays (List.mem_append_left _ (List.mem_map_of_mem (by decide)))]
    decide

/-- When all the days are ranked, the last week pays them in full. -/
theorem lateWeek_planned : planDays someKeys (fun _ => true) 4
    (Ledger.published lateRankings ⟨35, ∅, [lateAmendment], 2800000000⟩) (some 0) [lateAmendment] =
      some ([(['a'], 700000000)], List.range' 28 7) := by
  have hload : loadDays (Ledger.published lateRankings ⟨35, ∅, [lateAmendment], 2800000000⟩) 0 (7 * 4 + 7) =
      some (lateDays, none) := rfl
  have hwd : weekDays 4 none = some (List.range' 28 7) := rfl
  have haccepted : checkDays someKeys lateDays = none :=
    checkFrom_unreported (Nat.zero_le 4) (checkFrom_full (by decide))
  have hdoubled : doubledFromOk someKeys lateDays (some 0) = true := by
    unfold doubledFromOk
    rw [List.all_eq_true]
    rintro ⟨d, i⟩ hd
    have hfp := fingerprint_lateDays (List.fst_mem_of_mem_zipIdx hd)
    unfold isDoubled
    rw [hfp, ruleSetOf_kit]
    simp
  have hplan : weekPlan (fun _ => true) ((List.range' 28 7).filterMap fun d => lateDays[d]?) =
      some ([(['a'], 700000000)], []) := by decide
  have hrows : amendedRowsOk [lateAmendment] lateDays (List.range' 28 7) = true := by decide
  unfold planDays
  simp only [hload, hwd, haccepted, hdoubled, hplan, hrows]
  rfl

/-- 2 800 DNDR of amendment, then 700 DNDR of the last week: the cap is 3 000. -/
theorem sent_past_cap : Honest someKeys lateRankings ∧
    ∃ s, Reach (· = Ledger.start) (PayStep someKeys (fun _ => true) (some 0) lateRankings) (fun _ _ => True) s ∧
      s.sent = 3500000000 ∧ lastCap someKeys lateRankings s.ranked = 3000000000 := by
  have h28 : Reach (· = Ledger.start) (PayStep someKeys (fun _ => true) (some 0) lateRankings)
      (fun _ _ => True) ⟨28, ∅, [], 0⟩ :=
    reach_published (n := 28) (s := Ledger.start) (by decide) (.init rfl)
  have hdays : amendmentDays (Ledger.published lateRankings ⟨28, ∅, [], 0⟩) 0 lateRankings.length =
      (List.range' 0 28).map unreportedDay := rfl
  have hsent : total (amendmentPayable lateAmendment) = 2800000000 := by decide
  have hamend : PayStep someKeys (fun _ => true) (some 0) lateRankings ⟨28, ∅, [], 0⟩
      (.amend lateAmendment [lateAmendment]) ⟨28, ∅, [lateAmendment], 0 + total (amendmentPayable lateAmendment)⟩ :=
    .amend List.not_mem_nil (fun _ h => absurd h List.not_mem_nil) rfl
      (by rw [hdays]; exact lateAmendment_accepted)
  rw [hsent] at hamend
  have h35 := reach_published (n := 7) (s := ⟨28, ∅, [lateAmendment], 0 + 2800000000⟩) (by decide)
    (.step h28 trivial hamend)
  have hweek := PayStep.week (s := ⟨35, ∅, [lateAmendment], 2800000000⟩) (Finset.notMem_empty 4) lateWeek_planned
  have hcap : lastCap someKeys lateRankings 35 = 3000000000 := by
    have hlast : (lateRankings.take 35).getLast? = some (fullDay 34, none) := rfl
    unfold lastCap
    rw [hlast, Option.elim_some]
    exact capSeasonOf_lateDays (List.mem_append_right _ (List.mem_map_of_mem (by decide)))
  exact ⟨lateRankings_honest, _, .step h35 trivial hweek, rfl, hcap⟩

end Late

end Dendra.Season
