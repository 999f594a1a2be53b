import Dendra.Season.Shares
import Dendra.Season.Payments

/-!
# Rows that lack a capacity report

Under a set with a kit floor, a row of an identity without a signed report is not paid. Amendments look for
such rows by the words on them, which the calculator puts together from up to five notes.

* `probationNote_iff`: the words that may stand beside the missing report.
* `reason_of_noReport`: the words on a row without a report.
* `refusedForTheReportAlone_iff`: which rows are found.
-/

namespace Dendra.Season

section Words

variable {s t u : Str}

/-- Of two suffixes, the shorter is one of the longer. -/
theorem not_suffix_of (h : ¬t <:+ u) (hlen : t.length ≤ u.length) (ht : t <:+ s) : ¬u <:+ s :=
  fun hu => h (List.suffix_of_suffix_length_le ht hu hlen)

theorem not_prefix_of (h : ¬t <+: u) (hlen : t.length ≤ u.length) (ht : t <+: s) : ¬u <+: s :=
  fun hu => h (List.prefix_of_prefix_length_le ht hu hlen)

theorem formatInt_digits {n : Int} (hn : 0 ≤ n) :
    Str.formatInt n ≠ [] ∧ ∀ c ∈ Str.formatInt n, c.isDigit = true := by
  rw [Str.formatInt, if_neg (not_lt.2 hn), Str.formatUint]
  exact ⟨Nat.toDigits_ne_nil, fun c hc => Nat.isDigit_of_mem_toDigits (by decide) (by decide) hc⟩

def probationStart : Str := "probation: first full day after registration, ".toList

def probationEnd : Str := " percent of the gross".toList

theorem probationNote_append (t : Str) : probationNote (probationStart ++ t) =
    match Str.cutSuffix (Str.trimSuffix t ['\n']) probationEnd with
    | none => false
    | some ds => !ds.isEmpty && ds.all Char.isDigit := by
  have hcut : Str.cutPrefix (probationStart ++ t) "probation: first full day after registration, ".toList =
    some t := Str.cutPrefix_append _ _
  rw [probationNote, hcut]
  rfl

/-- The words of a probation, and of nothing else. -/
theorem probationNote_iff : probationNote s = true ↔
    ∃ ds : Str, ds ≠ [] ∧ (∀ c ∈ ds, c.isDigit = true) ∧
      (s = probationStart ++ (ds ++ probationEnd) ∨ s = probationStart ++ (ds ++ probationEnd ++ ['\n'])) := by
  have hline {t : Str} : Str.trimSuffix (t ++ ['\n']) ['\n'] = t := by
    rw [Str.trimSuffix, Str.cutSuffix_append]
    rfl
  have hend (ds : Str) : Str.trimSuffix (ds ++ probationEnd) ['\n'] = ds ++ probationEnd := by
    have hno : ¬['\n'] <:+ ds ++ probationEnd :=
      not_suffix_of (t := "s".toList) (by decide) (by decide)
        (List.IsSuffix.trans (by decide) (List.suffix_append ds probationEnd))
    rw [Str.trimSuffix, Str.cutSuffix_eq_none.2 hno]
    rfl
  constructor
  · intro h
    unfold probationNote at h
    split at h
    · cases h
    · next t ht =>
      dsimp only at h
      split at h
      · cases h
      · next ds hds =>
        have hcut := Str.cutSuffix_eq_some.1 hds
        rw [Bool.and_eq_true, Bool.not_eq_true', List.isEmpty_eq_false_iff, List.all_eq_true] at h
        refine ⟨ds, h.1, h.2, ?_⟩
        rw [Str.cutPrefix_eq_some.1 ht]
        by_cases hnl : ['\n'] <:+ t
        · obtain ⟨t', rfl⟩ := hnl
          rw [hline] at hcut
          exact .inr (by rw [hcut]; rfl)
        · rw [Str.trimSuffix, Str.cutSuffix_eq_none.2 hnl, Option.getD_none] at hcut
          exact .inl (by rw [hcut]; rfl)
  · rintro ⟨ds, hne, hdigit, rfl | rfl⟩
    · rw [probationNote_append, hend, Str.cutSuffix_append]
      simpa [hne] using hdigit
    · rw [probationNote_append, hline, Str.cutSuffix_append]
      simpa [hne] using hdigit

end Words

section Report

variable {n : Nat} {paidBefore : Int} {r : Rules} {k : KitRules} {ids : List Identity} {d : DayResult}
  {i : Identity} {x y : Row} {g : Int}

def presenceNote : Str := "presence not paid: no verified request counted that day".toList

def addressNote : Str := "no payout address known".toList

def registrationNote : Str := "registration not datable: not paid".toList

/-- The note of a probation under a set with a floor. -/
def probationWords (k : KitRules) : Str :=
  probationStart ++ (Str.formatInt (k.probationFirstDayBps / 100) ++ probationEnd)

/-- The notes before that of the report, as they are put together. -/
def notesBefore (i : Identity) (k : KitRules) : List Str :=
  (if i.presence > 0 ∧ i.verifiedRequests < 1 then [presenceNote] else []) ++
    (if i.probation then [probationWords k] else []) ++
    (if i.payoutAddress = [] then [addressNote] else [])

theorem notes_false : notes i r g false =
    (if i.presence > 0 ∧ i.verifiedRequests < 1 then [presenceNote] else []) ++
      (if paysJudgePresence r ∧ i.probation ∧ g ≠ 0 then
        [probationStart ++ Str.formatInt ((r.kit.elim 0 KitRules.probationFirstDayBps) / 100) ++
          probationEnd] else []) ++
      (if g ≠ 0 ∧ i.payoutAddress = [] then [addressNote] else []) ++
      (if g ≠ 0 ∧ !false then
        [match i.kitVersion with
          | none => noKitReport
          | some kv =>
            "kit ".toList ++ Str.formatInt kv ++ " below the floor ".toList ++
              Str.formatInt (r.kit.elim 0 KitRules.kitMin) ++ ": not paid".toList] else []) ++
      (if g ≠ 0 ∧ !registrationAllowsPay i r then [registrationNote] else []) :=
  rfl

theorem notes_noReport (hk : r.kit = some k) (hkv : i.kitVersion = none) (hg : g ≠ 0) :
    notes i r g false =
      notesBefore i k ++ [noKitReport] ++ (if i.registrationNotDated then [registrationNote] else []) := by
  rw [notes_false, hkv]
  simp [hk, hg, notesBefore, registrationAllowsPay, paysJudgePresence, probationWords]

/-- A row without a gross has no word on the report. -/
theorem notes_zero : notes i r 0 false = if i.presence > 0 ∧ i.verifiedRequests < 1 then [presenceNote] else [] := by
  rw [notes_false]
  simp

/-- The words on a row without a report are those of the calculator: nothing of it is payable. -/
theorem reason_of_noReport (hk : r.kit = some k) (h : computeDay n ids paidBefore r = some d) (hx : x ∈ d.rows)
    (hkv : x.kitVersion = none) : x.reason = joinNotes (notes x.facts r x.gross false) := by
  obtain ⟨y, hy, hpay⟩ := pay_of_mem h hx
  have hkit : kitAllowsPay x.facts r = some false := by
    unfold kitAllowsPay
    rw [hk, show x.facts.kitVersion = none from hkv]
  have hg : grossOf x.facts r = some x.gross := by
    rw [(rowOf_spec hy).2.1]
    exact congrArg some (congrArg Row.gross hpay).symm
  unfold rowOf at hy
  rw [hg, hkit] at hy
  obtain rfl := Option.some.inj hy
  rw [congrArg Row.reason hpay]
  simp [Row.pay]

/-! The words are read back note by note: the first note is in front, the last at the end. -/

theorem joinNotes_concat {l : List Str} (hl : l ≠ []) (t : Str) :
    joinNotes (l ++ [t]) = joinNotes l ++ ("; ".toList ++ t) := by
  unfold joinNotes
  induction l with
  | nil => exact absurd rfl hl
  | cons a l ih =>
    cases l with
    | nil => simp [List.intercalate]
    | cons b l =>
      rw [List.cons_append, List.cons_append, List.intercalate_cons_cons, ← List.cons_append,
        ih (List.cons_ne_nil _ _), List.intercalate_cons_cons]
      simp only [List.append_assoc]

theorem suffix_joinNotes (l : List Str) (t : Str) : t <:+ joinNotes (l ++ [t]) := by
  cases l with
  | nil => simp [joinNotes]
  | cons a l =>
    rw [joinNotes_concat (List.cons_ne_nil _ _), ← List.append_assoc]
    exact List.suffix_append _ _

theorem prefix_joinNotes (t : Str) (l : List Str) : t <+: joinNotes (t :: l) := by
  cases l with
  | nil => simp [joinNotes]
  | cons a l =>
    unfold joinNotes
    rw [List.intercalate_cons_cons, List.append_assoc]
    exact List.prefix_append _ _

/-- What is found of the words on a row without a report. -/
theorem refused_iff (hkv : x.kitVersion = none) : refusedForTheReportAlone x = true ↔
    x.reason = noKitReport ∨
      x.probation = true ∧ ∃ note, x.reason = note ++ ("; ".toList ++ noKitReport) ∧ probationNote note = true := by
  unfold refusedForTheReportAlone
  rw [hkv, Option.isNone_none, Bool.true_and, Bool.or_eq_true, decide_eq_true_eq, Bool.and_eq_true]
  refine or_congr_right (and_congr_right fun _ => ?_)
  split
  · next hno =>
    refine ⟨fun h => (Bool.false_ne_true h).elim, fun ⟨note, hr, _⟩ => ?_⟩
    rw [hr, Str.cutSuffix_append] at hno
    cases hno
  · next note hnote =>
    rw [Str.cutSuffix_eq_some] at hnote
    refine ⟨fun h => ⟨note, hnote, h⟩, fun ⟨note', hr, h⟩ => ?_⟩
    obtain rfl : note = note' := List.append_cancel_right (hnote.symm.trans hr)
    exact h

/-- A found row ends with the missing report. -/
theorem suffix_of_refused (hkv : x.kitVersion = none) (h : refusedForTheReportAlone x = true) :
    noKitReport <:+ x.reason := by
  obtain hr | ⟨-, note, hr, -⟩ := (refused_iff hkv).1 h
  · exact hr ▸ List.suffix_rfl
  · rw [hr, ← List.append_assoc]
    exact List.suffix_append _ _

/-- The words of a probation start and end as they do. -/
theorem affixes_of_probationNote {s : Str} (h : probationNote s = true) :
    probationStart <+: s ∧ (probationEnd <:+ s ∨ probationEnd ++ ['\n'] <:+ s) := by
  obtain ⟨ds, -, -, rfl | rfl⟩ := probationNote_iff.1 h
  · refine ⟨List.prefix_append _ _, .inl ?_⟩
    rw [← List.append_assoc]
    exact List.suffix_append _ _
  · refine ⟨List.prefix_append _ _, .inr ?_⟩
    rw [List.append_assoc, ← List.append_assoc]
    exact List.suffix_append _ _

theorem probationNote_words (hk : 0 ≤ k.probationFirstDayBps) : probationNote (probationWords k) = true := by
  obtain ⟨hne, hdigit⟩ := formatInt_digits (Int.ediv_nonneg hk (show (0 : Int) ≤ 100 by decide))
  exact probationNote_iff.2 ⟨_, hne, hdigit, .inl rfl⟩

/-- Of the notes before the missing report, only the probation alone reads as one. -/
theorem probationNote_before (hk : 0 ≤ k.probationFirstDayBps) (hne : notesBefore i k ≠ []) :
    probationNote (joinNotes (notesBefore i k)) = true ↔
      ¬(i.presence > 0 ∧ i.verifiedRequests < 1) ∧ i.payoutAddress ≠ [] := by
  constructor
  · intro h
    obtain ⟨hstart, hend⟩ := affixes_of_probationNote h
    constructor
    · intro hp
      have hfront : presenceNote <+: joinNotes (notesBefore i k) := by
        rw [notesBefore, if_pos hp]
        exact prefix_joinNotes _ _
      exact not_prefix_of (t := probationStart) (by decide) (by decide) hstart hfront
    · intro ha
      have hback : addressNote <:+ joinNotes (notesBefore i k) := by
        rw [notesBefore, if_pos ha]
        exact suffix_joinNotes _ _
      obtain hend | hend := hend
      · exact not_suffix_of (t := probationEnd) (by decide) (by decide) hend hback
      · exact not_suffix_of (t := probationEnd ++ ['\n']) (by decide) (by decide) hend hback
  · rintro ⟨hp, ha⟩
    have hq : i.probation = true := by
      by_contra hq
      exact hne (by simp [notesBefore, hp, ha, hq])
    have heq : joinNotes (notesBefore i k) = probationWords k := by
      rw [notesBefore, if_neg hp, if_neg ha, if_pos hq]
      simp [joinNotes]
    rw [heq]
    exact probationNote_words hk

/-- A row with the missing report for its last word. -/
theorem refused_of_reason (hk : 0 ≤ k.probationFirstDayBps) (hkv : x.kitVersion = none)
    (hreason : x.reason = joinNotes (notesBefore x.facts k ++ [noKitReport])) :
    refusedForTheReportAlone x = true ↔
      ¬(0 < x.presence ∧ x.verifiedRequests < 1) ∧ x.payoutAddress ≠ [] := by
  by_cases hne : notesBefore x.facts k = []
  · rw [hne] at hreason
    have hfound : refusedForTheReportAlone x = true :=
      (refused_iff hkv).2 (.inl (hreason.trans (by simp [joinNotes])))
    simp only [notesBefore, List.append_eq_nil_iff, ite_eq_right_iff, List.cons_ne_nil, imp_false] at hne
    exact iff_of_true hfound ⟨hne.1.1, hne.2⟩
  · rw [joinNotes_concat hne] at hreason
    have hlong : x.reason ≠ noKitReport := fun heq => by
      have := congrArg List.length (hreason.symm.trans heq)
      simp only [List.length_append] at this
      have : 0 < "; ".toList.length := by decide
      omega
    refine (refused_iff hkv).trans (Iff.trans ?_ (probationNote_before (i := x.facts) hk hne))
    constructor
    · rintro (heq | ⟨-, note, heq, hnote⟩)
      · exact absurd heq hlong
      · rwa [← List.append_cancel_right (heq.symm.trans hreason)]
    · intro hnote
      obtain ⟨hp, ha⟩ := (probationNote_before (i := x.facts) hk hne).1 hnote
      refine .inr ⟨?_, _, hreason, hnote⟩
      by_contra hq
      refine hne ?_
      rw [notesBefore, if_neg hp, if_neg ha, if_neg (show ¬x.facts.probation = true from hq)]
      rfl

/-- The rows that amendments find for want of a capacity report: those without a kit number that have a gross,
an address and a dated registration, and whose presence, if they have any, came with a verified request. The
row is read back from the ranking as it was published. -/
theorem refusedForTheReportAlone_iff (r : Rules) (hr : r.Sound) (k : KitRules) (hk : r.kit = some k) (n : Nat)
    (ids : List Identity) (paidBefore : Int) (d : DayResult) (h : computeDay n ids paidBefore r = some d)
    (x : Row) (hx : x ∈ d.rows) (rank : Nat) :
    ∃ y, parseRow true (x.toJson true rank) = some y ∧
      (refusedForTheReportAlone y = true ↔
        x.kitVersion = none ∧ 0 < x.gross ∧ x.payoutAddress ≠ [] ∧ x.registrationNotDated = false ∧
          ¬(0 < x.presence ∧ x.verifiedRequests < 1)) := by
  refine ⟨x, rfl, ?_⟩
  cases hkv : x.kitVersion with
  | some kv => simp [refusedForTheReportAlone, hkv]
  | none =>
    simp only [true_and]
    have hreason := reason_of_noReport hk h hx hkv
    have hgross : 0 ≤ x.gross := by
      obtain ⟨y, hy, hpay⟩ := pay_of_mem h hx
      exact grossOf_nonneg hr ((rowOf_spec hy).2.1.trans (congrArg some (congrArg Row.gross hpay).symm))
    obtain hzero | hpos := hgross.eq_or_lt
    · refine ⟨fun hfound => ?_, fun hall => absurd hzero hall.1.ne⟩
      have hsuffix := suffix_of_refused hkv hfound
      rw [hreason, ← hzero, notes_zero] at hsuffix
      split at hsuffix
      · exact absurd hsuffix (by decide)
      · exact absurd hsuffix (by decide)
    · rw [notes_noReport hk hkv hpos.ne'] at hreason
      by_cases hreg : x.registrationNotDated = true
      · refine ⟨fun hfound => ?_, fun hall => ?_⟩
        · have hback : registrationNote <:+ x.reason := by
            rw [hreason, if_pos (show x.facts.registrationNotDated = true from hreg)]
            exact suffix_joinNotes _ _
          exact absurd (suffix_of_refused hkv hfound) (not_suffix_of (by decide) (by decide) hback)
        · rw [hall.2.2.1] at hreg
          cases hreg
      · rw [if_neg (show ¬x.facts.registrationNotDated = true from hreg), List.append_nil] at hreason
        rw [Bool.not_eq_true] at hreg
        simp only [hpos, hreg, true_and]
        rw [and_comm]
        exact refused_of_reason (hr.kit k hk).2 hkv hreason

/-- The day of one identity. -/
theorem computeDay_one (n : Nat) (paidBefore : Int) (hrow : rowOf i r = some y) : ∃ d,
    computeDay n [i] paidBefore r = some d ∧
      d.rows = [y.pay (dayScale (dayBudget r paidBefore) y.payable)] := by
  refine ⟨_, computeDay_eq_some.2 ⟨List.nodup_singleton _, [y], ?_, rfl⟩, ?_⟩
  · rw [List.mapM_cons, hrow]
    rfl
  · simp

/-- A judge of the day that answered no request and was present. -/
def idleJudge : Identity := ⟨['a'], 10, 0, 3, ['x'], 1, false, none, false⟩

/-- Its row lacks nothing but a report: with the kit at the floor it would be paid its gross. It is not
found. -/
theorem idleJudge_not_found : ∃ d x, computeDay 0 [idleJudge] 0 (kitRules 3) = some d ∧ x ∈ d.rows ∧
    x.kitVersion = none ∧ 0 < x.gross ∧ x.payoutAddress ≠ [] ∧ x.registrationNotDated = false ∧
    payableOf { x.facts with kitVersion := some 3 } (kitRules 3) x.gross = x.gross ∧
    refusedForTheReportAlone x = false := by
  obtain ⟨d, hd, hrows⟩ := computeDay_one 0 0 (show rowOf idleJudge (kitRules 3) = some _ from rfl)
  refine ⟨d, _, hd, hrows ▸ List.mem_singleton_self _, ?_⟩
  decide

/-- With a verified request it is found. -/
theorem refusedForTheReportAlone_judge : ∃ d x y,
    computeDay 0 [{ idleJudge with verifiedRequests := 1 }] 0 (kitRules 3) = some d ∧ x ∈ d.rows ∧
      parseRow true (x.toJson true 1) = some y ∧ refusedForTheReportAlone y = true := by
  obtain ⟨d, hd, hrows⟩ := computeDay_one 0 0
    (show rowOf { idleJudge with verifiedRequests := 1 } (kitRules 3) = some _ from rfl)
  obtain ⟨y, hy, hiff⟩ := refusedForTheReportAlone_iff (kitRules 3) sound_kit _ rfl 0 _ 0 d hd _
    (hrows ▸ List.mem_singleton_self _) 1
  exact ⟨d, _, y, hd, hrows ▸ List.mem_singleton_self _, hy, hiff.2 (by decide)⟩

end Report

end Dendra.Season
