import Dendra.Season.Answers

/-!
# The evidence of a season

Each day has a file of records, one a line. A line that cannot be read is skipped, and a record at the end of
its day says how many there were.

* `Rec`: the records, with the fields that the facts of a day are drawn from.
* `readDay`, `recordsUpto`: what is read of the files.
* `Damaged`: the same files, some of their lines unreadable.
* `filesOf`, `filter_recordsUpto`: what is read of records that were appended in the order of their days.
* `mem_recordsUpto_of_damaged`, `mem_of_not_torn`, `filter_day_of_not_torn`: what damage leaves.
-/

namespace Dendra.Season

/-- An evidence record. The `day` is that of its file. -/
inductive Rec
  | payout (day : Nat) (minerId address : Str) (height : Nat) (lock owner : Bool)
  | workAnswer (day : Nat) (jobId minerId : Str)
  | workGrade (day : Nat) (jobId minerId : Str) (grader : Option Str) (coherent : Bool)
  | workSealed (day : Nat) (answered : List (Str × List Str))
  | capacity (day : Nat) (minerId : Str) (kitVersion : Option Int) (judgeRole : Option Str) (height : Int)
  | unreadableLines (day count : Nat)
  deriving DecidableEq

namespace Rec

def day : Rec → Nat
  | payout d .. => d
  | workAnswer d .. => d
  | workGrade d .. => d
  | workSealed d _ => d
  | capacity d .. => d
  | unreadableLines d _ => d

def isUnreadable : Rec → Bool
  | unreadableLines .. => true
  | _ => false

end Rec

/-- The records of a day, from its lines: a line that is no record is counted. -/
def readDay (day : Nat) (lines : List (Option Rec)) : List Rec :=
  lines.reduceOption ++
    if lines.countP Option.isNone = 0 then [] else [.unreadableLines day (lines.countP Option.isNone)]

/-- The lines of the files, by day. -/
abbrev Files : Type := Nat → List (Option Rec)

/-- The records of the days up to `day`, in file order. -/
def recordsUpto (files : Files) (day : Nat) : List Rec :=
  (List.range (day + 1)).flatMap fun d => readDay d (files d)

/-- Complete files: every line is a record, under the file of its own day. -/
structure Complete (files : Files) : Prop where
  readable : ∀ d, ∀ l ∈ files d, ∃ r, l = some r ∧ r.isUnreadable = false
  day : ∀ d r, some r ∈ files d → r.day = d

/-- The same files, some lines of which cannot be read. -/
def Damaged (files damaged : Files) : Prop :=
  ∀ d, List.Forall₂ (fun l l' => l' = l ∨ l' = none) (files d) (damaged d)

section Damage

variable {files damaged : Files} {day d : Nat} {r : Rec} {lines lines' : List (Option Rec)}

theorem mem_readDay : r ∈ readDay d lines ↔
    some r ∈ lines ∨ none ∈ lines ∧ r = .unreadableLines d (lines.countP Option.isNone) := by
  unfold readDay
  rw [List.mem_append, List.reduceOption_mem_iff]
  refine or_congr_right ?_
  by_cases h : none ∈ lines
  · have hpos : lines.countP Option.isNone ≠ 0 := (List.countP_pos_iff.2 ⟨none, h, rfl⟩).ne'
    rw [if_neg hpos]
    simp [h]
  · have hzero : lines.countP Option.isNone = 0 :=
      List.countP_eq_zero.2 fun l hl hn => h (Option.isNone_iff_eq_none.1 hn ▸ hl)
    rw [if_pos hzero]
    simp [h]

theorem mem_recordsUpto : r ∈ recordsUpto files day ↔ ∃ d ≤ day, r ∈ readDay d (files d) := by
  simp [recordsUpto]

/-- Of complete files every record is a line. -/
theorem Complete.mem_recordsUpto (h : Complete files) :
    r ∈ recordsUpto files day ↔ r.day ≤ day ∧ some r ∈ files r.day := by
  rw [Season.mem_recordsUpto]
  constructor
  · rintro ⟨d, hd, hr⟩
    obtain hr | ⟨hnone, -⟩ := mem_readDay.1 hr
    · obtain rfl := h.day d r hr
      exact ⟨hd, hr⟩
    · obtain ⟨r', hr', -⟩ := h.readable d none hnone
      cases hr'
  · rintro ⟨hd, hr⟩
    exact ⟨r.day, hd, mem_readDay.2 (.inl hr)⟩

theorem Complete.isUnreadable_eq_false (h : Complete files) (hr : r ∈ recordsUpto files day) :
    r.isUnreadable = false := by
  obtain ⟨r', hr', hread⟩ := h.readable _ _ (h.mem_recordsUpto.1 hr).2
  obtain rfl := Option.some.inj hr'
  exact hread

theorem mem_of_forall₂_damage (h : List.Forall₂ (fun l l' : Option Rec => l' = l ∨ l' = none) lines lines')
    (hr : some r ∈ lines') : some r ∈ lines := by
  induction h with
  | nil => cases hr
  | cons hl _ ih =>
    obtain rfl | hr := List.mem_cons.1 hr
    · obtain hl | hl := hl
      · exact hl ▸ List.mem_cons_self
      · cases hl
    · exact List.mem_cons_of_mem _ (ih hr)

theorem eq_of_forall₂_damage (h : List.Forall₂ (fun l l' : Option Rec => l' = l ∨ l' = none) lines lines')
    (hnone : none ∉ lines') : lines' = lines := by
  induction h with
  | nil => rfl
  | cons hl _ ih =>
    rw [List.mem_cons, not_or] at hnone
    obtain rfl | rfl := hl
    · rw [ih hnone.2]
    · exact absurd rfl hnone.1

/-- Damage adds no record but the counts of lines. -/
theorem mem_recordsUpto_of_damaged (hd : Damaged files damaged)
    (hr : r ∈ recordsUpto damaged day) (hread : r.isUnreadable = false) : r ∈ recordsUpto files day := by
  obtain ⟨d, hle, hr⟩ := mem_recordsUpto.1 hr
  obtain hr | ⟨-, rfl⟩ := mem_readDay.1 hr
  · have := mem_of_forall₂_damage (hd d) hr
    exact mem_recordsUpto.2 ⟨d, hle, mem_readDay.2 (.inl this)⟩
  · cases hread

/-- The days with a line that could not be read. -/
def Torn (records : List Rec) (day : Nat) : Prop := ∃ count, Rec.unreadableLines day count ∈ records

/-- The day of a record that was read is that of its file. -/
theorem day_of_mem_readDay (hc : Complete files) (hd : Damaged files damaged) (hr : r ∈ readDay d (damaged d)) :
    r.day = d := by
  obtain hr | ⟨-, rfl⟩ := mem_readDay.1 hr
  · exact hc.day d r (mem_of_forall₂_damage (hd d) hr)
  · rfl

/-- A day that is not said to be torn is intact. -/
theorem eq_of_not_torn (hd : Damaged files damaged) (hle : d ≤ day)
    (ht : ¬Torn (recordsUpto damaged day) d) : damaged d = files d := by
  refine eq_of_forall₂_damage (hd d) fun hnone => ht ?_
  exact ⟨_, mem_recordsUpto.2 ⟨d, hle, mem_readDay.2 (.inr ⟨hnone, rfl⟩)⟩⟩

/-- A record of a day that is not torn was read. -/
theorem mem_of_not_torn (hc : Complete files) (hd : Damaged files damaged) (hr : r ∈ recordsUpto files day)
    (ht : ¬Torn (recordsUpto damaged day) r.day) : r ∈ recordsUpto damaged day := by
  obtain ⟨hle, hmem⟩ := hc.mem_recordsUpto.1 hr
  rw [← eq_of_not_torn hd hle ht] at hmem
  exact mem_recordsUpto.2 ⟨r.day, hle, mem_readDay.2 (.inl hmem)⟩

/-- The records of a day that is not torn are those that were written. -/
theorem filter_day_of_not_torn (hc : Complete files) (hd : Damaged files damaged)
    (ht : ¬Torn (recordsUpto damaged day) d) :
    (recordsUpto damaged day).filter (fun r => decide (r.day = d)) =
      (recordsUpto files day).filter fun r => decide (r.day = d) := by
  have hself : Damaged files files := fun d => List.forall₂_same.2 fun _ _ => .inl rfl
  unfold recordsUpto
  rw [List.filter_flatMap, List.filter_flatMap]
  refine List.flatMap_congr fun d' hd' => ?_
  have hle : d' ≤ day := Nat.lt_succ_iff.1 (List.mem_range.1 hd')
  by_cases heq : d' = d
  · subst heq
    rw [eq_of_not_torn hd hle ht]
  · rw [List.filter_eq_nil_iff.2, List.filter_eq_nil_iff.2]
    · exact fun r hr => by simpa [day_of_mem_readDay hc hself hr] using heq
    · exact fun r hr => by simpa [day_of_mem_readDay hc hd hr] using heq

end Damage

/-! ## Appending -/

/-- The files of the records that were appended, in that order. -/
def filesOf (log : List Rec) : Files := fun d => (log.filter fun r => decide (r.day = d)).map some

/-- `Evidence.all`: every record, in file order. -/
def allRecords (log : List Rec) : List Rec := recordsUpto (filesOf log) ((log.map Rec.day).foldr max 0)

/-- The day that a height is filed under. -/
def filedDay (start height : Nat) : Nat := (dayOfHeight start height).getD 0

theorem filedDay_mono {start h h' : Nat} (hle : h ≤ h') : filedDay start h ≤ filedDay start h' := by
  unfold filedDay dayOfHeight
  split_ifs
  · exact le_rfl
  · exact Nat.zero_le _
  · omega
  · exact Nat.div_le_div_right (by omega)

/-- `d.setdefault(k, v)`. -/
def setDefault {κ α : Type} [DecidableEq κ] (d : Ordered κ α) (e : κ × α) : Ordered κ α :=
  if d.has e.1 then d else d.set e.1 e.2

theorem get?_setDefault {κ α : Type} [DecidableEq κ] {d : Ordered κ α} {e : κ × α} {k : κ} :
    (setDefault d e).get? k = (d.get? k).or (if k = e.1 then some e.2 else none) := by
  unfold setDefault
  by_cases hk : k = e.1
  · subst hk
    rw [Ordered.has_eq_isSome]
    cases hget : d.get? e.1 <;> simp [hget, Ordered.get?_set]
  · split
    · simp
    · simp [Ordered.get?_set, hk]

section Append

variable {log : List Rec} {day : Nat} {p : Rec → Bool}

theorem readDay_filesOf (d : Nat) : readDay d (filesOf log d) = log.filter fun r => decide (r.day = d) := by
  have hzero : (filesOf log d).countP Option.isNone = 0 := by
    rw [List.countP_eq_zero]
    intro l hl
    obtain ⟨r, -, rfl⟩ := List.mem_map.1 hl
    simp
  rw [readDay, if_pos hzero, List.append_nil, filesOf, List.reduceOption, List.filterMap_map]
  exact List.filterMap_some

/-- Of records in the order of their days, those up to a day come before those of the next. -/
theorem filter_day_succ (hs : (log.map Rec.day).Pairwise (· ≤ ·)) (d : Nat) :
    (log.filter fun r => decide (r.day ≤ d)) ++ (log.filter fun r => decide (r.day = d + 1)) =
      log.filter fun r => decide (r.day ≤ d + 1) := by
  induction log with
  | nil => rfl
  | cons r l ih =>
    rw [List.map_cons, List.pairwise_cons] at hs
    obtain hle | heq | hgt : r.day ≤ d ∨ r.day = d + 1 ∨ d + 1 < r.day := by omega
    · rw [List.filter_cons_of_pos (by simpa using hle), List.filter_cons_of_neg (by simp; omega),
        List.filter_cons_of_pos (by simp; omega), List.cons_append, ih hs.2]
    · have hnone : (l.filter fun r => decide (r.day ≤ d)) = [] := by
        rw [List.filter_eq_nil_iff]
        intro r' hr'
        have := hs.1 _ (List.mem_map_of_mem hr')
        simp
        omega
      rw [List.filter_cons_of_neg (by simp; omega), List.filter_cons_of_pos (by simpa using heq),
        List.filter_cons_of_pos (by simp; omega), ← ih hs.2, hnone, List.nil_append, List.nil_append]
    · rw [List.filter_cons_of_neg (by simp; omega), List.filter_cons_of_neg (by simp; omega),
        List.filter_cons_of_neg (by simp; omega), ih hs.2]

/-- Records of a kind that were appended in the order of their days are read in that order. -/
theorem filter_recordsUpto (hs : ((log.filter p).map Rec.day).Pairwise (· ≤ ·)) (day : Nat) :
    (recordsUpto (filesOf log) day).filter p = (log.filter p).filter fun r => decide (r.day ≤ day) := by
  have hread (d : Nat) : (readDay d (filesOf log d)).filter p =
      (log.filter p).filter fun r => decide (r.day = d) := by
    rw [readDay_filesOf, List.filter_filter, List.filter_filter]
    simp only [Bool.and_comm]
  unfold recordsUpto
  rw [List.filter_flatMap]
  simp only [hread]
  induction day with
  | zero => simp
  | succ d ih =>
    rw [List.range_succ, List.flatMap_append, ih, List.flatMap_singleton]
    exact filter_day_succ hs d

theorem day_le_of_mem {r : Rec} (h : r ∈ log) : r.day ≤ (log.map Rec.day).foldr max 0 := by
  have hmem := List.mem_map_of_mem (f := Rec.day) h
  generalize log.map Rec.day = days at hmem
  induction days with
  | nil => cases hmem
  | cons a days ih =>
    rw [List.foldr_cons]
    obtain rfl | hmem := List.mem_cons.1 hmem
    · exact le_max_left _ _
    · exact (ih hmem).trans (le_max_right _ _)

theorem mem_allRecords {r : Rec} (h : r ∈ log) : r ∈ allRecords log := by
  refine mem_recordsUpto.2 ⟨r.day, day_le_of_mem h, ?_⟩
  rw [readDay_filesOf]
  exact List.mem_filter.2 ⟨h, decide_eq_true rfl⟩

theorem filter_allRecords (hs : ((log.filter p).map Rec.day).Pairwise (· ≤ ·)) :
    (allRecords log).filter p = log.filter p := by
  unfold allRecords
  rw [filter_recordsUpto hs]
  refine List.filter_eq_self.2 fun r hr => ?_
  rw [decide_eq_true_eq]
  exact day_le_of_mem (List.mem_of_mem_filter hr)

end Append

end Dendra.Season
