import Dendra.Season.Evidence

/-!
# The work of an unwound audit

A request whose audit was unwound is paid when its answer reached the programme and its grading does not speak
against it: its own grades first, else those of its miner's day. A line of the evidence that cannot be read may
hide what decides, and what is not known is not paid.

* `grading`, `unwoundWork`: the code.
* `answerGrades_spec`: the grades of an answer, of which one that says coherent is enough.
* `grading_paid_mono`: a grading that pays on damaged evidence pays on the whole.
* `unknown_never_pays`: so does `unwoundWork`.
-/

namespace Dendra.Season.Facts

/-! ## Grades -/

/-- `FIRST_GRADER`. -/
def firstGrader : Str := "gpu".toList

/-- `grader_of`, of the `grader` field. -/
def graderOf (grader : Option Str) : Str := (grader.filter fun g => decide (g ≠ [])).getD firstGrader

/-- `answer_incoherent`, of the grades of an answer by grader. -/
def answerIncoherent (byGrader : Ordered Str (List Bool)) : Bool :=
  !byGrader.items.isEmpty && !byGrader.items.any fun e => e.2.any id

def addGrade (out : Ordered (Str × Str) (Ordered Str (List Bool))) :
    Rec → Ordered (Str × Str) (Ordered Str (List Bool))
  | .workGrade _ jid mid grader coherent =>
    let byGrader := (out.get? (jid, mid)).getD .empty
    out.set (jid, mid)
      (byGrader.set (graderOf grader) ((byGrader.get? (graderOf grader)).getD [] ++ [coherent]))
  | _ => out

/-- `_answer_grades`. -/
def answerGrades (records : List Rec) : Ordered (Str × Str) (Ordered Str (List Bool)) :=
  records.foldl addGrade .empty

def addSampled (out : Ordered Str (Finset Str)) : Rec → Ordered Str (Finset Str)
  | .workAnswer _ jid mid => out.set mid (insert jid ((out.get? mid).getD ∅))
  | _ => out

def addCombined (out : Ordered Str (List Bool)) (e : (Str × Str) × Ordered Str (List Bool)) :
    Ordered Str (List Bool) :=
  out.set e.1.2 ((out.get? e.1.2).getD [] ++ [!answerIncoherent e.2])

/-- `_work_grades`: the answers sampled of a day and the combined grades of those that were graded, by miner. -/
def workGrades (day : Nat) (records : List Rec) : Ordered Str (Finset Str) × Ordered Str (List Bool) :=
  let dayRecords := records.filter fun r => decide (r.day = day)
  (dayRecords.foldl addSampled .empty, (answerGrades dayRecords).items.foldl addCombined .empty)

/-- `GRADES_TO_VOID`. -/
def gradesToVoid : Nat := 2

/-- `_graded_out`. -/
def gradedOut (grades : List Bool) (gradable : Nat) : Bool :=
  decide (max 1 (min gradesToVoid gradable) ≤ grades.length) && !grades.any id

/-! ## Seals -/

def sealedJobs : Rec → List (Str × Nat)
  | .workSealed day answered => answered.flatMap fun e => e.2.map fun jid => (jid, day)
  | _ => []

/-- `answered_jobs`. -/
def answeredJobs (records : List Rec) : List Str := (records.flatMap sealedJobs).map Prod.fst

/-- `_sealed_on`: the day of the first seal that lists a job. -/
def sealedOn (records : List Rec) : Ordered Str Nat := (records.flatMap sealedJobs).foldl setDefault .empty

/-! ## The grading of a job -/

inductive Grading
  | ownCoherent
  | ownIncoherent
  | dayCoherent
  | dayNotGradedOut
  | dayGradedOut
  | notGraded
  | gradingUnreadable
  deriving DecidableEq

/-- `_PAID_GRADINGS`. -/
def Grading.paid : Grading → Bool
  | ownCoherent | dayCoherent | dayNotGradedOut => true
  | _ => false

/-- The days with unreadable lines. -/
def tornDays (records : List Rec) : List Nat :=
  records.filterMap fun
    | .unreadableLines day _ => some day
    | _ => none

/-- `_grading`, of what `_grading_reads` reads in the records. -/
def grading (jid mid : Str) (day : Nat) (records : List Rec) : Grading :=
  let torn := tornDays records
  let (sampled, grades) := workGrades day records
  match (answerGrades records).get? (jid, mid) with
  | some own => if answerIncoherent own then .ownIncoherent else .ownCoherent
  | none =>
    if (match (sealedOn records).get? jid with
      | some sealed => decide (sealed ∈ torn)
      | none => !torn.isEmpty) then .gradingUnreadable
    else
      let g := (grades.get? mid).getD []
      if g.any id then .dayCoherent
      else if day ∈ torn then .gradingUnreadable
      else if g = [] then .notGraded
      else if gradedOut g ((sampled.get? mid).getD ∅).card then .dayGradedOut
      else .dayNotGradedOut

/-! ## What is paid -/

/-- Why an unwound job is not paid: the first three by its state on the chain. -/
inductive Unpaid
  | convicted
  | unexpectedState
  | noPrimary
  | answerUnreadable
  | notAnswered
  | graded (g : Grading)
  deriving DecidableEq

/-- What a ranking publishes of an unwound job. -/
structure Proof where
  minerId : Str
  answered : Option Bool
  graded : Grading
  paid : Bool
  why : Option Unpaid
  deriving DecidableEq

/-- The entry of one job; `state` is what `job_unwound` said against it, if anything. -/
def proofOf (day : Nat) (records : List Rec) (answered : List Str) (jid mid : Str) (state : Option Unpaid) :
    Proof :=
  let g := grading jid mid day records
  let ans : Option Bool :=
    if jid ∈ answered then some true else if (tornDays records).isEmpty then some false else none
  let why : Option Unpaid :=
    state.or
      (if ans = none then some .answerUnreadable
      else if ans = some false then some .notAnswered
      else if g.paid then none
      else some (.graded g))
  ⟨mid, ans, g, why.isNone, why⟩

/-- `unwound_work`: the jobs paid, by miner, and the entry of every unwound job. -/
def unwoundWork (day : Nat) (records : List Rec) (unwound : Ordered Str (Str × Option Unpaid))
    (answered : List Str) : Ordered Str Nat × Ordered Str Proof :=
  let entries := (unwound.keys.insertionSort (· ≤ ·)).filterMap fun jid =>
    (unwound.get? jid).map fun e => (jid, proofOf day records answered jid e.1 e.2)
  (entries.foldl
    (fun paid e => if e.2.paid then paid.set e.2.minerId ((paid.get? e.2.minerId).getD 0 + 1) else paid) .empty,
    .ofList entries)

/-! ## What the grades say -/

section Grades

variable {records : List Rec} {jid mid : Str}

/-- The answer of a job was graded. -/
def Graded (records : List Rec) (jid mid : Str) : Prop :=
  ∃ day grader coherent, Rec.workGrade day jid mid grader coherent ∈ records

/-- A grade of the answer says coherent. -/
def SaidCoherent (records : List Rec) (jid mid : Str) : Prop :=
  ∃ day grader, Rec.workGrade day jid mid grader true ∈ records

theorem answerIncoherent_eq_false {byGrader : Ordered Str (List Bool)} (hne : byGrader.items ≠ []) :
    answerIncoherent byGrader = false ↔ ∃ g l, byGrader.get? g = some l ∧ true ∈ l := by
  unfold answerIncoherent
  rw [← List.isEmpty_eq_false_iff] at hne
  rw [hne, Bool.not_false, Bool.true_and, Bool.not_eq_false', List.any_eq_true]
  constructor
  · rintro ⟨⟨g, l⟩, he, hl⟩
    exact ⟨g, l, Ordered.get?_eq_some.2 he, by simpa using hl⟩
  · rintro ⟨g, l, hg, hl⟩
    exact ⟨(g, l), Ordered.get?_eq_some.1 hg, by simpa using hl⟩

theorem items_ne_nil {κ α : Type} [DecidableEq κ] {d : Ordered κ α} {k : κ} {v : α} (h : d.get? k = some v) :
    d.items ≠ [] :=
  List.ne_nil_of_mem (Ordered.get?_eq_some.1 h)

/-- What the grades of some records say of an answer. -/
def GradesSay (out : Ordered (Str × Str) (Ordered Str (List Bool))) (records : List Rec) : Prop :=
  ∀ jid mid, match out.get? (jid, mid) with
    | none => ¬Graded records jid mid
    | some byGrader => Graded records jid mid ∧ byGrader.items ≠ [] ∧
      ((∃ g l, byGrader.get? g = some l ∧ true ∈ l) ↔ SaidCoherent records jid mid)

theorem graded_concat {r : Rec} : Graded (records ++ [r]) jid mid ↔
    Graded records jid mid ∨ ∃ day grader coherent, r = .workGrade day jid mid grader coherent := by
  simp only [Graded, List.mem_append, List.mem_singleton, exists_or, eq_comm]

theorem saidCoherent_concat {r : Rec} : SaidCoherent (records ++ [r]) jid mid ↔
    SaidCoherent records jid mid ∨ ∃ day grader, r = .workGrade day jid mid grader true := by
  simp only [SaidCoherent, List.mem_append, List.mem_singleton, exists_or, eq_comm]

/-- A grade that is put down beside others. -/
theorem exists_true_set {byGrader : Ordered Str (List Bool)} {grader : Str} {c : Bool} :
    (∃ g l, (byGrader.set grader ((byGrader.get? grader).getD [] ++ [c])).get? g = some l ∧ true ∈ l) ↔
      (∃ g l, byGrader.get? g = some l ∧ true ∈ l) ∨ c = true := by
  constructor
  · rintro ⟨g, l, hg, hl⟩
    rw [Ordered.get?_set] at hg
    split at hg
    · obtain rfl := Option.some.inj hg
      obtain hl | hl := List.mem_append.1 hl
      · cases hold : byGrader.get? grader with
        | none => simp [hold] at hl
        | some l => exact .inl ⟨grader, l, hold, by simpa [hold] using hl⟩
      · exact .inr (List.mem_singleton.1 hl).symm
    · exact .inl ⟨g, l, hg, hl⟩
  · rintro (⟨g, l, hg, hl⟩ | rfl)
    · by_cases heq : g = grader
      · subst heq
        exact ⟨g, _, by rw [Ordered.get?_set, if_pos rfl], by simp [hg, hl]⟩
      · exact ⟨g, l, by rw [Ordered.get?_set, if_neg heq, hg], hl⟩
    · exact ⟨grader, _, by rw [Ordered.get?_set, if_pos rfl], by simp⟩

theorem GradesSay.add {out : Ordered (Str × Str) (Ordered Str (List Bool))} (h : GradesSay out records) (r : Rec) :
    GradesSay (addGrade out r) (records ++ [r]) := by
  intro jid mid
  have hout := h jid mid
  rw [graded_concat, saidCoherent_concat]
  by_cases hr : ∃ day grader coherent, r = .workGrade day jid mid grader coherent
  · -- one more grade of this answer
    obtain ⟨day, grader, c, rfl⟩ := hr
    unfold addGrade
    rw [Ordered.get?_set, if_pos rfl]
    dsimp only
    refine ⟨.inr ⟨day, grader, c, rfl⟩,
      items_ne_nil (k := graderOf grader) (by rw [Ordered.get?_set, if_pos rfl]), ?_⟩
    rw [exists_true_set]
    refine or_congr ?_ ?_
    · cases hby : out.get? (jid, mid) with
      | none =>
        rw [hby] at hout
        refine iff_of_false ?_ ?_
        · rintro ⟨g, l, hg, -⟩
          cases hg
        · rintro ⟨d, g, hg⟩
          exact hout ⟨d, g, true, hg⟩
      | some byGrader =>
        rw [hby] at hout
        exact hout.2.2
    · constructor
      · rintro rfl
        exact ⟨day, grader, rfl⟩
      · rintro ⟨d, g, heq⟩
        cases heq
        rfl
  · -- a record of something else
    have hget : (addGrade out r).get? (jid, mid) = out.get? (jid, mid) := by
      unfold addGrade
      split
      · next d j m g c =>
        rw [Ordered.get?_set, if_neg]
        intro heq
        obtain ⟨rfl, rfl⟩ := Prod.mk.inj heq
        exact hr ⟨d, g, c, rfl⟩
      · rfl
    have hr' : ¬∃ day grader, r = .workGrade day jid mid grader true := by
      rintro ⟨d, g, heq⟩
      exact hr ⟨d, g, true, heq⟩
    rw [hget, or_iff_left hr, or_iff_left hr']
    exact hout

/-- The grades of an answer: there are some, and one of them says coherent. -/
theorem answerGrades_spec (records : List Rec) : GradesSay (answerGrades records) records := by
  induction records using List.reverseRecOn with
  | nil => exact fun jid mid => fun ⟨_, _, _, h⟩ => List.not_mem_nil h
  | append_singleton l r ih =>
    unfold answerGrades at ih ⊢
    rw [List.foldl_append]
    exact ih.add r

theorem answerGrades_eq_none : (answerGrades records).get? (jid, mid) = none ↔ ¬Graded records jid mid := by
  have h := answerGrades_spec records jid mid
  cases hget : (answerGrades records).get? (jid, mid) with
  | none =>
    rw [hget] at h
    exact iff_of_true rfl h
  | some byGrader =>
    rw [hget] at h
    exact iff_of_false (Option.some_ne_none _) (not_not.2 h.1)

theorem answerGrades_coherent {byGrader : Ordered Str (List Bool)}
    (hget : (answerGrades records).get? (jid, mid) = some byGrader) :
    answerIncoherent byGrader = false ↔ SaidCoherent records jid mid := by
  have h := answerGrades_spec records jid mid
  rw [hget] at h
  exact (answerIncoherent_eq_false h.2.1).trans h.2.2

theorem SaidCoherent.graded (h : SaidCoherent records jid mid) : Graded records jid mid := by
  obtain ⟨d, g, h⟩ := h
  exact ⟨d, g, true, h⟩

/-- The combined grades of a miner, among those of a list of answers. -/
theorem get?_foldl_addCombined (l : List ((Str × Str) × Ordered Str (List Bool))) (out : Ordered Str (List Bool)) :
    ((l.foldl addCombined out).get? mid).getD [] =
      (out.get? mid).getD [] ++ (l.filter fun e => decide (e.1.2 = mid)).map fun e => !answerIncoherent e.2 := by
  induction l generalizing out with
  | nil => simp
  | cons e l ih =>
    rw [List.foldl_cons, ih, addCombined, Ordered.get?_set]
    by_cases heq : mid = e.1.2
    · subst heq
      simp
    · rw [if_neg heq, List.filter_cons_of_neg (by simpa [eq_comm] using heq)]

/-- The records of a day. -/
def ofDay (day : Nat) (records : List Rec) : List Rec := records.filter fun r => decide (r.day = day)

/-- A grade of a miner's day is coherent exactly if a grader said so of one of its answers. -/
theorem true_mem_workGrades {day : Nat} : true ∈ ((workGrades day records).2.get? mid).getD [] ↔
    ∃ jid, SaidCoherent (ofDay day records) jid mid := by
  change true ∈ (((answerGrades (ofDay day records)).items.foldl addCombined .empty).get? mid).getD [] ↔ _
  rw [get?_foldl_addCombined, List.mem_append, List.mem_map]
  constructor
  · rintro (h | ⟨⟨⟨jid, m⟩, byGrader⟩, he, hc⟩)
    · cases h
    · rw [List.mem_filter, decide_eq_true_eq] at he
      obtain ⟨he, rfl⟩ := he
      rw [Bool.not_eq_true'] at hc
      exact ⟨jid, (answerGrades_coherent (Ordered.get?_eq_some.2 he)).1 hc⟩
  · rintro ⟨jid, h⟩
    obtain ⟨byGrader, hget⟩ : ∃ byGrader,
        (answerGrades (ofDay day records)).get? (jid, mid) = some byGrader := by
      rw [← Option.ne_none_iff_exists']
      exact fun hnone => answerGrades_eq_none.1 hnone h.graded
    refine .inr ⟨((jid, mid), byGrader), ?_, ?_⟩
    · rw [List.mem_filter]
      exact ⟨Ordered.get?_eq_some.1 hget, by simp⟩
    · rw [Bool.not_eq_true']
      exact (answerGrades_coherent hget).2 h

end Grades

/-! ## Seals -/

section Seals

variable {records : List Rec} {jid : Str} {day : Nat}

theorem mem_sealedJobs : (jid, day) ∈ records.flatMap sealedJobs ↔
    ∃ answered, Rec.workSealed day answered ∈ records ∧ ∃ e ∈ answered, jid ∈ e.2 := by
  rw [List.mem_flatMap]
  constructor
  · rintro ⟨r, hr, h⟩
    unfold sealedJobs at h
    split at h
    · next d answered =>
      rw [List.mem_flatMap] at h
      obtain ⟨e, he, h⟩ := h
      rw [List.mem_map] at h
      obtain ⟨j, hj, heq⟩ := h
      obtain ⟨rfl, rfl⟩ := Prod.mk.inj heq
      exact ⟨answered, hr, e, he, hj⟩
    · cases h
  · rintro ⟨answered, hr, e, he, hj⟩
    exact ⟨_, hr, List.mem_flatMap.2 ⟨e, he, List.mem_map.2 ⟨jid, hj, rfl⟩⟩⟩

theorem get?_foldl_setDefault {κ α : Type} [DecidableEq κ] {k : κ} (l : List (κ × α)) (d : Ordered κ α) :
    (l.foldl setDefault d).get? k = (d.get? k).or ((l.find? fun e => decide (e.1 = k)).map Prod.snd) := by
  induction l generalizing d with
  | nil => simp
  | cons e l ih =>
    rw [List.foldl_cons, ih]
    rw [get?_setDefault, List.find?_cons]
    by_cases hk : k = e.1
    · subst hk
      simp
    · simp [hk, Ne.symm hk]

/-- A day that `_sealed_on` gives is that of a seal that lists the job. -/
theorem sealedOn_eq_some (h : (sealedOn records).get? jid = some day) :
    (jid, day) ∈ records.flatMap sealedJobs := by
  unfold sealedOn at h
  rw [get?_foldl_setDefault] at h
  simp only [Ordered.get?, Ordered.empty, List.find?_nil, Option.map_none, Option.none_or,
    Option.map_eq_some_iff] at h
  obtain ⟨e, he, rfl⟩ := h
  have := List.find?_some he
  rw [decide_eq_true_eq] at this
  exact this ▸ List.mem_of_find?_eq_some he

theorem sealedOn_isSome (h : jid ∈ answeredJobs records) : ∃ day, (sealedOn records).get? jid = some day := by
  unfold answeredJobs at h
  obtain ⟨e, he, rfl⟩ := List.mem_map.1 h
  unfold sealedOn
  rw [get?_foldl_setDefault]
  have : ((records.flatMap sealedJobs).find? fun x => decide (x.1 = e.1)).isSome = true := by
    rw [List.find?_isSome]
    exact ⟨e, he, by simp⟩
  obtain ⟨x, hx⟩ := Option.isSome_iff_exists.1 this
  exact ⟨x.2, by simp [hx, Ordered.get?, Ordered.empty]⟩

theorem mem_tornDays : day ∈ tornDays records ↔ Torn records day := by
  unfold tornDays Torn
  rw [List.mem_filterMap]
  constructor
  · rintro ⟨r, hr, h⟩
    split at h
    · next d n =>
      obtain rfl := Option.some.inj h
      exact ⟨n, hr⟩
    · cases h
  · rintro ⟨n, h⟩
    exact ⟨_, h, rfl⟩

end Seals

/-! ## Unknown never pays -/

section Unknown

variable {files damaged : Files} {upto day : Nat} {jid mid : Str}

/-- Each grade of a job is filed under the day that its seal was. -/
def GradesFiled (files : Files) (upto : Nat) : Prop :=
  ∀ jid mid day grader coherent sealed, Rec.workGrade day jid mid grader coherent ∈ recordsUpto files upto →
    (jid, sealed) ∈ (recordsUpto files upto).flatMap sealedJobs → day = sealed

theorem SaidCoherent.undamaged (hd : Damaged files damaged)
    (h : SaidCoherent (recordsUpto damaged upto) jid mid) : SaidCoherent (recordsUpto files upto) jid mid := by
  obtain ⟨d, g, h⟩ := h
  exact ⟨d, g, mem_recordsUpto_of_damaged hd h rfl⟩

theorem ofDay_undamaged (hd : Damaged files damaged)
    (h : SaidCoherent (ofDay day (recordsUpto damaged upto)) jid mid) :
    SaidCoherent (ofDay day (recordsUpto files upto)) jid mid := by
  obtain ⟨d, g, h⟩ := h
  obtain ⟨hr, hday⟩ := List.mem_filter.1 h
  exact ⟨d, g, List.mem_filter.2 ⟨mem_recordsUpto_of_damaged hd hr rfl, hday⟩⟩

theorem sealed_undamaged (hd : Damaged files damaged)
    (h : (jid, day) ∈ (recordsUpto damaged upto).flatMap sealedJobs) :
    (jid, day) ∈ (recordsUpto files upto).flatMap sealedJobs := by
  obtain ⟨answered, hr, he⟩ := mem_sealedJobs.1 h
  exact mem_sealedJobs.2 ⟨answered, mem_recordsUpto_of_damaged hd hr rfl, he⟩

theorem answered_undamaged (hd : Damaged files damaged) (h : jid ∈ answeredJobs (recordsUpto damaged upto)) :
    jid ∈ answeredJobs (recordsUpto files upto) := by
  obtain ⟨e, he, rfl⟩ := List.mem_map.1 h
  exact List.mem_map.2 ⟨e, sealed_undamaged hd he, rfl⟩

theorem not_torn (hc : Complete files) (d : Nat) : ¬Torn (recordsUpto files upto) d := by
  rintro ⟨n, h⟩
  have := hc.isUnreadable_eq_false h
  cases this

/-- A grade that damage hides was on a torn day: the day of the job's seal. -/
theorem graded_of_sealed (hc : Complete files) (hd : Damaged files damaged) (hf : GradesFiled files upto)
    {sealed : Nat} (hs : (jid, sealed) ∈ (recordsUpto damaged upto).flatMap sealedJobs)
    (ht : ¬Torn (recordsUpto damaged upto) sealed) (h : Graded (recordsUpto files upto) jid mid) :
    Graded (recordsUpto damaged upto) jid mid := by
  obtain ⟨d, g, c, hr⟩ := h
  obtain rfl := hf _ _ _ _ _ _ hr (sealed_undamaged hd hs)
  exact ⟨d, g, c, mem_of_not_torn hc hd hr ht⟩

/-- The day of a miner keeps its work: a grade of it says coherent, or, with no line of it unreadable, it was
graded and not graded out. -/
def DayKept (day : Nat) (records : List Rec) (mid : Str) : Prop :=
  (∃ jid, SaidCoherent (ofDay day records) jid mid) ∨
    ¬Torn records day ∧ ((workGrades day records).2.get? mid).getD [] ≠ [] ∧
      gradedOut (((workGrades day records).2.get? mid).getD [])
        (((workGrades day records).1.get? mid).getD ∅).card = false

/-- Which gradings pay, of a job in a seal. -/
theorem grading_paid {records : List Rec} {sealed : Nat} (hs : (sealedOn records).get? jid = some sealed) :
    (grading jid mid day records).paid = true ↔
      SaidCoherent records jid mid ∨
        ¬Graded records jid mid ∧ ¬Torn records sealed ∧ DayKept day records mid := by
  unfold grading
  cases hown : (answerGrades records).get? (jid, mid) with
  | some own =>
    have hgraded : Graded records jid mid := by
      by_contra hno
      rw [answerGrades_eq_none.2 hno] at hown
      cases hown
    dsimp only
    rw [← answerGrades_coherent hown, or_iff_left fun h => h.1 hgraded]
    cases answerIncoherent own <;> simp [Grading.paid]
  | none =>
    have hno : ¬Graded records jid mid := answerGrades_eq_none.1 hown
    rw [or_iff_right fun h => hno h.graded, and_iff_right hno, hs]
    dsimp only
    by_cases htorn : sealed ∈ tornDays records
    · rw [if_pos (by simpa using htorn)]
      exact iff_of_false (by simp [Grading.paid]) fun h => h.1 (mem_tornDays.1 htorn)
    · rw [if_neg (by simpa using htorn), and_iff_right fun h => htorn (mem_tornDays.2 h), DayKept,
        ← true_mem_workGrades, ← mem_tornDays]
      generalize ((workGrades day records).2.get? mid).getD [] = g
      by_cases hany : true ∈ g
      · have : g.any id = true := List.any_eq_true.2 ⟨true, hany, rfl⟩
        rw [if_pos this]
        exact iff_of_true rfl (.inl hany)
      · have : ¬g.any id = true := by
          rw [List.any_eq_true]
          rintro ⟨b, hb, hid⟩
          exact hany (hid ▸ hb)
        rw [if_neg this, or_iff_right hany]
        split_ifs with h1 h2 h3
        · exact iff_of_false (by simp [Grading.paid]) fun h => h.1 h1
        · exact iff_of_false (by simp [Grading.paid]) fun h => h.2.1 h2
        · exact iff_of_false (by simp [Grading.paid]) fun h => by simp [h3] at h
        · exact iff_of_true rfl ⟨h1, h2, by simpa using h3⟩

/-- A day that is kept on damaged evidence is kept on the whole. -/
theorem DayKept.undamaged (hc : Complete files) (hd : Damaged files damaged)
    (h : DayKept day (recordsUpto damaged upto) mid) : DayKept day (recordsUpto files upto) mid := by
  obtain ⟨jid, h⟩ | ⟨ht, hg⟩ := h
  · exact .inl ⟨jid, ofDay_undamaged hd h⟩
  · -- nothing of the day is hidden
    have hday := filter_day_of_not_torn hc hd ht
    refine .inr ⟨not_torn hc day, ?_⟩
    unfold workGrades at hg ⊢
    rwa [hday] at hg

/-- A grading that pays on damaged evidence pays on the whole. -/
theorem grading_paid_mono (hc : Complete files) (hd : Damaged files damaged) (hf : GradesFiled files upto)
    (ha : jid ∈ answeredJobs (recordsUpto damaged upto))
    (h : (grading jid mid day (recordsUpto damaged upto)).paid = true) :
    (grading jid mid day (recordsUpto files upto)).paid = true := by
  obtain ⟨sealed, hs⟩ := sealedOn_isSome ha
  obtain ⟨sealed', hs'⟩ := sealedOn_isSome (answered_undamaged hd ha)
  rw [grading_paid hs'] at ⊢
  obtain h | ⟨hno, ht, hday⟩ := (grading_paid hs).1 h
  · exact .inl (h.undamaged hd)
  · exact .inr ⟨fun hg => hno (graded_of_sealed hc hd hf (sealedOn_eq_some hs) ht hg), not_torn hc _,
      hday.undamaged hc hd⟩

/-- When the entry of an unwound job says paid. -/
theorem proofOf_paid {records : List Rec} {answered : List Str} {state : Option Unpaid} :
    (proofOf day records answered jid mid state).paid = true ↔
      state = none ∧ jid ∈ answered ∧ (grading jid mid day records).paid = true := by
  unfold proofOf
  dsimp only
  cases state with
  | some w => simp
  | none =>
    by_cases hj : jid ∈ answered
    · rw [if_pos hj]
      cases (grading jid mid day records).paid <;> simp [hj]
    · rw [if_neg hj]
      cases (tornDays records).isEmpty <;> simp [hj]

/-- The entry of an unwound job. -/
theorem get?_unwoundWork {records : List Rec} {unwound : Ordered Str (Str × Option Unpaid)}
    {answered : List Str} {p : Proof} :
    (unwoundWork day records unwound answered).2.get? jid = some p ↔
      ∃ e, unwound.get? jid = some e ∧ p = proofOf day records answered jid e.1 e.2 := by
  unfold unwoundWork
  dsimp only
  rw [Ordered.get?_ofList, Option.map_eq_some_iff]
  have hmem {e : Str × Proof} : e ∈ (unwound.keys.insertionSort (· ≤ ·)).filterMap (fun jid =>
      (unwound.get? jid).map fun e => (jid, proofOf day records answered jid e.1 e.2)) ↔
        ∃ u, unwound.get? e.1 = some u ∧ e.2 = proofOf day records answered e.1 u.1 u.2 := by
    simp only [List.mem_filterMap, List.mem_insertionSort, Option.map_eq_some_iff]
    constructor
    · rintro ⟨k, -, u, hu, rfl⟩
      exact ⟨u, hu, rfl⟩
    · rintro ⟨u, hu, hp⟩
      exact ⟨e.1, Ordered.mem_keys_of_mem (Ordered.get?_eq_some.1 hu), u, hu, Prod.ext rfl hp.symm⟩
  generalize (unwound.keys.insertionSort (· ≤ ·)).filterMap (fun jid =>
    (unwound.get? jid).map fun e => (jid, proofOf day records answered jid e.1 e.2)) = l at hmem ⊢
  constructor
  · rintro ⟨e, he, rfl⟩
    have hkey := List.find?_some he
    rw [decide_eq_true_eq] at hkey
    subst hkey
    exact hmem.1 (List.mem_reverse.1 (List.mem_of_find?_eq_some he))
  · rintro ⟨u, hu, rfl⟩
    have hin := hmem.2 (show ∃ v, unwound.get? (jid, proofOf day records answered jid u.1 u.2).1 = some v ∧ _ from
      ⟨u, hu, rfl⟩)
    have hsome : (l.reverse.find? fun e => decide (e.1 = jid)).isSome = true := by
      rw [List.find?_isSome]
      exact ⟨_, List.mem_reverse.2 hin, by simp⟩
    obtain ⟨e, he⟩ := Option.isSome_iff_exists.1 hsome
    refine ⟨e, he, ?_⟩
    have hkey := List.find?_some he
    rw [decide_eq_true_eq] at hkey
    subst hkey
    obtain ⟨u', hu', hp⟩ := hmem.1 (List.mem_reverse.1 (List.mem_of_find?_eq_some he))
    obtain rfl := Option.some.inj (hu.symm.trans hu')
    exact hp

/-- A job that is paid on evidence some lines of which cannot be read is paid on the whole evidence. -/
theorem unknown_never_pays (files damaged : Files) (upto day : Nat)
    (unwound : Ordered Str (Str × Option Unpaid)) (jid : Str) (p : Proof) (hc : Complete files)
    (hf : GradesFiled files upto) (hd : Damaged files damaged)
    (h : (unwoundWork day (recordsUpto damaged upto) unwound
      (answeredJobs (recordsUpto damaged upto))).2.get? jid = some p) (hpaid : p.paid = true) :
    ∃ p', (unwoundWork day (recordsUpto files upto) unwound
      (answeredJobs (recordsUpto files upto))).2.get? jid = some p' ∧ p'.paid = true := by
  obtain ⟨e, he, rfl⟩ := get?_unwoundWork.1 h
  obtain ⟨hstate, ha, hg⟩ := proofOf_paid.1 hpaid
  exact ⟨_, get?_unwoundWork.2 ⟨e, he, rfl⟩,
    proofOf_paid.2 ⟨hstate, answered_undamaged hd ha, grading_paid_mono hc hd hf ha hg⟩⟩

/-- A request of day 0 that was answered and graded on it. -/
def gradedFiles : Files := fun d =>
  if d = 0 then [some (.workSealed 0 [(['a'], [['j'], ['k']])]), some (.workGrade 0 ['j'] ['a'] none true),
    some (.workGrade 0 ['k'] ['a'] none true)] else []

/-- The same with a grade that cannot be read. -/
def hiddenFiles : Files := fun d =>
  if d = 0 then [some (.workSealed 0 [(['a'], [['j'], ['k']])]), some (.workGrade 0 ['j'] ['a'] none true),
    none] else []

/-- The first of the two is paid all the same, and so it is on the whole. -/
theorem unknown_never_pays_hidden : ∃ p', (unwoundWork 0 (recordsUpto gradedFiles 0)
    (.ofList [(['j'], ['a'], none)]) (answeredJobs (recordsUpto gradedFiles 0))).2.get? ['j'] = some p' ∧
      p'.paid = true := by
  refine unknown_never_pays gradedFiles hiddenFiles 0 0 (.ofList [(['j'], ['a'], none)]) ['j']
    ⟨['a'], some true, .ownCoherent, true, none⟩ ⟨?_, ?_⟩ ?_ ?_ (by decide) rfl
  · intro d l hl
    by_cases hd : d = 0
    · simp only [gradedFiles, if_pos hd, List.mem_cons, List.not_mem_nil, or_false] at hl
      rcases hl with rfl | rfl | rfl <;> exact ⟨_, rfl, rfl⟩
    · simp [gradedFiles, hd] at hl
  · intro d r hr
    by_cases hd : d = 0
    · simp only [gradedFiles, if_pos hd, List.mem_cons, List.not_mem_nil, or_false, Option.some.injEq] at hr
      rcases hr with rfl | rfl | rfl <;> exact hd.symm
    · simp [gradedFiles, hd] at hr
  · intro jid mid day grader coherent sealed hr hs
    obtain ⟨answered, hs, -⟩ := mem_sealedJobs.1 hs
    have hall : ∀ r ∈ recordsUpto gradedFiles 0, r.day = 0 := by decide
    exact (hall _ hr).trans (hall _ hs).symm
  · intro d
    by_cases hd : d = 0
    · simp [gradedFiles, hiddenFiles, hd]
    · simp [gradedFiles, hiddenFiles, hd]

end Unknown

end Dendra.Season.Facts
