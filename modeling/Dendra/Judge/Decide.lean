import Dendra.Judge.Loop
import Dendra.Lib.Run
import Dendra.Lib.Sha256

/-!
# The decision on a revealed audit

A judge reads an answer in stages: is it coherent, is it on topic, do two references of its own agree, does the
answer match them, does a third one, and does the question admit several answers. A reading is yes, no or
unreadable, and any call may raise. An ambiguity that was read becomes a valid vote, an attempt that could not
judge is tried again, and an attempt whose references agreed should take that vote away from the later ones.

* `decideVerdict`, `judgeReveal`: the code. `Judgment` says what was read and how it ended.
* `attempt`: one attempt on an audit, by the loop's own turn; `Trials`: one after another.
* `KeepsAgreement`: an attempt that has read its references as agreeing ends where that is remembered.
* `Sound`: what a verdict must rest on; `votes_sound`, `second_draw`.
-/

namespace Dendra.Judge

/-! ## The code -/

/-- What a call to a reader gives. `answers none` is unreadable. -/
inductive Reply
  | answers (v : Option Bool)
  | raises
  deriving DecidableEq

/-- The exit stages. -/
inductive Stage
  | coherence | relevance | scDiverge | scValid | scUnstable | scUnreadable | multiok | multiokUnreadable
  | slash | legacy | legacyUnreadable | genFail | promptMismatch | anchorUnreadable | anchorShape
  | anchorMismatch | promptUnreadable | promptUnverified | requestUnreadable | divergenceHeld
  | invalidUnattributed
  deriving DecidableEq

def Stage.name : Stage → Str
  | coherence => "coherence".toList
  | relevance => "relevance".toList
  | scDiverge => "sc-diverge".toList
  | scValid => "sc-valid".toList
  | scUnstable => "sc-unstable".toList
  | scUnreadable => "sc-unreadable".toList
  | multiok => "multiok".toList
  | multiokUnreadable => "multiok-unreadable".toList
  | slash => "slash".toList
  | legacy => "legacy".toList
  | legacyUnreadable => "legacy-unreadable".toList
  | genFail => "gen-fail".toList
  | promptMismatch => "prompt-mismatch".toList
  | anchorUnreadable => "anchor-unreadable".toList
  | anchorShape => "anchor-shape".toList
  | anchorMismatch => "anchor-mismatch".toList
  | promptUnreadable => "prompt-unreadable".toList
  | promptUnverified => "prompt-unverified".toList
  | requestUnreadable => "request-unreadable".toList
  | divergenceHeld => "divergence-held".toList
  | invalidUnattributed => "invalid-unattributed".toList

/-- What is read in an attempt: an answer's coherence, by the digest that the memo keeps it under, whether the
first two references agree, whether the answer matches, and whether several answers are correct. -/
inductive Read
  | coherence (digest : List UInt8) (v : Option Bool)
  | refs (v : Option Bool)
  | same (v : Option Bool)
  | several (v : Option Bool)
  deriving DecidableEq

/-- What an attempt has read, and its verdict with the stage; `none` when a call has raised. -/
structure Judgment where
  read : List Read
  result : Option (Option Bool × Stage)

def Judgment.ends (v : Option Bool) (stage : Stage) : Judgment := ⟨[], some (v, stage)⟩

def Judgment.raised : Judgment := ⟨[], none⟩

/-- The judgment goes on after a reading. -/
def Judgment.after (r : Read) (j : Judgment) : Judgment := { j with read := r :: j.read }

/-- The flags of the decision: `TWOSTAGE`, `RELEVANCE`, `SELFCONSIST`, `MULTIOK` and `DIVERGENCE_SLASH`. -/
structure JudgeFlags where
  twoStage : Bool
  relevance : Bool
  selfConsist : Bool
  multiok : Bool
  armed : Bool

/-- `prompt_check`. -/
inductive PromptCheck
  | matching | mismatch | unreadable | unknown | raises
  deriving DecidableEq

/-- `anchor_reading`, and the cosine against `ANCHOR_IDENTITY_COS`. -/
inductive AnchorReading
  | unreadable | shape | below | reached | raises
  deriving DecidableEq

/-- What every call of an attempt answers if it is made: the three generations give a reference or fail after
their retries, and `late` says whether an error is raised between the judgment and the record of its end. -/
structure Readings where
  prompt : PromptCheck
  anchor : AnchorReading
  capped : Bool
  coherence : Reply
  relevance : Reply
  gen₁ : Bool
  gen₂ : Bool
  refs : Reply
  same : Reply
  gen₃ : Bool
  confirm : Reply
  several : Reply
  late : Bool

/-- Stage 3d of `decide_verdict`. -/
def multiplicity (d : JudgeFlags) (x : Readings) : Judgment :=
  if d.multiok then
    match x.several with
    | .raises => .raised
    | .answers v => .after (.several v) <|
      match v with
      | some true => .ends none .multiok
      | none => .ends none .multiokUnreadable
      | some false => .ends (some false) .slash
  else .ends (some false) .slash

/-- Stage 3 of `decide_verdict`. -/
def selfConsistency (d : JudgeFlags) (x : Readings) : Judgment :=
  if !x.gen₁ || !x.gen₂ then .ends none .genFail
  else
    match x.refs with
    | .raises => .raised
    | .answers agree => .after (.refs agree) <|
      match agree with
      | none => .ends none .scUnreadable
      | some false => .ends none .scDiverge
      | some true =>
        match x.same with
        | .raises => .raised
        | .answers same => .after (.same same) <|
          match same with
          | none => .ends none .scUnreadable
          | some true => .ends (some true) .scValid
          | some false =>
            if !x.gen₃ then .ends none .genFail
            else
              match x.confirm with
              | .raises => .raised
              | .answers (some true) => multiplicity d x
              | .answers _ => .ends none .scUnstable

/-- Stage 4 of `decide_verdict`. -/
def singleReference (x : Readings) : Judgment :=
  if !x.gen₁ then .ends none .legacy
  else
    match x.same with
    | .raises => .raised
    | .answers v => .after (.same v) <|
      match v with
      | none => .ends none .legacyUnreadable
      | some v => .ends (some v) .legacy

/-- `decide_verdict`, where `c` is what the coherence function gives. -/
def decideVerdict (d : JudgeFlags) (c : Reply) (x : Readings) : Judgment :=
  match c with
  | .raises => .raised
  | .answers (some false) => .ends (some false) .coherence
  | .answers _ =>
    match if d.relevance then x.relevance else .answers none with
    | .raises => .raised
    | .answers (some false) => .ends none .relevance
    | .answers _ => if d.selfConsist then selfConsistency d x else singleReference x

/-- The readings that `coherence_memo` keeps for an audit and a judge model, by the digest of the answer. -/
abbrev Memo : Type := List UInt8 → Option Bool

/-- `coherence_memo`, behind `TWOSTAGE`: what it gives, what it has read for that, and what it keeps. -/
def coherenceMemo (d : JudgeFlags) (memo : Memo) (digest : List UInt8) (x : Readings) : Reply × List Read × Memo :=
  if !d.twoStage then (.answers none, [], memo)
  else
    match memo digest with
    | some v => (.answers (some v), [], memo)
    | none =>
      match x.coherence with
      | .raises => (.raises, [], memo)
      | .answers none => (.answers none, [.coherence digest none], memo)
      | .answers (some v) => (.answers (some v), [.coherence digest (some v)], Function.update memo digest (some v))

/-- `DIVERGENCE_STAGES` and `divergence_guard`. -/
def divergenceGuard (verdict : Option Bool) (stage : Stage) (armed : Bool) : Option Bool × Stage :=
  if verdict ≠ some false then (verdict, stage)
  else if stage = .coherence then (some false, stage)
  else if stage = .slash ∨ stage = .legacy then if armed then (some false, stage) else (none, .divergenceHeld)
  else (none, .invalidUnattributed)

/-- `abstain_to_vote`. -/
def abstainToVote (stage : Stage) (enabled : Bool) : Bool :=
  enabled && decide (stage = .scDiverge ∨ stage = .multiok)

/-- The guard, and then the benefit of the doubt. -/
def benefit (d : JudgeFlags) (allowed : Bool) (verdict : Option Bool) (stage : Stage) : Option Bool × Stage :=
  let g := divergenceGuard verdict stage d.armed
  if g.1 = none ∧ abstainToVote g.2 allowed then (some true, g.2) else g

/-- `judge_revealed` of a reveal that has a question and an answer, and the memo that it leaves. -/
def judgeReveal (d : JudgeFlags) (memo : Memo) (digest : List UInt8) (x : Readings) (allowed : Bool) :
    Judgment × Memo :=
  if x.prompt = .raises then (.raised, memo)
  else if x.prompt = .mismatch then (.ends none .promptMismatch, memo)
  else
    match x.anchor with
    | .raises => (.raised, memo)
    | .unreadable => (.ends none .anchorUnreadable, memo)
    | .shape => (.ends none .anchorShape, memo)
    | .below => (.ends none .anchorMismatch, memo)
    | .reached =>
      if x.prompt = .unreadable then (.ends none .promptUnreadable, memo)
      else
        let c := coherenceMemo d memo digest x
        if !x.capped || x.prompt == .unknown then
          match c.1 with
          | .raises => (⟨c.2.1, none⟩, c.2.2)
          | .answers (some false) => (⟨c.2.1, some (divergenceGuard (some false) .coherence d.armed)⟩, c.2.2)
          | .answers _ =>
            (⟨c.2.1, some (none, if x.prompt = .unknown then .promptUnverified else .requestUnreadable)⟩, c.2.2)
        else
          let j := decideVerdict d c.1 x
          (⟨c.2.1 ++ j.read, j.result.map fun r => benefit d allowed r.1 r.2⟩, c.2.2)

/-! ## The attempts of a process -/

/-- An attempt: what the loop is answered about the audit, whether the memory guard is closed, what the readers
answer, and which readings other audits have pushed out of the memo since the last one. -/
structure Attempt where
  look : Look
  closed : Bool
  readings : Readings
  forgets : List UInt8 → Bool

/-- The digest of the answer that the reveal carries. -/
def Attempt.digest (t : Attempt) : List UInt8 :=
  match t.look.reveal.field "answer".toList with
  | some (.str answer) => Sha256.hash answer.utf8
  | _ => []

/-- The end of a judgment, as the loop sees it. -/
def judgedOf (j : Judgment) (late : Bool) : Judged :=
  if late then .raised
  else
    match j.result with
    | none => .raised
    | some (some v, _) => .verdict v
    | some (none, stage) => .abstains stage.name

/-- What the process keeps of an audit. -/
structure Held where
  audit : Audit
  memo : Memo

/-- The memo as the attempt finds it. -/
def Held.found (s : Held) (t : Attempt) : Memo := fun k => if t.forgets k then none else s.memo k

/-- The judgment of an attempt. -/
def Attempt.judgment (f : Flags) (d : JudgeFlags) (s : Held) (t : Attempt) : Judgment × Memo :=
  judgeReveal d (s.found t) t.digest t.readings (f.abstainVote && !s.audit.agreedRefs)

/-- What the loop is answered, with the judgment in its place. -/
def Attempt.looked (f : Flags) (d : JudgeFlags) (s : Held) (t : Attempt) : Look :=
  { t.look with judged := fun _ =>
      if t.closed then .closed else judgedOf (t.judgment f d s).1 t.readings.late }

/-- The attempt gets to a judgment. -/
def Attempt.judging (s : Held) (t : Attempt) : Bool :=
  !s.audit.done && !t.look.ownsLater && s.audit.decided.isNone && !t.closed && t.look.reveal.wellShaped

/-- What an attempt has read, and the verdict that it has reached. -/
structure Tried where
  digest : List UInt8
  read : List Read
  vote : Option Bool

def decidedVote : Event → Option Bool
  | .decided _ v => some v
  | _ => none

/-- One attempt. An audit that is done with is not tried again. -/
def attempt (f : Flags) (d : JudgeFlags) (row : Row) (s : Held) (t : Attempt) : Held × Tried :=
  if s.audit.done then (s, ⟨t.digest, [], none⟩)
  else
    let turn := judgeTurn f (fun _ => t.looked f d s) row s.audit
    let vote := turn.events.findSome? decidedVote
    if t.judging s then (⟨turn.audit, (t.judgment f d s).2⟩, ⟨t.digest, (t.judgment f d s).1.read, vote⟩)
    else (⟨turn.audit, s.found t⟩, ⟨t.digest, [], vote⟩)

/-- The attempts on one audit: what is kept, and what they have read and reached, the first one first. -/
structure Trials where
  held : Held
  tried : List Tried

def Trials.start (s : Trials) : Prop := s = ⟨⟨.fresh, fun _ => none⟩, []⟩

def Trials.step (f : Flags) (d : JudgeFlags) (row : Row) (s : Trials) (t : Attempt) (s' : Trials) : Prop :=
  s' = ⟨(attempt f d row s.held t).1, s.tried ++ [(attempt f d row s.held t).2]⟩

/-! ## What a verdict rests on -/

/-- An invalid verdict rests on an answer that was read as incoherent, or, when the guard is armed, on references
that agree, an answer that differs and a question that admits one answer; a valid one on references that agree
and an answer that matches, or on an ambiguity that no earlier attempt on the audit has read otherwise. -/
structure Sound (d : JudgeFlags) (earlier : List Tried) (t : Tried) : Prop where
  invalid : t.vote = some false →
    (∃ e ∈ earlier ++ [t], .coherence t.digest (some false) ∈ e.read) ∨
      d.armed = true ∧ .refs (some true) ∈ t.read ∧ .same (some false) ∈ t.read ∧
        (d.multiok = true → .several (some false) ∈ t.read)
  valid : t.vote = some true →
    .refs (some true) ∈ t.read ∧ .same (some true) ∈ t.read ∨
      (.refs (some false) ∈ t.read ∨ .several (some true) ∈ t.read) ∧
        ∀ e ∈ earlier, .refs (some true) ∉ e.read

/-- The attempt gets to the comparison of its references. -/
def AsksRefs (d : JudgeFlags) (memo : Memo) (digest : List UInt8) (x : Readings) : Prop :=
  x.prompt = .matching ∧ x.anchor = .reached ∧ x.capped = true ∧
    (coherenceMemo d memo digest x).1 ≠ .raises ∧ (coherenceMemo d memo digest x).1 ≠ .answers (some false) ∧
    (d.relevance = true → x.relevance ≠ .raises ∧ x.relevance ≠ .answers (some false)) ∧
    x.gen₁ = true ∧ x.gen₂ = true

/-- If the attempt finds that its references agree, then no call raises from there on, and the third reference is
generated when it is asked for. -/
def KeepsAgreement (d : JudgeFlags) (s : Trials) (t : Attempt) : Prop :=
  t.judging s.held = true → AsksRefs d (s.held.found t) t.digest t.readings →
    t.readings.refs = .answers (some true) →
    t.readings.same ≠ .raises ∧
      (t.readings.same = .answers (some false) → t.readings.gen₃ = true ∧ t.readings.confirm ≠ .raises ∧
        (t.readings.confirm = .answers (some true) → d.multiok = true → t.readings.several ≠ .raises)) ∧
      t.readings.late = false

/-! ## A judgment -/

/-- The courses of stage 3: the references are not generated, or not read as agreeing; or they are, and the
judgment breaks off, abstains, or ends in a verdict. -/
inductive Consistency (d : JudgeFlags) (x : Readings) : Judgment → Prop
  | unread {result : Option (Option Bool × Stage)} {l : List Read} (hread : .refs (some true) ∉ l)
      (hresult : result = none ∨ result = some (none, .genFail) ∨ result = some (none, .scUnreadable)) :
      Consistency d x ⟨l, result⟩
  | diverge : Consistency d x ⟨[.refs (some false)], some (none, .scDiverge)⟩
  | broken {result : Option (Option Bool × Stage)} {l : List Read}
      (hresult : result = none ∨ result = some (none, .genFail))
      (hlost : ¬ (x.same ≠ .raises ∧ (x.same = .answers (some false) → x.gen₃ = true ∧ x.confirm ≠ .raises ∧
        (x.confirm = .answers (some true) → d.multiok = true → x.several ≠ .raises)))) :
      Consistency d x ⟨.refs (some true) :: l, result⟩
  | abstains {stage : Stage} {l : List Read}
      (hstage : stage = .scUnreadable ∨ stage = .scUnstable ∨ stage = .multiokUnreadable ∨
        stage = .multiok ∧ .several (some true) ∈ l) :
      Consistency d x ⟨.refs (some true) :: l, some (none, stage)⟩
  | valid : Consistency d x ⟨[.refs (some true), .same (some true)], some (some true, .scValid)⟩
  | invalid {l : List Read} (hseveral : d.multiok = true → .several (some false) ∈ l) :
      Consistency d x ⟨.refs (some true) :: .same (some false) :: l, some (some false, .slash)⟩

theorem consistency (d : JudgeFlags) (x : Readings) : Consistency d x (selfConsistency d x) := by
  unfold selfConsistency
  split
  · exact .unread (by simp) (.inr (.inl rfl))
  split
  · exact .unread (by simp) (.inl rfl)
  rename_i agree hrefs
  obtain _ | _ | _ := agree
  · exact .unread (l := [.refs none]) (by simp) (.inr (.inr rfl))
  · exact .diverge
  · dsimp only
    split
    next hsame => exact .broken (l := []) (.inl rfl) fun h => h.1 hsame
    next same hsame =>
      obtain _ | _ | _ := same
      · exact .abstains (l := [.same none]) (.inl rfl)
      · dsimp only
        split
        next hgen₃ =>
          refine .broken (l := [.same (some false)]) (.inr rfl) fun h => ?_
          rw [(h.2 hsame).1] at hgen₃
          cases hgen₃
        next hgen₃ =>
          split
          next hconfirm =>
            exact .broken (l := [.same (some false)]) (.inl rfl) fun h =>
              (h.2 hsame).2.1 hconfirm
          next hconfirm =>
            unfold multiplicity
            split
            next hmultiok =>
              split
              next hseveral =>
                exact .broken (l := [.same (some false)]) (.inl rfl) fun h =>
                  (h.2 hsame).2.2 hconfirm hmultiok hseveral
              next several hseveral =>
                obtain _ | _ | _ := several
                · exact .abstains (l := [.same (some false), .several none]) (.inr (.inr (.inl rfl)))
                · exact .invalid (l := [.several (some false)]) (by simp)
                · exact .abstains (l := [.same (some false), .several (some true)])
                    (.inr (.inr (.inr ⟨rfl, by simp⟩)))
            next hmultiok => exact .invalid (l := []) fun h => absurd h hmultiok
          · exact .abstains (l := [.same (some false)]) (.inr (.inl rfl))
      · exact .valid

theorem refs_read {d : JudgeFlags} {x : Readings} (h : .refs (some true) ∈ (selfConsistency d x).read) :
    x.gen₁ = true ∧ x.gen₂ = true ∧ x.refs = .answers (some true) := by
  unfold selfConsistency at h
  split at h
  · simp [Judgment.ends] at h
  rename_i hgen
  have hgen : x.gen₁ = true ∧ x.gen₂ = true := by simpa using hgen
  split at h
  · simp [Judgment.raised] at h
  rename_i agree hrefs
  obtain _ | _ | _ := agree
  · simp [Judgment.after, Judgment.ends] at h
  · simp [Judgment.after, Judgment.ends] at h
  · exact ⟨hgen.1, hgen.2, hrefs⟩

section Reveal

variable {d : JudgeFlags} {memo : Memo} {digest k : List UInt8} {x : Readings} {allowed v : Bool}

/-- The courses of a judgment: nothing is decided before the references are compared, or the answer is read as
incoherent, or stage 3 is reached. -/
inductive Revealed (d : JudgeFlags) (memo : Memo) (digest : List UInt8) (x : Readings) (allowed : Bool) :
    Judgment → Prop
  | quiet {l : List Read} {result : Option (Option Bool × Stage)} (hl : ∀ r ∈ l, ∃ v, r = .coherence digest v)
      (hresult : result = none ∨ ∃ stage, result = some (none, stage)) : Revealed d memo digest x allowed ⟨l, result⟩
  | garbage {l : List Read} (hl : ∀ r ∈ l, ∃ v, r = .coherence digest v)
      (hc : memo digest = some false ∨ .coherence digest (some false) ∈ l) :
      Revealed d memo digest x allowed ⟨l, some (some false, .coherence)⟩
  | graded {l : List Read} {j : Judgment} (hl : ∀ r ∈ l, ∃ v, r = .coherence digest v)
      (hasks : .refs (some true) ∈ j.read → AsksRefs d memo digest x ∧ x.refs = .answers (some true))
      (hj : Consistency d x j) :
      Revealed d memo digest x allowed ⟨l ++ j.read, j.result.map fun r => benefit d allowed r.1 r.2⟩

theorem coherenceMemo_read : ∀ r ∈ (coherenceMemo d memo digest x).2.1, ∃ v, r = .coherence digest v := by
  unfold coherenceMemo
  split
  · simp
  split
  · simp
  split <;> simp

theorem coherenceMemo_answers (h : (coherenceMemo d memo digest x).1 = .answers (some v)) :
    memo digest = some v ∨ .coherence digest (some v) ∈ (coherenceMemo d memo digest x).2.1 := by
  unfold coherenceMemo at *
  split at h
  · cases h
  rename_i htwo
  rw [if_neg htwo]
  split at h
  next w hw => exact .inl (by rw [hw]; simpa using h)
  next hw =>
    split at h
    · cases h
    · cases h
    · cases h
      exact .inr (by simp)

theorem coherenceMemo_kept (h : (coherenceMemo d memo digest x).2.2 k = some v) :
    memo k = some v ∨ k = digest ∧ .coherence digest (some v) ∈ (coherenceMemo d memo digest x).2.1 := by
  unfold coherenceMemo at *
  split at h
  · exact .inl h
  rename_i htwo
  rw [if_neg htwo]
  split at h
  · exact .inl h
  split at h
  · exact .inl h
  · exact .inl h
  · dsimp only at h
    rw [Function.update_apply] at h
    split at h
    next hk =>
      cases h
      exact .inr ⟨hk, by simp⟩
    · exact .inl h

theorem judgeReveal_kept (h : (judgeReveal d memo digest x allowed).2 k = some v) :
    memo k = some v ∨ k = digest ∧ .coherence digest (some v) ∈ (judgeReveal d memo digest x allowed).1.read := by
  unfold judgeReveal at *
  split at h
  · exact .inl h
  split at h
  · exact .inl h
  rename_i hraises hmismatch
  rw [if_neg hraises, if_neg hmismatch]
  split at h
  · exact .inl h
  · exact .inl h
  · exact .inl h
  · exact .inl h
  split at h
  · exact .inl h
  rename_i hunread
  rw [if_neg hunread]
  dsimp only at *
  split at h
  next hearly =>
    rw [if_pos hearly]
    split at h <;> exact coherenceMemo_kept h
  next hearly =>
    rw [if_neg hearly]
    exact (coherenceMemo_kept h).imp_right fun ⟨hk, hmem⟩ => ⟨hk, List.mem_append_left _ hmem⟩

theorem benefit_coherence : benefit d allowed (some false) .coherence = (some false, .coherence) := by
  simp [benefit, divergenceGuard]

theorem benefit_true (stage : Stage) : benefit d allowed (some true) stage = (some true, stage) := by
  simp [benefit, divergenceGuard]

theorem benefit_slash :
    benefit d allowed (some false) .slash = if d.armed then (some false, .slash) else (none, .divergenceHeld) := by
  cases h : d.armed <;> simp [benefit, divergenceGuard, abstainToVote, h]

/-- An abstention becomes a valid vote only where an ambiguity was read. -/
theorem benefit_none (stage : Stage) : benefit d allowed none stage =
    if allowed = true ∧ (stage = .scDiverge ∨ stage = .multiok) then (some true, stage) else (none, stage) := by
  simp [benefit, divergenceGuard, abstainToVote]

theorem benefit_other {stage : Stage} (h : stage ≠ .scDiverge) (h' : stage ≠ .multiok) :
    benefit d allowed none stage = (none, stage) := by
  rw [benefit_none, if_neg fun h₁ => h₁.2.elim h h']

theorem judgeReveal_course (hself : d.selfConsist = true) :
    Revealed d memo digest x allowed (judgeReveal d memo digest x allowed).1 := by
  unfold judgeReveal
  split
  · exact .quiet (l := []) (by simp) (.inl rfl)
  split
  · exact .quiet (l := []) (by simp) (.inr ⟨_, rfl⟩)
  rename_i hraises hmismatch
  split
  · exact .quiet (l := []) (by simp) (.inl rfl)
  · exact .quiet (l := []) (by simp) (.inr ⟨_, rfl⟩)
  · exact .quiet (l := []) (by simp) (.inr ⟨_, rfl⟩)
  · exact .quiet (l := []) (by simp) (.inr ⟨_, rfl⟩)
  rename_i hanchor
  split
  · exact .quiet (l := []) (by simp) (.inr ⟨_, rfl⟩)
  rename_i hunread
  dsimp only
  split
  next hearly =>
    split
    · exact .quiet coherenceMemo_read (.inl rfl)
    next hc => exact .garbage coherenceMemo_read (coherenceMemo_answers hc)
    · exact .quiet coherenceMemo_read (.inr ⟨_, rfl⟩)
  next hearly =>
    have hopen : x.capped = true ∧ x.prompt ≠ .unknown := by simpa using hearly
    have hprompt : x.prompt = .matching := by
      cases hp : x.prompt <;> simp_all
    unfold decideVerdict
    split
    · simp only [Judgment.raised, List.append_nil, Option.map_none]
      exact .quiet coherenceMemo_read (.inl rfl)
    next hc =>
      simp only [Judgment.ends, List.append_nil, Option.map_some, benefit_coherence]
      exact .garbage coherenceMemo_read (coherenceMemo_answers hc)
    next w hw hc =>
      split
      · simp only [Judgment.raised, List.append_nil, Option.map_none]
        exact .quiet coherenceMemo_read (.inl rfl)
      next hrel =>
        rw [Judgment.ends, List.append_nil, Option.map_some, benefit_other (by simp) (by simp)]
        exact .quiet coherenceMemo_read (.inr ⟨_, rfl⟩)
      next r hr hrel =>
        rw [if_pos hself]
        refine .graded coherenceMemo_read (fun hread => ?_) (consistency d x)
        obtain ⟨hgen₁, hgen₂, hrefs⟩ := refs_read hread
        refine ⟨⟨hprompt, hanchor, hopen.1, ?_, ?_, fun hrelevance => ?_, hgen₁, hgen₂⟩, hrefs⟩
        · rw [hc]
          simp
        · rw [hc]
          exact fun heq => hw (Reply.answers.inj heq)
        · rw [if_pos hrelevance] at hrel
          rw [hrel]
          exact ⟨by simp, fun heq => hr (Reply.answers.inj heq)⟩

theorem refs_not_coherence {l : List Read} (hl : ∀ r ∈ l, ∃ v, r = .coherence digest v) (v : Option Bool) :
    Read.refs v ∉ l := fun hmem => by
  obtain ⟨w, hw⟩ := hl _ hmem
  cases hw

/-- What a vote rests on, within its own judgment. -/
theorem vote_rests {j : Judgment} {stage : Stage} (hj : Revealed d memo digest x allowed j)
    (h : j.result = some (some v, stage)) :
    (v = false → (memo digest = some false ∨ .coherence digest (some false) ∈ j.read) ∨
      d.armed = true ∧ .refs (some true) ∈ j.read ∧ .same (some false) ∈ j.read ∧
        (d.multiok = true → .several (some false) ∈ j.read)) ∧
    (v = true → .refs (some true) ∈ j.read ∧ .same (some true) ∈ j.read ∨
      (.refs (some false) ∈ j.read ∨ .several (some true) ∈ j.read) ∧ allowed = true) := by
  cases hj with
  | quiet hl hresult =>
    rcases hresult with hresult | ⟨stage', hresult⟩ <;> rw [hresult] at h <;> cases h
  | garbage hl hc =>
    cases h
    exact ⟨fun _ => .inl hc, by simp⟩
  | graded hl hasks hj =>
    cases hj with
    | unread hread hresult =>
      rcases hresult with hresult | hresult | hresult <;> rw [hresult] at h
      · cases h
      · rw [Option.map_some, benefit_other (by simp) (by simp)] at h
        cases h
      · rw [Option.map_some, benefit_other (by simp) (by simp)] at h
        cases h
    | diverge =>
      rw [Option.map_some, benefit_none] at h
      split at h
      next hallowed =>
        cases h
        exact ⟨by simp, fun _ => .inr ⟨.inl (by simp), hallowed.1⟩⟩
      · cases h
    | broken hresult hlost =>
      rcases hresult with hresult | hresult <;> rw [hresult] at h
      · cases h
      · rw [Option.map_some, benefit_other (by simp) (by simp)] at h
        cases h
    | @abstains _ l hstage =>
      rw [Option.map_some, benefit_none] at h
      split at h
      next hallowed =>
        cases h
        obtain ⟨hallowed, hambiguous⟩ := hallowed
        have hseveral : Read.several (some true) ∈ l := by
          rcases hstage with rfl | rfl | rfl | ⟨rfl, hseveral⟩
          · simp at hambiguous
          · simp at hambiguous
          · simp at hambiguous
          · exact hseveral
        exact ⟨by simp, fun _ => .inr ⟨.inr (by simp [hseveral]), hallowed⟩⟩
      · cases h
    | valid =>
      rw [Option.map_some, benefit_true] at h
      cases h
      exact ⟨by simp, fun _ => .inl (by simp)⟩
    | invalid hseveral =>
      rw [Option.map_some, benefit_slash] at h
      split at h
      next harmed =>
        cases h
        exact ⟨fun _ => .inr ⟨harmed, by simp, by simp, fun hm => by simp [hseveral hm]⟩, by simp⟩
      · cases h

theorem asks_of_read {j : Judgment} (hj : Revealed d memo digest x allowed j) (hread : .refs (some true) ∈ j.read) :
    AsksRefs d memo digest x ∧ x.refs = .answers (some true) := by
  cases hj with
  | quiet hl hresult => exact (refs_not_coherence hl _ hread).elim
  | garbage hl hc => exact (refs_not_coherence hl _ hread).elim
  | graded hl hasks hj => exact hasks ((List.mem_append.1 hread).resolve_left (refs_not_coherence hl _))

/-- A judgment that has read its references as agreeing, and is not lost, ends at a stage that is kept. -/
theorem agreed_ends {j : Judgment} (hj : Revealed d memo digest x allowed j) (hread : .refs (some true) ∈ j.read)
    (hkeeps : x.same ≠ .raises ∧ (x.same = .answers (some false) → x.gen₃ = true ∧ x.confirm ≠ .raises ∧
      (x.confirm = .answers (some true) → d.multiok = true → x.several ≠ .raises))) :
    ∃ r, j.result = some r ∧
      (r.1 = none → agreedRefsStages.contains r.2.name = true ∨ retryStages.contains r.2.name = false) := by
  cases hj with
  | quiet hl hresult => exact (refs_not_coherence hl _ hread).elim
  | garbage hl hc => exact (refs_not_coherence hl _ hread).elim
  | graded hl hasks hj =>
    cases hj with
    | unread hread' hresult =>
      exact ((List.mem_append.1 hread).elim (refs_not_coherence hl _) hread').elim
    | diverge =>
      refine ((List.mem_append.1 hread).elim (refs_not_coherence hl _) ?_).elim
      simp
    | broken hresult hlost => exact (hlost hkeeps).elim
    | @abstains stage _ hstage =>
      refine ⟨benefit d allowed _ _, rfl, ?_⟩
      rw [benefit_none]
      split
      · simp
      · intro _
        rcases hstage with rfl | rfl | rfl | ⟨rfl, hseveral⟩ <;> decide
    | valid => exact ⟨benefit d allowed _ _, rfl, by simp [benefit_true]⟩
    | invalid hseveral =>
      refine ⟨benefit d allowed _ _, rfl, ?_⟩
      rw [benefit_slash]
      split
      · simp
      · exact fun _ => .inr (by decide)

end Reveal

/-! ## An attempt -/

/-- No later attempt on the audit may turn an ambiguity into a vote. -/
def Settled (a : Audit) : Prop := a.agreedRefs = true ∨ a.done = true ∨ a.decided ≠ none

section Attempt

variable {f : Flags} {d : JudgeFlags} {row : Row} {s : Held} {t : Attempt}

/-- How an attempt that judges ends: as an error, as an abstention at a stage, or with a verdict. -/
inductive Ended (a : Audit) : Judged → Audit → Option Bool → Prop
  | raised {a' : Audit} (h : Settled a → Settled a') : Ended a .raised a' none
  | abstains {a' : Audit} {stage : Str} (h : Settled a → Settled a')
      (hstage : agreedRefsStages.contains stage = true ∨ retryStages.contains stage = false → Settled a') :
      Ended a (.abstains stage) a' none
  | verdict {a' : Audit} {v : Bool} (h : Settled a') : Ended a (.verdict v) a' (some v)

theorem postTurn_settled {l : Look} {job : Str} {v : Bool} {events : List Event} {a : Audit} (h : a.decided ≠ none) :
    Settled (postTurn f l job v events a).audit := by
  unfold postTurn
  split
  · exact .inr (.inl rfl)
  · exact .inr (.inr h)

theorem postTurn_events {l : Look} {job : Str} {v : Bool} {events : List Event} {a : Audit} :
    (postTurn f l job v events a).events = events ++ [.sent job v] := by
  unfold postTurn
  split <;> rfl

theorem found_le {k : List UInt8} {v : Bool} (h : s.found t k = some v) : s.memo k = some v := by
  unfold Held.found at h
  split at h
  · cases h
  · exact h

variable (f d row) in
/-- An attempt that judges nothing decides nothing. -/
theorem attempt_idle (h : t.judging s = false) :
    (attempt f d row s t).2 = ⟨t.digest, [], none⟩ ∧ (Settled s.audit → Settled (attempt f d row s t).1.audit) ∧
      ∀ k v, (attempt f d row s t).1.memo k = some v → s.memo k = some v := by
  suffices hturn : s.audit.done = false →
      (judgeTurn f (fun _ => t.looked f d s) row s.audit).events.findSome? decidedVote = none ∧
        (Settled s.audit → Settled (judgeTurn f (fun _ => t.looked f d s) row s.audit).audit) by
    unfold attempt
    split
    · exact ⟨rfl, id, fun _ _ => id⟩
    next hdone =>
      simp only [h, Bool.false_eq_true, if_false]
      obtain ⟨hvote, hset⟩ := hturn (by simpa using hdone)
      exact ⟨by rw [hvote], hset, fun _ _ => found_le⟩
  intro hdone
  unfold judgeTurn
  dsimp only
  split
  next howns => exact ⟨rfl, fun _ => .inr (.inl rfl)⟩
  next howns =>
    split
    next v hdecided =>
      rw [postTurn_events]
      exact ⟨rfl, fun _ => postTurn_settled (by simp [hdecided])⟩
    next hdecided =>
      have hshut : t.closed = true ∨ t.look.reveal.wellShaped = false := by
        have howns : t.look.ownsLater = false := by simpa [Attempt.looked] using howns
        by_contra hopen
        simp_all [Attempt.judging]
      have hrevealed : judgeRevealed f (t.looked f d s) s.audit = .closed ∨
          judgeRevealed f (t.looked f d s) s.audit = .abstains "reveal-shape".toList := by
        unfold judgeRevealed
        split
        next heq => exact .inl rfl
        next heq =>
          refine .inr (if_neg ?_)
          rcases hshut with hclosed | hshape
          · exact absurd (by simp [Attempt.looked, hclosed]) heq
          · simp [Attempt.looked, hshape]
      rcases hrevealed with hrevealed | hrevealed
      · rw [hrevealed]
        exact ⟨rfl, fun h => h⟩
      · rw [hrevealed]
        exact ⟨rfl, fun _ => .inr (.inl rfl)⟩

variable (f d row) in
/-- An attempt that judges reads what its judgment reads, and ends as it does. -/
theorem attempt_judging (h : t.judging s = true) :
    ∃ a' vote, attempt f d row s t =
        (⟨a', (t.judgment f d s).2⟩, ⟨t.digest, (t.judgment f d s).1.read, vote⟩) ∧
      Ended s.audit (judgedOf (t.judgment f d s).1 t.readings.late) a' vote := by
  have hopen := h
  simp only [Attempt.judging, Bool.and_eq_true, Bool.not_eq_true', Option.isNone_iff_eq_none] at hopen
  obtain ⟨⟨⟨⟨hdone, howns⟩, hdecided⟩, hclosed⟩, hshape⟩ := hopen
  have hne : judgedOf (t.judgment f d s).1 t.readings.late ≠ .closed := by
    unfold judgedOf
    split
    · simp
    · split <;> simp
  have hrevealed : judgeRevealed f (t.looked f d s) s.audit = judgedOf (t.judgment f d s).1 t.readings.late := by
    simp only [judgeRevealed, Attempt.looked, hclosed, hshape, Bool.false_eq_true, if_false, if_true]
  unfold attempt judgeTurn
  simp only [hdone, Bool.false_eq_true, if_false, h, if_true, show (t.looked f d s).ownsLater = false from howns,
    hdecided, hrevealed]
  refine ⟨_, _, rfl, ?_⟩
  cases hj : judgedOf (t.judgment f d s).1 t.readings.late with
  | closed => exact (hne hj).elim
  | raised => exact .raised fun h => h
  | abstains stage =>
    dsimp only
    split
    next hretry =>
      split
      next hagreed => exact .abstains (fun _ => .inl rfl) fun _ => .inl rfl
      next hagreed => exact .abstains (fun h => h) fun h => (h.elim hagreed fun h => by simp_all).elim
    next hretry => exact .abstains (fun _ => .inr (.inl rfl)) fun _ => .inr (.inl rfl)
  | verdict v =>
    simp only [postTurn_events]
    exact .verdict (postTurn_settled (by simp))

/-- A judgment that ends, and is recorded, settles the audit unless it is to be tried again. -/
theorem settled_of_ended {a a' : Audit} {vote : Option Bool} {j : Judgment} {r : Option Bool × Stage}
    (h : Ended a (judgedOf j false) a' vote) (hr : j.result = some r)
    (hstage : r.1 = none → agreedRefsStages.contains r.2.name = true ∨ retryStages.contains r.2.name = false) :
    Settled a' := by
  obtain ⟨v, stage⟩ := r
  simp only [judgedOf, Bool.false_eq_true, if_false, hr] at h
  cases v with
  | none =>
    cases h with
    | abstains _ h => exact h (hstage rfl)
  | some v =>
    cases h with
    | verdict h => exact h

/-- A vote is the verdict of the judgment. -/
theorem result_of_vote {a a' : Audit} {j : Judgment} {late v : Bool} (h : Ended a (judgedOf j late) a' (some v)) :
    ∃ stage, j.result = some (some v, stage) := by
  generalize hj : judgedOf j late = e at h
  cases h with
  | verdict h =>
    unfold judgedOf at hj
    split at hj
    · cases hj
    split at hj
    · cases hj
    next w stage hresult =>
      cases hj
      exact ⟨stage, hresult⟩
    · cases hj

theorem Ended.mono {a a' : Audit} {e : Judged} {vote : Option Bool} (h : Ended a e a' vote) (hs : Settled a) :
    Settled a' := by
  cases h with
  | raised h => exact h hs
  | abstains h _ => exact h hs
  | verdict h => exact h

end Attempt

/-! ## The attempts -/

/-- What the process keeps of the attempts so far: a coherence that it remembers was read, and references that were
read as agreeing settle the audit. -/
structure Tracks (s : Trials) : Prop where
  memo : ∀ k v, s.held.memo k = some v → ∃ e ∈ s.tried, .coherence k (some v) ∈ e.read
  agreed : ∀ e ∈ s.tried, .refs (some true) ∈ e.read → Settled s.held.audit

section Run

variable {f : Flags} {d : JudgeFlags} {row : Row} {s s' : Trials} {t : Attempt}

theorem Tracks.start (h : Trials.start s) : Tracks s := by
  cases h
  exact ⟨by simp, by simp⟩

theorem not_settled (h : t.judging s.held = true) (hagreed : s.held.audit.agreedRefs = false) :
    ¬ Settled s.held.audit := by
  simp only [Attempt.judging, Bool.and_eq_true, Bool.not_eq_true', Option.isNone_iff_eq_none] at h
  simp [Settled, hagreed, h.1.1.1.1, h.1.1.2]

/-- One attempt: its verdict is sound, and what is kept is kept. -/
theorem Tracks.step (hs : Tracks s) (hself : d.selfConsist = true) (h : Trials.step f d row s t s')
    (hkeeps : KeepsAgreement d s t) : Tracks s' ∧ Sound d s.tried (attempt f d row s.held t).2 := by
  cases h
  cases hjudging : t.judging s.held with
  | false =>
    obtain ⟨htried, hmono, hmemo⟩ := attempt_idle f d row hjudging
    refine ⟨⟨fun k v hk => ?_, fun e he hread => ?_⟩, ⟨by simp [htried], by simp [htried]⟩⟩
    · obtain ⟨e, he, hread⟩ := hs.memo k v (hmemo k v hk)
      exact ⟨e, List.mem_append_left _ he, hread⟩
    · rcases List.mem_append.1 he with he | he
      · exact hmono (hs.agreed e he hread)
      · rw [List.mem_singleton.1 he, htried] at hread
        cases hread
  | true =>
    obtain ⟨a', vote, heq, hended⟩ := attempt_judging f d row hjudging
    have hcourse : Revealed d (s.held.found t) t.digest t.readings _ (t.judgment f d s.held).1 :=
      judgeReveal_course hself
    rw [heq]
    refine ⟨⟨fun k v hk => ?_, fun e he hread => ?_⟩, ⟨fun hvote => ?_, fun hvote => ?_⟩⟩
    · rcases judgeReveal_kept hk with hk | ⟨rfl, hread⟩
      · obtain ⟨e, he, hread⟩ := hs.memo k v (found_le hk)
        exact ⟨e, List.mem_append_left _ he, hread⟩
      · exact ⟨_, List.mem_append_right _ (List.mem_singleton_self _), hread⟩
    · rcases List.mem_append.1 he with he | he
      · exact hended.mono (hs.agreed e he hread)
      · rw [List.mem_singleton.1 he] at hread
        obtain ⟨hasks, hrefs⟩ := asks_of_read hcourse hread
        obtain ⟨hsame, hthird, hlate⟩ := hkeeps hjudging hasks hrefs
        obtain ⟨r, hresult, hstage⟩ := agreed_ends hcourse hread ⟨hsame, hthird⟩
        rw [hlate] at hended
        exact settled_of_ended hended hresult hstage
    · obtain rfl : vote = some false := hvote
      obtain ⟨stage, hresult⟩ := result_of_vote hended
      rcases (vote_rests hcourse hresult).1 rfl with (hmemo | hread) | hdiffers
      · obtain ⟨e, he, hread⟩ := hs.memo _ _ (found_le hmemo)
        exact .inl ⟨e, List.mem_append_left _ he, hread⟩
      · exact .inl ⟨_, List.mem_append_right _ (List.mem_singleton_self _), hread⟩
      · exact .inr hdiffers
    · obtain rfl : vote = some true := hvote
      obtain ⟨stage, hresult⟩ := result_of_vote hended
      refine ((vote_rests hcourse hresult).2 rfl).imp_right fun ⟨hread, hallowed⟩ => ⟨hread, fun e he hagreed => ?_⟩
      simp only [Bool.and_eq_true, Bool.not_eq_true'] at hallowed
      exact not_settled hjudging hallowed.2 (hs.agreed e he hagreed)

/-- With self-consistency on, in every run whose attempts keep what they have read of the references, every verdict
that an attempt reaches rests on what was read. -/
theorem votes_sound (hself : d.selfConsist = true)
    (h : Reach Trials.start (Trials.step f d row) (KeepsAgreement d) s) :
    ∀ pre e post, s.tried = pre ++ e :: post → Sound d pre e := by
  suffices hall : Tracks s ∧ ∀ pre e post, s.tried = pre ++ e :: post → Sound d pre e from hall.2
  induction h with
  | init h =>
    refine ⟨.start h, fun pre e post hpre => ?_⟩
    cases h
    simp at hpre
  | @step s s' t hreach hok hs ih =>
    obtain ⟨htracks, hsound⟩ := ih.1.step hself hs hok
    refine ⟨htracks, fun pre e post hpre => ?_⟩
    cases hs
    -- The last attempt is the one that the step has made; what comes before it is as it was.
    rcases List.eq_nil_or_concat post with rfl | ⟨post, e', rfl⟩
    · obtain ⟨rfl, rfl⟩ : s.tried = pre ∧ (attempt f d row s.held t).2 = e := by
        simpa using List.append_inj' hpre rfl
      exact hsound
    · refine ih.2 pre e post ?_
      have hpre' : s.tried ++ [(attempt f d row s.held t).2] = (pre ++ e :: post) ++ [e'] := by
        rw [List.append_assoc, List.cons_append]
        rwa [List.concat_eq_append] at hpre
      exact (List.append_inj' hpre' rfl).1

end Run

/-! ## A second draw -/

/-- A judge with self-consistency, that may vote on an ambiguity. -/
def drawFlags : Flags := ⟨true, false, true, 3, 0, 60⟩

def drawJudge : JudgeFlags := ⟨false, false, true, false, false⟩

def drawRow : Row := ⟨"j".toList, "done+disputed".toList, "p".toList, 1⟩

def drawLook : Look where
  now := 0
  seat := .seated
  reveal := .obj [("answer".toList, .str "no".toList), ("prompt".toList, .str "?".toList)]
  marker := none
  hasMarker := false
  owns := false
  zero := .anchored
  ownsLater := false
  judged := fun _ => .closed
  post := .anchored
  later := 0

/-- An attempt on a question that matches its anchor. -/
def drawAttempt (refs : Option Bool) (gen₃ : Bool) : Attempt where
  look := drawLook
  closed := false
  readings := ⟨.matching, .reached, true, .answers none, .answers none, true, true, .answers refs, .answers (some false), gen₃,
    .answers none, .answers none, false⟩
  forgets := fun _ => false

def drawn (refs : Option Bool) (gen₃ : Bool) (s : Trials) : Trials :=
  let w := attempt drawFlags drawJudge drawRow s.held (drawAttempt refs gen₃)
  ⟨w.1, s.tried ++ [w.2]⟩

/-- An attempt whose references differ votes on the ambiguity. -/
theorem votes_sound_ambiguous : Sound drawJudge []
    (attempt drawFlags drawJudge drawRow ⟨.fresh, fun _ => none⟩ (drawAttempt (some false) true)).2 := by
  have hreach : Reach Trials.start (Trials.step drawFlags drawJudge drawRow) (KeepsAgreement drawJudge)
      (drawn (some false) true ⟨⟨.fresh, fun _ => none⟩, []⟩) :=
    .step (.init rfl) (fun _ _ h => by cases h) rfl
  exact votes_sound rfl hreach [] _ [] rfl

/-- The references agree, the answer differs and the third reference cannot be generated; in the next attempt the
references differ, and the vote is valid. -/
theorem second_draw : ¬ ∀ (f : Flags) (d : JudgeFlags) (row : Row) (s : Trials), d.selfConsist = true →
    Reach Trials.start (Trials.step f d row) (fun _ _ => True) s →
    ∀ pre e post, s.tried = pre ++ e :: post → Sound d pre e := by
  intro h
  let one := drawn (some true) false ⟨⟨.fresh, fun _ => none⟩, []⟩
  let two := drawn (some false) true one
  have hreach : Reach Trials.start (Trials.step drawFlags drawJudge drawRow) (fun _ _ => True) two :=
    .step (.step (.init rfl) trivial rfl) trivial rfl
  have hfirst : one.tried.map Tried.read = [[.refs (some true), .same (some false)]] := by decide
  have hsecond : (attempt drawFlags drawJudge drawRow one.held (drawAttempt (some false) true)).2.vote = some true ∧
      .refs (some true) ∉ (attempt drawFlags drawJudge drawRow one.held (drawAttempt (some false) true)).2.read := by
    decide
  have hsound := h _ _ _ two rfl hreach one.tried _ [] rfl
  rcases hsound.valid hsecond.1 with hagree | hambiguous
  · exact hsecond.2 hagree.1
  · obtain ⟨e, he, hread⟩ := List.map_eq_singleton_iff.1 hfirst
    refine hambiguous.2 e (by rw [he]; exact List.mem_singleton_self _) ?_
    rw [hread]
    simp

end Dendra.Judge
