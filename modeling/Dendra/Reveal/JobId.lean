import Mathlib
import Dendra.Jobs.Application
import Dendra.Jobs.Progress.Settle
import Dendra.Jobs.Tally
import Dendra.Relay.Request
import Dendra.Reveal.Spared

/-!
# The ids of audited jobs

What a job id may contain is said by `OpenJob`, by the route of the relay, by those who split its keys, and by
`safe_job_id` of the two workers. `Auditable` is what an audit needs of an id: no worker skips it, and each key that is
made of it is routed and read back.

* `auditable_of_open`: an id that is opened and matches the pattern of the workers can be audited.
* `open_unaudited`: an id that is opened and does not match is skipped by both workers.
-/

namespace Dendra.Reveal

open Jobs Relay

/-! ## Keys -/

/-- `<job>__<miner>`: the key of a request and of an answer, and of the primary's commit. -/
def pairKey (j m : Str) : Str := j ++ commitKeySep ++ m

/-- `<job>__<juror>__<author>`: the key of a copy of a reveal. -/
def copyKey (j m author : Str) : Str := pairKey (pairKey j m) author

/-- `<job>__verdict__<juror>`. -/
def verdictKey (j m : Str) : Str := commitKey .verdict j m

/-- The path of `relay_client`'s `_url`. -/
def pathOf (kind : Relay.Kind) (key : Str) : Str := "/".toList ++ kind.name ++ "/".toList ++ key

/-- What an audit of a job needs of its id, for a juror and for the author of a reveal. -/
structure Auditable (j m author : Str) : Prop where
  /-- The reveal worker is done with the job when it revealed it. -/
  revealed : ∀ cfg ρ r s, r.job = j → (rowTurn cfg ρ r s).1.worker.done j = true →
    s.worker.done j = true ∨ (ρ.reveal j (s.worker.juries j)).action = .revealed
  /-- The first look of the judge worker ends the audit of a judge that has no seat. -/
  judged : ∀ f me look r a, r.job = j → (Judge.observeTurn f me look r a).audit.done = true →
    a.done = true ∨ a.seat.getD (look j).seat = .notSeated
  pairRouted : ∀ kind, target (route (pathOf kind (pairKey j m))) = some (kind, pairKey j m)
  copyRouted : target (route (pathOf .reveal (copyKey j m author))) = some (.reveal, copyKey j m author)
  pairMiner : ∀ kind, kind = .req ∨ kind = .res → minerNamedByKey kind (pairKey j m) = some m
  pairJob : jobFromKey (pairKey j m) m = some j
  copyAuthor : minerNamedByKey .reveal (copyKey j m author) = some author
  copyJob : (Str.splitLast commitKeySep (copyKey j m author)).bind (fun p => Str.splitLast commitKeySep p.1) = some (j, m)
  commitParsed : parseCommitKey (pairKey j m) = some ⟨.primary, j, m, 0⟩
  verdictParsed : parseCommitKey (verdictKey j m) = some ⟨.verdict, j, m, 0⟩

variable {j m author : Str}

/-! ## What the workers do -/

theorem safe_of_matches (h : Judge.matchesId j = true) : Judge.safeJobId j = true := by
  simp [Judge.safeJobId, h]

theorem file_done (cfg : Settings) (job : Str) (s : System) : (System.file cfg job s).worker.done = s.worker.done := by
  unfold System.file
  split
  · rfl
  · split <;> rfl

theorem rowTurn_done {cfg : Settings} {ρ : Round} {r : Row} {s : System} (hsafe : Judge.safeJobId r.job = true)
    (h : (rowTurn cfg ρ r s).1.worker.done r.job = true) :
    s.worker.done r.job = true ∨ (ρ.reveal r.job (s.worker.juries r.job)).action = .revealed := by
  unfold rowTurn at h
  simp only [hsafe, Bool.true_eq_false, if_false] at h
  split at h
  · exact .inl h
  · split at h
    · exact .inl h
    · split at h
      · next hact => exact .inr hact
      · exact .inl h
      · exact .inl h
      · exact .inl h

theorem observeTurn_done {f : Judge.Flags} {me : Str} {look : Str → Judge.Look} {r : Judge.Row} {a : Judge.Audit}
    (hsafe : Judge.safeJobId r.job = true) (h : (Judge.observeTurn f me look r a).audit.done = true) :
    a.done = true ∨ a.seat.getD (look r.job).seat = .notSeated := by
  unfold Judge.observeTurn at h
  simp only [hsafe, Bool.not_true, Bool.false_eq_true, if_false] at h
  split at h
  · exact .inl h
  · split at h
    · exact .inl h
    · cases hseat : a.seat.getD (look r.job).seat with
      | notSeated => exact .inr rfl
      | seated => exact .inl (by simpa [hseat] using h)
      | noJury => exact .inl (by simpa [hseat, Judge.Audit.retry] using h)
      | unknown => exact .inl (by simpa [hseat] using h)

/-! ## What the relay does -/

/-- A text that may stand in a path. -/
def Plain (s : Str) : Prop := '/' ∉ s ∧ '?' ∉ s

theorem Plain.append {s t : Str} (hs : Plain s) (ht : Plain t) : Plain (s ++ t) :=
  ⟨by simp [hs.1, ht.1], by simp [hs.2, ht.2]⟩

theorem plain_of_matches (h : Judge.matchesId j = true) : Plain j := by
  have hchar : ∀ a ∈ j, Judge.isIdChar a = true := by
    cases j with
    | nil => intro a ha; cases ha
    | cons c cs =>
      simp only [Judge.matchesId, Bool.and_eq_true, List.all_eq_true] at h
      intro a ha
      rcases List.mem_cons.1 ha with rfl | ha
      · simp [Judge.isIdChar, h.1.1]
      · exact h.1.2 a ha
  exact ⟨fun hm => absurd (hchar _ hm) (by decide), fun hm => absurd (hchar _ hm) (by decide)⟩

theorem plain_of_wf (h : WfMinerId m) : Plain m :=
  ⟨h.not_mem (by unfold IsIdChar; decide), h.not_mem (by unfold IsIdChar; decide)⟩

theorem plain_sep : Plain commitKeySep := by unfold Plain commitKeySep; decide

/-- A key without a slash and a question mark is routed. -/
theorem route_pathOf (kind : Relay.Kind) {key : Str} (hne : key ≠ []) (h : Plain key) :
    target (route (pathOf kind key)) = some (kind, key) := by
  have hkind : Plain kind.name := by unfold Plain; cases kind <;> decide
  have hname : kind.name ≠ [] := by cases kind <;> decide
  have hfound : kindOf kind.name = some kind := by cases kind <;> decide
  have hpath : pathOf kind key = Str.join [[], kind.name, key] '/' := by
    simp [pathOf, Str.join, List.intercalate]
  have hquery : ((pathOf kind key).takeWhile fun a => decide (a ≠ '?')) = pathOf kind key := by
    rw [List.takeWhile_eq_self_iff]
    intro a ha
    have : '?' ∉ pathOf kind key := by simp [pathOf, hkind.2, h.2]
    simp only [decide_eq_true_eq]
    exact fun e => this (e ▸ ha)
  have hsplit : Str.split (pathOf kind key) '/' = [[], kind.name, key] := by
    rw [hpath, Str.split_join ?_ (by simp)]
    simp [hkind.1, h.1]
  have hroute : route (pathOf kind key) = [kind.name, key] := by
    rw [route, hquery, hsplit]
    simp [hname, hne]
  rw [hroute, target, hfound, Option.map_some]

/-- The last separator of a key stands before a derived id. -/
theorem splitLast_pairKey (hm : WfMinerId m) : Str.splitLast commitKeySep (pairKey j m) = some (j, m) :=
  Str.splitLast_of_last commitKeySep_ne_nil hm.tail.2

/-! ## The result -/

theorem auditable_of_wf (hj : WfJobId j) (hid : Judge.matchesId j = true) (hm : WfMinerId m) (ha : WfMinerId author) :
    Auditable j m author where
  revealed := by
    rintro cfg ρ r s rfl h
    exact rowTurn_done (safe_of_matches hid) h
  judged := by
    rintro f me look r a rfl h
    exact observeTurn_done (safe_of_matches hid) h
  pairRouted kind := route_pathOf kind (by simp [pairKey, hj.1])
    (((plain_of_matches hid).append plain_sep).append (plain_of_wf hm))
  copyRouted := route_pathOf .reveal (by simp [copyKey, pairKey, hj.1])
    (((((plain_of_matches hid).append plain_sep).append (plain_of_wf hm)).append plain_sep).append (plain_of_wf ha))
  pairMiner := by
    rintro kind (rfl | rfl)
    · exact congrArg (Option.map Prod.snd) (splitLast_pairKey hm)
    · exact congrArg (Option.map Prod.snd) (splitLast_pairKey hm)
  pairJob := by
    have hsplit : Str.splitLast "__".toList (pairKey j m) = some (j, m) := splitLast_pairKey hm
    have hne : ¬ (j = [] ∨ m ≠ m) := by simp [hj.1]
    rw [jobFromKey, hsplit]
    exact if_neg hne
  copyAuthor := congrArg (Option.map Prod.snd) (splitLast_pairKey ha)
  copyJob := by
    rw [copyKey, splitLast_pairKey ha, Option.bind_some]
    exact splitLast_pairKey hm
  commitParsed := by
    have hparse : parseCommitKey (commitKey .primary j m) = some ⟨.primary, j, m, 0⟩ :=
      parseCommitKey_commitKey hj hm.tail nofun
    simpa [commitKey, CommitKeyKind.role, pairKey] using hparse
  verdictParsed := parseCommitKey_commitKey hj hm.tail nofun

/-- A job that is opened under an id of the pattern of the workers can be audited by every jury of derived ids. -/
theorem auditable_of_open [Chain] {c : Ctx} {msg : MsgOpenJob} {s s' : Jobs.State} {juror primary : Addr} {m author : Str}
    (h : openJob c msg s = .ok s') (hid : Judge.matchesId msg.jobId = true) (hm : deriveMinerID juror = some m)
    (ha : deriveMinerID primary = some author) : Auditable msg.jobId m author := by
  obtain ⟨f, -, hwf, -⟩ := openJob_spec h
  exact auditable_of_wf hwf hid (deriveMinerID_wf hm) (deriveMinerID_wf ha)

/-! ## Two openings -/

/-- The client of the village opens a job. -/
def openingOf (job : String) : MsgOpenJob := ⟨client, job.toList, 100⟩

theorem auditable_of_open_job : ∃ m author, deriveMinerID [1] = some m ∧ deriveMinerID [2] = some author ∧
    Auditable "job-1".toList m author := by
  obtain ⟨s', hs'⟩ : ∃ s', openJob (blockAt 2) (openingOf "job-1") (village .default) = .ok s' :=
    ⟨outcome (openJob (blockAt 2) (openingOf "job-1") (village .default)) (village .default),
      eq_ok_outcome (by rewrite [application_eq_tabled]; decide +kernel)⟩
  exact ⟨_, _, rfl, rfl, auditable_of_open hs' (by decide) (rfl : deriveMinerID [1] = some _)
    (rfl : deriveMinerID [2] = some _)⟩

/-- An id with a slash is opened. Both workers are done with the job, and nothing of it was revealed or judged; its
request has no route. -/
theorem open_unaudited :
    (openJob (blockAt 2) (openingOf "a/b") (village .default)).isOk = true ∧
      (rowTurn miner (serving none) ⟨"a/b".toList, "open+disputed".toList, ['m']⟩ atStart).1.worker.done "a/b".toList =
        true ∧
      (rowTurn miner (serving none) ⟨"a/b".toList, "open+disputed".toList, ['m']⟩ atStart).1.delivered = [] ∧
      (∀ f look a, (Judge.observeTurn f ['n'] look ⟨"a/b".toList, "open+disputed".toList, ['m'], 610⟩ a).kept = false) ∧
      target (route (pathOf .req (pairKey "a/b".toList ['m']))) = none := by
  refine ⟨by decide +kernel, by decide, by decide, fun f look a => ?_, by decide⟩
  have hdisputed : Judge.isDisputed "open+disputed".toList = true := by decide
  have hsafe : Judge.safeJobId "a/b".toList = false := by decide
  unfold Judge.observeTurn
  simp only [hdisputed, hsafe, Bool.not_false, Bool.not_true, Bool.false_or, if_true]
  split <;> rfl

end Dendra.Reveal
