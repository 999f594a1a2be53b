import Dendra.Jobs.ExpiryExact
import Dendra.Jobs.SlashSafety

/-!
# The commits of another job

Commit keys are flat strings, and what is decided on a job is read from the keys that start with its id
and a separator. Whatever is stored under the keys of another job is read only if that other id is this
one with an underscore behind it.

* `SameDecisions`: what is decided on a job is the same in two states.
* `isolation`: when it is, whatever the commits of another job are.
-/

namespace Dendra.Jobs

open Word

/-- Tables that agree on the keys of a scan give the scan the same entries. -/
theorem filter_entries_congr {κ α : Type} [LinearOrder κ] {key : α → κ} {t u : Table key} {p : κ → Bool}
    (h : ∀ k, p k = true → t.get? k = u.get? k) :
    (t.entries.filter fun a => p (key a)) = u.entries.filter fun a => p (key a) := by
  have hirr : Std.Irrefl fun a b : α => key a < key b := ⟨fun a => lt_irrefl (key a)⟩
  refine List.Pairwise.eq_of_mem_iff (t.sorted.filter _) (u.sorted.filter _) fun a => ?_
  rw [List.mem_filter, List.mem_filter]
  refine and_congr_left fun hp => ?_
  have ht : a ∈ t.entries ↔ t.get? (key a) = some a :=
    ⟨fun ha => Table.get?_eq_some_iff.2 ⟨ha, rfl⟩, Table.mem_of_get?⟩
  have hu : a ∈ u.entries ↔ u.get? (key a) = some a :=
    ⟨fun ha => Table.get?_eq_some_iff.2 ⟨ha, rfl⟩, Table.mem_of_get?⟩
  rw [ht, hu, h _ hp]

/-- Two computations that go on alike from every result of the same first one. -/
theorem bind_congr_ok {α β : Type} {x : Except Err α} {f g : α → Except Err β}
    (h : ∀ a, x = .ok a → f a = g a) : x >>= f = x >>= g := by
  cases x with
  | error e => rfl
  | ok a => exact h a rfl

/-! ## Keys -/

section Keys

variable {a b m : Str} {kind : CommitKeyKind}

/-- What stands behind the job id in a commit key: one separator, and no third underscore. -/
theorem tail_commitKey (kind : CommitKeyKind) (b : Str) (hm : WfMinerId m) :
    ∃ x, commitKey kind b m = b ++ '_' :: '_' :: x ∧ x.head? ≠ some '_' := by
  have hsep : commitKeySep = ['_', '_'] := rfl
  cases kind with
  | primary =>
    refine ⟨m, by simp [commitKey, CommitKeyKind.role, hsep], fun h => hm.underscore ?_⟩
    exact List.mem_of_head? h
  | verdict =>
    exact ⟨commitRoleVerdict ++ commitKeySep ++ m, by simp [commitKey, CommitKeyKind.role, hsep],
      fun h => absurd (Option.some.inj h) (by decide)⟩
  | redo =>
    exact ⟨commitRoleRedo ++ commitKeySep ++ m, by simp [commitKey, CommitKeyKind.role, hsep],
      fun h => absurd (Option.some.inj h) (by decide)⟩
  | redoVerdict =>
    exact ⟨commitRoleRedo ++ (commitKeySep ++ commitRoleVerdict) ++ commitKeySep ++ m,
      by simp [commitKey, CommitKeyKind.role, hsep],
      fun h => absurd (Option.some.inj h) (by decide)⟩
  | epochMarker =>
    exact ⟨commitRoleReveals ++ commitKeySep ++ m, by simp [commitKey, CommitKeyKind.role, hsep],
      fun h => absurd (Option.some.inj h) (by decide)⟩

/-- Every key of a job starts with its id and a separator. -/
theorem prefix_commitKey (j : Str) (kind : CommitKeyKind) (m : Str) :
    j ++ commitKeySep <+: commitKey kind j m := by
  cases kind with
  | primary => exact ⟨m, by simp [commitKey, CommitKeyKind.role]⟩
  | verdict => exact ⟨commitRoleVerdict ++ commitKeySep ++ m, by simp [commitKey, CommitKeyKind.role]⟩
  | redo => exact ⟨commitRoleRedo ++ commitKeySep ++ m, by simp [commitKey, CommitKeyKind.role]⟩
  | redoVerdict =>
    exact ⟨commitRoleRedo ++ (commitKeySep ++ commitRoleVerdict) ++ commitKeySep ++ m,
      by simp [commitKey, CommitKeyKind.role]⟩
  | epochMarker =>
    exact ⟨commitRoleReveals ++ commitKeySep ++ m, by simp [commitKey, CommitKeyKind.role]⟩

/-- A key of job `b` does not start like those of job `a`, unless `b` is `a_`. -/
theorem not_prefix_commitKey (ha : WfJobId a) (hb : WfJobId b) (hne : a ≠ b) (hlast : b ≠ a ++ ['_'])
    (hm : WfMinerId m) : ¬ a ++ commitKeySep <+: commitKey kind b m := by
  obtain ⟨x, hx, hhead⟩ := tail_commitKey kind b hm
  rw [hx]
  rintro ⟨r, hr⟩
  have hr : a ++ ('_' :: '_' :: r) = b ++ '_' :: '_' :: x := by
    rw [← hr, List.append_assoc]
    rfl
  rcases List.append_eq_append_iff.1 hr with ⟨w, rfl, hw⟩ | ⟨w, rfl, hw⟩
  · rcases w with _ | ⟨y, _ | ⟨z, w⟩⟩
    · exact hne (List.append_nil a).symm
    · rw [List.singleton_append, List.cons.injEq] at hw
      exact hlast (by rw [← hw.1])
    · simp only [List.cons_append, List.cons.injEq] at hw
      refine hb.ne_append a w ?_
      rw [← hw.1, ← hw.2.1]
      rfl
  · rcases w with _ | ⟨y, _ | ⟨z, w⟩⟩
    · exact hne (List.append_nil b)
    · simp only [List.singleton_append, List.cons.injEq] at hw
      obtain ⟨-, -, rfl⟩ := hw
      exact hhead rfl
    · simp only [List.cons_append, List.cons.injEq] at hw
      refine ha.ne_append b w ?_
      rw [← hw.1, ← hw.2.1]
      rfl

end Keys

/-! ## Two stores of commits -/

/-- Two stores of commits that differ at most in the commits of one job. -/
def DifferOnlyOn (j : Str) (t u : Table Commit.jobId) : Prop :=
  ∀ key, (∀ kind m, WfMinerId m → key ≠ commitKey kind j m) → t.get? key = u.get? key

/-- Two stores of commits that agree on every key that starts like those of a job. -/
def AgreeOn (j : Str) (t u : Table Commit.jobId) : Prop :=
  ∀ key, j ++ commitKeySep <+: key → t.get? key = u.get? key

/-- The state with another store of commits. -/
def State.withCommits (tbl : Table Commit.jobId) (s : State) : State := { s with commits := tbl }

theorem agreeOn_of_differOnlyOn {a b : Str} {t u : Table Commit.jobId} (ha : WfJobId a)
    (hb : WfJobId b) (hne : a ≠ b) (hlast : b ≠ a ++ ['_']) (h : DifferOnlyOn b t u) :
    AgreeOn a t u := by
  intro key hkey
  apply h
  rintro kind m hm rfl
  exact not_prefix_commitKey ha hb hne hlast hm hkey

/-! ## Reads -/

section Reads

variable {s : State} {tbl : Table Commit.jobId} {j m : Str} (h : AgreeOn j s.commits tbl)

include h

theorem commit_withCommits {key : Str} (hkey : j ++ commitKeySep <+: key) :
    (s.withCommits tbl).commit key = s.commit key := (h key hkey).symm

theorem commitRange_withCommits {pfx : Str} (hpfx : j ++ commitKeySep <+: pfx) :
    (s.withCommits tbl).commitRange pfx = s.commitRange pfx := by
  refine (filter_entries_congr (p := fun k => pfx.isPrefixOf k) fun k hk => ?_).symm
  exact h k (hpfx.trans (List.isPrefixOf_iff_prefix.1 hk))

theorem commitByMiner_withCommits (committee : List Str) :
    commitByMiner (s.withCommits tbl) j committee = commitByMiner s j committee := by
  rw [commitByMiner, commitByMiner, commitRange_withCommits h (List.prefix_refl _)]

theorem committeeVecs_withCommits (committee : List Str) :
    committeeVecs (s.withCommits tbl) j committee = committeeVecs s j committee := by
  rw [committeeVecs, committeeVecs, commitByMiner_withCommits h]

theorem commitAuthorsOf_withCommits :
    commitAuthorsOf (s.withCommits tbl) j = commitAuthorsOf s j := by
  rw [commitAuthorsOf, commitAuthorsOf, commitRange_withCommits h (List.prefix_refl _)]

theorem answerOf_withCommits (m : Str) : answerOf (s.withCommits tbl) j m = answerOf s j m := by
  rw [answerOf, answerOf, commit_withCommits h (List.prefix_append _ _)]

theorem auditVerdictTally_withCommits (m : Str) :
    auditVerdictTally (s.withCommits tbl) j m = auditVerdictTally s j m := by
  have hvotes : verdictVotes (s.withCommits tbl) j m = verdictVotes s j m := by
    simp only [verdictVotes, commitRange_withCommits h (prefix_commitKey j .verdict [])]
    rfl
  unfold auditVerdictTally
  rw [hvotes]
  rfl

theorem freshVotes_withCommits (orig authors : List Str) :
    freshVotes (s.withCommits tbl) j orig authors = freshVotes s j orig authors := by
  simp only [freshVotes, commitRange_withCommits h (prefix_commitKey j .redo [])]
  rfl

theorem seatAnswered_withCommits (m : Str) (onAudit onRedo : Bool) :
    seatAnswered (s.withCommits tbl) j m onAudit onRedo = seatAnswered s j m onAudit onRedo := by
  have hauthor : contestedAuthor (s.withCommits tbl) j m = contestedAuthor s j m := by
    have hget : (s.withCommits tbl).commits.get? (j ++ commitKeySep ++ m) =
        s.commits.get? (j ++ commitKeySep ++ m) := (h _ (List.prefix_append _ _)).symm
    rw [contestedAuthor, contestedAuthor, Table.has_eq_isSome, Table.has_eq_isSome, hget]
  have hcommit : ∀ kind, (s.withCommits tbl).commit (commitKey kind j m) =
      s.commit (commitKey kind j m) := fun kind => commit_withCommits h (prefix_commitKey j kind m)
  have hjury : ∀ kind result, juryAnswer (s.withCommits tbl) kind j m onAudit onRedo result =
      juryAnswer s kind j m onAudit onRedo result := by
    intro kind result
    unfold juryAnswer
    rw [hauthor]
  simp only [seatAnswered, hcommit, hjury]

theorem clearAuditCommittee_withCommits :
    clearAuditCommittee (s.withCommits tbl) j = (clearAuditCommittee s j).withCommits tbl := by
  have hseat : ∀ audit redo, recordMissedDraw (s.withCommits tbl) j audit redo =
      recordMissedDraw s j audit redo := by
    intro audit redo
    funext missed m
    unfold recordMissedDraw
    simp only [seatAnswered_withCommits h]
    rfl
  have hrecord : recordMissedDraws (s.withCommits tbl) j = recordMissedDraws s j := by
    unfold recordMissedDraws
    simp only [hseat]
    rfl
  unfold clearAuditCommittee
  rw [hrecord]
  rfl

theorem servedBy_withCommits (members : List Str) :
    servedBy (s.withCommits tbl) j members = servedBy s j members := by
  rw [servedBy, servedBy, commitRange_withCommits h (List.prefix_refl _)]

end Reads

/-! ## Decisions -/

section Records

variable [Chain] {c : Ctx} {p : Params} {f : Funds}

theorem refundDisputeBond_jobId (job : Job) : (refundDisputeBond c job f).1.jobId = job.jobId :=
  (refundDisputeBond_extends rfl).jobId

theorem slashCheatedPrimary_jobId (job : Job) :
    (slashCheatedPrimary c p job f).1.jobId = job.jobId := by
  unfold slashCheatedPrimary
  split
  · rfl
  · simp only
    split <;> rfl

end Records

section Decisions

variable [Chain] {c : Ctx} {s : State} {tbl : Table Commit.jobId} {j : Str}
  (h : AgreeOn j s.commits tbl)

include h

theorem settleOptimistic_withCommits {job : Job} (hid : job.jobId = j) :
    settleOptimistic c job (s.withCommits tbl) =
      State.withCommits tbl <$> settleOptimistic c job s := by
  have hcommit : ∀ m, (s.withCommits tbl).commit (job.jobId ++ commitKeySep ++ m) =
      s.commit (job.jobId ++ commitKeySep ++ m) := fun m => by
    rw [hid]
    exact commit_withCommits h (List.prefix_append _ _)
  have hprim : primaryOf (s.withCommits tbl) job.jobId = primaryOf s job.jobId := rfl
  unfold settleOptimistic
  simp only [hcommit, hprim, map_bind, map_pure]
  rfl

theorem settleRedundant_withCommits {job : Job} (hid : job.jobId = j) :
    settleRedundant c job (s.withCommits tbl) =
      State.withCommits tbl <$> settleRedundant c job s := by
  unfold settleRedundant
  simp only [hid, committeeVecs_withCommits h, map_bind, map_pure]
  rfl

theorem settleSemantic_withCommits (creator : Str) :
    settleSemantic c ⟨creator, j⟩ (s.withCommits tbl) =
      State.withCommits tbl <$> settleSemantic c ⟨creator, j⟩ s := by
  unfold settleSemantic
  simp only [map_bind]
  refine bind_congr fun _ => bind_congr_ok fun job hj => ?_
  have hid : job.jobId = j := Table.key_of_get? (show s.job j = some job from require_ok.1 hj)
  refine bind_congr fun _ => bind_congr fun _ => bind_congr fun _ => ?_
  change (if s.params.verificationMode = 1 then _ else _) = State.withCommits tbl <$> _
  split
  · exact settleOptimistic_withCommits h hid
  · exact settleRedundant_withCommits h hid

theorem verifySemantic_withCommits (creator : Str) :
    verifySemantic ⟨creator, j⟩ (s.withCommits tbl) =
      State.withCommits tbl <$> verifySemantic ⟨creator, j⟩ s := by
  unfold verifySemantic
  simp only [committeeVecs_withCommits h, map_bind, map_pure]
  rfl

theorem finalizeJob_withCommits (creator : Str) :
    finalizeJob ⟨creator, j⟩ (s.withCommits tbl) =
      State.withCommits tbl <$> finalizeJob ⟨creator, j⟩ s := by
  unfold finalizeJob
  simp only [commitByMiner_withCommits h, map_bind, map_pure]
  rfl

theorem payout_withCommits (creator : Str) :
    payout c ⟨creator, j⟩ (s.withCommits tbl) =
      State.withCommits tbl <$> payout c ⟨creator, j⟩ s := by
  unfold payout
  simp only [commitByMiner_withCommits h, map_bind, map_pure]
  rfl

theorem settlePay_withCommits (creator : Str) (amt : UInt64) :
    settlePay c ⟨creator, j, amt⟩ (s.withCommits tbl) =
      State.withCommits tbl <$> settlePay c ⟨creator, j, amt⟩ s := by
  unfold settlePay
  simp only [commitByMiner_withCommits h, map_bind]
  refine bind_congr fun _ => bind_congr fun job => bind_congr fun _ => bind_congr fun _ => ?_
  refine bind_congr fun _ => bind_congr fun _ => bind_congr fun _ => bind_congr fun committee => ?_
  refine bind_congr fun _ => bind_congr fun _ => ?_
  cases winners (commitByMiner s j committee) with
  | nil => rfl
  | cons first rest =>
    simp only [map_bind, map_pure]
    rfl

omit [Chain] in
theorem closeInstance_withCommits {job : Job} (hid : job.jobId = j) (f : Funds) :
    closeInstance job f (s.withCommits tbl) = (closeInstance job f s).withCommits tbl := by
  rw [closeInstance, closeInstance, hid]
  exact clearAuditCommittee_withCommits (s := (s.setFunds f).setJob job) h

theorem unwindStrandedRetention_withCommits (p : Params) :
    unwindStrandedRetention c p j (s.withCommits tbl) =
      ((unwindStrandedRetention c p j s).1, (unwindStrandedRetention c p j s).2.withCommits tbl) := by
  have hjob : strandedRetention c p j (s.withCommits tbl) = strandedRetention c p j s := rfl
  unfold unwindStrandedRetention
  rw [hjob]
  cases strandedRetention c p j s with
  | none => rfl
  | some job =>
    have hclear : ∀ f, clearAuditCommittee ((s.withCommits tbl).setFunds f) j =
        (clearAuditCommittee (s.setFunds f) j).withCommits tbl := fun f =>
      clearAuditCommittee_withCommits (s := s.setFunds f) h
    simp only [hclear]
    rfl

theorem deferResolution_withCommits (p : Params) (allowAppeal : Bool) :
    deferResolution c p j allowAppeal (s.withCommits tbl) =
      (deferResolution c p j allowAppeal s).withCommits tbl := by
  unfold deferResolution
  rw [unwindStrandedRetention_withCommits h]
  rcases unwindStrandedRetention c p j s with ⟨b, s'⟩
  cases b with
  | true => rfl
  | false =>
    by_cases hap : allowAppeal = true ∧ p.appealWindow > 0
    · simp only [if_pos hap]
      rfl
    · simp only [if_neg hap]
      rfl

theorem resolveByVerdicts_withCommits (p : Params) {job : Job} (hid : job.jobId = j)
    (allowAppeal : Bool) : resolveByVerdicts c p job allowAppeal (s.withCommits tbl) =
      (resolveByVerdicts c p job allowAppeal s).withCommits tbl := by
  unfold resolveByVerdicts
  simp only [hid, auditVerdictTally_withCommits h, deferResolution_withCommits h]
  split
  · refine closeInstance_withCommits h ?_ _
    rw [refundDisputeBond_jobId]
    exact (slashCheatedPrimary_jobId _).trans hid
  · split
    · refine closeInstance_withCommits h ?_ _
      exact hid
    · rfl

omit h in
theorem refundEscrow_withCommits (job : Job) (s : State) :
    refundEscrow c job (s.withCommits tbl) = (refundEscrow c job s).withCommits tbl := by
  have hfunds : (s.withCommits tbl).funds = s.funds := rfl
  unfold refundEscrow
  rw [hfunds]
  rcases refundClient c .escrow job job.fee job.fee s.funds with ⟨refunded, f⟩
  by_cases hr : refunded = 0
  · simp only [if_pos hr]
    rfl
  · simp only [if_neg hr]
    rfl

theorem resolveDisputedAudit_withCommits (p : Params) (allowAppeal : Bool) :
    resolveDisputedAudit c p j allowAppeal (s.withCommits tbl) =
      (resolveDisputedAudit c p j allowAppeal s).withCommits tbl := by
  have hfound : (s.withCommits tbl).job j = s.job j := rfl
  unfold resolveDisputedAudit
  rw [hfound]
  cases hj : s.job j with
  | none => rfl
  | some job =>
    have hid : job.jobId = j := Table.key_of_get? hj
    have hredo : redoCommitteeAllowed (s.withCommits tbl) j = redoCommitteeAllowed s j := rfl
    have haudit : auditCommitteeAllowed (s.withCommits tbl) j = auditCommitteeAllowed s j := rfl
    have hpending : lotteryPending (s.withCommits tbl) j = lotteryPending s j := rfl
    have hhuman : isHumanDispute (s.withCommits tbl) j = isHumanDispute s j := rfl
    have hselected : (s.withCommits tbl).juries.auditSelected.has j =
        s.juries.auditSelected.has j := rfl
    simp only [hredo, haudit, hpending, hhuman, hselected]
    split
    · rfl
    · split
      · split
        · refine closeInstance_withCommits h ?_ _
          exact (refundDisputeBond_jobId job).trans hid
        · split
          · refine closeInstance_withCommits h ?_ _
            exact hid
          · exact resolveByVerdicts_withCommits h p hid allowAppeal
      · refine closeInstance_withCommits h ?_ _
        exact (refundDisputeBond_jobId _).trans hid

theorem adjudication_withCommits {job : Job} (hid : job.jobId = j) :
    adjudication c job (s.withCommits tbl) = adjudication c job s := by
  unfold adjudication
  simp only [hid, auditVerdictTally_withCommits h, freshVotes_withCommits h,
    commitAuthorsOf_withCommits h, answerOf_withCommits h]
  rfl

theorem adjudicateDispute_withCommits (creator : Str) :
    adjudicateDispute c ⟨creator, j⟩ (s.withCommits tbl) =
      State.withCommits tbl <$> adjudicateDispute c ⟨creator, j⟩ s := by
  unfold adjudicateDispute
  simp only [map_bind, map_pure]
  refine bind_congr fun _ => bind_congr_ok fun job hj => ?_
  have hid : job.jobId = j := Table.key_of_get? (show s.job j = some job from require_ok.1 hj)
  refine bind_congr fun _ => bind_congr fun _ => ?_
  rw [adjudication_withCommits h hid]
  refine bind_congr fun a => ?_
  have hrestore : restoreContradicted (s.withCommits tbl) job.jobId =
      restoreContradicted s job.jobId := by
    funext fresh total acc rec
    unfold restoreContradicted
    rw [hid, answerOf_withCommits h]
  rw [hrestore]
  have hfunds : (s.withCommits tbl).funds = s.funds := rfl
  have hparams : (s.withCommits tbl).params = s.params := rfl
  rw [hfunds, hparams]
  generalize job.slashRecords.foldl (restoreContradicted s job.jobId a.fresh a.total)
    (⟨s.funds, s.funds.poolsOrZero, []⟩, false) = r
  obtain ⟨acc, restored⟩ := r
  refine bind_congr fun cheated => ?_
  cases cheated with
  | false =>
    simp only [Bool.false_eq_true, if_false]
    refine bind_congr fun acc => congrArg pure (closeInstance_withCommits h ?_ _)
    exact hid
  | true =>
    obtain ⟨recs, he⟩ := slashAdjudicated_job (c := c) (p := s.params) job acc
    simp only [if_true, he]
    refine bind_congr fun acc => congrArg pure (closeInstance_withCommits h ?_ _)
    exact hid

theorem resolveDispute_withCommits (authority : Str) (upheld : Bool) :
    resolveDispute c ⟨authority, j, upheld⟩ (s.withCommits tbl) =
      State.withCommits tbl <$> resolveDispute c ⟨authority, j, upheld⟩ s := by
  unfold resolveDispute
  simp only [map_bind, map_pure]
  refine bind_congr fun _ => bind_congr fun _ => bind_congr_ok fun job hj => ?_
  have hid : job.jobId = j := Table.key_of_get? (show s.job j = some job from require_ok.1 hj)
  refine bind_congr fun _ => bind_congr fun _ => bind_congr fun acc => ?_
  refine congrArg pure (closeInstance_withCommits h ?_ _)
  exact hid

theorem redoMembers_withCommits (primaryId disputerId : Str) :
    redoMembers c (s.withCommits tbl) j primaryId disputerId =
      redoMembers c s j primaryId disputerId := by
  unfold redoMembers
  rw [commitAuthorsOf_withCommits h]
  rfl

theorem expireOne_withCommits (k : Int) :
    expireOne c (s.withCommits tbl) (qkey k j) = (expireOne c s (qkey k j)).withCommits tbl := by
  have hserved : ∀ members, servedBy (removeExpiry (qkey k j) (s.withCommits tbl)) j members =
      servedBy (removeExpiry (qkey k j) s) j members := fun members =>
    servedBy_withCommits (s := removeExpiry (qkey k j) s) h members
  have hmembers : assignedCommittee (removeExpiry (qkey k j) (s.withCommits tbl)) j =
      assignedCommittee (removeExpiry (qkey k j) s) j := rfl
  have hsize : workCommitteeSize (removeExpiry (qkey k j) (s.withCommits tbl)) =
      workCommitteeSize (removeExpiry (qkey k j) s) := rfl
  have hfound : (removeExpiry (qkey k j) (s.withCommits tbl)).job j = s.job j := rfl
  have hfound' : (removeExpiry (qkey k j) s).job j = s.job j := rfl
  unfold expireOne expireUnservedJob
  simp only [qkey, ofLex_toLex] at *
  rw [hfound, hfound']
  cases s.job j with
  | none => rfl
  | some job =>
    simp only [hserved, hmembers, hsize]
    by_cases hopen : job.state = []
    · rw [if_neg (not_not.2 hopen), if_neg (not_not.2 hopen)]
      cases assignedCommittee (removeExpiry (toLex (k, j)) s) j
          (workCommitteeSize (removeExpiry (toLex (k, j)) s)) with
      | error e => rfl
      | ok members =>
        by_cases hs : servedBy (removeExpiry (toLex (k, j)) s) j members = true
        · simp only [hs, if_true]
          rfl
        · simp only [hs, Bool.false_eq_true, if_false]
          by_cases hfee : job.fee = 0
          · simp only [hfee, if_true]
            rfl
          · simp only [hfee, if_false]
            exact refundEscrow_withCommits job (removeExpiry (toLex (k, j)) s)
    · rw [if_pos hopen, if_pos hopen]
      rfl

end Decisions

/-! ## The result -/

/-- What is decided on a job is the same in two states: its tally and everything that goes by it, its
audit and redo tallies and what an adjudication or a deadline makes of them, who counts as its author,
and its expiry. What a decision leaves is the same but for the commits, which no decision touches. -/
structure SameDecisions [Chain] (j : Str) (s t : State) : Prop where
  tally : ∀ committee, commitByMiner t j committee = commitByMiner s j committee
  settled : ∀ c creator, settleSemantic c ⟨creator, j⟩ t =
    State.withCommits t.commits <$> settleSemantic c ⟨creator, j⟩ s
  verified : ∀ creator, verifySemantic ⟨creator, j⟩ t =
    State.withCommits t.commits <$> verifySemantic ⟨creator, j⟩ s
  finalized : ∀ creator, finalizeJob ⟨creator, j⟩ t =
    State.withCommits t.commits <$> finalizeJob ⟨creator, j⟩ s
  paid : ∀ c creator, payout c ⟨creator, j⟩ t =
    State.withCommits t.commits <$> payout c ⟨creator, j⟩ s
  sent : ∀ c creator amt, settlePay c ⟨creator, j, amt⟩ t =
    State.withCommits t.commits <$> settlePay c ⟨creator, j, amt⟩ s
  verdicts : ∀ m, auditVerdictTally t j m = auditVerdictTally s j m
  fresh : ∀ orig authors, freshVotes t j orig authors = freshVotes s j orig authors
  jury : ∀ c primaryId disputerId,
    redoMembers c t j primaryId disputerId = redoMembers c s j primaryId disputerId
  adjudicated : ∀ c creator, adjudicateDispute c ⟨creator, j⟩ t =
    State.withCommits t.commits <$> adjudicateDispute c ⟨creator, j⟩ s
  resolved : ∀ c authority upheld, resolveDispute c ⟨authority, j, upheld⟩ t =
    State.withCommits t.commits <$> resolveDispute c ⟨authority, j, upheld⟩ s
  deadline : ∀ c p allowAppeal, resolveDisputedAudit c p j allowAppeal t =
    (resolveDisputedAudit c p j allowAppeal s).withCommits t.commits
  authors : commitAuthorsOf t j = commitAuthorsOf s j
  expiry : ∀ c k, expireOne c t (qkey k j) = (expireOne c s (qkey k j)).withCommits t.commits

section Result

variable [Chain] {s : State} {tbl : Table Commit.jobId} {a b : Str}

theorem sameDecisions_of_agreeOn (h : AgreeOn a s.commits tbl) :
    SameDecisions a s (s.withCommits tbl) where
  tally := commitByMiner_withCommits h
  settled _ := settleSemantic_withCommits h
  verified := verifySemantic_withCommits h
  finalized := finalizeJob_withCommits h
  paid _ := payout_withCommits h
  sent _ := settlePay_withCommits h
  verdicts := auditVerdictTally_withCommits h
  fresh := freshVotes_withCommits h
  jury _ := redoMembers_withCommits h
  adjudicated _ := adjudicateDispute_withCommits h
  resolved _ := resolveDispute_withCommits h
  deadline _ := resolveDisputedAudit_withCommits h
  authors := commitAuthorsOf_withCommits h
  expiry _ := expireOne_withCommits h

omit [Chain] in
/-- A commit under the key of `a_` has an author for `a`. -/
theorem authors_of_trailing (a m : Str) (hm : contestedSuffix ('_' :: m) = true) {cm : Commit}
    (hcm : cm.jobId = commitKey .primary (a ++ ['_']) m) (hput : tbl = s.commits.put cm) :
    '_' :: m ∈ commitAuthorsOf (s.withCommits tbl) a := by
  refine mem_commitAuthorsOf.2 ⟨⟨cm, ?_⟩, hm⟩
  have hkey : commitKey .primary a ('_' :: m) = cm.jobId := by
    rw [hcm]
    simp [commitKey, CommitKeyKind.role, commitKeySep]
  rw [hkey, State.commit, State.withCommits, hput]
  exact Table.get?_put_self

/-- What is stored under the keys of another job changes no decision on a job, in any state, exactly
when that other id is not this one with an underscore behind it. -/
theorem isolation (ha : WfJobId a) (hb : WfJobId b) (hne : a ≠ b) :
    (∀ s tbl, DifferOnlyOn b s.commits tbl → SameDecisions a s (s.withCommits tbl)) ↔
      b ≠ a ++ ['_'] := by
  constructor
  · rintro h rfl
    -- one commit of a miner `d` under `a_`, on a fresh chain
    have hm : WfMinerId ['d'] := by
      refine ⟨by decide, fun x hx => ?_⟩
      rw [List.mem_singleton.1 hx]
      unfold IsIdChar
      decide
    let cm : Commit := ⟨commitKey .primary (a ++ ['_']) ['d'], [], [], [], [], [], []⟩
    have hdiff : DifferOnlyOn (a ++ ['_']) (genesis .default 0 0).commits
        ((genesis .default 0 0).commits.put cm) := by
      intro key hkey
      have hkey : key ≠ cm.jobId := hkey .primary ['d'] hm
      exact (Table.get?_put_ne hkey).symm
    have hin := authors_of_trailing (s := genesis .default 0 0) a ['d'] (by decide)
      (show cm.jobId = _ from rfl) rfl
    rw [(h _ _ hdiff).authors] at hin
    obtain ⟨⟨cm', hcm'⟩, -⟩ := mem_commitAuthorsOf.1 hin
    rw [State.commit, genesis, Table.get?_empty] at hcm'
    cases hcm'
  · intro hlast s tbl h
    exact sameDecisions_of_agreeOn (agreeOn_of_differOnlyOn ha hb hne hlast h)

end Result

/-- The ids `a` and `b`. -/
theorem isolation_letters :
    (∀ s tbl, DifferOnlyOn ['b'] s.commits tbl → SameDecisions ['a'] s (s.withCommits tbl)) ↔
      ['b'] ≠ ['a'] ++ ['_'] :=
  isolation (by decide) (by decide) (by decide)

/-! ## A run -/

/-- A member of the committee of `job` answers `job_`. -/
def intrusion : Action :=
  .createCommit ⟨nameOf 2, ticket ++ '_' :: commitKeySep ++ idOf 2, [], "1".toList, [], [], []⟩

/-- With that commit the appointment of `job` is put off, and without it the escrow goes back. -/
theorem isolation_broken : ∃ s t, Reachable (fun _ _ => True) s ∧ Step s (blockAt 4, intrusion) t ∧
    s.jobs.has (ticket ++ ['_']) = true ∧ refunds (blockAt 100002) s ticket = true ∧
    refunds (blockAt 100002) (s.withCommits t.commits) ticket = false := by
  obtain ⟨s, hs, ht⟩ := exists_reachable (fun _ _ _ => trivial)
    (reachable_village validate_auditMode (by decide) fun _ _ _ _ => trivial)
    (show endsIn free
      (fun s => decide ((intrusion.run (blockAt 4) s).isOk = true ∧
        s.jobs.has (ticket ++ ['_']) = true ∧ refunds (blockAt 100002) s ticket = true ∧
        refunds (blockAt 100002)
          (s.withCommits (outcome (intrusion.run (blockAt 4) s) s).commits) ticket = false))
      [(blockAt 2, opening 100), (blockAt 2, .openJob ⟨client, ticket ++ ['_'], 100⟩),
        (blockAt 3, .endBlock)] (village auditMode) = true by rewrite [application_eq_tabled]; decide +kernel)
  obtain ⟨hok, hjob, hback, hkept⟩ := of_decide_eq_true ht
  exact ⟨s, _, hs, eq_ok_outcome hok, hjob, hback, hkept⟩

end Dendra.Jobs
