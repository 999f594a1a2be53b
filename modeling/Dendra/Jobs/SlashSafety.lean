import Dendra.Jobs.Agreement
import Dendra.Jobs.Solvency
import Dendra.Jobs.Records

/-!
# Who can slash

A primary loses a part of its bond over a job by the verdicts of the audit jury, or by the fresh
answers of the redo jury.

* `Condemned`, `Refuted`: the quorum and the majority of either jury, counted in members and coins.
* `slash_safety`: no other slash, and no say for those who hold no seat.
-/

namespace Dendra.Jobs

open Word

/-! ## The juries -/

/-- The stake of a miner, in coins: nothing when it is not registered. -/
def Funds.stakeOf (f : Funds) (m : Str) : Nat := ((f.miners.get? m).map fun r => r.stake.toNat).getD 0

section Juries

variable (s : State) (job : Job)

/-- The seats of the audit jury that vote: registered, not the primary, and with a verdict. -/
def voters : List Str :=
  (auditCommitteeAllowed s job.jobId).filter fun m => decide (m ≠ job.minerId) &&
    s.funds.miners.has m && s.commits.has (commitKey .verdict job.jobId m)

/-- Those of them whose verdict is `0`. -/
def accusers : List Str :=
  (voters s job).filter fun m => (s.commit (commitKey .verdict job.jobId m)).any fun cm =>
    decide (Str.trimSpace cm.resultCommit = "0".toList)

/-- Enough seats of the audit jury accuse the primary, with most of the stake that votes. -/
structure Condemned : Prop where
  distinct : (accusers s job).Nodup
  quorum : max (effectiveSlashFloor s.params) ((2 * (registeredSeats s job.jobId : Int) + 2) / 3) ≤
    ((accusers s job).length : Int)
  majority : ((voters s job).map s.funds.stakeOf).sum < 2 * ((accusers s job).map s.funds.stakeOf).sum

end Juries

/-- The redo jury refutes an answer: enough of its seats gave a fresh one, with most of their stake on
answers that disagree. `orig` is the committee that did the work. -/
structure Refuted (s : State) (job : Job) (orig : List Str) (answer : List Int) : Prop where
  answered : answerOf s job.jobId job.minerId = some answer
  quorum : max 3 ((2 * (redoSeats s job.jobId orig (commitAuthorsOf s job.jobId) : Int) + 2) / 3) ≤
    ((freshVotes s job.jobId orig (commitAuthorsOf s job.jobId)).length : Int)
  majority : ((freshVotes s job.jobId orig (commitAuthorsOf s job.jobId)).map
      fun fv => fv.stake.toNat).sum <
    2 * (((freshVotes s job.jobId orig (commitAuthorsOf s job.jobId)).filter fun fv =>
      !cosineGE answer fv.vec semanticThresholdBps).map fun fv => fv.stake.toNat).sum

/-! ## Sums of stakes -/

section Sums

variable {s : State}

/-- A sum of machine words that does not wrap. -/
theorem toNat_stakeSum {l : List UInt64} (h : (l.map UInt64.toNat).sum < 2 ^ 64) :
    (stakeSum l).toNat = (l.map UInt64.toNat).sum := by
  have hgen : ∀ (l : List UInt64) (a : UInt64), a.toNat + (l.map UInt64.toNat).sum < 2 ^ 64 →
      (l.foldl (· + ·) a).toNat = a.toNat + (l.map UInt64.toNat).sum := by
    intro l
    induction l with
    | nil => exact fun a _ => rfl
    | cons x l ih =>
      intro a h
      rw [List.map_cons, List.sum_cons] at h ⊢
      have hax : (a + x).toNat = a.toNat + x.toNat := by
        rw [UInt64.toNat_add]
        omega
      rw [List.foldl_cons, ih (a + x) (by omega), hax, Nat.add_assoc]
  have h0 : (0 : UInt64).toNat = 0 := rfl
  rw [stakeSum, hgen l 0 (by omega), h0, Nat.zero_add]

theorem stakes_eq (f : Funds) :
    f.stakes = ∑ m ∈ (f.miners.entries.map Miner.minerId).toFinset, f.stakeOf m := by
  have hn : (f.miners.entries.map Miner.minerId).Nodup := f.miners.nodup_map_key
  rw [List.sum_toFinset _ hn, List.map_map]
  show (f.miners.entries.map _).sum = _
  refine congrArg List.sum (List.map_congr_left fun r hr => ?_)
  have hget : f.miners.get? r.minerId = some r := Table.get?_eq_some_iff.2 ⟨hr, rfl⟩
  simp only [Function.comp_apply, Funds.stakeOf, hget]
  rfl

/-- Distinct miners have no more than all the stakes. -/
theorem sum_stakeOf_le (f : Funds) {l : List Str} (hl : l.Nodup) :
    (l.map f.stakeOf).sum ≤ f.stakes := by
  rw [← List.sum_toFinset _ hl, stakes_eq]
  have hsub : (l.toFinset.filter fun m => f.miners.has m = true) ⊆
      (f.miners.entries.map Miner.minerId).toFinset := by
    intro m hm
    obtain ⟨-, hm⟩ := Finset.mem_filter.1 hm
    rw [Table.has_eq_isSome, Option.isSome_iff_exists] at hm
    obtain ⟨r, hr⟩ := hm
    obtain ⟨hin, rfl⟩ := Table.get?_eq_some_iff.1 hr
    exact List.mem_toFinset.2 (List.mem_map_of_mem hin)
  refine le_trans (le_of_eq ?_) (Finset.sum_le_sum_of_subset hsub)
  rw [Finset.sum_filter]
  refine Finset.sum_congr rfl fun m _ => ?_
  split
  · rfl
  · next hno =>
    rw [Table.has_eq_isSome, Bool.not_eq_true, Option.isSome_eq_false_iff, Option.isNone_iff_eq_none] at hno
    rw [Funds.stakeOf, hno]
    rfl

/-- What is read of a list by distinct keys. -/
theorem filterMap_sublist {α β : Type} {g : α → Option β} {k : α → Str} {k' : β → Str}
    (h : ∀ a b, g a = some b → k' b = k a) (l : List α) :
    ((l.filterMap g).map k').Sublist (l.map k) := by
  induction l with
  | nil => exact .slnil
  | cons a l ih =>
    rw [List.filterMap_cons]
    cases hg : g a with
    | none => exact ih.cons _
    | some b =>
      rw [List.map_cons, List.map_cons, h a b hg]
      exact ih.cons_cons _

/-- The commits under one beginning have distinct ends. -/
theorem nodup_commitRange (s : State) (pfx : Str) :
    ((s.commitRange pfx).map fun cm => Str.trimPrefix cm.jobId pfx).Nodup := by
  have hn : (s.commitRange pfx).Nodup := s.commits.nodup_entries.filter _
  rw [List.nodup_map_iff_inj_on hn]
  intro a ha b hb h
  simp only [State.commitRange, List.mem_filter, List.isPrefixOf_iff_prefix] at ha hb
  obtain ⟨ha, ra, hra⟩ := ha
  obtain ⟨hb, rb, hrb⟩ := hb
  simp only [← hra, ← hrb, Str.trimPrefix_append] at h
  exact Table.eq_of_mem_of_key_eq ha hb (by rw [← hra, ← hrb, h])

theorem mem_commitRange {s : State} {pfx m : Str} {cm : Commit} :
    cm ∈ s.commitRange pfx ∧ Str.trimPrefix cm.jobId pfx = m ↔ s.commit (pfx ++ m) = some cm := by
  simp only [State.commitRange, List.mem_filter, List.isPrefixOf_iff_prefix]
  constructor
  · rintro ⟨⟨hcm, r, hr⟩, rfl⟩
    rw [← hr, Str.trimPrefix_append]
    exact Table.get?_eq_some_iff.2 ⟨hcm, hr.symm⟩
  · intro h
    obtain ⟨hcm, hkey⟩ := Table.get?_eq_some_iff.1 h
    exact ⟨⟨hcm, m, hkey.symm⟩, by rw [hkey, Str.trimPrefix_append]⟩

end Sums

/-! ## The verdicts -/

section Verdicts

variable {s : State} {job : Job}

theorem commitKey_append (kind : CommitKeyKind) (j m : Str) :
    commitKey kind j m = commitKey kind j [] ++ m := by
  simp only [commitKey, List.append_nil]

/-- A counted verdict is one of a seat that votes. -/
theorem mem_verdictVotes {v : Vote} : v ∈ verdictVotes s job.jobId job.minerId ↔
    ∃ cm, s.commit (commitKey .verdict job.jobId v.miner.minerId) = some cm ∧
      v.miner.minerId ≠ job.minerId ∧ v.miner.minerId ∈ auditCommitteeAllowed s job.jobId ∧
      s.miner v.miner.minerId = some v.miner ∧
      v.invalid = decide (Str.trimSpace cm.resultCommit = "0".toList) := by
  unfold verdictVotes
  simp only [List.mem_filterMap]
  constructor
  · rintro ⟨cm, hcm, hv⟩
    split at hv
    · cases hv
    · next hprim =>
      split at hv
      · cases hv
      · next hin =>
        obtain ⟨m, hm, rfl⟩ := Option.map_eq_some_iff.1 hv
        have hid : m.minerId = Str.trimPrefix cm.jobId (commitKey .verdict job.jobId []) :=
          Table.key_of_get? hm
        refine ⟨cm, ?_, ?_, ?_, ?_, rfl⟩
        · rw [commitKey_append]
          exact mem_commitRange.1 ⟨hcm, hid.symm⟩
        · rw [hid]
          exact hprim
        · rw [hid]
          simpa [List.contains_iff_mem] using hin
        · rw [hid]
          exact hm
  · rintro ⟨cm, hcm, hprim, hin, hm, hinv⟩
    rw [commitKey_append] at hcm
    obtain ⟨hcm, htrim⟩ := mem_commitRange.2 hcm
    refine ⟨cm, hcm, ?_⟩
    rw [htrim, if_neg hprim, if_neg (by simpa [List.contains_iff_mem] using hin), hm, ← hinv]
    rfl

theorem nodup_votes : ((verdictVotes s job.jobId job.minerId).map fun v => v.miner.minerId).Nodup := by
  refine List.Nodup.sublist (filterMap_sublist (k := fun cm => Str.trimPrefix cm.jobId
    (commitKey .verdict job.jobId [])) (fun cm v hv => ?_) _) (nodup_commitRange s _)
  dsimp only at hv
  split at hv
  · cases hv
  · split at hv
    · cases hv
    · obtain ⟨m, hm, rfl⟩ := Option.map_eq_some_iff.1 hv
      exact Table.key_of_get? hm

theorem nodup_voters (s : State) (job : Job) : (voters s job).Nodup := (List.nodup_dedup _).filter _

theorem mem_voters {m : Str} : m ∈ voters s job ↔ m ∈ auditCommitteeAllowed s job.jobId ∧
    m ≠ job.minerId ∧ s.funds.miners.has m = true ∧
      s.commits.has (commitKey .verdict job.jobId m) = true := by
  simp only [voters, List.mem_filter, Bool.and_eq_true, decide_eq_true_eq, and_assoc]

/-- The counted verdicts are those of the seats that vote, -/
theorem votes_perm :
    ((verdictVotes s job.jobId job.minerId).map fun v => v.miner.minerId).Perm (voters s job) := by
  refine (List.perm_ext_iff_of_nodup nodup_votes (nodup_voters s job)).2 fun m => ?_
  rw [List.mem_map, mem_voters]
  constructor
  · rintro ⟨v, hv, rfl⟩
    obtain ⟨cm, hcm, hprim, hin, hm, -⟩ := mem_verdictVotes.1 hv
    exact ⟨hin, hprim, Table.has_of_get? hm, Table.has_of_get? hcm⟩
  · rintro ⟨hin, hprim, hm, hcm⟩
    rw [Table.has_eq_isSome, Option.isSome_iff_exists] at hm hcm
    obtain ⟨r, hr⟩ := hm
    obtain ⟨cm, hcm⟩ := hcm
    have hid : r.minerId = m := Table.key_of_get? hr
    subst hid
    exact ⟨⟨r, _⟩, mem_verdictVotes.2 ⟨cm, hcm, hprim, hin, hr, rfl⟩, rfl⟩

/-- and the accusing ones those of the accusers. -/
theorem invalid_perm : (((verdictVotes s job.jobId job.minerId).filter fun v => v.invalid).map
    fun v => v.miner.minerId).Perm (accusers s job) := by
  refine (List.perm_ext_iff_of_nodup (nodup_votes.sublist (List.filter_sublist.map _))
    ((nodup_voters s job).filter _)).2 fun m => ?_
  rw [List.mem_map, List.mem_filter, Option.any_eq_true]
  constructor
  · rintro ⟨v, hv, rfl⟩
    obtain ⟨hv, hinv⟩ := List.mem_filter.1 hv
    obtain ⟨cm, hcm, hprim, hin, hm, he⟩ := mem_verdictVotes.1 hv
    refine ⟨votes_perm.mem_iff.1 (List.mem_map_of_mem hv), cm, hcm, ?_⟩
    rw [← he, hinv]
  · rintro ⟨hm, cm, hcm, hz⟩
    obtain ⟨v, hv, rfl⟩ := List.mem_map.1 (votes_perm.mem_iff.2 hm)
    obtain ⟨cm', hcm', -, -, -, he⟩ := mem_verdictVotes.1 hv
    rw [hcm, Option.some.injEq] at hcm'
    subst hcm'
    exact ⟨v, List.mem_filter.2 ⟨hv, he.trans hz⟩, rfl⟩

/-- The stake of counted verdicts, in coins. -/
theorem sum_votes (s : State) (job : Job) {l : List Vote} (hl : l ⊆ verdictVotes s job.jobId job.minerId) :
    ((l.map fun v => v.miner.stake).map UInt64.toNat).sum =
      ((l.map fun v => v.miner.minerId).map s.funds.stakeOf).sum := by
  rw [List.map_map, List.map_map]
  refine congrArg List.sum (List.map_congr_left fun v hv => ?_)
  obtain ⟨cm, -, -, -, hm, -⟩ := mem_verdictVotes.1 (hl hv)
  have hm' : s.funds.miners.get? v.miner.minerId = some v.miner := hm
  simp only [Function.comp_apply, Funds.stakeOf, hm']
  rfl

/-- Verdicts that call for a slash are those of enough accusers, with most of the stake. -/
theorem condemned_of_slashed (hb : s.funds.stakes < 2 ^ 63) (h : Slashed s job) :
    Condemned s job := by
  unfold Slashed auditSlashDecision at h
  simp only [Bool.and_eq_true, decide_eq_true_eq] at h
  obtain ⟨⟨-, hbar⟩, hch⟩ := h
  unfold auditVerdictTally at hbar hch
  split at hch
  · cases hch
  · next hseats =>
    rw [if_neg hseats] at hbar
    simp only at hbar hch
    split at hch
    · cases hch
    · next hne =>
      rw [if_neg hne] at hbar
      simp only [decide_eq_true_eq] at hbar hch
      have hsum := sum_votes s job (List.Subset.refl _)
      have hsum' := sum_votes s job (fun (v : Vote) hv =>
        List.mem_of_mem_filter (p := fun v : Vote => v.invalid) hv)
      rw [(votes_perm.map _).sum_eq] at hsum
      rw [(invalid_perm.map _).sum_eq] at hsum'
      have hle := sum_stakeOf_le s.funds (nodup_voters s job)
      have hle' := sum_stakeOf_le s.funds ((nodup_voters s job).filter
        fun m => (s.commit (commitKey .verdict job.jobId m)).any fun cm =>
          decide (Str.trimSpace cm.resultCommit = "0".toList))
      change ((accusers s job).map s.funds.stakeOf).sum ≤ _ at hle'
      refine ⟨(nodup_voters s job).filter _, ?_, ?_⟩
      · rw [← auditRelativeBar_eq, ← invalid_perm.length_eq, List.length_map]
        exact hbar
      · rw [← hsum, ← hsum', ← toNat_stakeSum (by omega), ← toNat_stakeSum (by omega)]
        have h2 : (2 : UInt64).toNat = 2 := rfl
        rw [gt_iff_lt, UInt64.lt_iff_toNat_lt, UInt64.toNat_mul, h2] at hch
        have hlt : (stakeSum ((List.filter (fun v => v.invalid)
            (verdictVotes s job.jobId job.minerId)).map fun v => v.miner.stake)).toNat < 2 ^ 63 := by
          rw [toNat_stakeSum (by omega)]
          omega
        omega

end Verdicts

/-! ## Stakes that stay -/

section Stakes

variable [Chain] {c : Ctx} {p : Params} {s s' : State} {job : Job} {f f' f'' : Funds} {m : Str}

/-- No stake changes. -/
def SameStakes (f f' : Funds) : Prop := ∀ m, f'.stakeOf m = f.stakeOf m

omit [Chain] in
theorem SameStakes.of_miners (h : f'.miners = f.miners) : SameStakes f f' := fun m => by
  rw [Funds.stakeOf, h]
  rfl

omit [Chain] in
theorem SameStakes.trans (h : SameStakes f f') (h' : SameStakes f' f'') : SameStakes f f'' :=
  fun m => (h' m).trans (h m)

omit [Chain] in
theorem SameStakes.of_read (h : f'.read Miner.stake = f.read Miner.stake) : SameStakes f f' := by
  have hstake : ∀ (g : Funds) m, g.stakeOf m = ((g.read Miner.stake m).map UInt64.toNat).getD 0 := by
    intro g m
    rw [Funds.read, Option.map_map]
    rfl
  intro m
  rw [hstake, hstake, h]

omit [Chain] in
theorem blind_stake : DemandBlind Miner.stake := fun _ _ => rfl

theorem sameStakes_refundDisputeBond (job : Job) (f : Funds) :
    SameStakes f (refundDisputeBond c job f).2 :=
  .of_miners (refundDisputeBond_miners job f)

omit [Chain] in
theorem sameStakes_forfeitBond (job : Job) (f : Funds) : SameStakes f (forfeitBond job f) :=
  .of_miners (forfeitBond_miners job f)

theorem sameStakes_release (w : Warrant) (job : Job) (f : Funds) :
    SameStakes f (releaseHeld c p job (f.warrant job.jobId w)) :=
  .of_read (read_release blind_stake w job f)

theorem sameStakes_defer (j : Str) (a : Bool) (s : State) :
    SameStakes s.funds (deferResolution c p j a s).funds :=
  .of_read (read_deferResolution blind_stake p j a s)

/-- Only verdicts that call for a slash cost a stake at a deadline. -/
theorem sameStakes_deadline (a : Bool) (hj : s.job job.jobId = some job) (hs : ¬ Slashed s job) :
    SameStakes s.funds (resolveDisputedAudit c s.params job.jobId a s).funds := by
  unfold resolveDisputedAudit
  rw [hj]
  simp only
  split
  · exact .of_miners rfl
  · split
    · split
      · simp only [closeInstance_funds]
        exact (sameStakes_release _ job s.funds).trans (sameStakes_refundDisputeBond (c := c) job _)
      · split
        · rw [closeInstance_funds]
          exact (sameStakes_release _ job s.funds).trans (sameStakes_forfeitBond job _)
        · unfold resolveByVerdicts
          simp only
          unfold Slashed at hs
          rw [if_neg hs]
          split
          · rw [closeInstance_funds]
            split
            · exact (sameStakes_release _ job s.funds).trans (sameStakes_forfeitBond job _)
            · exact sameStakes_release _ job s.funds
          · exact sameStakes_defer job.jobId a s
    · simp only [closeInstance_funds]
      exact sameStakes_refundDisputeBond (c := c) _ s.funds

end Stakes

/-! ## The fresh answers -/

section Fresh

variable {s : State} {job : Job}

theorem sum_filterMap_le {α β : Type} {g : α → Option β} {x : β → Nat} {y : α → Nat}
    (h : ∀ a b, g a = some b → x b ≤ y a) (l : List α) :
    ((l.filterMap g).map x).sum ≤ (l.map y).sum := by
  induction l with
  | nil => exact le_rfl
  | cons a l ih =>
    rw [List.filterMap_cons, List.map_cons, List.sum_cons]
    cases hg : g a with
    | none => exact ih.trans (Nat.le_add_left _ _)
    | some b =>
      rw [List.map_cons, List.sum_cons]
      exact Nat.add_le_add (h a b hg) ih

theorem sum_filter_add {α : Type} (q : α → Bool) (x : α → Nat) (l : List α) :
    ((l.filter q).map x).sum + ((l.filter fun a => !q a).map x).sum = (l.map x).sum := by
  induction l with
  | nil => rfl
  | cons a l ih =>
    rw [List.filter_cons, List.filter_cons]
    cases q a <;> simp only [Bool.not_true, Bool.not_false, if_true, if_false, Bool.false_eq_true,
      List.map_cons, List.sum_cons] <;> omega

/-- Fresh answers are those of distinct miners. -/
theorem sum_freshVotes_le (orig authors : List Str) :
    ((freshVotes s job.jobId orig authors).map fun fv => fv.stake.toNat).sum ≤ s.funds.stakes := by
  unfold freshVotes
  refine (sum_filterMap_le (y := fun cm =>
    s.funds.stakeOf (Str.trimPrefix cm.jobId (commitKey .redo job.jobId []))) (fun cm fv hv => ?_)
    _).trans ?_
  · dsimp only at hv
    split at hv
    · cases hv
    · split at hv
      · cases hv
      · split at hv
        · next m v hm _ =>
          cases hv
          have hm' : s.funds.miners.get? (Str.trimPrefix cm.jobId (commitKey .redo job.jobId [])) =
            some m := hm
          rw [Funds.stakeOf, hm']
          exact le_rfl
        · cases hv
  · have h := sum_stakeOf_le s.funds (nodup_commitRange s (commitKey .redo job.jobId []))
    rwa [List.map_map] at h

variable [Chain] {c : Ctx} {cheated : Bool}

/-- An adjudication that finds a primary guilty goes by verdicts that call for a slash, or by fresh
answers that refute it. -/
theorem refuted_of_cheated (hb : s.funds.stakes < 2 ^ 63) {a : Adjudication}
    (ha : adjudication c job s = .ok a)
    (hd : decideCheated s.params a.tally a.agree a.total = .ok true) :
    Slashed s job ∨ ∃ orig answer,
      assignedCommitteeOrFail s job.jobId s.params.effectiveWorkCommitteeSize = .ok orig ∧
      Refuted s job orig answer := by
  simp only [adjudication, bind_ok, ensure_ok, pure_ok] at ha
  obtain ⟨-, -, orig, horig, -, hq, -, htot, rfl⟩ := ha
  unfold decideCheated at hd
  simp only at hd
  split at hd
  · simp only [bind_ok, ensure_ok, pure_ok] at hd
    obtain ⟨-, -, hs⟩ := hd
    exact .inl hs
  · next hfloor =>
    right
    cases hans : answerOf s job.jobId job.minerId with
    | none =>
      rw [hans] at hd
      cases hd
    | some answer =>
      rw [hans] at hd
      simp only [Option.map_some] at hd
      refine ⟨orig, answer, horig, hans, ?_, ?_⟩
      · have hq' := hq.resolve_right hfloor
        unfold redoQuorum redoQuorumFloor at hq'
        split at hq' <;> omega
      · set fresh := freshVotes s job.jobId orig (commitAuthorsOf s job.jobId) with hfresh
        have hall : (fresh.map fun fv => fv.stake.toNat).sum ≤ s.funds.stakes :=
          sum_freshVotes_le orig (commitAuthorsOf s job.jobId)
        have hsplit := sum_filter_add (fun fv => cosineGE answer fv.vec semanticThresholdBps)
          (fun fv : FreshVote => fv.stake.toNat) fresh
        have htotal : (stakeSum (fresh.map FreshVote.stake)).toNat =
            (fresh.map fun fv => fv.stake.toNat).sum := by
          rw [toNat_stakeSum (by rw [List.map_map]; exact lt_of_le_of_lt hall (by omega)), List.map_map]
          rfl
        have hagree : (agreeStake fresh answer).toNat = ((fresh.filter fun fv =>
            cosineGE answer fv.vec semanticThresholdBps).map fun fv => fv.stake.toNat).sum := by
          rw [agreeStake, toNat_stakeSum, List.map_map]
          · rfl
          · rw [List.map_map]
            refine lt_of_le_of_lt (Nat.le_trans (Nat.le_add_right _ _) (le_of_eq hsplit)) (by omega)
        split at hd
        · split at hd
          · next hlt =>
            have h2 : (2 : UInt64).toNat = 2 := rfl
            rw [UInt64.lt_iff_toNat_lt, UInt64.toNat_mul, h2, hagree, htotal] at hlt
            omega
          · split at hd
            · cases hd
            · cases hd
        · cases hd

end Fresh

/-! ## An adjudication -/

section Adjudicated

variable [Chain] {c : Ctx} {p : Params} {s s' : State} {job : Job} {m : Str}

/-- A loop has taken no stake below what it was, and its coins are bounded. -/
structure Spared (f : Funds) (bound : Nat) (acc : Loop) : Prop where
  kept : ∀ m, f.stakeOf m ≤ acc.funds.stakeOf m
  bounded : ∀ m, acc.funds.stakeOf m + acc.pools.treasury.toNat ≤ bound

omit [Chain] in
/-- Giving back a slash adds to a stake what it takes off the treasury. -/
theorem Spared.restoreSlash {f : Funds} {bound : Nat} {acc : Loop} (h : Spared f bound acc)
    (hb : bound < 2 ^ 64) (rec : SlashRecord) : Spared f bound (restoreSlash acc rec) := by
  have hle : (if rec.amount > acc.pools.treasury then acc.pools.treasury else rec.amount) ≤
      acc.pools.treasury := by
    split
    · exact UInt64.le_refl _
    · next hno => exact UInt64.not_lt.1 hno
  unfold Jobs.restoreSlash
  simp only
  generalize (if rec.amount > acc.pools.treasury then acc.pools.treasury else rec.amount) = amt
    at hle ⊢
  split
  · exact h
  · cases hm : acc.funds.miners.get? rec.minerId with
    | none => exact h
    | some r =>
      have hlen := UInt64.le_iff_toNat_le.1 hle
      have hr : acc.funds.stakeOf r.minerId = r.stake.toNat := by
        have hid : r.minerId = rec.minerId := Table.key_of_get? hm
        rw [Funds.stakeOf, hid, hm]
        rfl
      have hbr := h.bounded r.minerId
      have hadd : (r.stake + amt).toNat = r.stake.toNat + amt.toNat := by
        rw [UInt64.toNat_add]
        omega
      have hset : ∀ m, (acc.funds.setMiner { r with stake := r.stake + amt }).stakeOf m =
          if m = r.minerId then r.stake.toNat + amt.toNat else acc.funds.stakeOf m := by
        intro m
        unfold Funds.stakeOf Funds.setMiner
        simp only [Table.get?_put]
        split
        · rw [Option.map_some, Option.getD_some, hadd]
        · rfl
      refine ⟨fun m => ?_, fun m => ?_⟩
      · rw [hset]
        split
        · next hm' =>
          have := h.kept r.minerId
          rw [hr] at this
          rw [hm']
          omega
        · exact h.kept m
      · rw [hset, toNat_sub hle]
        split
        · omega
        · have := h.bounded m
          omega

omit [Chain] in
theorem Spared.restoreContradicted {f : Funds} {bound : Nat} (hb : bound < 2 ^ 64) (s : State)
    (j : Str) (fresh : List FreshVote) (total : UInt64) (l : List SlashRecord) (acc : Loop × Bool)
    (h : Spared f bound acc.1) :
    Spared f bound (l.foldl (Jobs.restoreContradicted s j fresh total) acc).1 := by
  induction l generalizing acc with
  | nil => exact h
  | cons rec l ih =>
    rw [List.foldl_cons]
    refine ih _ ?_
    unfold Jobs.restoreContradicted
    split
    · exact h
    · split
      · exact h
      · exact h.restoreSlash hb rec

/-- An adjudication that does not find the primary guilty takes no stake. -/
theorem adjudicateDispute_spares {msg : MsgAdjudicateDispute}
    (hb : s.funds.stakes + s.funds.poolCoins < 2 ^ 63) (h : adjudicateDispute c msg s = .ok s')
    (hj : s.job msg.jobId = some job) (hm : s'.funds.stakeOf m < s.funds.stakeOf m) :
    ∃ a, adjudication c job s = .ok a ∧
      decideCheated s.params a.tally a.agree a.total = .ok true := by
  simp only [adjudicateDispute, bind_ok, ensure_ok, require_ok, pure_ok] at h
  obtain ⟨-, -, k, hk, -, -, -, -, a, ha, cheated, hch, acc, hacc, rfl⟩ := h
  rw [hj, Option.some.injEq] at hk
  subst hk
  refine ⟨a, ha, ?_⟩
  have hstart : Spared s.funds (s.funds.stakes + s.funds.poolCoins)
      ⟨s.funds, s.funds.poolsOrZero, []⟩ := by
    refine ⟨fun _ => le_rfl, fun m => ?_⟩
    have h1 := sum_stakeOf_le s.funds (List.nodup_singleton m)
    rw [List.map_singleton, List.sum_singleton] at h1
    have h2 := Funds.poolCoins_eq (f := s.funds)
    dsimp only
    omega
  have hspared := Spared.restoreContradicted (by omega) s job.jobId a.fresh a.total job.slashRecords
    (⟨s.funds, s.funds.poolsOrZero, []⟩, false) hstart
  unfold primaryCheated at hch
  cases cheated with
  | true =>
    split at hch
    · exact hch
    · cases hch
  | false =>
    exfalso
    generalize job.slashRecords.foldl _ _ = r at hspared hacc hm
    simp only [Bool.false_eq_true, if_false] at hacc hm
    have hkept := hspared.kept m
    have hmin : acc.funds.stakeOf m = r.1.funds.stakeOf m := by
      rw [Funds.stakeOf, payOrForfeit_miners hacc]
      rfl
    have hset : SameStakes acc.funds (acc.funds.setPools acc.pools) := .of_miners rfl
    split at hm
    · have hrel := (hset.trans (sameStakes_release (c := c) (p := s.params)
        (adjudicatedGround s.params a.tally a.agree a.total) job _)) m
      rw [closeInstance_funds, hrel, hmin] at hm
      omega
    · rw [closeInstance_funds, hset m, hmin] at hm
      omega

end Adjudicated

/-! ## Those who hold no seat -/

/-- A key that is none of a seat of the two juries of a job. -/
def Outsider (s : State) (j key : Str) : Prop :=
  ∀ m ∈ auditCommitteeAllowed s j ++ redoCommitteeAllowed s j, ∀ kind, key ≠ commitKey kind j m

/-- What decides on a primary is the same in two states: the tally of the verdicts, the fresh answers
and the seats that may give one, and the answer they are compared with. -/
structure SameJudgement [Chain] (s t : State) (job : Job) : Prop where
  tally : auditVerdictTally t job.jobId job.minerId = auditVerdictTally s job.jobId job.minerId
  fresh : ∀ orig, freshVotes t job.jobId orig (commitAuthorsOf t job.jobId) =
    freshVotes s job.jobId orig (commitAuthorsOf s job.jobId)
  seats : ∀ orig, redoSeats t job.jobId orig (commitAuthorsOf t job.jobId) =
    redoSeats s job.jobId orig (commitAuthorsOf s job.jobId)
  answer : answerOf t job.jobId job.minerId = answerOf s job.jobId job.minerId
  /-- with its work committee anchored, an adjudication finds the same -/
  adjudication : (∃ a as, s.workCommittee.get job.jobId = some (a :: as)) →
    ∀ c, adjudication c job t = adjudication c job s

section Outsiders

variable {s t : State} {cm : Commit} {j m pfx : Str}

/-- A new commit that a scan does not count. -/
theorem filterMap_commitRange {β : Type} {g : Commit → Option β} (hput : t.commits = s.commits.put cm)
    (hnew : s.commit cm.jobId = none) (hg : pfx.isPrefixOf cm.jobId = true → g cm = none) :
    (t.commitRange pfx).filterMap g = (s.commitRange pfx).filterMap g := by
  have hcut : ∀ l : List Commit, (l.filter fun a => pfx.isPrefixOf a.jobId).filterMap g =
      (l.filter fun a => pfx.isPrefixOf a.jobId && (g a).isSome).filterMap g := by
    intro l
    induction l with
    | nil => rfl
    | cons a l ih =>
      rw [List.filter_cons, List.filter_cons]
      cases hp : pfx.isPrefixOf a.jobId with
      | false => simpa using ih
      | true =>
        cases hga : g a with
        | none => simpa [hga] using ih
        | some b => simpa [hga] using ih
  rw [State.commitRange, State.commitRange, hcut, hcut, hput, Table.filter_put]
  · cases hp : pfx.isPrefixOf cm.jobId with
    | false => rfl
    | true =>
      rw [hg hp]
      rfl
  · intro a ha
    rw [State.commit] at hnew
    rw [hnew] at ha
    cases ha

theorem commit_put_ne {key : Str} (hput : t.commits = s.commits.put cm) (hne : key ≠ cm.jobId) :
    t.commit key = s.commit key := by
  rw [State.commit, hput, Table.get?_put_ne hne]
  rfl

theorem mem_commitAuthorsOf : m ∈ commitAuthorsOf s j ↔
    (∃ cm, s.commit (commitKey .primary j m) = some cm) ∧ contestedSuffix m = true := by
  have hkey : commitKey .primary j m = j ++ commitKeySep ++ m := by
    simp only [commitKey, CommitKeyKind.role, List.append_nil]
  unfold commitAuthorsOf
  rw [List.mem_filter, List.mem_map, hkey]
  refine and_congr_left fun _ => ?_
  constructor
  · rintro ⟨cm, hcm, htrim⟩
    exact ⟨cm, mem_commitRange.1 ⟨hcm, htrim⟩⟩
  · rintro ⟨cm, hcm⟩
    obtain ⟨hin, htrim⟩ := mem_commitRange.2 hcm
    exact ⟨cm, hin, htrim⟩

theorem contains_commitAuthorsOf (hput : t.commits = s.commits.put cm)
    (hne : cm.jobId ≠ commitKey .primary j m) :
    (commitAuthorsOf t j).contains m = (commitAuthorsOf s j).contains m := by
  rw [Bool.eq_iff_iff, List.contains_iff_mem, List.contains_iff_mem, mem_commitAuthorsOf,
    mem_commitAuthorsOf, commit_put_ne hput hne.symm]

/-- A commit under no key of a seat is counted nowhere. -/
theorem sameJudgement_of_outsider [Chain] {r : Registry} {job : Job}
    (ht : t = { s with commits := s.commits.put cm, registry := r })
    (hnew : s.commit cm.jobId = none) (hout : Outsider s job.jobId cm.jobId)
    (hans : (answerOf s job.jobId job.minerId).isSome = true) : SameJudgement s t job := by
  have hput : t.commits = s.commits.put cm := by rw [ht]
  have haudit : auditCommitteeAllowed t job.jobId = auditCommitteeAllowed s job.jobId := by rw [ht]; rfl
  have hredo : redoCommitteeAllowed t job.jobId = redoCommitteeAllowed s job.jobId := by rw [ht]; rfl
  have hminer : ∀ m, t.miner m = s.miner m := fun m => by rw [ht]; rfl
  have hpfx : ∀ kind, (commitKey kind job.jobId []).isPrefixOf cm.jobId = true →
      cm.jobId = commitKey kind job.jobId (Str.trimPrefix cm.jobId (commitKey kind job.jobId [])) := by
    intro kind hp
    obtain ⟨m, hm⟩ := List.isPrefixOf_iff_prefix.1 hp
    rw [← hm, Str.trimPrefix_append]
    exact (commitKey_append kind job.jobId m).symm
  have hauthors : ∀ m ∈ redoCommitteeAllowed s job.jobId, (commitAuthorsOf t job.jobId).contains m =
      (commitAuthorsOf s job.jobId).contains m := fun m hm =>
    contains_commitAuthorsOf hput (hout m (List.mem_append_right _ hm) .primary)
  have htally : auditVerdictTally t job.jobId job.minerId =
      auditVerdictTally s job.jobId job.minerId := by
    have hvotes : verdictVotes t job.jobId job.minerId = verdictVotes s job.jobId job.minerId := by
      unfold verdictVotes
      simp only [haudit, hminer]
      refine filterMap_commitRange hput hnew fun hp => ?_
      split
      · rfl
      · split
        · rfl
        · next hin =>
          refine absurd (hpfx .verdict hp) (hout _ (List.mem_append_left _ ?_) .verdict)
          simpa [List.contains_iff_mem] using hin
    have hseats : registeredSeats t job.jobId = registeredSeats s job.jobId := by
      rw [registeredSeats, haudit, ht]
      rfl
    unfold auditVerdictTally
    rw [haudit, hvotes, hseats]
  have hfresh : ∀ orig, freshVotes t job.jobId orig (commitAuthorsOf t job.jobId) =
      freshVotes s job.jobId orig (commitAuthorsOf s job.jobId) := by
    intro orig
    unfold freshVotes
    simp only [hredo, hminer]
    rw [← filterMap_commitRange hput hnew fun hp => ?_]
    · refine List.filterMap_congr fun a _ => ?_
      by_cases hin : (redoCommitteeAllowed s job.jobId).contains
          (Str.trimPrefix a.jobId (commitKey .redo job.jobId [])) = true
      · rw [hauthors _ (List.contains_iff_mem.1 hin)]
      · rw [if_pos (Bool.eq_false_iff.2 hin), if_pos (Bool.eq_false_iff.2 hin)]
    · rw [if_pos]
      refine Bool.eq_false_iff.2 fun hin => ?_
      exact hout _ (List.mem_append_right _ (List.contains_iff_mem.1 hin)) .redo (hpfx .redo hp)
  have hseats : ∀ orig, redoSeats t job.jobId orig (commitAuthorsOf t job.jobId) =
      redoSeats s job.jobId orig (commitAuthorsOf s job.jobId) := by
    intro orig
    unfold redoSeats
    rw [hredo]
    refine List.countP_congr fun m hm => ?_
    rw [hauthors m hm]
  have hanswer : answerOf t job.jobId job.minerId = answerOf s job.jobId job.minerId := by
    have hne : job.jobId ++ commitKeySep ++ job.minerId ≠ cm.jobId := by
      intro he
      rw [answerOf, he, hnew] at hans
      cases hans
    rw [answerOf, answerOf, commit_put_ne hput hne]
  refine ⟨htally, hfresh, hseats, hanswer, fun hanchored c => ?_⟩
  obtain ⟨a, as, hwork⟩ := hanchored
  have hparams : t.params = s.params := by rw [ht]
  have hcommittee : ∀ n, assignedCommitteeOrFail t job.jobId n =
      assignedCommitteeOrFail s job.jobId n := by
    intro n
    have hwork' : t.workCommittee.get job.jobId = some (a :: as) := by rw [ht]; exact hwork
    simp only [assignedCommitteeOrFail, assignedCommittee, assignedCommitteeOrdered, hwork, hwork']
  unfold adjudication
  simp only [hparams, hcommittee, htally, hfresh, hseats, hanswer]

end Outsiders

/-! ## The result -/

/-- All the coins there are, in `udndr`: the supply of ten million is never added to. -/
def maxSupply : Nat := 10 ^ 13

/-- The bonds of the miners and the pools are coins of the supply. -/
def Funds.Backed (f : Funds) : Prop := f.stakes + f.poolCoins ≤ maxSupply

section Result

variable [Chain] {s : State} {ok : State → Ctx × Action → Prop}

/-- They are in every state that bounded parameters reach with no more than the supply. -/
theorem backed_of_reachable (h : Reachable (fun s _ => s.params.Bounded) s)
    (hs : s.supply ≤ maxSupply) : s.funds.Backed := by
  have h1 := solvency h
  unfold Funds.Backed
  unfold State.supply at hs
  omega

/-- A stake falls at the deadline of an audit only by the verdicts of enough seats with most of the
stake, and in an adjudication by these or by the fresh answers of enough seats of the redo jury with
most of their stake; and a commit of nobody who holds a seat has no say in either. -/
theorem slash_safety (h : Reachable ok s) :
    (∀ (t : State) (job : Job), t.job job.jobId = some job → t.funds.Backed → ∀ c allowAppeal m,
      (resolveDisputedAudit c t.params job.jobId allowAppeal t).funds.stakeOf m <
        t.funds.stakeOf m → Condemned t job) ∧
    (∀ c msg s' job m, adjudicateDispute c msg s = .ok s' → s.job msg.jobId = some job →
      s.funds.Backed → s'.funds.stakeOf m < s.funds.stakeOf m →
      Condemned s job ∨ ∃ orig answer,
        assignedCommitteeOrFail s job.jobId s.params.effectiveWorkCommitteeSize = .ok orig ∧
        Refuted s job orig answer) ∧
    (∀ c msg t job, createCommit c msg s = .ok t → s.job job.jobId = some job →
      jobIsOptimistic job.state = true → Outsider s job.jobId msg.jobId → SameJudgement s t job) := by
  have hlt : ∀ f : Funds, f.Backed → f.stakes + f.poolCoins < 2 ^ 63 := fun f hf =>
    lt_of_le_of_lt hf (by decide)
  refine ⟨fun t job hj hb c a m hm => ?_, fun c msg s' job m had hj hb hm => ?_,
    fun c msg t job hc hj ho hout => ?_⟩
  · by_contra hno
    have hns : ¬ Slashed t job := fun hs =>
      hno (condemned_of_slashed (by have := hlt _ hb; omega) hs)
    exact absurd hm (by rw [sameStakes_deadline a hj hns m]; exact lt_irrefl _)
  · have hstakes : s.funds.stakes < 2 ^ 63 := by
      have := hlt _ hb
      omega
    obtain ⟨a, ha, hd⟩ := adjudicateDispute_spares (hlt _ hb) had hj hm
    exact (refuted_of_cheated hstakes ha hd).imp (condemned_of_slashed hstakes) id
  · obtain ⟨k, miner, cm, r, -, -, -, hnew, hid, -, -, -, rfl⟩ := createCommit_spec hc
    have hw : s.Wf := Reachable.wf h
    have hwf : WfJobId job.jobId := hw.jobs _ (Table.has_of_get? hj)
    obtain ⟨-, -, hans⟩ := (hw.sound _ hwf).optimistic job hj ho
    exact sameJudgement_of_outsider rfl (by rw [hid]; exact hnew) (by rw [hid]; exact hout) hans

end Result

/-! ## A run -/

/-- The four of the jury call for a slash, and the stake of the primary falls. -/
theorem slash_safety_voted : ∃ s s' job m, Reachable (fun _ _ => True) s ∧ s.job ticket = some job ∧
    adjudicated s = .ok s' ∧ s'.funds.stakeOf m < s.funds.stakeOf m ∧
    (Condemned s job ∨ ∃ orig answer,
      assignedCommitteeOrFail s job.jobId s.params.effectiveWorkCommitteeSize = .ok orig ∧
      Refuted s job orig answer) := by
  obtain ⟨s, hs, hok, -, hbacked, -, hfall, -, job, hj, -⟩ := exists_voted
  have h : adjudicated s = .ok (outcome (adjudicated s) s) := eq_ok_outcome hok
  exact ⟨s, _, job, idOf 2, hs, hj, h, hfall, (slash_safety hs).2.1 _ _ _ job _ h hj hbacked hfall⟩

end Dendra.Jobs
