import Dendra.Jobs.Msg.Settle

/-!
# What a tally counts

The answers that the redundant mode tallies are one for each member of the committee at most, so
their number is bounded by the committee's, and the number of winners fits the machine word that the
fee is divided by.

* `mem_commitByMiner`: whose answers are tallied.
* `nodup_commitByMiner`: no member is tallied twice.
* `mem_draw`: who is drawn; `anchoredSeats_of_join`: a drawn jury is read back as it was anchored.
-/

namespace Dendra.Jobs

open Word

section Tally

variable {s : State} {jobId : Str} {committee : List Str} {e : Str × Str}

/-- An answer is a member's, stored under the member's own key. -/
theorem mem_commitByMiner : e ∈ commitByMiner s jobId committee ↔
    e.1 ∈ committee ∧ ∃ cm, s.commit (jobId ++ commitKeySep ++ e.1) = some cm ∧
      cm.resultCommit = e.2 := by
  unfold commitByMiner
  simp only [List.mem_filter, List.mem_map, State.commitRange, List.isPrefixOf_iff_prefix,
    List.contains_iff_mem]
  constructor
  · rintro ⟨⟨cm, ⟨hcm, r, hr⟩, rfl⟩, hc⟩
    rw [← hr, Str.trimPrefix_append] at hc ⊢
    refine ⟨hc, cm, Table.get?_eq_some_iff.2 ⟨hcm, hr.symm⟩, rfl⟩
  · rintro ⟨hc, cm, hcm, hr⟩
    obtain ⟨hcm, hkey⟩ := Table.get?_eq_some_iff.1 hcm
    refine ⟨⟨cm, ⟨hcm, e.1, hkey.symm⟩, ?_⟩, hc⟩
    rw [hkey, Str.trimPrefix_append, hr]

/-- No member is tallied twice. -/
theorem nodup_commitByMiner : ((commitByMiner s jobId committee).map Prod.fst).Nodup := by
  unfold commitByMiner
  refine List.Nodup.sublist ((List.filter_sublist).map _) ?_
  have hn : (s.commitRange (jobId ++ commitKeySep)).Nodup := s.commits.nodup_entries.filter _
  rw [List.map_map, List.nodup_map_iff_inj_on hn]
  intro a ha b hb h
  simp only [State.commitRange, List.mem_filter, List.isPrefixOf_iff_prefix] at ha hb
  obtain ⟨ha, ra, hra⟩ := ha
  obtain ⟨hb, rb, hrb⟩ := hb
  simp only [Function.comp, ← hra, ← hrb, Str.trimPrefix_append] at h
  exact Table.eq_of_mem_of_key_eq ha hb (by rw [← hra, ← hrb, h])

theorem length_commitByMiner_le (s : State) (jobId : Str) (committee : List Str) :
    (commitByMiner s jobId committee).length ≤ committee.length := by
  rw [← List.length_map (f := Prod.fst)]
  refine (List.subperm_of_subset nodup_commitByMiner fun m hm => ?_).length_le
  obtain ⟨e, he, rfl⟩ := List.mem_map.1 hm
  exact (mem_commitByMiner.1 he).1

/-- The members whose answers parse. -/
theorem committeeVecs_sublist :
    ((committeeVecs s jobId committee).map Prod.fst).Sublist
      ((commitByMiner s jobId committee).map Prod.fst) := by
  unfold committeeVecs
  induction commitByMiner s jobId committee with
  | nil => exact .slnil
  | cons e l ih =>
    rw [List.filterMap_cons]
    cases parseIntVec e.2 with
    | none => exact ih.cons _
    | some v => exact ih.cons_cons _

theorem length_committeeVecs_le (s : State) (jobId : Str) (committee : List Str) :
    (committeeVecs s jobId committee).length ≤ committee.length := by
  have h : ((committeeVecs s jobId committee).map Prod.fst).length ≤
      ((commitByMiner s jobId committee).map Prod.fst).length := committeeVecs_sublist.length_le
  rw [List.length_map, List.length_map] at h
  exact h.trans (length_commitByMiner_le s jobId committee)

theorem length_winners_le (answers : List (Str × Str)) :
    (winners answers).length ≤ answers.length := by
  rw [winners, List.length_map]
  exact List.length_filter_le _ _

end Tally

/-- A committee has at most the size that was asked for. -/
theorem length_assignedCommittee_le [Chain] {s : State} {jobId : Str} {size : Int} {l : List Str}
    (h : assignedCommitteeOrFail s jobId size = .ok l) : l.length ≤ size.toNat := by
  unfold assignedCommitteeOrFail at h
  split at h
  · next l' hl =>
    simp only [Except.ok.injEq] at h
    subst h
    unfold assignedCommittee assignedCommitteeOrdered at hl
    split at hl
    · simp only [Except.ok.injEq] at hl
      subst hl
      exact List.length_take_le _ _
    · unfold deriveCommitteeOrdered at hl
      split at hl
      · cases hl
      · split at hl
        · cases hl
        · simp only [Except.ok.injEq] at hl
          subst hl
          rw [selectCommitteeOrdered, List.length_map]
          exact List.length_take_le _ _
  · cases h

/-- A derived id may end a key. -/
theorem WfMinerId.tail {m : Str} (h : WfMinerId m) : WfTail m := by
  refine ⟨h.1, fun hin => h.underscore ?_⟩
  rcases List.infix_cons_iff.1 hin with ⟨t, ht⟩ | hin
  · have ht' : '_' :: '_' :: t = '_' :: m := ht
    rw [List.cons.injEq] at ht'
    rw [← ht'.2]
    exact .head _
  · exact hin.subset (by decide)

/-- A cap on the weights changes no id. -/
theorem mem_capAssignmentWeights {l : List MinerWeight} {minStake multiple : UInt64}
    {w : MinerWeight} (hw : w ∈ capAssignmentWeights l minStake multiple) :
    ∃ w' ∈ l, w'.id = w.id := by
  unfold capAssignmentWeights at hw
  split at hw
  · exact ⟨w, hw, rfl⟩
  · simp only at hw
    split at hw
    · exact ⟨w, hw, rfl⟩
    · obtain ⟨w', hw', rfl⟩ := List.mem_map.1 hw
      refine ⟨w', hw', ?_⟩
      split <;> rfl

/-- A drawn committee is of registered miners. -/
theorem mem_deriveCommitteeOrdered [Chain] {s : State} {jobId m : Str} {size : Int} {l : List Str}
    (h : deriveCommitteeOrdered s jobId size = .ok l) (hm : m ∈ l) :
    s.funds.miners.has m = true := by
  unfold deriveCommitteeOrdered at h
  split at h
  · cases h
  · split at h
    · cases h
    · simp only [Except.ok.injEq] at h
      subst h
      obtain ⟨e, he, rfl⟩ := List.mem_map.1 hm
      obtain ⟨w, hw, rfl⟩ :=
        List.mem_map.1 ((List.mem_insertionSort notAfter).1 (List.mem_of_mem_take he))
      obtain ⟨w', hw', hid⟩ := mem_capAssignmentWeights hw
      obtain ⟨r, hr, rfl⟩ := List.mem_map.1 hw'
      rw [← hid]
      exact Table.has_of_get? (Table.get?_eq_some_iff.2 ⟨(List.mem_filter.1 hr).1, rfl⟩)

/-- The committees of a job, by size, are the beginnings of one list. -/
theorem assignedCommittee_take [Chain] {s : State} {jobId : Str} {size : Int} {l : List Str}
    (h : assignedCommittee s jobId size = .ok l) : ∃ ids : List Str, l = ids.take size.toNat ∧
      ∀ n : Int, assignedCommittee s jobId n = .ok (ids.take n.toNat) := by
  unfold assignedCommittee assignedCommitteeOrdered deriveCommitteeOrdered at *
  cases hraw : s.workCommittee.get jobId with
  | some raw =>
    cases raw with
    | cons a as =>
      simp only [hraw, Except.ok.injEq] at h ⊢
      exact ⟨_, h.symm, fun _ => rfl⟩
    | nil =>
      simp only [hraw] at h ⊢
      cases hseed : workSeed s jobId with
      | error e => simp only [hseed, reduceCtorEq] at h
      | ok seed =>
        cases hfrz : jobPoolFreeze s jobId with
        | error e => simp only [hseed, hfrz, reduceCtorEq] at h
        | ok freeze =>
          simp only [hseed, hfrz, Except.ok.injEq, selectCommitteeOrdered, List.map_take] at h ⊢
          exact ⟨_, h.symm, fun _ => rfl⟩
  | none =>
    simp only [hraw] at h ⊢
    cases hseed : workSeed s jobId with
    | error e => simp only [hseed, reduceCtorEq] at h
    | ok seed =>
      cases hfrz : jobPoolFreeze s jobId with
      | error e => simp only [hseed, hfrz, reduceCtorEq] at h
      | ok freeze =>
        simp only [hseed, hfrz, Except.ok.injEq, selectCommitteeOrdered, List.map_take] at h ⊢
        exact ⟨_, h.symm, fun _ => rfl⟩

/-- The size of a work committee is a signed 64-bit number. -/
theorem workCommitteeSize_lt (s : State) : (workCommitteeSize s).toNat < 2 ^ 63 := by
  unfold workCommitteeSize Params.effectiveWorkCommitteeSize
  split
  · have := BitVec.toInt_lt (x := s.params.workCommitteeSize.toBitVec)
    simp only [toInt64]
    omega
  · decide

/-! ## Juries -/

section Juries

variable {t : Table Miner.minerId} {p : Miner → Bool} {m : Str}

/-- A registered miner as a candidate. -/
def Miner.weight (m : Miner) : MinerWeight := ⟨m.minerId, m.stake⟩

/-- Candidates that are registered miners are distinct. -/
theorem nodup_candidates (t : Table Miner.minerId) (p : Miner → Bool) :
    (((t.entries.filter p).map Miner.weight).map MinerWeight.id).Nodup := by
  rw [List.map_map]
  exact (t.nodup_map_key).sublist ((List.filter_sublist (l := t.entries)).map Miner.minerId)

/-- Who sits on a drawn jury: the candidates that fewer than `k` others are drawn before. -/
theorem mem_draw [Chain] {domain seed jobId : Str} {k : Int} :
    m ∈ drawMembersWithDomain domain seed jobId ((t.entries.filter p).map Miner.weight) k ↔
      ∃ r, t.get? m = some r ∧ p r = true ∧
        (drawnBefore (drawSeed domain seed jobId) ((t.entries.filter p).map Miner.weight)
          r.weight).length < k.toNat := by
  rw [mem_drawMembersWithDomain (nodup_candidates t p)]
  constructor
  · rintro ⟨w, hw, rfl, hlt⟩
    obtain ⟨r, hr, rfl⟩ := List.mem_map.1 hw
    obtain ⟨hr, hp⟩ := List.mem_filter.1 hr
    exact ⟨r, Table.get?_eq_some_iff.2 ⟨hr, rfl⟩, hp, hlt⟩
  · rintro ⟨r, hr, hp, hlt⟩
    obtain ⟨hr, hid⟩ := Table.get?_eq_some_iff.1 hr
    exact ⟨r.weight, List.mem_map_of_mem (List.mem_filter.2 ⟨hr, hp⟩), hid, hlt⟩

/-- A jury of derived ids is read back as it was anchored. -/
theorem anchoredSeats_of_join {s : State} {key : Str} {l : List Str}
    (hl : ∀ m ∈ l, WfMinerId m) (hne : l ≠ [])
    (h : s.juries.auditCommittee.get key = some (Str.join l ',')) : anchoredSeats s key = l := by
  have hsplit : Str.split (Str.join l ',') ',' = l :=
    Str.split_join (fun m hm => (hl m hm).comma) hne
  have htrim : l.map Str.trimSpace = l :=
    (List.map_congr_left fun m hm => (hl m hm).trimSpace).trans (List.map_id l)
  have hfilter : l.filter (fun id => decide (id ≠ [])) = l :=
    List.filter_eq_self.2 fun m hm => by simpa using (hl m hm).1
  have hraw : Str.trimSpace (Str.join l ',') ≠ [] := by
    rw [Str.trimSpace_of_forall fun a ha => ?_]
    · intro he
      rw [he] at hsplit
      obtain ⟨a, as, rfl⟩ := List.exists_cons_of_ne_nil hne
      exact (hl [] (by rw [← hsplit]; exact .head _)).1 rfl
    · rcases Str.mem_join ha with rfl | ⟨m, hm, ha⟩
      · decide
      · exact isSpace_of_isIdChar ((hl m hm).2 a ha)
  simp only [anchoredSeats, h, hraw, if_false, hsplit, htrim, hfilter]

end Juries

end Dendra.Jobs
