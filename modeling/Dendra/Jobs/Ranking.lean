import Dendra.Lib.Place
import Dendra.Jobs.Draw

/-!
# The ranking of a draw

Both draws hash the candidates under a seed, sort them by `hash / stake` and keep the first ones.
The comparison orders candidates of distinct ids strictly and totally, so an unstable sort over any order
of the input gives one list, of which every draw keeps a beginning.

* `less_irrefl`, `less_trans`, `less_or_less`: the comparison is a strict total order.
* `place_eq`: the place of a candidate is the number of candidates drawn before it.
* `draw_ranked`: what a draw promises.
-/

namespace Dendra.Jobs

/-! ## The comparison -/

section Comparison

variable {i j k : Scored}

theorem less_irrefl (i : Scored) : lessByStakeScore i i = false :=
  (Std.Total.total (r := notAfter) i i).elim id id

theorem less_trans (hij : lessByStakeScore i j = true) (hjk : lessByStakeScore j k = true) :
    lessByStakeScore i k = true := by
  -- the strict order is the complement of the converse
  have hle : notAfter j k := (Std.Total.total (r := notAfter) j k).resolve_right fun hkj => by
    rw [notAfter, hjk] at hkj
    cases hkj
  by_contra hik
  have hki : notAfter k i := Bool.eq_false_of_not_eq_true hik
  have hji : notAfter j i := trans_of notAfter hle hki
  rw [notAfter, hij] at hji
  cases hji

theorem less_or_less (h : i.id ≠ j.id) :
    lessByStakeScore i j = true ∨ lessByStakeScore j i = true := by
  by_contra hno
  rw [not_or, Bool.not_eq_true, Bool.not_eq_true] at hno
  exact h (id_eq_of_notAfter hno.2 hno.1)

/-- A stake that grows is drawn before everything it was drawn before. -/
theorem notAfter_raise {i j : Scored} {x : UInt64} (hx : i.stake ≤ x) (h : notAfter i j) :
    notAfter { i with stake := x } j := by
  rw [notAfter_iff] at h ⊢
  have hle := UInt64.le_iff_toNat_le.1 hx
  have hzero (h0 : x = 0) : i.stake = 0 := by
    rw [h0] at hle
    exact UInt64.toNat_inj.1 (Nat.le_zero.1 hle)
  rcases h with ⟨hj, hid⟩ | ⟨hj, hi, hcmp⟩
  · exact .inl ⟨hj, fun h0 => hid (hzero h0)⟩
  · refine .inr ⟨hj, fun h0 => hi (hzero h0), ?_⟩
    have hmul := Nat.mul_le_mul_left j.h hle
    dsimp only
    rcases hcmp with hlt | ⟨heq, hid⟩
    · exact .inl (hlt.trans_le hmul)
    · rcases hmul.lt_or_eq with hlt | he
      · exact .inl (heq.trans_lt hlt)
      · exact .inr ⟨heq.trans he, hid⟩

end Comparison

/-! ## Places -/

section Places

variable [Chain] {seed : Str} {cands cands' : List MinerWeight} {v w : MinerWeight} {m : Str}

/-- A candidate with its hash. -/
def scoredOf (seed : Str) (m : MinerWeight) : Scored :=
  ⟨m.id, beNat (Chain.sha256 (Str.utf8 (seed ++ '|' :: m.id))), m.stake⟩

/-- The place of a candidate when everybody is drawn. -/
def place (seed : Str) (cands : List MinerWeight) (m : Str) : Nat :=
  (selectCommitteeOrdered seed cands cands.length).idxOf m

/-- The candidates, one of them with another stake. -/
def restaked (cands : List MinerWeight) (m : Str) (x : UInt64) : List MinerWeight :=
  cands.map fun v => if v.id = m then { v with stake := x } else v

theorem score_eq (seed : Str) (cands : List MinerWeight) :
    score seed cands = cands.map (scoredOf seed) := rfl

theorem ids_score (seed : Str) (cands : List MinerWeight) : (score seed cands).map Scored.id = cands.map MinerWeight.id := by
  rw [score, List.map_map]
  rfl

/-- Candidates of distinct ids do not tie. -/
theorem eq_of_tie (h : (cands.map MinerWeight.id).Nodup) :
    ∀ a ∈ score seed cands, ∀ b ∈ score seed cands, notAfter a b → notAfter b a → a = b :=
  fun _ ha _ hb hab hba =>
    List.inj_on_of_nodup_map (ids_score seed cands ▸ h) ha hb (id_eq_of_notAfter hab hba)

/-- The whole ranking. -/
theorem select_all (seed : Str) (cands : List MinerWeight) :
    selectCommitteeOrdered seed cands cands.length =
      ((score seed cands).insertionSort notAfter).map Scored.id := by
  have hlen : ((score seed cands).insertionSort notAfter).length = cands.length := by
    rw [List.length_insertionSort, score_eq, List.length_map]
  rw [selectCommitteeOrdered, Int.toNat_natCast, List.take_of_length_le hlen.le]

/-- A draw keeps the beginning of the ranking. -/
theorem select_eq_take (seed : Str) (cands : List MinerWeight) (k : Nat) :
    selectCommitteeOrdered seed cands k = (selectCommitteeOrdered seed cands cands.length).take k := by
  rw [select_all, selectCommitteeOrdered, Int.toNat_natCast, List.map_take]

theorem ids_ranking_perm (seed : Str) (cands : List MinerWeight) :
    (selectCommitteeOrdered seed cands cands.length).Perm (cands.map MinerWeight.id) := by
  rw [select_all, ← ids_score seed cands]
  exact (List.perm_insertionSort notAfter _).map _

/-- The place of a candidate is the number of candidates drawn before it. -/
theorem place_eq (seed : Str) (h : (cands.map MinerWeight.id).Nodup) (hw : w ∈ cands) :
    place seed cands w.id = cands.countP fun v => !decide (notAfter (scoredOf seed w) (scoredOf seed v)) := by
  have hmem : scoredOf seed w ∈ score seed cands := List.mem_map_of_mem hw
  have hn : ((score seed cands).map Scored.id).Nodup := ids_score seed cands ▸ h
  have hanti : ∀ b ∈ score seed cands, notAfter (scoredOf seed w) b → notAfter b (scoredOf seed w) →
      b = scoredOf seed w := fun b hb hab hba => eq_of_tie h b hb _ hmem hba hab
  have hidx := Rank.idxOf_insertionSort hn hanti hmem
  rw [place, select_all]
  refine hidx.trans ?_
  rw [Rank.before, ← List.countP_eq_length_filter, score_eq, List.countP_map]
  rfl

/-- Who is drawn before another stands before it. -/
theorem place_lt_of_less (h : (cands.map MinerWeight.id).Nodup) (hv : v ∈ cands) (hw : w ∈ cands)
    (hlt : ¬ notAfter (scoredOf seed w) (scoredOf seed v)) :
    place seed cands v.id < place seed cands w.id := by
  have hvw : notAfter (scoredOf seed v) (scoredOf seed w) :=
    (Std.Total.total _ _).resolve_right hlt
  refine lt_of_le_of_ne ?_ fun he => ?_
  · -- whoever is drawn before `v` is drawn before `w`
    rw [place_eq seed h hv, place_eq seed h hw]
    refine List.countP_mono_left fun u _ hu => ?_
    simp only [Bool.not_eq_true', decide_eq_false_iff_not] at hu ⊢
    exact fun hwu => hu (trans_of notAfter hvw hwu)
  · have hmem : v.id ∈ selectCommitteeOrdered seed cands cands.length :=
      (ids_ranking_perm seed cands).mem_iff.2 (List.mem_map_of_mem hv)
    have hid : v.id = w.id := (List.idxOf_inj hmem).1 he
    rw [List.inj_on_of_nodup_map h hv hw hid] at hlt
    exact hlt ((Std.Total.total (r := notAfter) _ _).elim id id)

/-- A stake that grows, with all others as they were, never moves its owner back. -/
theorem place_restaked_le (h : (cands.map MinerWeight.id).Nodup) (hw : w ∈ cands) {x : UInt64}
    (hx : w.stake ≤ x) : place seed (restaked cands w.id x) w.id ≤ place seed cands w.id := by
  have hids : (restaked cands w.id x).map MinerWeight.id = cands.map MinerWeight.id := by
    rw [restaked, List.map_map]
    refine List.map_congr_left fun v _ => ?_
    dsimp only [Function.comp_apply]
    split <;> rfl
  have hw' : { w with stake := x } ∈ restaked cands w.id x := by
    refine List.mem_map.2 ⟨w, hw, ?_⟩
    rw [if_pos rfl]
  have hplace := place_eq seed (hids ▸ h) hw'
  dsimp only at hplace
  rw [hplace, place_eq seed h hw, restaked, List.countP_map]
  refine List.countP_mono_left fun v hv hbefore => ?_
  simp only [Function.comp_apply, Bool.not_eq_true', decide_eq_false_iff_not] at hbefore ⊢
  by_cases hvw : v.id = w.id
  · rw [if_pos hvw, List.inj_on_of_nodup_map h hv hw hvw] at hbefore
    exact absurd ((Std.Total.total (r := notAfter) _ _).elim id id) hbefore
  · rw [if_neg hvw] at hbefore
    exact fun hle => hbefore (notAfter_raise (i := scoredOf seed w) hx hle)

end Places

/-! ## The draw -/

section Result

variable [Chain]

/-- What a draw under a seed promises of its candidates. -/
structure Ranked (seed : Str) (cands : List MinerWeight) : Prop where
  /-- any sort of any order of the candidates keeps the same list -/
  order : ∀ (cands' : List MinerWeight) (sorted : List Scored), cands'.Perm cands →
    sorted.Perm (score seed cands') → sorted.Pairwise notAfter → ∀ k : Nat,
      (sorted.take k).map Scored.id = selectCommitteeOrdered seed cands k
  nodup : ∀ k : Nat, (selectCommitteeOrdered seed cands k).Nodup
  length : ∀ k : Nat, (selectCommitteeOrdered seed cands k).length = min k cands.length
  grows : ∀ k k' : Nat, k ≤ k' →
    selectCommitteeOrdered seed cands k <+: selectCommitteeOrdered seed cands k'
  /-- a candidate without stake stands after every candidate with one -/
  zero : ∀ v ∈ cands, ∀ w ∈ cands, v.stake ≠ 0 → w.stake = 0 →
    place seed cands v.id < place seed cands w.id
  raise : ∀ w ∈ cands, ∀ x, w.stake ≤ x →
    place seed (restaked cands w.id x) w.id ≤ place seed cands w.id

/-- The comparison orders candidates of distinct ids strictly and totally; every draw of candidates of
distinct ids is ranked; and the draw of a jury is the work draw under its own seed. -/
theorem draw_ranked :
    (∀ i, lessByStakeScore i i = false) ∧
    (∀ i j k, lessByStakeScore i j = true → lessByStakeScore j k = true →
      lessByStakeScore i k = true) ∧
    (∀ i j, i.id ≠ j.id → lessByStakeScore i j = true ∨ lessByStakeScore j i = true) ∧
    (∀ seed (cands : List MinerWeight), (cands.map MinerWeight.id).Nodup → Ranked seed cands) ∧
    ∀ domain seed jobId cands k, drawMembersWithDomain domain seed jobId cands k =
      selectCommitteeOrdered (drawSeed domain seed jobId) cands k := by
  refine ⟨less_irrefl, fun i j k hij hjk => less_trans hij hjk,
    fun i j h => less_or_less h, fun seed cands h => ?_, fun domain seed jobId cands k => ?_⟩
  · have hranking := ids_ranking_perm seed cands
    constructor
    · intro cands' sorted hperm hsorted hpair k
      have hscore : (score seed cands').Perm (score seed cands) := hperm.map _
      rw [Rank.eq_insertionSort (eq_of_tie h) (hsorted.trans hscore) hpair, selectCommitteeOrdered,
        Int.toNat_natCast]
    · intro k
      rw [select_eq_take]
      exact (hranking.nodup_iff.2 h).sublist (List.take_sublist _ _)
    · intro k
      rw [select_eq_take, List.length_take, hranking.length_eq, List.length_map]
    · intro k k' hk
      rw [select_eq_take, select_eq_take _ _ k']
      exact List.take_prefix_take_left hk
    · intro v hv w hw hpos hzero
      refine place_lt_of_less h hv hw fun hle => ?_
      rw [notAfter_iff] at hle
      rcases hle with ⟨h0, -⟩ | ⟨-, h0, -⟩
      · exact hpos h0
      · exact h0 hzero
    · exact fun w hw x hx => place_restaked_le h hw hx
  · unfold drawMembersWithDomain
    split
    · next hk =>
      rcases hk with hk | rfl
      · rw [selectCommitteeOrdered, Int.toNat_eq_zero.2 hk]
        rfl
      · simp [selectCommitteeOrdered, score]
    · rfl

end Result

end Dendra.Jobs
