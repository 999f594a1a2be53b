import Dendra.Lib.Rank
import Dendra.Jobs.Params

/-!
# Committee draws

`keeper/committee.go`, `audit_committee.go` (the draw itself), `audit_sampling.go` (the lottery) and
`decentralized_seed.go`: every draw hashes a seed with each candidate's id and keeps the candidates
of the least score `hash / stake`.

* `lessByStakeScore_total`, `lessByStakeScore_trans`: the score orders the candidates.
* `mem_drawMembersWithDomain`: who is drawn, by rank.
-/

namespace Dendra.Jobs

/-- A candidate of a draw. -/
structure MinerWeight where
  id : Str
  stake : UInt64

/-- A candidate with its hash, as a number. -/
structure Scored where
  id : Str
  h : Nat
  stake : UInt64

/-- The number that bytes spell, the first byte highest (`SetBytes`, `binary.BigEndian`). -/
def beNat (bs : List UInt8) : Nat := bs.foldl (fun n b => n * 256 + b.toNat) 0

/-! ## The order of scores -/

/-- Is `i` drawn before `j`: a smaller `hash / stake`, and the id where these tie. -/
def lessByStakeScore (i j : Scored) : Bool :=
  if i.stake = 0 ∨ j.stake = 0 then
    if i.stake ≠ j.stake then decide (i.stake > j.stake) else decide (i.id < j.id)
  else
    let li := i.h * j.stake.toNat
    let lj := j.h * i.stake.toNat
    if li ≠ lj then decide (li < lj) else decide (i.id < j.id)

/-- `i` is not drawn after `j`. -/
def notAfter (i j : Scored) : Prop := lessByStakeScore j i = false

instance : DecidableRel notAfter := fun _ _ => inferInstanceAs (Decidable (_ = _))

theorem stake_pos {s : UInt64} (h : s ≠ 0) : 0 < s.toNat := by
  rw [Nat.pos_iff_ne_zero]
  exact fun h0 => h (UInt64.toNat_inj.1 h0)

theorem gt_zero_iff {s : UInt64} : s > 0 ↔ s ≠ 0 := by
  rw [gt_iff_lt, UInt64.lt_iff_toNat_lt]
  exact ⟨fun h e => by simp [e] at h, stake_pos⟩

/-- What `notAfter` compares: a stake of zero comes last, then the ratio, then the id. -/
theorem notAfter_iff {i j : Scored} : notAfter i j ↔
    (j.stake = 0 ∧ (i.stake = 0 → i.id ≤ j.id)) ∨
      (j.stake ≠ 0 ∧ i.stake ≠ 0 ∧ (i.h * j.stake.toNat < j.h * i.stake.toNat ∨
        (i.h * j.stake.toNat = j.h * i.stake.toNat ∧ i.id ≤ j.id))) := by
  unfold notAfter lessByStakeScore
  by_cases hj : j.stake = 0 <;> by_cases hi : i.stake = 0
  · simp [hi, hj]
  · have : ¬ (0 : UInt64) > i.stake := by simp [UInt64.lt_iff_toNat_lt]
    simp [hi, hj, Ne.symm hi]
  · have : j.stake > 0 := gt_zero_iff.2 hj
    simp [hi, hj, this]
  · simp only [hi, hj, or_self, if_false, ne_eq, not_false_eq_true, true_and, false_and, false_or]
    by_cases he : j.h * i.stake.toNat = i.h * j.stake.toNat
    · simp [he]
    · simp only [he, not_false_eq_true, if_true, decide_eq_false_iff_not, not_lt]
      constructor
      · intro h
        exact .inl (lt_of_le_of_ne h (Ne.symm he))
      · rintro (h | ⟨h, -⟩)
        · exact h.le
        · exact absurd h.symm he

instance : Std.Total notAfter where
  total i j := by
    rw [notAfter_iff, notAfter_iff]
    by_cases hj : j.stake = 0 <;> by_cases hi : i.stake = 0
    · simpa [hi, hj] using le_total i.id j.id
    · simp [hi, hj]
    · simp [hi, hj]
    · rcases lt_trichotomy (i.h * j.stake.toNat) (j.h * i.stake.toNat) with h | h | h
      · simp [hi, hj, h]
      · rcases le_total i.id j.id with h' | h'
        · simp [hi, hj, h, h']
        · simp [hi, hj, h, h']
      · simp [hi, hj, h]

/-- Ratios compare as fractions do. -/
theorem ratio_trans {a b c x y z : Nat} (hx : 0 < x) (hy : 0 < y) (hz : 0 < z)
    (h1 : a * y ≤ b * x) (h2 : b * z ≤ c * y) :
    a * z ≤ c * x ∧ (a * z = c * x → a * y = b * x ∧ b * z = c * y) := by
  have e1 : a * z * y ≤ c * x * y := by
    calc a * z * y = a * y * z := by ring
      _ ≤ b * x * z := Nat.mul_le_mul_right z h1
      _ = b * z * x := by ring
      _ ≤ c * y * x := Nat.mul_le_mul_right x h2
      _ = c * x * y := by ring
  refine ⟨Nat.le_of_mul_le_mul_right e1 hy, fun e => ?_⟩
  have e2 : a * y * z = c * y * x := by
    calc a * y * z = a * z * y := by ring
      _ = c * x * y := by rw [e]
      _ = c * y * x := by ring
  have h1' := Nat.mul_le_mul_right z h1
  have h2' : b * x * z ≤ c * y * x := by
    calc b * x * z = b * z * x := by ring
      _ ≤ c * y * x := Nat.mul_le_mul_right x h2
  have e3 : b * x * z = c * y * x := by omega
  constructor
  · exact Nat.eq_of_mul_eq_mul_right hz (by omega)
  · refine Nat.eq_of_mul_eq_mul_right hx ?_
    calc b * z * x = b * x * z := by ring
      _ = c * y * x := e3

instance : IsTrans Scored notAfter where
  trans i j k hij hjk := by
    rw [notAfter_iff] at hij hjk ⊢
    rcases hjk with ⟨hk, hjk⟩ | ⟨hk, hj, hjk⟩
    · refine .inl ⟨hk, fun hi => ?_⟩
      rcases hij with ⟨hj, hij⟩ | ⟨-, hi', -⟩
      · exact (hij hi).trans (hjk hj)
      · exact absurd hi hi'
    · rcases hij with ⟨hj', -⟩ | ⟨-, hi, hij⟩
      · exact absurd hj' hj
      · refine .inr ⟨hk, hi, ?_⟩
        have h1 : i.h * j.stake.toNat ≤ j.h * i.stake.toNat := by
          rcases hij with h | ⟨h, -⟩ <;> omega
        have h2 : j.h * k.stake.toNat ≤ k.h * j.stake.toNat := by
          rcases hjk with h | ⟨h, -⟩ <;> omega
        obtain ⟨hle, heq⟩ := ratio_trans (stake_pos hi) (stake_pos hj) (stake_pos hk) h1 h2
        rcases hle.lt_or_eq with hlt | he
        · exact .inl hlt
        · obtain ⟨e1, e2⟩ := heq he
          refine .inr ⟨he, ?_⟩
          rcases hij with h | ⟨-, h⟩
          · omega
          · rcases hjk with h' | ⟨-, h'⟩
            · omega
            · exact h.trans h'

/-- Two candidates that tie have one id. -/
theorem id_eq_of_notAfter {i j : Scored} (hij : notAfter i j) (hji : notAfter j i) :
    i.id = j.id := by
  rw [notAfter_iff] at hij hji
  rcases hij with ⟨hj, hij⟩ | ⟨hj, hi, hij⟩
  · rcases hji with ⟨hi, hji⟩ | ⟨-, hj', -⟩
    · exact le_antisymm (hij hi) (hji hj)
    · exact absurd hj hj'
  · rcases hji with ⟨hi', -⟩ | ⟨-, -, hji⟩
    · exact absurd hi' hi
    · rcases hij with h | ⟨h, hle⟩
      · rcases hji with h' | ⟨h', -⟩ <;> omega
      · rcases hji with h' | ⟨-, hle'⟩
        · omega
        · exact le_antisymm hle hle'

/-! ## Draws -/

section Draws

variable [Chain]

/-- The candidates with their scores under a seed. -/
def score (seed : Str) (miners : List MinerWeight) : List Scored :=
  miners.map fun m => ⟨m.id, beNat (Chain.sha256 (Str.utf8 (seed ++ '|' :: m.id))), m.stake⟩

/-- The first `size` candidates by score. -/
def selectCommitteeOrdered (seed : Str) (miners : List MinerWeight) (size : Int) : List Str :=
  (((score seed miners).insertionSort notAfter).take size.toNat).map Scored.id

/-- No stake counts for more than a multiple of the least stake. -/
def capAssignmentWeights (miners : List MinerWeight) (minStake multiple : UInt64) :
    List MinerWeight :=
  if minStake = 0 then miners
  else
    let ceiling := minStake * multiple
    if multiple = 0 ∨ ceiling / multiple ≠ minStake ∨ ceiling < minStake then miners
    else miners.map fun m => if m.stake > ceiling then { m with stake := ceiling } else m

def auditCommitteeDomain : Str := "dendra/audit-committee/v1|".toList

def redoCommitteeDomain : Str := "dendra/redo-committee/v1|".toList

def auditDomain : Str := "dendra/audit/v1|".toList

/-- The draw seed of a domain, a seed and a job. -/
def drawSeed (domain seed jobId : Str) : Str :=
  Str.hex (Chain.sha256 (Str.utf8 (domain ++ seed ++ '|' :: jobId)))

/-- The `k` drawn members of a domain. -/
def drawMembersWithDomain (domain seed jobId : Str) (cands : List MinerWeight) (k : Int) :
    List Str :=
  if k ≤ 0 ∨ cands = [] then []
  else
    (((score (drawSeed domain seed jobId) cands).insertionSort notAfter).take k.toNat).map Scored.id

def drawAuditMembers (seed jobId : Str) (cands : List MinerWeight) (k : Int) : List Str :=
  drawMembersWithDomain auditCommitteeDomain seed jobId cands k

/-- The lottery number of a job, below 10000. -/
def auditDraw (seed jobId : Str) : UInt64 :=
  UInt64.ofNat
    (beNat ((Chain.sha256 (Str.utf8 (auditDomain ++ seed ++ '|' :: jobId))).take 8) % 10000)

/-- The seed of this height: the decentralised one when it is required and good enough, and whether
it was used. -/
def committeeBaseSeedSourced (c : Ctx) (p : Params) (fallback : Str) : Str × Bool :=
  if p.committeeSeedSource ≠ 1 then (fallback, false)
  else
    match c.vrfSeed with
    | none => (fallback, false)
    | some seed =>
      if seed = [] then (fallback, false)
      else if p.committeeMinVrfContributors > 0 ∧
          c.vrfContributors.getD 0 < p.committeeMinVrfContributors then (fallback, false)
      else
        match c.vrfPower with
        | none => (fallback, false)
        | some bps =>
          if bps < p.effectiveMinVrfContributorPowerBps then (fallback, false)
          else (Str.hex seed, true)

def committeeBaseSeed (c : Ctx) (p : Params) (fallback : Str) : Str :=
  (committeeBaseSeedSourced c p fallback).1

variable {domain seed jobId : Str} {cands : List MinerWeight} {k : Int} {m : Str}

/-- The candidates drawn before `m`. -/
def drawnBefore (seed : Str) (cands : List MinerWeight) (m : MinerWeight) : List Scored :=
  Rank.before notAfter (score seed cands)
    ⟨m.id, beNat (Chain.sha256 (Str.utf8 (seed ++ '|' :: m.id))), m.stake⟩

theorem nodup_score (h : (cands.map MinerWeight.id).Nodup) : (score seed cands).Nodup := by
  refine List.Nodup.of_map Scored.id ?_
  rw [score, List.map_map]
  exact h

/-- A sorted draw keeps the candidates that fewer than `k` others are drawn before. -/
theorem mem_take_score (h : (cands.map MinerWeight.id).Nodup) {n : Nat} :
    m ∈ (((score seed cands).insertionSort notAfter).take n).map Scored.id ↔
      ∃ w ∈ cands, w.id = m ∧ (drawnBefore seed cands w).length < n := by
  have hn : (score seed cands).Nodup := nodup_score h
  have hids : ((score seed cands).map Scored.id).Nodup := by
    rw [score, List.map_map]
    exact h
  have key : ∀ a ∈ score seed cands,
      (a ∈ ((score seed cands).insertionSort notAfter).take n ↔
        (Rank.before notAfter (score seed cands) a).length < n) := by
    intro a ha
    rw [Rank.mem_take_insertionSort hn fun b hb hab hba =>
      List.inj_on_of_nodup_map hids hb ha (id_eq_of_notAfter hba hab)]
    exact and_iff_right ha
  simp only [List.mem_map]
  constructor
  · rintro ⟨a, ha, rfl⟩
    have hmem : a ∈ score seed cands :=
      (List.mem_insertionSort notAfter).1 (List.mem_of_mem_take ha)
    obtain ⟨w, hw, rfl⟩ := List.mem_map.1 hmem
    exact ⟨w, hw, rfl, (key _ hmem).1 ha⟩
  · rintro ⟨w, hw, rfl, hlt⟩
    exact ⟨_, (key _ (List.mem_map_of_mem hw)).2 hlt, rfl⟩

/-- Who sits on a drawn jury. -/
theorem mem_drawMembersWithDomain (h : (cands.map MinerWeight.id).Nodup) :
    m ∈ drawMembersWithDomain domain seed jobId cands k ↔
      ∃ w ∈ cands, w.id = m ∧
        (drawnBefore (drawSeed domain seed jobId) cands w).length < k.toNat := by
  unfold drawMembersWithDomain
  split
  · next hk =>
    rcases hk with hk | rfl
    · simp [Int.toNat_eq_zero.2 hk]
    · simp
  · exact mem_take_score h

end Draws

end Dendra.Jobs
