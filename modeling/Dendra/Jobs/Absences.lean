import Dendra.Jobs.Genesis
import Dendra.Jobs.Application

/-!
# Absences across an import

A miner's missed epochs are a 64-bit mask and the index of the epoch it ends at; the next boundary
shifts the mask by the epochs that passed since. An epoch index comes from the height, and both
numbers travel as they are. So an import keeps the count of a miner exactly when every recorded miss
is in its window at the next boundary of the one chain if and only if it is at that of the other.

* `card_carried`: the misses that a boundary finds, counted one by one.
* `absences_kept`: when an import keeps them.
-/

namespace Dendra.Jobs

open Word

/-! ## The masks -/

section Import

variable [Chain] {c : Ctx} {s s' : State}

/-- The masks and their epochs travel as they are. -/
theorem availFail_imported {u : Option (List Str)} {c₀ : Ctx} {p : Params} {b o : Nat}
    (h : initGenesis c u (exportGenesis c₀ s) (genesis p b o) = .ok s') :
    s'.params = s.params ∧ s'.registry.availFailCount = s.registry.availFailCount ∧
      s'.registry.availFailWindowStart = s.registry.availFailWindowStart := by
  obtain ⟨r, d, z, rfl⟩ := initGenesis_spec h
  exact ⟨rfl, Table.putAll_entries _, Table.putAll_entries _⟩

end Import

/-! ## The misses of a window -/

/-- The misses of a miner that a boundary finds when it judges epoch `e`: the failures it counts for a
miner that is present. -/
def carried (p : Params) (e : UInt64) (r : Registry) (m : Str) : Nat :=
  onesCount (failMask p e [] [m] r m)

/-- The epochs of a window. -/
def windowSize (p : Params) : Nat := if p.availFailWindow ≥ 64 then 64 else p.availFailWindow.toNat

/-- A miss recorded `i` epochs before `last` is in the window that ends at epoch `e`. -/
def InWindow (p : Params) (last e : UInt64) (i : Nat) : Prop :=
  last < e ∧ i + (e - last).toNat < windowSize p

instance (p : Params) (last e : UInt64) (i : Nat) : Decidable (InWindow p last e i) :=
  inferInstanceAs (Decidable (_ ∧ _))

/-- The recorded misses that are in the window that ends at `e`. -/
def missesIn (p : Params) (last mask e : UInt64) : Finset Nat :=
  (Finset.range 64).filter fun i => mask.toNat.testBit i = true ∧ InWindow p last e i

section Window

variable {p : Params} {last mask e e' : UInt64} {r : Registry} {m : Str}

theorem mem_missesIn {i : Nat} : i ∈ missesIn p last mask e ↔
    i < 64 ∧ mask.toNat.testBit i = true ∧ InWindow p last e i := by
  unfold missesIn
  rw [Finset.mem_filter, Finset.mem_range]

theorem onesCount_eq_card (x : UInt64) :
    onesCount x = ((Finset.range 64).filter fun i => x.toNat.testBit i = true).card := by
  have e : ∀ i, x.toBitVec.getLsbD i = decide (x.toNat.testBit i = true) := fun i => by
    rw [Bool.decide_eq_true]
    rfl
  rw [onesCount, List.countP_eq_length_filter]
  simp only [e]
  rfl

/-- The window as a mask. -/
theorem testBit_winMask (p : Params) (i : Nat) :
    (if p.availFailWindow ≥ 64 then UInt64.ofNat (2 ^ 64 - 1)
      else (1 <<< (if p.availFailWindow ≥ 64 then 64 else p.availFailWindow)) - 1).toNat.testBit i =
      decide (i < windowSize p) := by
  unfold windowSize
  by_cases h : p.availFailWindow ≥ 64
  · simp only [if_pos h]
    have e : (UInt64.ofNat (2 ^ 64 - 1)).toNat = 2 ^ 64 - 1 := by decide
    rw [e, Nat.testBit_two_pow_sub_one]
  · simp only [if_neg h]
    have hw : p.availFailWindow.toNat < 64 := by
      rw [ge_iff_le, UInt64.le_iff_toNat_le] at h
      exact Nat.lt_of_not_le h
    have hpow : 2 ^ p.availFailWindow.toNat < 2 ^ 64 := Nat.pow_lt_pow_right (by omega) hw
    have hshift : ((1 : UInt64) <<< p.availFailWindow).toNat = 2 ^ p.availFailWindow.toNat := by
      rw [UInt64.toNat_shiftLeft, Nat.mod_eq_of_lt hw, Nat.shiftLeft_eq]
      simpa using hpow
    have hone : (1 : UInt64) ≤ 1 <<< p.availFailWindow := by
      rw [UInt64.le_iff_toNat_le, hshift]
      exact Nat.one_le_two_pow
    rw [toNat_sub hone, hshift]
    exact Nat.testBit_two_pow_sub_one ..

theorem windowSize_le (p : Params) : windowSize p ≤ 64 := by
  unfold windowSize
  split
  · exact le_rfl
  · next h =>
    rw [ge_iff_le, UInt64.le_iff_toNat_le] at h
    exact (Nat.lt_of_not_le h).le

/-- The mask that a boundary finds is the recorded one, shifted by the epochs since. -/
theorem testBit_found [Chain] (hl : r.availFailWindowStart.get m = some last)
    (hm : r.availFailCount.get m = some mask) {i : Nat} (hi : i < 64) :
    (failMask p e [] [m] r m).toNat.testBit i = true ↔ last < e ∧
      (e - last).toNat ≤ i ∧ i < windowSize p ∧ mask.toNat.testBit (i - (e - last).toNat) = true := by
  have hfail : failMask p e [] [m] r m =
      (if last < e ∧ e - last < 64 then mask <<< (e - last) else 0) &&&
        (if p.availFailWindow ≥ 64 then UInt64.ofNat (2 ^ 64 - 1)
          else (1 <<< (if p.availFailWindow ≥ 64 then 64 else p.availFailWindow)) - 1) := by
    simp [failMask, hl, hm]
  rw [hfail, UInt64.toNat_and, Nat.testBit_and, testBit_winMask, Bool.and_eq_true,
    decide_eq_true_eq]
  by_cases hlt : last < e
  · by_cases hd : e - last < 64
    · have hd' : (e - last).toNat < 64 := UInt64.lt_iff_toNat_lt.1 hd
      rw [if_pos ⟨hlt, hd⟩, UInt64.toNat_shiftLeft, Nat.mod_eq_of_lt hd', Nat.testBit_mod_two_pow,
        Nat.testBit_shiftLeft, decide_eq_true hi, Bool.true_and, Bool.and_eq_true,
        decide_eq_true_eq]
      exact ⟨fun ⟨⟨h1, h2⟩, h3⟩ => ⟨hlt, h1, h3, h2⟩, fun ⟨_, h1, h3, h2⟩ => ⟨⟨h1, h2⟩, h3⟩⟩
    · have hd' : 64 ≤ (e - last).toNat := by
        rw [UInt64.lt_iff_toNat_lt] at hd
        exact Nat.le_of_not_lt hd
      rw [if_neg fun h => hd h.2]
      refine ⟨fun h => by simp at h, fun ⟨_, h1, _⟩ => ?_⟩
      omega
  · rw [if_neg fun h => hlt h.1]
    exact ⟨fun h => by simp at h, fun h => absurd h.1 hlt⟩

/-- The misses that a boundary finds, one by one. -/
theorem card_carried (hl : r.availFailWindowStart.get m = some last)
    (hm : r.availFailCount.get m = some mask) :
    carried p e r m = (missesIn p last mask e).card := by
  have hle := windowSize_le p
  have hbits := fun i (hi : i < 64) => testBit_found hl hm hi (p := p) (e := e)
  rw [carried, onesCount_eq_card]
  refine Finset.card_nbij' (fun k => k - (e - last).toNat) (fun i => i + (e - last).toNat)
    (fun k hk => ?_) (fun i hi => ?_) (fun k hk => ?_) fun i _ => Nat.add_sub_cancel ..
  · rw [Finset.mem_coe, Finset.mem_filter, Finset.mem_range] at hk
    obtain ⟨hk, hbit⟩ := hk
    obtain ⟨h1, h2, h3, h4⟩ := (hbits k hk).1 hbit
    have h64 : k - (e - last).toNat < 64 := by omega
    have hin : k - (e - last).toNat + (e - last).toNat < windowSize p := by omega
    exact Finset.mem_coe.2 (mem_missesIn.2 ⟨h64, h4, h1, hin⟩)
  · obtain ⟨_, h1, h2, h3⟩ := mem_missesIn.1 (Finset.mem_coe.1 hi)
    rw [Finset.mem_coe, Finset.mem_filter, Finset.mem_range]
    have h64 : i + (e - last).toNat < 64 := by omega
    refine ⟨h64, (hbits _ h64).2 ⟨h2, by omega, h3, ?_⟩⟩
    rw [Nat.add_sub_cancel]
    exact h1
  · rw [Finset.mem_coe, Finset.mem_filter, Finset.mem_range] at hk
    obtain ⟨-, h2, -⟩ := (hbits k hk.1).1 hk.2
    exact Nat.sub_add_cancel h2

theorem found_of_none [Chain] (h : ∀ last mask, r.availFailWindowStart.get m = some last →
    r.availFailCount.get m ≠ some mask) : failMask p e [] [m] r m = 0 := by
  cases hl : r.availFailWindowStart.get m with
  | none => simp [failMask, hl]
  | some last =>
    cases hm : r.availFailCount.get m with
    | none => simp [failMask, hl, hm]
    | some mask => exact absurd hm (h last mask hl)

/-- A miner without a record has no misses. -/
theorem carried_of_none (h : ∀ last mask, r.availFailWindowStart.get m = some last →
    r.availFailCount.get m ≠ some mask) : carried p e r m = 0 := by
  rw [carried, found_of_none h]
  rfl

/-- Of two ends of a window, the later one has lost every miss that the earlier one has. -/
theorem missesIn_subset_or (p : Params) (last mask e e' : UInt64) :
    missesIn p last mask e ⊆ missesIn p last mask e' ∨
      missesIn p last mask e' ⊆ missesIn p last mask e := by
  have hsub : ∀ {x y : UInt64}, last < x → x ≤ y → missesIn p last mask y ⊆ missesIn p last mask x := by
    intro x y hx hxy i hi
    obtain ⟨h1, h2, h3, h4⟩ := mem_missesIn.1 hi
    have hx' : last ≤ x := UInt64.le_of_lt hx
    have := toNat_sub hx'
    have := toNat_sub (UInt64.le_trans hx' hxy)
    have := toNat_le_of_le hxy
    exact mem_missesIn.2 ⟨h1, h2, hx, by omega⟩
  have hempty : ∀ {x : UInt64}, ¬ last < x → missesIn p last mask x = ∅ := fun hx =>
    Finset.eq_empty_of_forall_notMem fun i hi => hx (mem_missesIn.1 hi).2.2.1
  by_cases h1 : last < e
  · by_cases h2 : last < e'
    · rcases UInt64.le_total e e' with h | h
      · exact .inr (hsub h1 h)
      · exact .inl (hsub h2 h)
    · rw [hempty h2]
      exact .inr (Finset.empty_subset _)
  · rw [hempty h1]
    exact .inl (Finset.empty_subset _)

/-- Two windows have equally many recorded misses exactly when they have the same. -/
theorem card_missesIn_eq_iff : (missesIn p last mask e).card = (missesIn p last mask e').card ↔
    ∀ i < 64, mask.toNat.testBit i = true → (InWindow p last e i ↔ InWindow p last e' i) := by
  have heq : missesIn p last mask e = missesIn p last mask e' ↔
      ∀ i < 64, mask.toNat.testBit i = true → (InWindow p last e i ↔ InWindow p last e' i) := by
    rw [Finset.ext_iff]
    simp only [mem_missesIn, and_congr_right_iff]
  rw [← heq]
  constructor
  · intro h
    rcases missesIn_subset_or p last mask e e' with hs | hs
    · exact Finset.eq_of_subset_of_card_le hs h.ge
    · exact (Finset.eq_of_subset_of_card_le hs h.le).symm
  · exact fun h => congrArg Finset.card h

end Window

/-! ## The result -/

section Result

variable [Chain]

/-- The epoch that the boundary at the end of this block judges. -/
def judgedEpoch (p : Params) (c : Ctx) : UInt64 := toUint64 (c.h / toInt64 p.availEpochBlocks - 1)

/-- A state is exported at one height and imported at another. A boundary of the new chain finds as
many misses of a miner as a boundary of the old one exactly when every recorded miss is in the window
of the one if and only if it is in the window of the other. -/
theorem absences_kept {ok : State → Ctx × Action → Prop} {s s' : State} {c c' : Ctx}
    {u : Option (List Str)} {p : Params} {balance outside : Nat} (_h : Reachable ok s)
    (himp : initGenesis c' u (exportGenesis c s) (genesis p balance outside) = .ok s')
    (b b' : Ctx) (m : Str) :
    carried s'.params (judgedEpoch s'.params b') s'.registry m =
        carried s.params (judgedEpoch s.params b) s.registry m ↔
      ∀ last mask, s.registry.availFailWindowStart.get m = some last →
        s.registry.availFailCount.get m = some mask → ∀ i < 64, mask.toNat.testBit i = true →
          (InWindow s.params last (judgedEpoch s.params b) i ↔
            InWindow s.params last (judgedEpoch s.params b') i) := by
  obtain ⟨hparams, hcount, hstart⟩ := availFail_imported himp
  have hsame : ∀ e, carried s'.params e s'.registry m = carried s.params e s.registry m := by
    intro e
    simp only [carried, failMask, hparams, hcount, hstart]
  rw [hsame, hparams]
  by_cases hrec : ∃ last mask, s.registry.availFailWindowStart.get m = some last ∧
      s.registry.availFailCount.get m = some mask
  · obtain ⟨last, mask, hl, hm⟩ := hrec
    rw [card_carried hl hm, card_carried hl hm, eq_comm, card_missesIn_eq_iff]
    refine ⟨fun h last' mask' hl' hm' => ?_, fun h => h last mask hl hm⟩
    rw [hl, Option.some.injEq] at hl'
    rw [hm, Option.some.injEq] at hm'
    rw [← hl', ← hm']
    exact h
  · have hnone : ∀ last mask, s.registry.availFailWindowStart.get m = some last →
        s.registry.availFailCount.get m ≠ some mask := fun last mask hl hm =>
      hrec ⟨last, mask, hl, hm⟩
    rw [carried_of_none hnone, carried_of_none hnone]
    exact ⟨fun _ last mask hl hm => absurd hm (hnone last mask hl), fun _ => rfl⟩

end Result

/-! ## Runs -/

/-- Epochs of ten blocks, and a slash after four absences out of eight. -/
def absentMode : Params :=
  { Params.default with
    availEpochBlocks := 10
    availDeadlineBlocks := 5
    availSlashBps := 100
    availFailK := 4
    availFailWindow := 8 }

theorem validate_absentMode [Chain] : absentMode.validate = .ok () := by
  simp only [Params.validate, Params.validateMode, Params.validateMode1, Params.validateEpoch14,
    Params.validateEpoch15, bind_unit_ok, refuse_ok]
  simp [absentMode, Params.default, Params.effectiveAuditFloor]

/-- Two boundaries without anybody present. -/
def silence : List (Ctx × Action) := [(blockAt 10, .endBlock), (blockAt 20, .endBlock)]

/-- The export at block 25, imported at a height. -/
def migrated (c : Ctx) (s : State) : Except Err State :=
  initGenesis c none (exportGenesis (blockAt 25) s) (genesis .default 0 0)

/-- What the export at block 25 carries of an absence, and what becomes of it at block 25 and at block 1. -/
theorem exists_migrated : ∃ s, Reachable (fun _ _ => True) s ∧ (migrated (blockAt 25) s).isOk = true ∧
    (migrated (blockAt 1) s).isOk = true ∧
    carried s.params (judgedEpoch s.params (blockAt 30)) s.registry (idOf 0) = 1 ∧
    carried (outcome (migrated (blockAt 1) s) s).params
      (judgedEpoch (outcome (migrated (blockAt 1) s) s).params (blockAt 10))
      (outcome (migrated (blockAt 1) s) s).registry (idOf 0) = 0 ∧
    carried (outcome (migrated (blockAt 1) s) s).params
      (judgedEpoch (outcome (migrated (blockAt 1) s) s).params (blockAt 20))
      (outcome (migrated (blockAt 1) s) s).registry (idOf 0) = 0 := by
  obtain ⟨s, hs, ht⟩ := exists_reachable (fun _ _ _ => trivial)
    (reachable_village validate_absentMode (by decide) fun _ _ _ _ => trivial)
    (show endsIn free
      (fun s => decide ((migrated (blockAt 25) s).isOk = true ∧ (migrated (blockAt 1) s).isOk = true ∧
        carried s.params (judgedEpoch s.params (blockAt 30)) s.registry (idOf 0) = 1 ∧
        carried (outcome (migrated (blockAt 1) s) s).params
          (judgedEpoch (outcome (migrated (blockAt 1) s) s).params (blockAt 10))
          (outcome (migrated (blockAt 1) s) s).registry (idOf 0) = 0 ∧
        carried (outcome (migrated (blockAt 1) s) s).params
          (judgedEpoch (outcome (migrated (blockAt 1) s) s).params (blockAt 20))
          (outcome (migrated (blockAt 1) s) s).registry (idOf 0) = 0))
      silence (village absentMode) = true by rewrite [application_eq_tabled]; decide +kernel)
  exact ⟨s, hs, of_decide_eq_true ht⟩

/-- Imported at the same height, a miner keeps the absence it had. -/
theorem absences_kept_same_height : ∃ s s', migrated (blockAt 25) s = .ok s' ∧
    carried s.params (judgedEpoch s.params (blockAt 30)) s.registry (idOf 0) = 1 ∧
    carried s'.params (judgedEpoch s'.params (blockAt 30)) s'.registry (idOf 0) = 1 := by
  obtain ⟨s, hs, hok, -, hone, -⟩ := exists_migrated
  have himp : migrated (blockAt 25) s = .ok (outcome (migrated (blockAt 25) s) s) :=
    eq_ok_outcome hok
  refine ⟨s, _, himp, hone, ?_⟩
  rw [(absences_kept hs himp (blockAt 30) (blockAt 30) (idOf 0)).2 fun _ _ _ _ _ _ _ => Iff.rfl]
  exact hone

/-- Imported at block 1, it has none at the next boundary, nor at the one after it. -/
theorem absences_forgiven : ∃ s s', Reachable (fun _ _ => True) s ∧
    migrated (blockAt 1) s = .ok s' ∧
    carried s.params (judgedEpoch s.params (blockAt 30)) s.registry (idOf 0) = 1 ∧
    carried s'.params (judgedEpoch s'.params (blockAt 10)) s'.registry (idOf 0) = 0 ∧
    carried s'.params (judgedEpoch s'.params (blockAt 20)) s'.registry (idOf 0) = 0 := by
  obtain ⟨s, hs, -, hok, hone, hten, htwenty⟩ := exists_migrated
  have himp : migrated (blockAt 1) s = .ok (outcome (migrated (blockAt 1) s) s) := eq_ok_outcome hok
  exact ⟨s, _, hs, himp, hone, hten, htwenty⟩

end Dendra.Jobs
