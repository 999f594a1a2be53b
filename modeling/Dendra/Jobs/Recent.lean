import Dendra.Jobs.Presence

/-!
# Recent presences

A miner is present at a height if it proved its availability, or registered, in the epoch of that height
or in the one before. The epoch of a proof is kept as a number, so it means less once epochs get longer;
and a proof also makes its miner present at the heights before it.

* `Seen`: the dates of every miner come from what was seen of it.
* `presence_recent`: the rule, at the height of the open block and later, in runs whose epochs do not get
  longer than one that a proof was made in.
* `presence_stale`: two runs that show why it says no more.
-/

namespace Dendra.Jobs

open Word

section Recent

variable [Chain] {c : Ctx} {s s' : State} {t t' : Clock} {a : Action}

/-- No length of an epoch is above one that a proof has been made under. -/
def Shrinking (t : Clock) (a : Ctx × Action) : Prop :=
  ∀ msg, a.2 = .updateParams msg → ∀ x ∈ t.log, ∀ eb, x.length = some eb →
    msg.params.availEpochBlocks ≤ eb

/-- The two dates of each miner come from what was seen of it. -/
structure Seen (t : Clock) : Prop where
  proofs : ∀ m e, t.state.registry.lastPresentEpoch.get m = some e →
    ∃ x ∈ t.log, x.minerId = m ∧ ∃ eb, x.length = some eb ∧ e.toNat ≤ x.height / eb.toNat
  registered : ∀ m r, t.state.registry.registeredHeight.get m = some r →
    ∃ x ∈ t.log, x.minerId = m ∧ x.height = r.toNat
  past : ∀ x ∈ t.log, x.height ≤ t.block
  lengths : ∀ x ∈ t.log, ∀ eb, x.length = some eb → t.state.params.availEpochBlocks ≤ eb

/-- The dates of a state are among those of another. -/
def Dates (s s' : State) : Prop :=
  (∀ m e, s'.registry.lastPresentEpoch.get m = some e → s.registry.lastPresentEpoch.get m = some e) ∧
    ∀ m r, s'.registry.registeredHeight.get m = some r → s.registry.registeredHeight.get m = some r

omit [Chain] in
theorem Dates.of_dated (h : s'.dated = s.dated) : Dates s s' := by
  simp only [State.dated, Prod.mk.injEq] at h
  rw [Dates, h.1, h.2]
  exact ⟨fun _ _ h => h, fun _ _ h => h⟩

omit [Chain] in
theorem Dates.trans {s₁ : State} (h : Dates s s₁) (h' : Dates s₁ s') : Dates s s' :=
  ⟨fun m e he => h.1 m e (h'.1 m e he), fun m r hr => h.2 m r (h'.2 m r hr)⟩

omit [Chain] in
/-- A miner that leaves takes its dates along. -/
theorem dates_removeMiner (m : Str) (f : Funds) (s : State) : Dates s (removeMiner m f s) := by
  refine ⟨fun m' e he => ?_, fun m' r hr => ?_⟩
  · have he : (s.registry.lastPresentEpoch.remove m).get m' = some e := he
    by_cases hm : m' = m
    · rw [hm, Store.get_remove_self] at he
      cases he
    · rwa [Store.get_remove_ne hm] at he
  · have hr : (s.registry.registeredHeight.remove m).get m' = some r := hr
    by_cases hm : m' = m
    · rw [hm, Store.get_remove_self] at hr
      cases hr
    · rwa [Store.get_remove_ne hm] at hr

theorem dates_runPeriodic (c : Ctx) (s : State) : Dates s (runPeriodic c s) := by
  have hone : ∀ (s : State) m, Dates s (pruneOne c s m) := by
    intro s m
    unfold pruneOne
    split
    · exact .of_dated rfl
    · split
      · split
        · exact .of_dated rfl
        · split
          · exact dates_removeMiner _ _ _
          · exact .of_dated rfl
      · exact dates_removeMiner _ _ _
  have hall : ∀ (l : List Str) (s : State), Dates s (l.foldl (pruneOne c) s) := by
    intro l
    induction l with
    | nil => exact fun s => .of_dated rfl
    | cons m l ih => exact fun s => (hone s m).trans (ih _)
  unfold runPeriodic
  split
  · refine Dates.trans ?_ (.of_dated (dated_of_noted (retryHeldReleases_noted c _)))
    unfold pruneInactiveMiners
    split
    · exact .of_dated rfl
    · exact hall _ s
  · exact .of_dated rfl

theorem dates_endBlock (h : endBlock c s = .ok s') : Dates s s' := by
  obtain ⟨s₁, hnoted, hs⟩ := endBlock_eq c s h
  have hbefore : s₁.dated = s.dated := (dated_of_noted hnoted).trans
    (dated_of_told (runReveal_runExpiry_told c s (blockSeed c s.params)))
  refine (Dates.of_dated hbefore).trans ((dates_runPeriodic c s₁).trans ?_)
  rcases runAvailabilityEpoch_eq c _ hs with ⟨-, rfl⟩ | ⟨-, -, hdated, -⟩
  · exact .of_dated rfl
  · exact .of_dated hdated

/-- An action that no miner is seen by. -/
def Action.Blind : Action → Prop
  | .proveAvailability _ => False
  | .createMiner _ => False
  | _ => True

theorem dates_deleteMiner {msg : MsgDeleteMiner} (h : deleteMiner c msg s = .ok s') : Dates s s' := by
  simp only [deleteMiner, bind_ok, ensure_ok] at h
  obtain ⟨-, -, val, -, -, -, -, -, h⟩ := h
  split at h
  · simp only [bind_ok, pure_ok] at h
    obtain ⟨bz, -, f, -, rfl⟩ := h
    exact dates_removeMiner _ _ _
  · cases h
    exact dates_removeMiner _ _ _

/-- It brings no date. -/
theorem step_dates (h : Step s (c, a) s') (ha : a.Blind) : Dates s s' := by
  cases a with
  | proveAvailability | createMiner => exact ha.elim
  | deleteMiner msg => exact dates_deleteMiner h
  | endBlock => exact dates_endBlock h
  | updateParams msg =>
    obtain ⟨-, hs⟩ := updateParams_eq h
    rw [hs]
    exact .of_dated rfl
  | openJob msg => exact .of_dated (dated_of_told (openJob_told h))
  | submitVrfBeacon msg => exact .of_dated (dated_of_told (submitVrfBeacon_told h))
  | _ => exact .of_dated (dated_of_noted (step_noted h trivial))

omit [Chain] in
/-- The epoch of a proof is not beyond the one of its height. -/
theorem toNat_epoch_le (c : Ctx) (s : State) {eb : UInt64}
    (hge : 0 ≤ availChallengeEpoch c s (toInt64 eb)) :
    (toUint64 (availChallengeEpoch c s (toInt64 eb))).toNat ≤ c.height / eb.toNat := by
  have hle : availChallengeEpoch c s (toInt64 eb) ≤ c.h / toInt64 eb := by
    unfold availChallengeEpoch
    simp only
    split
    · exact le_rfl
    · split
      · exact le_rfl
      · omega
  have hquot : c.h / toInt64 eb ≤ ((c.height / eb.toNat : Nat) : Int) := by
    by_cases hbig : eb.toNat < 2 ^ 63
    · rw [toInt64_of_lt hbig]
      exact le_of_eq (Int.natCast_ediv c.height eb.toNat).symm
    · -- a length beyond `int64` reads as a negative one
      have hneg : toInt64 eb ≤ 0 := by
        have hdef := BitVec.toInt_eq_toNat_cond eb.toBitVec
        rw [UInt64.toNat_toBitVec] at hdef
        have hlt := eb.toNat_lt
        unfold toInt64
        split at hdef
        · omega
        · omega
      exact (Int.ediv_nonpos_of_nonneg_of_nonpos (Int.natCast_nonneg _) hneg).trans
        (Int.natCast_nonneg _)
  have hsmall : c.height / eb.toNat < 2 ^ 62 := (Nat.div_le_self _ _).trans_lt c.height_lt
  generalize availChallengeEpoch c s (toInt64 eb) = n at *
  unfold toUint64
  rw [UInt64.toNat_ofNat']
  omega

theorem Tick.seen (h : Tick t (c, a) t') (hok : Shrinking t (c, a)) (hs : Seen t) : Seen t' := by
  have hlog := h.log
  have hnew : ∀ x ∈ t'.log, x ∈ a.sightings c t.state ∨ x ∈ t.log := by
    intro x hx
    rw [hlog] at hx
    exact List.mem_append.1 hx
  have hold : ∀ x ∈ t.log, x ∈ t'.log := by
    intro x hx
    rw [hlog]
    exact List.mem_append_right _ hx
  have hblock : t.block ≤ t'.block := by
    rw [h.block]
    cases a with
    | endBlock => exact Nat.le_succ _
    | _ => exact le_rfl
  have hpast : ∀ x ∈ t'.log, x.height ≤ t'.block := by
    intro x hx
    rcases hnew x hx with hx | hx
    · have hh : x.height = c.height := by
        cases a with
        | proveAvailability msg => rw [List.mem_singleton.1 hx]
        | createMiner msg => rw [List.mem_singleton.1 hx]
        | _ => cases hx
      rw [hh, h.height]
      exact hblock
    · exact (hs.past x hx).trans hblock
  have hblind : a.Blind → Seen t' := by
    intro ha
    obtain ⟨hproofs, hreg⟩ := step_dates h.step ha
    have hlog : t'.log = t.log := by
      rw [hlog]
      cases a with
      | proveAvailability msg => exact ha.elim
      | createMiner msg => exact ha.elim
      | _ => rfl
    refine ⟨fun m e he => ?_, fun m r hr => ?_, hpast, fun x hx eb heb => ?_⟩
    · rw [hlog]
      exact hs.proofs m e (hproofs m e he)
    · rw [hlog]
      exact hs.registered m r (hreg m r hr)
    · rw [hlog] at hx
      by_cases hp : ∃ msg, a = .updateParams msg
      · obtain ⟨msg, rfl⟩ := hp
        obtain ⟨-, hstate⟩ := updateParams_eq h.step
        rw [hstate]
        exact hok msg rfl x hx eb heb
      · have hparams : t'.state.params = t.state.params := by
          cases a with
          | proveAvailability msg => exact ha.elim
          | createMiner msg => exact ha.elim
          | updateParams msg => exact absurd ⟨msg, rfl⟩ hp
          | endBlock => exact (endBlock_rolled h.step).1
          | _ => exact (step_still h.step trivial).2
        rw [hparams]
        exact hs.lengths x hx eb heb
  cases a with
  | createMiner msg =>
    have hstep : createMiner c msg t.state = .ok t'.state := h.step
    simp only [createMiner, bind_ok, ensure_ok, require_ok, pure_ok] at hstep
    obtain ⟨bz, -, id, -, -, -, -, -, -, -, f, -, -, -, -, -, hstate⟩ := hstep
    refine ⟨fun m e he => ?_, fun m r hr => ?_, hpast, fun x hx eb heb => ?_⟩
    · rw [← hstate] at he
      obtain ⟨x, hx, hxm⟩ := hs.proofs m e he
      exact ⟨x, hold x hx, hxm⟩
    · rw [← hstate] at hr
      by_cases hm : m = msg.minerId
      · subst hm
        change (t.state.registry.registeredHeight.set msg.minerId c.h64).get msg.minerId = some r at hr
        rw [Store.get_set_self] at hr
        refine ⟨⟨msg.minerId, c.height, none⟩, ?_, rfl, ?_⟩
        · rw [hlog]
          exact List.mem_cons_self
        · rw [← Option.some.inj hr, Ctx.toNat_h64]
      · change (t.state.registry.registeredHeight.set msg.minerId c.h64).get m = some r at hr
        rw [Store.get_set_ne hm] at hr
        obtain ⟨x, hx, hxm⟩ := hs.registered m r hr
        exact ⟨x, hold x hx, hxm⟩
    · rw [← hstate]
      rcases hnew x hx with hx | hx
      · rw [List.mem_singleton.1 hx] at heb
        cases heb
      · exact hs.lengths x hx eb heb
  | proveAvailability msg =>
    obtain ⟨-, -, hstate⟩ := proveAvailability_spec h.step
    refine ⟨fun m e he => ?_, fun m r hr => ?_, hpast, fun x hx eb heb => ?_⟩
    · rw [hstate] at he
      simp only at he
      split at he
      · next hmoves =>
        by_cases hm : m = msg.minerId
        · subst hm
          rw [Store.get_set_self] at he
          rw [Bool.and_eq_true] at hmoves
          have hge := of_decide_eq_true hmoves.1
          refine ⟨⟨msg.minerId, c.height, some t.state.params.availEpochBlocks⟩, ?_, rfl, _, rfl, ?_⟩
          · rw [hlog]
            exact List.mem_cons_self
          · rw [← Option.some.inj he]
            exact toNat_epoch_le c t.state hge
        · rw [Store.get_set_ne hm] at he
          obtain ⟨x, hx, hxm⟩ := hs.proofs m e he
          exact ⟨x, hold x hx, hxm⟩
      · obtain ⟨x, hx, hxm⟩ := hs.proofs m e he
        exact ⟨x, hold x hx, hxm⟩
    · rw [hstate] at hr
      obtain ⟨x, hx, hxm⟩ := hs.registered m r hr
      exact ⟨x, hold x hx, hxm⟩
    · rw [hstate]
      rcases hnew x hx with hx | hx
      · rw [List.mem_singleton.1 hx] at heb
        rw [Option.some.inj heb]
        exact UInt64.le_refl _
      · exact hs.lengths x hx eb heb
  | _ => exact hblind trivial

theorem Ticking.seen (h : Ticking Shrinking t) : Seen t := by
  refine Reach.invariant (P := Seen) ?_ (fun t a t' _ hs hok ht => ?_) h
  · rintro t ⟨⟨p, balance, outside, -, hs⟩, hlog⟩
    refine ⟨fun m e he => ?_, fun m r hr => ?_, fun x hx => ?_, fun x hx => ?_⟩
    · rw [hs] at he
      cases he
    · rw [hs] at hr
      cases hr
    · rw [hlog] at hx
      cases hx
    · rw [hlog] at hx
      cases hx
  · exact Tick.seen (c := a.1) (a := a.2) ht hok hs

omit [Chain] in
/-- What presence rests on: a last proof or a registration, at most one epoch back. -/
theorem minerPresentAt_dates {m : Str} {height : UInt64} {p : Params}
    (h : minerPresentAt s m height p = true) (harmed : p.availEpochBlocks ≠ 0) :
    (∃ e, s.registry.lastPresentEpoch.get m = some e ∧
      height.toNat / p.availEpochBlocks.toNat ≤ e.toNat + 1) ∨
    ∃ r, s.registry.registeredHeight.get m = some r ∧
      height.toNat / p.availEpochBlocks.toNat ≤ r.toNat / p.availEpochBlocks.toNat + 1 := by
  have hnext : ∀ x : UInt64, (x + 1).toNat ≤ x.toNat + 1 := fun x => toNat_add_le x 1
  unfold minerPresentAt at h
  simp only [if_neg harmed] at h
  split at h
  · next hany =>
    left
    cases he : s.registry.lastPresentEpoch.get m with
    | none =>
      rw [he] at hany
      cases hany
    | some e =>
      rw [he, Option.any_some, decide_eq_true_eq] at hany
      have hle := toNat_le_of_le hany
      rw [UInt64.toNat_div] at hle
      exact ⟨e, rfl, hle.trans (hnext e)⟩
  · right
    cases hr : s.registry.registeredHeight.get m with
    | none =>
      rw [hr] at h
      cases h
    | some r =>
      rw [hr] at h
      have hle := toNat_le_of_le (of_decide_eq_true h)
      have hstep := hnext (r / p.availEpochBlocks)
      rw [UInt64.toNat_div] at hle hstep
      exact ⟨r, rfl, hle.trans hstep⟩

/-- A miner that is present at this height or later was seen in the epoch of that height or in the one
before, in a run whose epochs never get longer than one that a proof was made in. -/
theorem presence_recent (h : Ticking Shrinking t) {m : Str} {height : UInt64}
    (harmed : t.state.params.availEpochBlocks ≠ 0) (hnow : t.block ≤ height.toNat)
    (hpresent : minerPresentAt t.state m height t.state.params = true) :
    ∃ x ∈ t.log, x.minerId = m ∧
      (x.height / t.state.params.availEpochBlocks.toNat =
          height.toNat / t.state.params.availEpochBlocks.toNat ∨
        x.height / t.state.params.availEpochBlocks.toNat + 1 =
          height.toNat / t.state.params.availEpochBlocks.toNat) := by
  have hs := h.seen
  have hpos : 0 < t.state.params.availEpochBlocks.toNat := by
    rw [Nat.pos_iff_ne_zero]
    exact fun hz => harmed (UInt64.toNat_inj.1 hz)
  -- seen at most one epoch back, and not later than now
  obtain ⟨x, hx, hm, hback⟩ : ∃ x ∈ t.log, x.minerId = m ∧
      height.toNat / t.state.params.availEpochBlocks.toNat ≤
        x.height / t.state.params.availEpochBlocks.toNat + 1 := by
    rcases minerPresentAt_dates hpresent harmed with ⟨e, he, hle⟩ | ⟨r, hr, hle⟩
    · obtain ⟨x, hx, hm, eb, heb, hlast⟩ := hs.proofs m e he
      have hlength := toNat_le_of_le (hs.lengths x hx eb heb)
      have hdiv : x.height / eb.toNat ≤ x.height / t.state.params.availEpochBlocks.toNat :=
        Nat.div_le_div_left hlength hpos
      exact ⟨x, hx, hm, by omega⟩
    · obtain ⟨x, hx, hm, hheight⟩ := hs.registered m r hr
      exact ⟨x, hx, hm, by rw [hheight]; exact hle⟩
  have hle : x.height / t.state.params.availEpochBlocks.toNat ≤
      height.toNat / t.state.params.availEpochBlocks.toNat :=
    Nat.div_le_div_right ((hs.past x hx).trans hnow)
  exact ⟨x, hx, hm, by omega⟩

end Recent

/-! ## Runs -/

/-- A run in which a miner that registered in the first block proves its presence in the seventh. -/
def seventh : List (Ctx × Action) := sixBlocks ++ [(blockAt 7, proves 0)]

/-- With two blocks to an epoch, the miner is present in the epoch of its proof, the fourth. -/
theorem presence_recent_seventh : ∃ t, Ticking Shrinking t ∧ ∃ x ∈ t.log, x.minerId = idOf 0 ∧
    (x.height / 2 = 3 ∨ x.height / 2 + 1 = 3) := by
  have hshrinking : ∀ t, ∀ a ∈ seventh, Shrinking t a := by
    intro t a ha msg he
    rcases List.mem_append.1 ha with ha | ha
    · cases (sixBlocks_endBlock a ha).symm.trans he
    · rw [List.mem_singleton.1 ha] at he
      cases he
  obtain ⟨t, ht, htest⟩ := exists_ticking hshrinking
    (ticking_hamlet validate_twoBlocks (by decide) fun _ _ _ _ he => nomatch he)
    (show (tickAll seventh (hamlet twoBlocks)).toOption.any (fun t => decide (t.block = 7 ∧
      t.state.params.availEpochBlocks = 2 ∧
      minerPresentAt t.state (idOf 0) 7 t.state.params = true)) = true by decide +kernel)
  obtain ⟨hblock, heb, hpresent⟩ := of_decide_eq_true htest
  obtain ⟨x, hx, hm, hrecent⟩ := presence_recent ht (by rw [heb]; decide)
    (show t.block ≤ (7 : UInt64).toNat by rw [hblock]; decide) hpresent
  rw [heb] at hrecent
  exact ⟨t, ht, x, hx, hm, hrecent⟩

/-- The miner was seen in the epoch of a height, or in the one before. -/
def seenAround (t : Clock) (m : Str) (height : Nat) : Bool :=
  t.log.any fun x => decide (x.minerId = m) &&
    (decide (x.height / t.state.params.availEpochBlocks.toNat =
        height / t.state.params.availEpochBlocks.toNat) ||
      decide (x.height / t.state.params.availEpochBlocks.toNat + 1 =
        height / t.state.params.availEpochBlocks.toNat))

/-- The miner that registered in the first epoch and proved its presence in the fourth counts as present
in the third. Once epochs have ten blocks, it counts as present in the fifth, thirty blocks after it was
last seen. -/
theorem presence_stale :
    (∃ t, Ticking (fun _ _ => True) t ∧ t.state.params.availEpochBlocks = 2 ∧
      minerPresentAt t.state (idOf 0) 4 t.state.params = true ∧ seenAround t (idOf 0) 4 = false) ∧
    ∃ t, Ticking (fun _ _ => True) t ∧ t.state.params.availEpochBlocks = 10 ∧ t.block = 7 ∧
      minerPresentAt t.state (idOf 0) 40 t.state.params = true ∧
      seenAround t (idOf 0) 40 = false := by
  have hstart : Ticking (fun _ _ => True) (hamlet twoBlocks) :=
    ticking_hamlet validate_twoBlocks (by decide) fun _ _ _ => trivial
  constructor
  · obtain ⟨t, ht, htest⟩ := exists_ticking (fun _ _ _ => trivial) hstart
      (show (tickAll seventh (hamlet twoBlocks)).toOption.any (fun t => decide (
        t.state.params.availEpochBlocks = 2 ∧
        minerPresentAt t.state (idOf 0) 4 t.state.params = true ∧
        seenAround t (idOf 0) 4 = false)) = true by decide +kernel)
    exact ⟨t, ht, of_decide_eq_true htest⟩
  · obtain ⟨t, ht, htest⟩ := exists_ticking (fun _ _ _ => trivial) hstart
      (show (tickAll (seventh ++ [(blockAt 7, .updateParams ⟨governance,
        { Params.default with availEpochBlocks := 10 }⟩)])
        (hamlet twoBlocks)).toOption.any (fun t => decide (
          t.state.params.availEpochBlocks = 10 ∧ t.block = 7 ∧
          minerPresentAt t.state (idOf 0) 40 t.state.params = true ∧
          seenAround t (idOf 0) 40 = false)) = true by decide +kernel)
    exact ⟨t, ht, of_decide_eq_true htest⟩

end Dendra.Jobs
