import Dendra.Emission.Backing

/-!
# The subsidy of work

The work flow of an epoch is gated by the supply burned since the last one. Over a run the gates
telescope: what the work pool was ever credited stays within the burn.

* `Track`: a state with what its run credited, and the supply at its first completed epoch.
* `work_subsidy`: the bound, for gates of at most `G` basis points.
-/

namespace Dendra.Emission

open Word Jobs

variable {s s' : State} {G : Nat}

/-! ## One epoch -/

/-- The work flow is gated by demand, whether or not the products wrap. -/
theorem work_le (reserve demand : UInt64) (p : Params) :
    10000 * (epochRelease reserve demand p).work.toNat ≤ demand.toNat * p.workGateBps.toNat := by
  have hcap : 10000 * (mulBps demand p.workGateBps).toNat ≤ demand.toNat * p.workGateBps.toNat := by
    rw [mulBps, toNat_bpsOf]
    have := Nat.mod_le (demand.toNat * p.workGateBps.toNat) (2 ^ 64)
    omega
  unfold epochRelease
  simp only
  split
  · exact hcap
  · next h =>
    have := UInt64.le_iff_toNat_le.1 (UInt64.not_lt.1 h)
    omega

/-- The supply noted at the last epoch, zero when none was. -/
def State.recorded (s : State) : Nat := (s.lastSupply.getD 0).toNat

/-- Demand is what was burned since the supply was noted, or nothing. -/
theorem toNat_demandOf {cur : UInt64} (h : cur.toNat ≤ s.recorded) :
    (demandOf s cur).toNat = s.recorded - cur.toNat := by
  have hfrom : (measuredFrom s cur).toNat = s.recorded := by
    unfold measuredFrom State.recorded at *
    cases hl : s.lastSupply with
    | none =>
      rw [hl] at h
      simp only [Option.getD_none, UInt64.toNat_zero] at h ⊢
      omega
    | some last =>
      rw [hl] at h
      simp only [Option.getD_some] at h ⊢
      split
      · next hz =>
        rw [hz, UInt64.toNat_zero] at h ⊢
        omega
      · rfl
  unfold demandOf
  simp only
  split
  · next hlt => rw [toNat_sub (UInt64.le_of_lt hlt), hfrom]
  · next hlt =>
    have := UInt64.le_iff_toNat_le.1 (UInt64.not_lt.1 hlt)
    rw [UInt64.toNat_zero]
    omega

/-- With no supply noted, there is no demand. -/
theorem demandOf_unrecorded {cur : UInt64} (h : s.recorded = 0) : demandOf s cur = 0 := by
  have hfrom : measuredFrom s cur = cur := by
    unfold measuredFrom State.recorded at *
    cases hl : s.lastSupply with
    | none => rfl
    | some last =>
      rw [hl] at h
      have : last = 0 := UInt64.toNat_inj.1 h
      simp only [this, if_pos]
  unfold demandOf
  simp only [hfrom]
  exact if_neg (UInt64.lt_irrefl _)

/-! ## Over a run -/

/-- What a step of the hook credits to the work pool. -/
def creditedBy (s s' : State) : Action → Nat
  | .runEpoch _ => (s'.workPool.getD 0).toNat - (s.workPool.getD 0).toNat
  | _ => 0

/-- The supply at an epoch that a step completed. -/
def completedAt (s s' : State) : Option Nat :=
  match s'.events with
  | .epoch .. :: es => if es.length = s.events.length then some s.bank.supply else none
  | _ => none

/-- A state, what was credited to the work pool up to it, and the supply at the first completed epoch. -/
structure Track where
  state : State
  credited : Nat
  first : Option Nat

/-- A genesis. One that was exported after an epoch notes the supply at that epoch; supply only falls. -/
def Track.Start (x : Track) : Prop :=
  Genesis x.state ∧ x.credited = 0 ∧
    x.first = (if x.state.recorded = 0 then none else some x.state.recorded) ∧
    (x.state.recorded ≠ 0 → x.state.bank.supply ≤ x.state.recorded)

/-- The demand gate is at most `G` basis points. -/
def Gated (G : Nat) (s : State) : Prop :=
  ∀ ep epochBlocks, epochParams s = some (ep, epochBlocks) → ep.workGateBps.toNat ≤ G

/-- What was credited is within the drop from the first supply to the noted one. -/
structure Subsidised (G : Nat) (x : Track) : Prop where
  supply : x.state.bank.supply ≤ maxSupply
  before : x.first = none → x.credited = 0 ∧ x.state.recorded = 0
  since : ∀ f, x.first = some f → x.state.bank.supply ≤ x.state.recorded ∧ x.state.recorded ≤ f ∧
    10000 * x.credited ≤ G * (f - x.state.recorded)

variable {x y : Track}

/-- An epoch completes only by noting it. -/
theorem completedAt_same (h : s'.events = s.events) : completedAt s s' = none := by
  unfold completedAt
  rw [h]
  split
  · next hs =>
    rw [hs, if_neg]
    exact (Nat.lt_succ_self _).ne
  · rfl

/-- The first noted supply and the bound, after a step that noted nothing. -/
theorem Subsidised.quiet (h : Subsidised G x) (hsupply : y.state.bank.supply ≤ x.state.bank.supply)
    (hlast : y.state.lastSupply = x.state.lastSupply) (hcredited : y.credited = x.credited)
    (hfirst : y.first = x.first) : Subsidised G y := by
  have hrecorded : y.state.recorded = x.state.recorded := by rw [State.recorded, State.recorded, hlast]
  refine ⟨hsupply.trans h.supply, fun hn => ?_, fun f hf => ?_⟩
  · rw [hcredited, hrecorded]
    exact h.before (hfirst ▸ hn)
  · rw [hcredited, hrecorded]
    obtain ⟨hle, hfrom, hbound⟩ := h.since f (hfirst ▸ hf)
    exact ⟨hsupply.trans hle, hfrom, hbound⟩

/-- What a completed epoch adds to the work pool is at most the work flow. -/
theorem toNat_addItem_le (cur : Option UInt64) (amt : UInt64) :
    ((addItem cur amt).getD 0).toNat - (cur.getD 0).toNat ≤ amt.toNat := by
  have := toNat_add_le (cur.getD 0) amt
  simp only [addItem, Option.getD_some]
  omega

/-- A completed epoch credits within the burn since the noted supply, and notes the supply. -/
theorem Subsidised.completed (h : Subsidised G x) {p : Params} {cur : UInt64} (reserve : UInt64)
    (hgate : p.workGateBps.toNat ≤ G) (hcur : cur.toNat = x.state.bank.supply)
    (hsupply : y.state.bank.supply = x.state.bank.supply) (hlast : y.state.lastSupply = some cur)
    (hcredited : y.credited ≤ x.credited +
      (epochRelease reserve (demandOf x.state cur) p).work.toNat)
    (hfirst : y.first = x.first.or (some x.state.bank.supply)) : Subsidised G y := by
  have hwork := work_le reserve (demandOf x.state cur) p
  have hrecorded : y.state.recorded = x.state.bank.supply := by
    rw [State.recorded, hlast, Option.getD_some, hcur]
  refine ⟨hsupply ▸ h.supply, fun hn => ?_, fun f hf => ?_⟩
  · rw [hfirst] at hn
    cases hx : x.first <;> rw [hx] at hn <;> cases hn
  · rw [hsupply, hrecorded]
    cases hx : x.first with
    | none =>
      obtain ⟨hz, hrec⟩ := h.before hx
      rw [hfirst, hx, Option.none_or, Option.some.injEq] at hf
      rw [demandOf_unrecorded hrec, UInt64.toNat_zero, Nat.zero_mul] at hwork
      rw [demandOf_unrecorded hrec] at hcredited
      subst hf
      refine ⟨le_rfl, le_rfl, ?_⟩
      omega
    | some f' =>
      rw [hfirst, hx, Option.some_or, Option.some.injEq] at hf
      subst hf
      obtain ⟨hle, hfrom, hbound⟩ := h.since _ hx
      rw [toNat_demandOf (by rw [hcur]; exact hle), hcur] at hwork
      refine ⟨le_rfl, hle.trans hfrom, ?_⟩
      calc 10000 * y.credited
        _ ≤ 10000 * x.credited + 10000 *
            (epochRelease reserve (demandOf x.state cur) p).work.toNat := by omega
        _ ≤ G * (f' - x.state.recorded) + G * (x.state.recorded - x.state.bank.supply) := by
          refine Nat.add_le_add hbound (hwork.trans ?_)
          rw [Nat.mul_comm]
          exact Nat.mul_le_mul_right _ hgate
        _ = G * (f' - x.state.bank.supply) := by
          rw [← Nat.mul_add]
          congr 1
          omega

theorem Track.Start.subsidised (h : x.Start) : Subsidised G x := by
  obtain ⟨⟨g, allowUnbacked, b, height, hg, hheld, hsupply, hheight⟩, hcredited, hfirst, hfall⟩ := h
  refine ⟨?_, fun hn => ⟨hcredited, ?_⟩, fun f hf => ?_⟩
  · rwa [(initGenesis_spec hg).1]
  · by_contra hrec
    rw [hfirst, if_neg hrec] at hn
    cases hn
  · by_cases hrec : x.state.recorded = 0
    · rw [hfirst, if_pos hrec] at hf
      cases hf
    · rw [hfirst, if_neg hrec, Option.some.injEq] at hf
      rw [hcredited, ← hf]
      exact ⟨hfall hrec, le_rfl, by omega⟩

section Runs

variable [Chain] {a : Action}

def Track.Step (x : Track) (a : Action) (y : Track) : Prop :=
  Emission.Step x.state a y.state ∧ y.credited = x.credited + creditedBy x.state y.state a ∧
    y.first = x.first.or (completedAt x.state y.state)

theorem send_supply {refused : Bool} {recipient : Addr} {amt : UInt64} {b b' : Bank}
    (h : send refused recipient amt b = some b') : b'.supply = b.supply := by
  unfold send at h
  split at h
  · cases h
  · split at h <;> cases h <;> rfl

/-- What no call but the hook touches. -/
structure Quiet (s s' : State) : Prop where
  events : s'.events = s.events
  lastSupply : s'.lastSupply = s.lastSupply
  supply : s'.bank.supply ≤ s.bank.supply

theorem payWork_quiet {refused : Bool} {recipient : Addr} {amt paid : UInt64}
    (h : payWork refused recipient amt s = .ok (paid, s')) : Quiet s s' := by
  obtain ⟨-, ⟨-, rfl⟩ | ⟨-, b, hsend, rfl⟩⟩ := payWork_spec h
  · exact ⟨rfl, rfl, le_rfl⟩
  · exact ⟨rfl, rfl, (send_supply hsend).le⟩

theorem payAvail_quiet {refused : Bool} {recipient : Addr} {amt paid : UInt64}
    (h : payAvail refused recipient amt s = .ok (paid, s')) : Quiet s s' := by
  obtain ⟨-, ⟨-, rfl⟩ | ⟨-, b, hsend, rfl⟩⟩ := payAvail_spec h
  · exact ⟨rfl, rfl, le_rfl⟩
  · exact ⟨rfl, rfl, (send_supply hsend).le⟩

/-- A step is the hook of the next block, or quiet. -/
theorem step_quiet (h : Emission.Step s a s') :
    (∃ refused, a = .runEpoch refused) ∨ Quiet s s' ∧ creditedBy s s' a = 0 := by
  have hrun := h.1
  cases a with
  | runEpoch refused => exact .inl ⟨refused, rfl⟩
  | payWork refused recipient amt =>
    simp only [Action.run] at hrun
    cases hpay : payWork refused recipient amt s with
    | error e =>
      rw [hpay] at hrun
      cases hrun
    | ok r =>
      rw [hpay, Except.map, Except.ok.injEq] at hrun
      subst hrun
      exact .inr ⟨payWork_quiet hpay, rfl⟩
  | payAvail refused recipient amt =>
    simp only [Action.run] at hrun
    cases hpay : payAvail refused recipient amt s with
    | error e =>
      rw [hpay] at hrun
      cases hrun
    | ok r =>
      rw [hpay, Except.map, Except.ok.injEq] at hrun
      subst hrun
      exact .inr ⟨payAvail_quiet hpay, rfl⟩
  | updateParams p =>
    simp only [Action.run] at hrun
    cases hp : p.validate with
    | error e =>
      rw [hp] at hrun
      cases hrun
    | ok u =>
      rw [hp, Except.map, Except.ok.injEq] at hrun
      subst hrun
      exact .inr ⟨⟨rfl, rfl, le_rfl⟩, rfl⟩
  | burn amt =>
    simp only [Action.run] at hrun
    split at hrun
    · cases hrun
    · cases hrun
      exact .inr ⟨⟨rfl, rfl, Nat.sub_le _ _⟩, rfl⟩
  | receive amt =>
    simp only [Action.run] at hrun
    split at hrun
    · cases hrun
    · cases hrun
      exact .inr ⟨⟨rfl, rfl, le_rfl⟩, rfl⟩

theorem Subsidised.step (h : Subsidised G x) (hgate : Gated G x.state) (hs : x.Step a y) :
    Subsidised G y := by
  obtain ⟨hstep, hcredited, hfirst⟩ := hs
  rcases step_quiet hstep with ⟨refused, rfl⟩ | ⟨hquiet, hnone⟩
  · have hrun := hstep.1
    simp only [Action.run, Except.ok.injEq] at hrun
    have hran := runEpoch_ran refused { x.state with height := x.state.height + 1 }
    rw [hrun] at hran
    generalize hy : y.state = s' at hran
    cases hran with
    | idle =>
      refine h.quiet (by rw [hy]) (by rw [hy]) ?_ ?_
      · rw [hcredited, creditedBy, hy, Nat.sub_self, Nat.add_zero]
      · rw [hfirst, completedAt_same (by rw [hy]), Option.or_none]
    | skipped =>
      refine h.quiet (by rw [hy]) (by rw [hy]) ?_ ?_
      · rw [hcredited, creditedBy, hy, Nat.sub_self, Nat.add_zero]
      · rw [hfirst, completedAt_same (by rw [hy]), Option.or_none]
    | deferred r reason =>
      refine h.quiet (by rw [hy]; exact le_rfl) (by rw [hy]; rfl) ?_ ?_
      · rw [hcredited, creditedBy, hy, deferEpoch, Nat.sub_self, Nat.add_zero]
      · rw [hfirst, hy]
        exact Option.or_none
    | completed hep hlast hdue hsupply hr hpaid =>
      subst hr
      refine h.completed (x.state.reserve.getD genesisReserveU) (hgate _ _ hep) ?_ (by rw [hy]; rfl) (by rw [hy]; rfl) ?_ ?_
      · have := h.supply
        rw [hsupply, UInt64.toNat_ofNat']
        unfold maxSupply at this
        exact Nat.mod_eq_of_lt (by simp only; omega)
      · rw [hcredited, hy]
        exact Nat.add_le_add_left (toNat_addItem_le _ _) _
      · rw [hfirst, hy]
        congr 1
        exact if_pos rfl
  · refine h.quiet hquiet.supply hquiet.lastSupply (by rw [hcredited, hnone, Nat.add_zero]) ?_
    rw [hfirst, completedAt_same hquiet.events, Option.or_none]

/-- What was ever credited to the work pool is at most `G / 10000` of the supply burned since the first
completed epoch; before that epoch nothing is. -/
theorem work_subsidy (h : Reach Track.Start Track.Step (fun x _ => Gated G x.state) x) :
    (x.first = none → x.credited = 0) ∧
      ∀ f, x.first = some f → x.state.bank.supply ≤ f ∧
        10000 * x.credited ≤ G * (f - x.state.bank.supply) := by
  have hsub : Subsidised G x := by
    exact h.invariant (fun _ hx => hx.subsidised) fun _ _ _ _ ih hok hs => ih.step hok hs
  refine ⟨fun hn => (hsub.before hn).1, fun f hf => ?_⟩
  obtain ⟨hle, hfrom, hbound⟩ := hsub.since f hf
  refine ⟨hle.trans hfrom, hbound.trans (Nat.mul_le_mul_left _ ?_)⟩
  omega

end Runs

/-! ## A run of the application -/

/-- A chain at height zero, with epochs of one block and a Reserve of a million coins. -/
def dawn : State :=
  GenesisState.start
    ⟨{ Params.default with epochBlocks := 1 }, some ⟨1000000, 0, 0, 0, 0, 0, 0, 0⟩⟩
    ⟨1000000, 2000000, 0⟩ 0

/-- After its first epoch. -/
def morning : State := runEpoch false { dawn with height := 1 }

/-- A thousand coins are burned, and the second epoch completes. -/
def noon : State :=
  runEpoch false
    { morning with
      bank := { morning.bank with supply := morning.bank.supply - 1000 }
      height := 2 }

/-- The second epoch credits all that the burn allows. -/
theorem work_subsidy_noon :
    10000 * 1500 ≤ 15000 * (2000000 - noon.bank.supply) ∧ noon.workPool = some 1500 := by
  have hstart : Track.Start ⟨dawn, 0, none⟩ :=
    ⟨⟨⟨{ Params.default with epochBlocks := 1 }, some ⟨1000000, 0, 0, 0, 0, 0, 0, 0⟩⟩, false,
      ⟨1000000, 2000000, 0⟩, 0, rfl, by decide, by decide, by decide⟩, rfl, rfl,
      fun h => absurd rfl h⟩
  have hgated : ∀ s : State, s.params = some { Params.default with epochBlocks := 1 } →
      Gated 15000 s := by
    intro s hs ep epochBlocks h
    rw [epochParams, hs] at h
    obtain ⟨rfl, -⟩ := Prod.mk.inj (Option.some.inj h)
    decide
  refine ⟨?_, by decide⟩
  refine ((work_subsidy (G := 15000) (x := ⟨noon, 1500, some 2000000⟩) ?_).2 _ rfl).2
  refine .step (s := ⟨{ morning with
      bank := { morning.bank with supply := morning.bank.supply - 1000 } }, 0, some 2000000⟩)
    (a := .runEpoch false) (.step (s := ⟨morning, 0, some 2000000⟩) (a := .burn 1000)
      (.step (a := .runEpoch false) (.init hstart) ?_ ?_) ?_ ?_) ?_ ?_
  · exact hgated _ rfl
  · exact ⟨⟨rfl, by decide⟩, by decide, by decide⟩
  · exact hgated _ (by decide)
  · refine ⟨⟨?_, by decide⟩, rfl, by decide⟩
    rw [Action.run, if_neg (by decide)]
  · exact hgated _ (by decide)
  · exact ⟨⟨rfl, by decide⟩, by decide, by decide⟩

end Dendra.Emission
