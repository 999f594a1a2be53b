import Dendra.Emission.Epoch
import Dendra.Jobs.Application

/-!
# What backs the counters

The module account holds the Reserve and the two pools. What the counters promise and what the account
holds move together in every call, but for one: a payout to the module account itself sends nothing
anywhere and is debited all the same.

* `Ran`: what one epoch hook can do.
* `Inv`: the counters fit a word together, and no release is younger than the epoch noted last.
* `backing`: the gap between the account and its counters over a run.
-/

namespace Dendra.Emission

open Word Jobs

/-! ## One release -/

/-- The parts of a release add up, and leave the Reserve. -/
structure Release.Sound (r : Release) (reserve : UInt64) : Prop where
  parts : r.work.toNat + r.avail.toNat + r.security.toNat = r.released.toNat
  reserve : r.newReserve.toNat + r.released.toNat = reserve.toNat

section Release

variable {reserve demand : UInt64} {p : Params}

/-- A release is sound when its security tranche is no more than all the coins there are. The two splits
may be more than the whole (their sum is checked as a `uint64`); the remainder then wraps to more than
that. -/
theorem epochRelease_sound (hp : p.reserveReleaseBps.toNat ≤ 10000)
    (hs : (epochRelease reserve demand p).security.toNat ≤ maxSupply) :
    (epochRelease reserve demand p).Sound reserve := by
  have hrelease : (mulBps reserve p.reserveReleaseBps).toNat ≤ reserve.toNat := toNat_bpsOf_le hp
  have hsmall : (mulBps reserve p.reserveReleaseBps).toNat * 10000 < 2 ^ 64 := toNat_bpsOf_lt _ _
  unfold epochRelease at hs ⊢
  simp only at hs ⊢
  generalize mulBps reserve p.reserveReleaseBps = release at hs hrelease hsmall ⊢
  have hwork : (mulBps release p.workSplitBps).toNat * 10000 < 2 ^ 64 := toNat_bpsOf_lt _ _
  have havail : (mulBps release p.availSplitBps).toNat * 10000 < 2 ^ 64 := toNat_bpsOf_lt _ _
  generalize mulBps release p.workSplitBps = workPool at hs hwork ⊢
  generalize mulBps release p.availSplitBps = avail at hs havail ⊢
  generalize hcut : (if workPool > mulBps demand p.workGateBps then mulBps demand p.workGateBps
    else workPool) = work
  have hle : work.toNat ≤ workPool.toNat := by
    rw [← hcut]
    split
    · next h => exact (UInt64.lt_iff_toNat_lt.1 h).le
    · exact le_rfl
  -- the remainder did not wrap
  have hsec : (release - workPool - avail).toNat + workPool.toNat + avail.toNat = release.toNat := by
    rw [UInt64.toNat_sub, UInt64.toNat_sub] at hs ⊢
    unfold maxSupply at hs
    omega
  have hreleased : (work + avail + (release - workPool - avail)).toNat =
      work.toNat + avail.toNat + (release - workPool - avail).toNat := by
    rw [UInt64.toNat_add, UInt64.toNat_add]
    omega
  constructor
  · exact hreleased.symm
  · simp only
    rw [toNat_sub (UInt64.le_iff_toNat_le.2 (by omega))]
    omega

end Release

/-! ## One hook -/

/-- What the epoch hook does in a block of height `h`. -/
inductive Ran (s : State) : State → Prop
  | idle : Ran s s
  /-- the epoch is skipped: it was ahead of the chain, or nothing is left to release -/
  | skipped : Ran s { s with lastEpoch := some (UInt64.ofNat s.height) }
  | deferred (r : Release) (reason : DeferReason) :
    Ran s (deferEpoch (UInt64.ofNat s.height) r reason s)
  | completed {ep : Params} {epochBlocks curSupply : UInt64} {r : Release}
    (hep : epochParams s = some (ep, epochBlocks))
    (hlast : s.lastEpoch.getD 0 ≤ UInt64.ofNat s.height)
    (hdue : epochBlocks ≤ UInt64.ofNat s.height - s.lastEpoch.getD 0)
    (hsupply : curSupply = UInt64.ofNat s.bank.supply)
    (hr : r = epochRelease (s.reserve.getD genesisReserveU) (demandOf s curSupply) ep)
    (hpaid : r.security.toNat ≤ s.bank.balance) :
    Ran s (completeEpoch (UInt64.ofNat s.height) curSupply r
      { s with bank := { s.bank with balance := s.bank.balance - r.security.toNat } })

theorem runEpoch_ran (refused : Bool) (s : State) : Ran s (runEpoch refused s) := by
  unfold runEpoch
  cases hep : epochParams s with
  | none => exact .idle
  | some e =>
    obtain ⟨ep, epochBlocks⟩ := e
    simp only
    split
    · exact .skipped
    · next hahead =>
      split
      · exact .idle
      · next hdue =>
        split
        · exact .skipped
        · unfold releaseEpoch
          simp only
          split
          · split
            · exact .deferred _ _
            · next hsend =>
              rw [not_or, not_lt] at hsend
              exact .completed hep (UInt64.not_lt.1 hahead) (UInt64.not_lt.1 hdue) rfl rfl hsend.2
          · next hzero =>
            split
            · exact .deferred _ _
            · have hz : (epochRelease (s.reserve.getD genesisReserveU)
                  (demandOf s (UInt64.ofNat s.bank.supply)) ep).security.toNat = 0 := by
                rw [gt_iff_lt, UInt64.lt_iff_toNat_lt] at hzero
                exact Nat.eq_zero_of_not_pos hzero
              have h := Ran.completed (s := s) hep (UInt64.not_lt.1 hahead) (UInt64.not_lt.1 hdue)
                rfl rfl (by rw [hz]; exact Nat.zero_le _)
              rw [hz, Nat.sub_zero] at h
              exact h

/-! ## Over a run -/

/-- The coins the counters promise. -/
def State.book (s : State) : Nat := required (s.reserve.getD genesisReserveU) s

/-- What the account holds of its own, over what the counters promise. -/
def State.gap (s : State) : Int := s.bank.balance - s.bank.received - s.book

/-- The height of a release. -/
def Event.releaseHeight : Event → Option UInt64
  | .epoch height _ _ _ _ => some height
  | .deferred .. => none

/-- A payout sends coins of the module account to itself. -/
def PaysItself [Chain] (s : State) : Action → Prop
  | .payWork refused recipient amt => refused = false ∧ recipient = modAddr ∧
    payable (s.workPool.getD 0) amt s ≠ 0
  | .payAvail refused recipient amt => refused = false ∧ recipient = modAddr ∧
    payable (s.availPool.getD 0) amt s ≠ 0
  | _ => False

/-- The parameters are accepted ones, the coins are part of the supply, the counters fit a word together,
and no release is later than the block or than the epoch noted last. -/
structure Inv (s : State) : Prop where
  params : ∀ p, s.params = some p → p.reserveReleaseBps.toNat ≤ 10000
  held : s.bank.balance ≤ s.bank.supply
  supply : s.bank.supply ≤ maxSupply
  book : s.book < 2 ^ 64
  height : s.height < 2 ^ 63
  past : ∀ e ∈ s.events, ∀ h, e.releaseHeight = some h →
    h.toNat ≤ s.height ∧ h ≤ s.lastEpoch.getD 0

/-- What a step leaves: no more promised, and as much over it. -/
structure Keeps (s s' : State) : Prop where
  reserve : s'.reserve.getD genesisReserveU ≤ s.reserve.getD genesisReserveU
  book : s'.book ≤ s.book
  gap : s'.gap = s.gap

section Run

variable {s s' : State} {p : Params}

theorem Keeps.refl (s : State) : Keeps s s := ⟨UInt64.le_refl _, le_rfl, rfl⟩

theorem Keeps.trans {s'' : State} (h : Keeps s s') (h' : Keeps s' s'') : Keeps s s'' :=
  ⟨UInt64.le_trans h'.reserve h.reserve, h'.book.trans h.book, h'.gap.trans h.gap⟩

theorem validate_releaseBps (h : p.validate = .ok ()) : p.reserveReleaseBps.toNat ≤ 10000 := by
  unfold Params.validate at h
  split at h
  · cases h
  · split at h
    · cases h
    · next hr => exact UInt64.le_iff_toNat_le.1 (UInt64.not_lt.1 hr)

theorem Inv.epochParams (h : Inv s) {ep : Params} {epochBlocks : UInt64}
    (hep : epochParams s = some (ep, epochBlocks)) : ep.reserveReleaseBps.toNat ≤ 10000 := by
  unfold Emission.epochParams at hep
  cases hp : s.params with
  | none =>
    rw [hp] at hep
    simp only [Option.some.injEq, Prod.mk.injEq] at hep
    rw [← hep.1]
    decide
  | some pp =>
    rw [hp] at hep
    simp only at hep
    split at hep
    · cases hep
    · simp only [Option.some.injEq, Prod.mk.injEq] at hep
      rw [← hep.1]
      exact h.params pp hp

/-- The release of an epoch that completes is sound. -/
theorem Inv.release_sound (h : Inv s) {ep : Params} {epochBlocks curSupply : UInt64} {r : Release}
    (hep : Emission.epochParams s = some (ep, epochBlocks))
    (hr : r = epochRelease (s.reserve.getD genesisReserveU) (demandOf s curSupply) ep)
    (hpaid : r.security.toNat ≤ s.bank.balance) : r.Sound (s.reserve.getD genesisReserveU) := by
  subst hr
  exact epochRelease_sound (h.epochParams hep) ((hpaid.trans h.held).trans h.supply)

/-- The hook keeps the gap, whatever it does. -/
theorem Ran.keeps (h : Inv s) (hr : Ran s s') : Keeps s s' := by
  cases hr with
  | idle => exact .refl s
  | skipped => exact ⟨UInt64.le_refl _, le_rfl, rfl⟩
  | deferred r reason => exact ⟨UInt64.le_refl _, le_rfl, rfl⟩
  | completed hep hlast hdue hsupply hr hpaid =>
    obtain ⟨hparts, hreserve⟩ := h.release_sound hep hr hpaid
    have hbook := h.book
    unfold State.book required at hbook
    refine ⟨?_, ?_, ?_⟩
    · rw [UInt64.le_iff_toNat_le]
      simp only [completeEpoch, Option.getD_some]
      omega
    · simp only [State.book, required, completeEpoch, addItem, Option.getD_some, UInt64.toNat_add]
      omega
    · simp only [State.gap, State.book, required, completeEpoch, addItem, Option.getD_some,
        UInt64.toNat_add]
      omega

theorem Ran.height (hr : Ran s s') : s'.height = s.height := by
  cases hr <;> rfl

theorem Inv.toNat_height (h : Inv s) : (UInt64.ofNat s.height).toNat = s.height := by
  have := h.height
  rw [UInt64.toNat_ofNat']
  omega

/-- Every release noted so far is before the block. -/
theorem Inv.past_height (h : Inv s) {e : Event} (he : e ∈ s.events) {k : UInt64}
    (hk : e.releaseHeight = some k) : k ≤ UInt64.ofNat s.height := by
  rw [UInt64.le_iff_toNat_le, h.toNat_height]
  exact (h.past e he k hk).1

theorem Ran.inv (h : Inv s) (hr : Ran s s') : Inv s' := by
  have hkeep := hr.keeps h
  cases hr with
  | idle => exact h
  | skipped =>
    exact ⟨h.params, h.held, h.supply, h.book, h.height, fun e he k hk =>
      ⟨(h.past e he k hk).1, h.past_height he hk⟩⟩
  | deferred r reason =>
    refine ⟨h.params, h.held, h.supply, h.book, h.height, fun e he k hk => ?_⟩
    rcases List.mem_cons.1 he with rfl | he
    · cases hk
    · exact ⟨(h.past e he k hk).1, h.past_height he hk⟩
  | completed hep hlast hdue hsupply hr hpaid =>
    refine ⟨h.params, (Nat.sub_le _ _).trans h.held, h.supply, hkeep.book.trans_lt h.book, h.height,
      fun e he k hk => ?_⟩
    rcases List.mem_cons.1 he with rfl | he
    · simp only [Event.releaseHeight, Option.some.injEq] at hk
      subst hk
      exact ⟨h.toNat_height.le, UInt64.le_refl _⟩
    · exact ⟨(h.past e he k hk).1, h.past_height he hk⟩

/-- Any two releases are at least so many blocks apart; the newest is noted first. -/
def Spaced (n : Nat) (es : List Event) : Prop :=
  es.Pairwise fun e e' => ∀ h h', e.releaseHeight = some h → e'.releaseHeight = some h' →
    h'.toNat + n ≤ h.toNat

/-- No epoch of the chain is shorter than this. -/
def EpochAtLeast (n : Nat) (s : State) : Prop :=
  ∀ ep epochBlocks, Emission.epochParams s = some (ep, epochBlocks) → n ≤ epochBlocks.toNat

theorem Ran.spaced {n : Nat} (h : Inv s) (hn : EpochAtLeast n s) (hs : Spaced n s.events)
    (hr : Ran s s') : Spaced n s'.events := by
  cases hr with
  | idle => exact hs
  | skipped => exact hs
  | deferred r reason =>
    refine List.pairwise_cons.2 ⟨fun e he k k' hk => ?_, hs⟩
    cases hk
  | completed hep hlast hdue hsupply hr hpaid =>
    refine List.pairwise_cons.2 ⟨fun e he k k' hk hk' => ?_, hs⟩
    simp only [Event.releaseHeight, Option.some.injEq] at hk
    subst hk
    have hk := UInt64.le_iff_toNat_le.1 (h.past e he k' hk').2
    have hdue := UInt64.le_iff_toNat_le.1 hdue
    rw [toNat_sub hlast] at hdue
    have hle := UInt64.le_iff_toNat_le.1 hlast
    have := hn _ _ hep
    omega

/-- What an event says was released. -/
def Event.released : Event → UInt64
  | .epoch _ released _ _ _ => released
  | .deferred .. => 0

/-- The Reserve and the two pools are as they were. -/
structure SameCounters (s s' : State) : Prop where
  reserve : s'.reserve.getD genesisReserveU = s.reserve.getD genesisReserveU
  workPool : s'.workPool.getD 0 = s.workPool.getD 0
  availPool : s'.availPool.getD 0 = s.availPool.getD 0

/-- A hook that noted no release, or one of nothing, leaves the counters alone. -/
theorem Ran.sameCounters (h : Inv s) (hr : Ran s s')
    (hz : ∀ e, s'.events = e :: s.events → e.released = 0) : SameCounters s s' := by
  cases hr with
  | idle => exact ⟨rfl, rfl, rfl⟩
  | skipped => exact ⟨rfl, rfl, rfl⟩
  | deferred r reason => exact ⟨rfl, rfl, rfl⟩
  | completed hep hlast hdue hsupply hr hpaid =>
    obtain ⟨hparts, hreserve⟩ := h.release_sound hep hr hpaid
    have hzero : _ = (0 : UInt64) := hz _ rfl
    simp only [Event.released] at hzero
    rw [hzero, UInt64.toNat_zero] at hparts hreserve
    obtain ⟨⟨hwork, havail⟩, -⟩ : (_ = 0 ∧ _ = 0) ∧ _ = 0 := by
      rwa [Nat.add_eq_zero_iff, Nat.add_eq_zero_iff] at hparts
    refine ⟨UInt64.toNat_inj.1 ?_, UInt64.toNat_inj.1 ?_, UInt64.toNat_inj.1 ?_⟩
    · exact hreserve
    · simp only [completeEpoch, addItem, Option.getD_some, UInt64.toNat_add, hwork, Nat.add_zero]
      exact Nat.mod_eq_of_lt (UInt64.toNat_lt _)
    · simp only [completeEpoch, addItem, Option.getD_some, UInt64.toNat_add, havail, Nat.add_zero]
      exact Nat.mod_eq_of_lt (UInt64.toNat_lt _)

/-! ## The payouts -/

/-- What is sent is no more than the smaller of the two. -/
theorem payable_le_cut (pool amt : UInt64) (s : State) :
    payable pool amt s ≤ if amt > pool then pool else amt := by
  unfold payable
  generalize (if amt > pool then pool else amt) = cut
  simp only
  split
  · next h =>
    refine UInt64.le_iff_toNat_le.2 ?_
    rw [UInt64.toNat_ofNat']
    exact (Nat.mod_le _ _).trans h.le
  · exact UInt64.le_refl _

theorem payable_le (pool amt : UInt64) (s : State) : payable pool amt s ≤ pool := by
  refine UInt64.le_trans (payable_le_cut pool amt s) ?_
  split
  · exact UInt64.le_refl _
  · next h => exact UInt64.not_lt.1 h

theorem payable_le_asked (pool amt : UInt64) (s : State) : payable pool amt s ≤ amt := by
  refine UInt64.le_trans (payable_le_cut pool amt s) ?_
  split
  · next h => exact UInt64.le_of_lt h
  · exact UInt64.le_refl _

/-- What a call leaves. -/
structure Good (s s' : State) : Prop where
  inv : Inv s'
  keeps : Keeps s s'
  events : s'.events = s.events

/-- Coins that leave the account with as much of what it promises. -/
theorem Inv.debited (h : Inv s) {paid : UInt64} {work avail workPaid availPaid : Option UInt64}
    (hb : paid.toNat ≤ s.bank.balance)
    (hs' : s' = { s with
      bank := { s.bank with balance := s.bank.balance - paid.toNat }
      workPool := work
      availPool := avail
      workPaidTotal := workPaid
      availPaidTotal := availPaid })
    (hbook : s'.book + paid.toNat = s.book) : Good s s' := by
  have hle : s'.book ≤ s.book := by omega
  subst hs'
  refine ⟨⟨h.params, (Nat.sub_le _ _).trans h.held, h.supply, hle.trans_lt h.book, h.height,
    h.past⟩, ⟨UInt64.le_refl _, hle, ?_⟩, rfl⟩
  simp only [State.gap, State.book, required] at hbook ⊢
  omega

theorem book_start (g : GenesisState) (b : Bank) (height : Nat) :
    (g.start b height).book = g.declared := by
  cases hst : g.state with
  | none =>
    simp only [State.book, required, GenesisState.start, GenesisState.declared, hst, Option.getD_none,
      Option.getD_some, UInt64.toNat_zero, Nat.add_zero]
  | some e =>
    simp only [State.book, required, GenesisState.start, GenesisState.declared, hst, Option.getD_some]

/-- What a run keeps. -/
structure Kept (n : Nat) (s : State) : Prop where
  inv : Inv s
  spaced : Spaced n s.events

/-- A genesis that starts a chain promises no more than a word. -/
theorem initGenesis_spec {g : GenesisState} {allowUnbacked : Bool} {b : Bank} {height : Nat}
    (h : initGenesis g allowUnbacked b height = .ok s) :
    s = g.start b height ∧ g.params.validate = .ok () ∧ g.declared < 2 ^ 64 := by
  unfold initGenesis at h
  cases hp : g.params.validate with
  | error e =>
    rw [hp] at h
    cases h
  | ok u =>
    rw [hp] at h
    have hbook : g.declared < 2 ^ 64 := by
      by_contra hbig
      have hback : reserveIsBacked g b = .error .outOfBounds := by
        unfold reserveIsBacked
        rw [if_neg (by omega), if_pos (by omega)]
      rw [hback] at h
      cases h
    refine ⟨?_, rfl, hbook⟩
    cases hback : reserveIsBacked g b with
    | ok u =>
      rw [hback] at h
      exact (Except.ok.inj h).symm
    | error e =>
      rw [hback] at h
      cases e with
      | outOfBounds => cases h
      | short =>
        cases allowUnbacked with
        | true => exact (Except.ok.inj h).symm
        | false => cases h

theorem Genesis.kept (n : Nat) (h : Genesis s) : Kept n s := by
  obtain ⟨g, allowUnbacked, b, height, hg, hheld, hsupply, hheight⟩ := h
  obtain ⟨rfl, hp, hbook⟩ := initGenesis_spec hg
  refine ⟨⟨fun q hq => ?_, hheld, hsupply, ?_, hheight, fun e he => ?_⟩, List.Pairwise.nil⟩
  · rw [← Option.some.inj hq]
    exact validate_releaseBps hp
  · rw [book_start]
    exact hbook
  · cases he

section Calls

variable [Chain] {refused : Bool} {recipient : Addr} {amt paid : UInt64} {a : Action}

/-- A transfer to another account takes the coins from the balance. -/
theorem send_eq {b b' : Bank} (hother : refused = false → recipient ≠ modAddr)
    (h : send refused recipient amt b = some b') :
    amt.toNat ≤ b.balance ∧ b' = { b with balance := b.balance - amt.toNat } := by
  unfold send at h
  split at h
  · cases h
  · next hsend =>
    rw [not_or, not_lt, Bool.not_eq_true] at hsend
    rw [if_neg (hother hsend.1), Option.some.injEq] at h
    exact ⟨hsend.2, h.symm⟩

/-- A payout sends what is payable, when that is something, and books it. -/
theorem payWork_spec (h : payWork refused recipient amt s = .ok (paid, s')) :
    paid = payable (s.workPool.getD 0) amt s ∧ (paid = 0 ∧ s' = s ∨
      paid ≠ 0 ∧ ∃ b, send refused recipient paid s.bank = some b ∧
        s' = { s with
          bank := b
          workPool := some (s.workPool.getD 0 - paid)
          workPaidTotal := addItem s.workPaidTotal paid }) := by
  unfold payWork at h
  simp only at h
  split at h
  · next hz =>
    cases h
    exact ⟨hz.symm, .inl ⟨rfl, rfl⟩⟩
  · next hne =>
    split at h
    · cases h
    · next b hsend =>
      cases h
      exact ⟨rfl, .inr ⟨hne, b, hsend, rfl⟩⟩

theorem payAvail_spec (h : payAvail refused recipient amt s = .ok (paid, s')) :
    paid = payable (s.availPool.getD 0) amt s ∧ (paid = 0 ∧ s' = s ∨
      paid ≠ 0 ∧ ∃ b, send refused recipient paid s.bank = some b ∧
        s' = { s with
          bank := b
          availPool := some (s.availPool.getD 0 - paid)
          availPaidTotal := addItem s.availPaidTotal paid }) := by
  unfold payAvail at h
  simp only at h
  split at h
  · next hz =>
    cases h
    exact ⟨hz.symm, .inl ⟨rfl, rfl⟩⟩
  · next hne =>
    split at h
    · cases h
    · next b hsend =>
      cases h
      exact ⟨rfl, .inr ⟨hne, b, hsend, rfl⟩⟩

/-- What a payout takes from its pool, it takes from what is required. -/
theorem payWork_good (h : Inv s) (hself : ¬ PaysItself s (.payWork refused recipient amt))
    (hpay : payWork refused recipient amt s = .ok (paid, s')) : Good s s' := by
  obtain ⟨hpaid, ⟨-, rfl⟩ | ⟨hne, b, hsend, rfl⟩⟩ := payWork_spec hpay
  · exact ⟨h, .refl _, rfl⟩
  · have hle : paid ≤ s.workPool.getD 0 := by
      rw [hpaid]
      exact payable_le _ _ _
    obtain ⟨hb, rfl⟩ := send_eq (fun hr hm => hself ⟨hr, hm, hpaid ▸ hne⟩) hsend
    refine h.debited hb rfl ?_
    have hpool := toNat_sub hle
    have hle := toNat_le_of_le hle
    simp only [State.book, required, Option.getD_some]
    omega

theorem payAvail_good (h : Inv s) (hself : ¬ PaysItself s (.payAvail refused recipient amt))
    (hpay : payAvail refused recipient amt s = .ok (paid, s')) : Good s s' := by
  obtain ⟨hpaid, ⟨-, rfl⟩ | ⟨hne, b, hsend, rfl⟩⟩ := payAvail_spec hpay
  · exact ⟨h, .refl _, rfl⟩
  · have hle : paid ≤ s.availPool.getD 0 := by
      rw [hpaid]
      exact payable_le _ _ _
    obtain ⟨hb, rfl⟩ := send_eq (fun hr hm => hself ⟨hr, hm, hpaid ▸ hne⟩) hsend
    refine h.debited hb rfl ?_
    have hpool := toNat_sub hle
    have hle := toNat_le_of_le hle
    simp only [State.book, required, Option.getD_some]
    omega

/-- What the hook of the next block does. -/
theorem hook_ran (h : Inv s) (hs : Step s (.runEpoch refused) s') :
    Inv { s with height := s.height + 1 } ∧ Ran { s with height := s.height + 1 } s' := by
  obtain ⟨hrun, hheight⟩ := hs
  simp only [Action.run, Except.ok.injEq] at hrun
  subst hrun
  have hran := runEpoch_ran refused { s with height := s.height + 1 }
  refine ⟨⟨h.params, h.held, h.supply, h.book, ?_, fun e he k hk => ?_⟩, hran⟩
  · rw [hran.height] at hheight
    exact hheight
  · obtain ⟨hk1, hk2⟩ := h.past e he k hk
    exact ⟨hk1.trans (Nat.le_succ _), hk2⟩

/-- A step is the hook of the next block, or one of the calls that note no event. -/
theorem step_cases (h : Inv s) (hself : ¬ PaysItself s a) (hs : Step s a s') :
    (Inv { s with height := s.height + 1 } ∧ Ran { s with height := s.height + 1 } s') ∨
      Good s s' := by
  cases a with
  | runEpoch refused => exact .inl (hook_ran h hs)
  | payWork refused recipient amt =>
    have hrun := hs.1
    simp only [Action.run] at hrun
    cases hpay : payWork refused recipient amt s with
    | error e =>
      rw [hpay] at hrun
      cases hrun
    | ok r =>
      rw [hpay, Except.map, Except.ok.injEq] at hrun
      subst hrun
      exact .inr (payWork_good h hself hpay)
  | payAvail refused recipient amt =>
    have hrun := hs.1
    simp only [Action.run] at hrun
    cases hpay : payAvail refused recipient amt s with
    | error e =>
      rw [hpay] at hrun
      cases hrun
    | ok r =>
      rw [hpay, Except.map, Except.ok.injEq] at hrun
      subst hrun
      exact .inr (payAvail_good h hself hpay)
  | updateParams p =>
    have hrun := hs.1
    simp only [Action.run] at hrun
    cases hp : p.validate with
    | error e =>
      rw [hp] at hrun
      cases hrun
    | ok u =>
      rw [hp, Except.map, Except.ok.injEq] at hrun
      subst hrun
      refine .inr ⟨⟨fun q hq => ?_, h.held, h.supply, h.book, h.height, h.past⟩,
        ⟨UInt64.le_refl _, le_rfl, rfl⟩, rfl⟩
      simp only [Option.some.injEq] at hq
      subst hq
      exact validate_releaseBps hp
  | burn amt =>
    have hrun := hs.1
    simp only [Action.run] at hrun
    split at hrun
    · cases hrun
    · next hcovered =>
      rw [Except.ok.injEq] at hrun
      subst hrun
      have := h.held
      have := h.supply
      refine .inr ⟨⟨h.params, ?_, ?_, h.book, h.height, h.past⟩,
        ⟨UInt64.le_refl _, le_rfl, rfl⟩, rfl⟩
      · simp only
        omega
      · simp only
        omega
  | receive amt =>
    have hrun := hs.1
    simp only [Action.run] at hrun
    split at hrun
    · cases hrun
    · next hcovered =>
      rw [Except.ok.injEq] at hrun
      subst hrun
      refine .inr ⟨⟨h.params, not_lt.1 hcovered, h.supply, h.book, h.height, h.past⟩,
        ⟨UInt64.le_refl _, le_rfl, ?_⟩, rfl⟩
      simp only [State.gap, State.book, required]
      omega

/-- A step under which no payout stays inside the account, on a chain of epochs of at least `n` blocks. -/
def Outward (n : Nat) (s : State) (a : Action) : Prop := ¬ PaysItself s a ∧ EpochAtLeast n s

theorem Kept.step {n : Nat} (h : Kept n s) (hok : Outward n s a) (hs : Step s a s') : Kept n s' := by
  rcases step_cases h.inv hok.1 hs with ⟨hinv, hran⟩ | hgood
  · exact ⟨hran.inv hinv, hran.spaced hinv hok.2 h.spaced⟩
  · exact ⟨hgood.inv, hgood.events ▸ h.spaced⟩

theorem kept_of_reach {n : Nat} (h : Reach Genesis Step (Outward n) s) : Kept n s :=
  h.invariant (fun _ h => h.kept n) fun _ _ _ _ ih hok hs => ih.step hok hs

theorem step_keeps (h : Inv s) (hself : ¬ PaysItself s a) (hs : Step s a s') : Keeps s s' := by
  rcases step_cases h hself hs with ⟨hinv, hran⟩ | hgood
  · exact ⟨(hran.keeps hinv).reserve, (hran.keeps hinv).book, (hran.keeps hinv).gap⟩
  · exact hgood.keeps

/-- Over a run none of whose payouts stays inside the account: what it holds over its counters does not
change, the Reserve never grows, releases are `n` blocks apart when no epoch of the run is shorter, and an
epoch that releases nothing leaves the counters alone. -/
theorem backing {n : Nat} {s₀ : State} (h₀ : Reach Genesis Step (Outward n) s₀)
    (h : Reach (· = s₀) Step (Outward n) s) :
    s.gap = s₀.gap ∧ s.reserve.getD genesisReserveU ≤ s₀.reserve.getD genesisReserveU ∧
      Spaced n s.events ∧
      ∀ refused s', Step s (.runEpoch refused) s' →
        (∀ e, s'.events = e :: s.events → e.released = 0) → SameCounters s s' := by
  have hrun : Kept n s ∧ Keeps s₀ s := by
    refine h.invariant (P := fun s => Kept n s ∧ Keeps s₀ s) ?_ ?_
    · rintro _ rfl
      exact ⟨kept_of_reach h₀, .refl _⟩
    · intro s a s' _ ih hok hs
      exact ⟨ih.1.step hok hs, ih.2.trans (step_keeps ih.1.inv hok.1 hs)⟩
  obtain ⟨hkept, hkeeps⟩ := hrun
  refine ⟨hkeeps.gap, hkeeps.reserve, hkept.spaced, fun refused s' hs hz => ?_⟩
  obtain ⟨hinv, hran⟩ := hook_ran hkept.inv hs
  have hsame := hran.sameCounters hinv hz
  exact ⟨hsame.reserve, hsame.workPool, hsame.availPool⟩

end Calls

end Run

/-! ## Runs of the application -/

/-- A chain one block before its first epoch, which holds a million coins for the Reserve and a hundred for
the availability pool. -/
def eve : State :=
  GenesisState.start
    ⟨{ Params.default with epochBlocks := 10 }, some ⟨1000000, 0, 100, 0, 0, 0, 0, 0⟩⟩
    ⟨1000100, 2000000, 0⟩ 9

theorem genesis_eve : Genesis eve :=
  ⟨⟨{ Params.default with epochBlocks := 10 }, some ⟨1000000, 0, 100, 0, 0, 0, 0, 0⟩⟩, false,
    ⟨1000100, 2000000, 0⟩, 9, rfl, by decide, by decide, by decide⟩

/-- The first epoch of that chain. -/
theorem backing_eve :
    (runEpoch false { eve with height := 10 }).gap = eve.gap ∧
      (runEpoch false { eve with height := 10 }).reserve = some 890000 := by
  refine ⟨(backing (n := 10) (.init genesis_eve) (.step (a := .runEpoch false) (.init rfl) ?_ ?_)).1,
    by decide⟩
  · refine ⟨id, fun ep epochBlocks h => ?_⟩
    obtain ⟨-, rfl⟩ := Prod.mk.inj (Option.some.inj h)
    decide
  · exact ⟨rfl, by decide⟩

/-- A payout to the account itself debits the pool, and the coins stay. -/
theorem backing_broken : ∃ s s', Reach Genesis Step (fun _ _ => True) s ∧
    Step s (.payAvail false modAddr 40) s' ∧ s'.gap = s.gap + 40 := by
  refine ⟨eve, { eve with availPool := some 60, availPaidTotal := some 40 }, .init genesis_eve,
    ⟨?_, by decide⟩, by decide⟩
  have hsend : send false modAddr 40 eve.bank = some eve.bank := by
    rw [send, if_neg (by decide), if_pos rfl]
  have hpayable : payable (eve.availPool.getD 0) 40 eve = 40 := by decide
  rw [Action.run, payAvail]
  simp only [hpayable, hsend]
  rfl

end Dendra.Emission
