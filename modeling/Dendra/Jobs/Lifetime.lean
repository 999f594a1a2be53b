import Dendra.Emission.Backing
import Dendra.Jobs.Records

/-!
# The subsidy of a lifetime

A claim pays a miner what its demand entitles it to, less what it has claimed. Refunds take demand off
again, and the two numbers are forgotten together when the miner is updated, leaves or comes back; what is
paid under one id stays within the share of the demand ever credited to it.

* `Account`, `Move`: one id, apart from the code.
* `Ledger`, `Entry`: runs with the totals paid and credited, which no code reads; `Entry.move`: each entry
  moves the account of every id.
* `subsidy_bound`: the bound, over all runs.
-/

namespace Dendra.Jobs

open Word

/-! ## Accounts -/

/-- What one id was paid and credited in a lifetime, and what its record shows now. -/
structure Account where
  paid : Nat
  credited : Nat
  claimed : Nat
  demand : Nat

/-- What can happen to an account under a gate of `G` basis points. -/
inductive Account.Move (G : Nat) : Account → Account → Prop
  /-- the record is forgotten, or made anew -/
  | close (a : Account) : Move G a ⟨a.paid, a.credited, 0, 0⟩
  /-- settlements and refunds: the demand rises by no more than what is credited -/
  | settle (a : Account) {demand rise : Nat} (h : demand ≤ a.demand + rise) :
      Move G a ⟨a.paid, a.credited + rise, a.claimed, demand⟩
  /-- a claim, up to the share of the demand -/
  | claim (a : Account) {y : Nat} (h : 10000 * (a.claimed + y) ≤ G * a.demand) :
      Move G a ⟨a.paid + y, a.credited, a.claimed + y, a.demand⟩

/-- The credit splits in two: the part of records that were forgotten covers what they claimed, and
the rest covers the claims of the record of now, whose demand may have fallen below them. -/
def Account.Covered (G : Nat) (a : Account) : Prop :=
  ∃ p t x, a.paid = p + a.claimed ∧ a.credited = t + x ∧ 10000 * p ≤ G * t ∧ a.demand ≤ x ∧
    10000 * a.claimed ≤ G * x

namespace Account

variable {G : Nat} {a a' : Account}

theorem Covered.bound (h : a.Covered G) : 10000 * a.paid ≤ G * a.credited := by
  obtain ⟨p, t, x, hp, hc, hpast, -, hnow⟩ := h
  rw [hp, hc, Nat.mul_add, Nat.mul_add]
  exact Nat.add_le_add hpast hnow

theorem Move.refl (a : Account) : Move G a a :=
  have h := Move.settle a (Nat.le_add_right a.demand 0)
  h

theorem Move.covered (h : Move G a a') (ha : a.Covered G) : a'.Covered G := by
  cases h with
  | close => exact ⟨a.paid, a.credited, 0, rfl, rfl, ha.bound, le_rfl, Nat.zero_le _⟩
  | @settle demand rise hrise =>
    obtain ⟨p, t, x, hp, hc, hpast, hd, hnow⟩ := ha
    refine ⟨p, t, x + rise, hp, by dsimp only; omega, hpast, hrise.trans (by omega), hnow.trans ?_⟩
    exact Nat.mul_le_mul_left G (Nat.le_add_right x rise)
  | claim hcap =>
    obtain ⟨p, t, x, hp, hc, hpast, hd, -⟩ := ha
    refine ⟨p, t, x, by dsimp only; omega, hc, hpast, hd, hcap.trans ?_⟩
    exact Nat.mul_le_mul_left G hd

end Account

/-! ## The ledger of a run -/

/-- A state, with what its run paid and credited under every id. -/
structure Ledger where
  state : State
  paid : Str → Nat
  credited : Str → Nat

/-- Where held rights become demand: a ruling, an adjudication, and the passes of a block. -/
def Action.settles : Action → Bool
  | .resolveDispute _ | .adjudicateDispute _ | .endBlock => true
  | _ => false

/-- A number of a record, zero of a miner that is not registered. -/
def State.shown (φ : Miner → UInt64) (s : State) (m : Str) : Nat := ((s.read φ m).getD 0).toNat

/-- The account of an id. -/
def Ledger.account (t : Ledger) (m : Str) : Account :=
  ⟨t.paid m, t.credited m, t.state.shown Miner.subsidyClaimed m, t.state.shown Miner.demand m⟩

section Booking

variable [Chain]

/-- What an accepted action pays to `m` out of the work pool. -/
def subsidyPaid (c : Ctx) (s : State) (m : Str) : Action → Nat
  | .claimSubsidy msg =>
    if msg.minerId = m then
      ((s.miner m).elim 0 fun r =>
        (Chain.addrBytes r.operator).elim 0 fun bz =>
          (c.payWork bz (bpsOf r.demand s.params.workGateBps - r.subsidyClaimed)).getD 0).toNat
    else 0
  | _ => 0

/-- One action, booked. Demand rises only where a held right is credited; a block that credits a miner
and takes from it counts as the difference, so no more is counted here than is credited. -/
structure Entry (t : Ledger) (a : Ctx × Action) (t' : Ledger) : Prop where
  step : Step t.state a t'.state
  paid : ∀ m, t'.paid m = t.paid m + subsidyPaid a.1 t.state m a.2
  credited : ∀ m, t'.credited m = t.credited m +
    if a.2.settles then t'.state.shown Miner.demand m - t.state.shown Miner.demand m else 0

/-- The ledgers of runs from a fresh chain. -/
abbrev Booked (ok : State → Ctx × Action → Prop) : Ledger → Prop :=
  Reach (fun t => Genesis t.state ∧ t.paid = (fun _ => 0) ∧ t.credited = fun _ => 0) Entry
    fun t a => ok t.state a

/-- What the emission module grants. -/
def FromEmission (c : Ctx) : Prop :=
  ∀ bz amt paid, c.payWork bz amt = some paid →
    ∃ refused e e', Emission.payWork refused bz amt e = .ok (paid, e')

/-- The gate is at most `G`, and claims are paid by the emission module. -/
def Gated (G : Nat) (s : State) (a : Ctx × Action) : Prop :=
  s.params.workGateBps.toNat ≤ G ∧ ∀ msg, a.2 = .claimSubsidy msg → FromEmission a.1

section Steps

variable {G : Nat} {c : Ctx} {s s' : State} {t t' : Ledger} {a : Ctx × Action}

/-- The emission module pays no more than what is asked. -/
theorem payWork_le {refused : Bool} {bz : Addr} {amt paid : UInt64} {e e' : Emission.State}
    (h : Emission.payWork refused bz amt e = .ok (paid, e')) : paid ≤ amt := by
  rw [(Emission.payWork_spec h).1]
  exact Emission.payable_le_asked _ _ _

/-- An accepted claim: what it pays is added to what was claimed. -/
theorem claimSubsidy_spec {msg : MsgClaimSubsidy} (h : claimSubsidy c msg s = .ok s') :
    ∃ r bz paid, s.miner msg.minerId = some r ∧ Chain.addrBytes r.operator = some bz ∧
      r.subsidyClaimed < bpsOf r.demand s.params.workGateBps ∧
      c.payWork bz (bpsOf r.demand s.params.workGateBps - r.subsidyClaimed) = some paid ∧
      s'.funds.miners = s.funds.miners.put { r with subsidyClaimed := r.subsidyClaimed + paid } := by
  simp only [claimSubsidy, getMiner, signer, bind_ok, ensure_ok, require_ok, pure_ok] at h
  obtain ⟨-, -, r, hr, -, -, -, hcap, bz, hbz, paid, hpaid, -, -, rfl⟩ := h
  exact ⟨r, bz, paid, hr, hbz, hcap, hpaid, rfl⟩

omit [Chain] in
theorem shown_congr {φ : Miner → UInt64} {m : Str} (h : s'.read φ m = s.read φ m) :
    s'.shown φ m = s.shown φ m := by
  rw [State.shown, State.shown, h]

omit [Chain] in
theorem shown_of_get? {φ : Miner → UInt64} {m : Str}
    (h : s'.funds.miners.get? m = s.funds.miners.get? m) : s'.shown φ m = s.shown φ m := by
  rw [State.shown, State.shown, State.read, State.read, Funds.read, Funds.read, h]

omit [Chain] in
theorem shown_of_none {φ : Miner → UInt64} {m : Str} (h : s.funds.miners.get? m = none) :
    s.shown φ m = 0 := by
  rw [State.shown, State.read, Funds.read, h]
  rfl

omit [Chain] in
theorem shown_of_some {φ : Miner → UInt64} {m : Str} {r : Miner}
    (h : s.funds.miners.get? m = some r) : s.shown φ m = (φ r).toNat := by
  rw [State.shown, State.read, Funds.read, h]
  rfl

/-- What is left of an entry that claims nothing. -/
theorem Entry.account_eq (h : Entry t a t') (hpaid : ∀ m, subsidyPaid a.1 t.state m a.2 = 0)
    (m : Str) : t'.account m = ⟨t.paid m, t.credited m +
      (if a.2.settles then t'.state.shown Miner.demand m - t.state.shown Miner.demand m else 0),
      t'.state.shown Miner.subsidyClaimed m, t'.state.shown Miner.demand m⟩ := by
  rw [Ledger.account, h.paid m, hpaid m, h.credited m, Nat.add_zero]

/-- The record of a miner that claims nothing: as it was, or gone, or new. -/
theorem Entry.move_of_record (h : Entry t a t') (hpaid : ∀ m, subsidyPaid a.1 t.state m a.2 = 0)
    (hplain : a.2.settles = false) {m : Str}
    (hm : t'.state.funds.miners.get? m = t.state.funds.miners.get? m ∨
      t'.state.shown Miner.subsidyClaimed m = 0 ∧ t'.state.shown Miner.demand m = 0) :
    Account.Move G (t.account m) (t'.account m) := by
  rw [h.account_eq hpaid m, hplain]
  rcases hm with hsame | ⟨hclaimed, hdemand⟩
  · rw [shown_of_get? hsame, shown_of_get? hsame]
    exact .refl (t.account m)
  · rw [hclaimed, hdemand]
    exact .close (t.account m)

/-- A settling action leaves what was claimed alone, unless the miner leaves. -/
theorem Entry.move_of_fades (h : Entry t a t') (hpaid : ∀ m, subsidyPaid a.1 t.state m a.2 = 0)
    (hsettles : a.2.settles = true) (hfades : Fades t.state.claimed t'.state.claimed) (m : Str) :
    Account.Move G (t.account m) (t'.account m) := by
  rw [h.account_eq hpaid m, hsettles, if_pos rfl]
  rcases hfades m with hsame | hgone
  · rw [shown_congr hsame]
    exact .settle (t.account m) (by dsimp only [Ledger.account]; omega)
  · have hnone : t'.state.funds.miners.get? m = none := Option.map_eq_none_iff.1 hgone
    rw [shown_of_none hnone, shown_of_none hnone, Nat.zero_sub]
    exact .close (t.account m)

omit [Chain] in
/-- A record that is put is read back, and no other changes. -/
theorem get?_of_put {r : Miner} (hs : s'.funds.miners = s.funds.miners.put r) :
    s'.funds.miners.get? r.minerId = some r ∧
      ∀ m, m ≠ r.minerId → s'.funds.miners.get? m = s.funds.miners.get? m := by
  rw [hs]
  exact ⟨Table.get?_put_self, fun m hm => Table.get?_put_ne hm⟩

omit [Chain] in
theorem account_of_some {m : Str} {r : Miner} (h : t.state.funds.miners.get? m = some r) :
    t.account m = ⟨t.paid m, t.credited m, r.subsidyClaimed.toNat, r.demand.toNat⟩ := by
  rw [Ledger.account, shown_of_some h, shown_of_some h]

omit [Chain] in
theorem toNat_share_le {d w : UInt64} (h : w.toNat ≤ G) :
    10000 * (bpsOf d w).toNat ≤ G * d.toNat := by
  have hmod := Nat.mod_le (d.toNat * w.toNat) (2 ^ 64)
  have hgate := Nat.mul_le_mul_left d.toNat h
  rw [toNat_bpsOf, Nat.mul_comm G]
  omega

theorem Entry.move_of_claim {msg : MsgClaimSubsidy} (h : Entry t (c, .claimSubsidy msg) t')
    (hok : Gated G t.state (c, .claimSubsidy msg)) (m : Str) :
    Account.Move G (t.account m) (t'.account m) := by
  obtain ⟨r, bz, paid, hr, hbz, hcap, hpay, hminers⟩ := claimSubsidy_spec (c := c)
    (show claimSubsidy c msg t.state = .ok t'.state from h.step)
  have hid : r.minerId = msg.minerId := Table.key_of_get? hr
  obtain ⟨hself, hothers⟩ := get?_of_put hminers
  simp only [hid] at hself hothers
  by_cases hm : m = msg.minerId
  · subst hm
    have hpaid : subsidyPaid c t.state msg.minerId (.claimSubsidy msg) = paid.toNat := by
      simp only [subsidyPaid, hr, hbz, hpay, if_true, Option.elim_some, Option.getD_some]
    -- the grant does not exceed what is left of the share, so the sum does not wrap
    obtain ⟨refused, e, e', hemission⟩ := hok.2 msg rfl bz _ paid hpay
    have hle := toNat_le_of_le (payWork_le hemission)
    rw [toNat_sub (UInt64.le_of_lt hcap)] at hle
    have hlt := toNat_le_of_le (UInt64.le_of_lt hcap)
    have hword := toNat_bpsOf_lt r.demand t.state.params.workGateBps
    have hsum : (r.subsidyClaimed + paid).toNat = r.subsidyClaimed.toNat + paid.toNat := by
      rw [UInt64.toNat_add]
      omega
    have hshare := toNat_share_le (d := r.demand) hok.1
    have hafter := account_of_some hself
    simp only [h.paid, hpaid, h.credited, hsum] at hafter
    rw [hafter, account_of_some hr]
    refine .claim _ ?_
    dsimp only
    omega
  · have hpaid : subsidyPaid c t.state m (.claimSubsidy msg) = 0 := if_neg (Ne.symm hm)
    have hafter : t'.account m = t.account m := by
      rw [Ledger.account, h.paid, hpaid, h.credited, shown_of_get? (hothers m hm),
        shown_of_get? (hothers m hm)]
      rfl
    rw [hafter]
    exact .refl _

omit [Chain] in
/-- A record made anew shows that nothing was claimed or credited. -/
theorem record_of_put {r : Miner} (hs : s'.funds.miners = s.funds.miners.put r)
    (hc : r.subsidyClaimed = 0) (hd : r.demand = 0) (m : Str) :
    s'.funds.miners.get? m = s.funds.miners.get? m ∨
      s'.shown Miner.subsidyClaimed m = 0 ∧ s'.shown Miner.demand m = 0 := by
  obtain ⟨hself, hothers⟩ := get?_of_put hs
  by_cases hm : m = r.minerId
  · rw [hm, shown_of_some hself, shown_of_some hself, hc, hd]
    exact .inr ⟨rfl, rfl⟩
  · exact .inl (hothers m hm)

theorem Entry.move (h : Entry t a t') (hok : Gated G t.state a) (m : Str) :
    Account.Move G (t.account m) (t'.account m) := by
  obtain ⟨c, a⟩ := a
  have hstep := h.step
  have hidle : a.Idle → a.settles = false → (∀ m, subsidyPaid c t.state m a = 0) →
      Account.Move G (t.account m) (t'.account m) := by
    intro ha hplain hpaid
    rw [h.account_eq hpaid m, hplain,
      shown_congr (congrFun (read_idle ledgerly_claimed hstep ha) m),
      shown_congr (congrFun (read_idle (φ := Miner.demand) (fun _ _ _ _ => rfl) hstep ha) m)]
    exact .settle (t.account m) le_rfl
  cases a with
  | createMiner msg =>
    have hs : createMiner c msg t.state = .ok t'.state := hstep
    simp only [createMiner, bind_ok, ensure_ok, pure_ok] at hs
    obtain ⟨-, -, -, -, -, -, -, -, -, -, f, hf, -, -, -, -, hs⟩ := hs
    refine h.move_of_record (fun _ => rfl) rfl (record_of_put (r := ⟨msg.minerId,
      if msg.operator = [] then msg.creator else msg.operator, msg.region, msg.stake, msg.creator, 0, 0,
      msg.encPubkey, msg.vrfPubkey⟩) ?_ rfl rfl m)
    rw [← hs, ← collect_miners hf]
    rfl
  | updateMiner msg =>
    have hs : updateMiner msg t.state = .ok t'.state := hstep
    simp only [updateMiner, bind_ok, ensure_ok, pure_ok] at hs
    obtain ⟨-, -, r, -, -, -, -, -, hs⟩ := hs
    refine h.move_of_record (fun _ => rfl) rfl (record_of_put (r := ⟨msg.minerId, msg.operator,
      msg.region, r.stake, msg.creator, 0, 0, r.encPubkey, r.vrfPubkey⟩) ?_ rfl rfl m)
    rw [← hs]
    rfl
  | deleteMiner msg =>
    have hs : deleteMiner c msg t.state = .ok t'.state := hstep
    have hgone : ∃ f : Funds, f.miners = t.state.funds.miners ∧
        removeMiner msg.minerId f t.state = t'.state := by
      simp only [deleteMiner, bind_ok] at hs
      obtain ⟨-, -, r, -, -, -, -, -, hs⟩ := hs
      split at hs
      · simp only [bind_ok, pure_ok] at hs
        obtain ⟨bz, -, f, hf, hs⟩ := hs
        exact ⟨f, payOrFail_miners hf, hs⟩
      · rw [pure_ok] at hs
        exact ⟨_, rfl, hs⟩
    obtain ⟨f, hf, hs⟩ := hgone
    have hminers : t'.state.funds.miners = t.state.funds.miners.erase msg.minerId := by
      rw [← hs, ← hf]
      rfl
    refine h.move_of_record (fun _ => rfl) rfl ?_
    by_cases hm : m = msg.minerId
    · have hnone : t'.state.funds.miners.get? m = none := by
        rw [hminers, hm, Table.get?_erase_self]
      exact .inr ⟨shown_of_none hnone, shown_of_none hnone⟩
    · exact .inl (by rw [hminers, Table.get?_erase_ne hm])
  | claimSubsidy msg => exact h.move_of_claim hok m
  | resolveDispute msg =>
    have hsame : t'.state.claimed = t.state.claimed := claimed_resolveDispute hstep
    exact h.move_of_fades (fun _ => rfl) rfl (fun m => .inl (congrFun hsame m)) m
  | adjudicateDispute msg =>
    have hsame : t'.state.claimed = t.state.claimed := claimed_adjudicateDispute hstep
    exact h.move_of_fades (fun _ => rfl) rfl (fun m => .inl (congrFun hsame m)) m
  | endBlock => exact h.move_of_fades (fun _ => rfl) rfl (fades_endBlock hstep) m
  | _ => exact hidle trivial rfl fun _ => rfl

theorem covered_genesis (hg : Genesis t.state) (hp : t.paid = fun _ => 0)
    (hc : t.credited = fun _ => 0) (m : Str) : (t.account m).Covered G := by
  obtain ⟨p, balance, outside, -, hs⟩ := hg
  have hnone : t.state.funds.miners.get? m = none := by
    rw [hs]
    rfl
  rw [Ledger.account, hp, hc, shown_of_none hnone, shown_of_none hnone]
  exact ⟨0, 0, 0, rfl, rfl, Nat.zero_le _, le_rfl, Nat.zero_le _⟩

theorem covered_of_booked (h : Booked (Gated G) t) (m : Str) : (t.account m).Covered G := by
  refine Reach.invariant (P := fun t => (t.account m).Covered G) ?_ ?_ h
  · exact fun t h0 => covered_genesis h0.1 h0.2.1 h0.2.2 m
  · exact fun t a t' _ hcov hok hs => (hs.move hok m).covered hcov

/-- Every run has its ledger. -/
theorem booked_of_reachable {ok : State → Ctx × Action → Prop} (h : Reachable ok s) :
    ∃ t, Booked ok t ∧ t.state = s := by
  induction h with
  | init hg => exact ⟨⟨_, fun _ => 0, fun _ => 0⟩, .init ⟨hg, rfl, rfl⟩, rfl⟩
  | @step s s' a _ hok hs ih =>
    obtain ⟨t, ht, rfl⟩ := ih
    let rise m := if a.2.settles then s'.shown Miner.demand m - t.state.shown Miner.demand m else 0
    exact ⟨⟨s', fun m => t.paid m + subsidyPaid a.1 t.state m a.2, fun m => t.credited m + rise m⟩,
      .step ht hok ⟨hs, fun _ => rfl, fun _ => rfl⟩, rfl⟩

end Steps

/-- In every run whose gate stays at most `G`, what one id was ever paid is at most the share `G` of the
demand it was ever credited. -/
theorem subsidy_bound {G : Nat} {t : Ledger} (h : Booked (Gated G) t) (m : Str) :
    10000 * t.paid m ≤ G * t.credited m :=
  (covered_of_booked h m).bound

end Booking

/-! ## A run -/

/-- A run through steps of which each is known. -/
theorem reachable_through [Chain] {guard : State → Ctx × Action → Bool}
    {ok : State → Ctx × Action → Prop} {l : List (Ctx × Action)} (hok : ∀ s, ∀ a ∈ l, guard s a = true → ok s a) {s s' : State}
    (hs : Reachable ok s) (h : runAll guard l s = .ok s') : Reachable ok s' := by
  induction l generalizing s with
  | nil =>
    cases h
    exact hs
  | cons a l ih =>
    simp only [runAll, bind_ok, ensure_ok] at h
    obtain ⟨-, hg, s₁, h₁, h⟩ := h
    exact ih (fun s b hb => hok s b (.tail _ hb)) (.step hs (hok s a (.head _) hg) h₁) h

/-- An emission module whose work pool has five coins. -/
def shortPool : Emission.State where
  params := none
  reserve := none
  workPool := some 5
  availPool := none
  securityDistributedTotal := none
  lastEpoch := none
  lastSupply := none
  workPaidTotal := none
  availPaidTotal := none
  bank := ⟨100, 100, 0⟩
  height := 1
  events := []

/-- A block in which it pays. -/
def shortBlock : Ctx :=
  { blockAt 51 with
    payWork := fun bz amt => (Emission.payWork false bz amt shortPool).toOption.map Prod.fst }

theorem fromEmission_shortBlock : FromEmission shortBlock := by
  intro bz amt paid h
  obtain ⟨⟨y, e'⟩, hy, rfl⟩ := Option.map_eq_some_iff.1 h
  refine ⟨false, shortPool, e', ?_⟩
  revert hy
  cases Emission.payWork false bz amt shortPool with
  | error e =>
    intro he
    cases he
  | ok r => exact fun he => congrArg Except.ok (Option.some.inj he)

/-- The job of a run is passed over by the audits, and its miner claims twice from a pool that is short. -/
def claimedTwice : List (Ctx × Action) :=
  served ++ [(blockAt 50, .endBlock), (shortBlock, .claimSubsidy ⟨nameOf 2, idOf 2⟩),
    (shortBlock, .claimSubsidy ⟨nameOf 2, idOf 2⟩)]

/-- A demand of eight, at a gate of three halves, entitles to twelve; ten of them have been paid. -/
theorem subsidy_bound_claimed : ∃ t, Booked (Gated 15000) t ∧
    t.state.shown Miner.subsidyClaimed (idOf 2) = 10 ∧ 10 ≤ t.paid (idOf 2) ∧
    10000 * t.paid (idOf 2) ≤ 15000 * t.credited (idOf 2) := by
  have hclaims : ∀ a ∈ claimedTwice, ∀ msg, a.2 = .claimSubsidy msg → FromEmission a.1 := by
    intro a ha msg he
    simp only [claimedTwice, served, List.cons_append, List.nil_append, List.mem_cons,
      List.not_mem_nil, or_false] at ha
    rcases ha with rfl | rfl | rfl | rfl | rfl | rfl | rfl
    · cases he
    · cases he
    · cases he
    · cases he
    · cases he
    · exact fromEmission_shortBlock
    · exact fromEmission_shortBlock
  have hvillage : Reachable (Gated 15000) (village auditMode) := by
    refine reachable_village validate_auditMode (by decide) fun s _ _ hp => ⟨?_, ?_⟩
    · rw [hp]
      decide
    · intro msg he
      cases he
  have hrun : (runAll (fun s _ => decide (s.params.workGateBps.toNat ≤ 15000)) claimedTwice
      (village auditMode)).toOption.any
        (fun s => decide (s.shown Miner.subsidyClaimed (idOf 2) = 10)) = true := by
    rewrite [application_eq_tabled]
    decide +kernel
  cases hs : runAll (fun s _ => decide (s.params.workGateBps.toNat ≤ 15000)) claimedTwice
    (village auditMode) with
  | error e =>
    rw [hs] at hrun
    cases hrun
  | ok s =>
    rw [hs] at hrun
    have hclaimed : s.shown Miner.subsidyClaimed (idOf 2) = 10 := of_decide_eq_true hrun
    obtain ⟨t, ht, rfl⟩ := booked_of_reachable (reachable_through
      (fun s a ha hg => ⟨of_decide_eq_true hg, hclaims a ha⟩) hvillage hs)
    have hpaid : 10 ≤ t.paid (idOf 2) := by
      obtain ⟨p, -, -, hp, -⟩ := covered_of_booked ht (idOf 2)
      rw [show t.paid (idOf 2) = p + t.state.shown Miner.subsidyClaimed (idOf 2) from hp, hclaimed]
      exact Nat.le_add_left 10 p
    exact ⟨t, ht, hclaimed, hpaid, subsidy_bound ht (idOf 2)⟩

end Dendra.Jobs
