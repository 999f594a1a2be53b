import Dendra.Emission.Backing
import Dendra.Jobs.SlashSafety
import Dendra.Jobs.Halt

/-!
# The payment of an epoch's presences

`payAvailability` gives a part of the availability pool to the miners that proved themselves present, in
proportion to their bonds. The budget and the total are fixed before the loop; each payment then takes
from the pool what it pays, and one that fails is passed over. The shares are floored, so together they
stay within the budget, and no payment is ever cut to what is left of the pool.

* `dueOf`: what one miner is paid, whatever its place in the loop.
* `payAll_due`, `payAll_le`: what a loop pays of a budget that the pool covers.
* `availability_payout`: the payments of an epoch.
* `availability_unpaid`: a miner whose operator is no address.
-/

namespace Dendra.Emission

open Word Jobs

/-! ## Shares -/

section Shares

/-- Floored shares of a budget come to no more than the share of the sum. -/
theorem sum_shares_le (budget total : Nat) (l : List Nat) :
    (l.map fun w => budget * w / total).sum ≤ budget * l.sum / total := by
  induction l with
  | nil => exact Nat.zero_le _
  | cons w l ih =>
    rw [List.map_cons, List.sum_cons, List.sum_cons, Nat.mul_add]
    exact (Nat.add_le_add_left ih _).trans (Nat.div_add_div_le_add_div)

theorem sum_le_of_forall₂ {α : Type} {f : α → Nat} {paid : List UInt64} {l : List α}
    (h : List.Forall₂ (fun (x : UInt64) a => x.toNat ≤ f a) paid l) :
    (paid.map UInt64.toNat).sum ≤ (l.map f).sum := by
  induction h with
  | nil => exact le_rfl
  | cons hle _ ih => exact Nat.add_le_add hle ih

end Shares

section Payout

variable [Chain]

/-! ## The code -/

/-- The miners that are paid for an epoch, in the order of the walk over its presences. -/
def paying (epoch : Int) (s : Jobs.State) : List Miner :=
  (presentAt s epoch).filterMap fun k =>
    (s.miner (ofLex k).2).filter fun m =>
      !((s.params.availRequireDemand && decide (m.demand = 0)) ||
        (decide (s.params.verificationMode = 1) && decide (m.vrfPubkey = [])))

/-- The bonds of the miners, added up as machine words. -/
def totalStake (miners : List Miner) : UInt64 := stakeSum (miners.map Miner.stake)

/-- The budget, in big integers. -/
def budgetOf (poolBal payoutBps : UInt64) : Nat := poolBal.toNat * payoutBps.toNat / 10000

/-- The share of a bond, in big integers. -/
def shareOf (budget : Nat) (total stake : UInt64) : Nat := budget * stake.toNat / total.toNat

/-- The payment of one miner, and the state after it. A share that is zero or no `uint64`, an operator
that is no address and a payment that fails are passed over. -/
def payPresent (refused : Addr → Bool) (budget : Nat) (total : UInt64) (p : Miner) (em : State) :
    UInt64 × State :=
  let share := shareOf budget total p.stake
  if share = 0 ∨ share ≥ 2 ^ 64 then (0, em)
  else
    match Chain.addrBytes p.operator with
    | none => (0, em)
    | some opBz =>
      match payAvail (refused opBz) opBz (UInt64.ofNat share) em with
      | .error _ => (0, em)
      | .ok r => r

/-- The loop over the miners: what each is paid, and the state after the last. -/
def payAll (refused : Addr → Bool) (budget : Nat) (total : UInt64) :
    List Miner → State → List UInt64 × State
  | [], em => ([], em)
  | p :: miners, em =>
    let r := payPresent refused budget total p em
    let rest := payAll refused budget total miners r.2
    (r.1 :: rest.1, rest.2)

/-- The payments to the miners of a list. -/
def payMiners (refused : Addr → Bool) (payoutBps : UInt64) (miners : List Miner) (em : State) :
    List UInt64 × State :=
  let total := totalStake miners
  let budget := budgetOf (em.availPool.getD 0) payoutBps
  if payoutBps > 0 ∧ total > 0 ∧ budget > 0 then payAll refused budget total miners em
  else (miners.map fun _ => 0, em)

/-- `payAvailability` of both modules: the presences are forgotten, and the miners paid. -/
def payAvailability (refused : Addr → Bool) (c : Ctx) (epoch : Int) (s : Jobs.State) (em : State) :
    Except Err (Jobs.State × List UInt64 × State) :=
  (Jobs.payAvailability { c with availPool := some (em.availPool.getD 0) } epoch s).map fun s' =>
    (s', payMiners refused s.params.availPayoutBps (paying epoch s) em)

/-! ## One payment -/

variable {refused : Addr → Bool} {budget : Nat} {total : UInt64} {p : Miner} {miners : List Miner}
  {em : State}

/-- The miner's operator is an address that the bank pays. -/
def Delivers (refused : Addr → Bool) (p : Miner) : Prop :=
  ∃ opBz, Chain.addrBytes p.operator = some opBz ∧ refused opBz = false

instance (refused : Addr → Bool) (p : Miner) : Decidable (Delivers refused p) :=
  decidable_of_iff ((Chain.addrBytes p.operator).any fun bz => !refused bz) (by
    rw [Option.any_eq_true_iff_get]
    constructor
    · rintro ⟨h, hr⟩
      exact ⟨_, (Option.some_get h).symm, by simpa using hr⟩
    · rintro ⟨bz, hbz, hr⟩
      exact ⟨by rw [hbz]; rfl, by simp [hbz, hr]⟩)

/-- What a miner is paid of a budget: its share, when its payment goes through. -/
def dueOf (refused : Addr → Bool) (budget : Nat) (total : UInt64) (p : Miner) : Nat :=
  if Delivers refused p then shareOf budget total p.stake else 0

/-- A payment is none, or one of no more than the share. -/
theorem payPresent_spec (refused : Addr → Bool) (budget : Nat) (total : UInt64) (p : Miner)
    (em : State) : payPresent refused budget total p em = (0, em) ∨
      ∃ opBz amt, amt.toNat ≤ shareOf budget total p.stake ∧
        payAvail (refused opBz) opBz amt em = .ok (payPresent refused budget total p em) := by
  unfold payPresent
  simp only
  split
  · exact .inl rfl
  · next hshare =>
    rw [not_or, not_le] at hshare
    split
    · exact .inl rfl
    · next opBz _ =>
      split
      · exact .inl rfl
      · next r hr =>
        refine .inr ⟨opBz, _, ?_, hr⟩
        rw [UInt64.toNat_ofNat']
        exact Nat.mod_le _ _

theorem payPresent_le (refused : Addr → Bool) (budget : Nat) (total : UInt64) (p : Miner) (em : State) :
    (payPresent refused budget total p em).1.toNat ≤ shareOf budget total p.stake := by
  rcases payPresent_spec refused budget total p em with h | ⟨opBz, amt, hamt, h⟩
  · rw [h]
    exact Nat.zero_le _
  · generalize payPresent refused budget total p em = r at h ⊢
    rw [(payAvail_spec h).1]
    exact (toNat_le_of_le (payable_le_asked _ _ _)).trans hamt

/-- What is sent leaves the account, or comes back to it. -/
theorem send_balance {r : Bool} {recipient : Addr} {amt : UInt64} {b b' : Bank}
    (h : send r recipient amt b = some b') : b.balance ≤ b'.balance + amt.toNat := by
  unfold send at h
  split at h
  · cases h
  · split at h <;> cases h
    · exact Nat.le_add_right _ _
    · simp only
      omega

/-- What is paid leaves the pool, and the account loses no more. -/
theorem payPresent_takes (refused : Addr → Bool) (budget : Nat) (total : UInt64) (p : Miner)
    (em : State) :
    ((payPresent refused budget total p em).2.availPool.getD 0).toNat +
        (payPresent refused budget total p em).1.toNat = (em.availPool.getD 0).toNat ∧
      em.bank.balance ≤ (payPresent refused budget total p em).2.bank.balance +
        (payPresent refused budget total p em).1.toNat := by
  rcases payPresent_spec refused budget total p em with h | ⟨opBz, amt, -, h⟩
  · rw [h]
    exact ⟨rfl, le_rfl⟩
  · generalize payPresent refused budget total p em = r at h ⊢
    obtain ⟨paid, em'⟩ := r
    obtain ⟨hpaid, ⟨rfl, rfl⟩ | ⟨-, b, hsend, rfl⟩⟩ := payAvail_spec h
    · exact ⟨rfl, le_rfl⟩
    · have hle : paid ≤ em.availPool.getD 0 := by
        rw [hpaid]
        exact payable_le _ _ _
      refine ⟨?_, send_balance hsend⟩
      rw [Option.getD_some, toNat_sub hle]
      exact Nat.sub_add_cancel (toNat_le_of_le hle)

/-- A share that the pool and the account cover is paid in full. -/
theorem payPresent_due (hpool : shareOf budget total p.stake ≤ (em.availPool.getD 0).toNat)
    (hbal : shareOf budget total p.stake ≤ em.bank.balance) :
    (payPresent refused budget total p em).1.toNat = dueOf refused budget total p := by
  have hlt := lt_of_le_of_lt hpool (UInt64.toNat_lt _)
  unfold payPresent dueOf
  simp only
  generalize shareOf budget total p.stake = share at *
  by_cases hz : share = 0
  · rw [if_pos (.inl hz), hz, ite_self]
    rfl
  · rw [if_neg (by omega)]
    have hshare : (UInt64.ofNat share).toNat = share := by
      rw [UInt64.toNat_ofNat']
      exact Nat.mod_eq_of_lt hlt
    have hpayable : payable (em.availPool.getD 0) (UInt64.ofNat share) em = UInt64.ofNat share := by
      have hcut : ¬ UInt64.ofNat share > em.availPool.getD 0 := by
        rw [gt_iff_lt, UInt64.lt_iff_toNat_lt]
        omega
      unfold payable
      simp only [if_neg hcut]
      exact if_neg (by omega)
    have hne : UInt64.ofNat share ≠ 0 := fun h => hz (by rw [← hshare, h]; rfl)
    cases hop : Chain.addrBytes p.operator with
    | none =>
      rw [if_neg]
      · rfl
      · rintro ⟨opBz, h, -⟩
        rw [hop] at h
        cases h
    | some opBz =>
      simp only
      unfold payAvail
      simp only [hpayable, if_neg hne]
      cases hr : refused opBz with
      | true =>
        rw [if_neg]
        · rfl
        · rintro ⟨opBz', h, hfalse⟩
          rw [hop, Option.some.injEq] at h
          rw [← h, hr] at hfalse
          cases hfalse
      | false =>
        rw [if_pos ⟨opBz, hop, hr⟩]
        have hsend : ¬ (false = true ∨ em.bank.balance < (UInt64.ofNat share).toNat) := by
          rw [hshare]
          simpa using hbal
        unfold send
        rw [if_neg hsend]
        by_cases hm : opBz = modAddr
        · rw [if_pos hm]
          exact hshare
        · rw [if_neg hm]
          exact hshare

/-! ## The loop -/

theorem length_payAll : (payAll refused budget total miners em).1.length = miners.length := by
  induction miners generalizing em with
  | nil => rfl
  | cons p miners ih => exact congrArg (· + 1) ih

/-- The payments of a loop are no more than the shares, one by one. -/
theorem payAll_le : List.Forall₂ (fun (paid : UInt64) (p : Miner) =>
    paid.toNat ≤ shareOf budget total p.stake) (payAll refused budget total miners em).1 miners := by
  induction miners generalizing em with
  | nil => exact .nil
  | cons p miners ih => exact .cons (payPresent_le _ _ _ _ _) ih

/-- As long as the pool and the account cover the shares, each miner is paid what it is due. -/
theorem payAll_due
    (hpool : (miners.map fun p => shareOf budget total p.stake).sum ≤ (em.availPool.getD 0).toNat)
    (hbal : (miners.map fun p => shareOf budget total p.stake).sum ≤ em.bank.balance) :
    (payAll refused budget total miners em).1.map UInt64.toNat =
      miners.map (dueOf refused budget total) := by
  induction miners generalizing em with
  | nil => rfl
  | cons p miners ih =>
    rw [List.map_cons, List.sum_cons] at hpool hbal
    have hle := payPresent_le refused budget total p em
    obtain ⟨hp, hb⟩ := payPresent_takes refused budget total p em
    rw [payAll, List.map_cons, List.map_cons, payPresent_due (by omega) (by omega),
      ih (by omega) (by omega)]

/-! ## The payment of an epoch -/

/-- The bonds of the miners, added up over the naturals. -/
def stakesOf (miners : List Miner) : Nat := (miners.map fun p => p.stake.toNat).sum

/-- What the payment of an epoch promises to the miners that it pays. -/
structure Proportional (refused : Addr → Bool) (payoutBps : UInt64) (miners : List Miner) (em : State) :
    Prop where
  /-- from an account that holds the budget each miner is paid its share, in whatever order they come -/
  exact : budgetOf (em.availPool.getD 0) payoutBps ≤ em.bank.balance →
    ∀ miners' : List Miner, miners'.Perm miners →
      (payMiners refused payoutBps miners' em).1.map UInt64.toNat =
        miners'.map fun p => if Delivers refused p then
          budgetOf (em.availPool.getD 0) payoutBps * p.stake.toNat / stakesOf miners else 0
  bounded : ((payMiners refused payoutBps miners em).1.map UInt64.toNat).sum ≤
    budgetOf (em.availPool.getD 0) payoutBps
  budget : budgetOf (em.availPool.getD 0) payoutBps * 10000 ≤
    (em.availPool.getD 0).toNat * payoutBps.toNat
  /-- miners that share out the bond of one of them are together paid no more than its share -/
  split : ∀ l₁ p l₂ parts, miners = l₁ ++ p :: l₂ → stakesOf parts = p.stake.toNat →
    ((((payMiners refused payoutBps (l₁ ++ (parts ++ l₂)) em).1.drop l₁.length).take
      parts.length).map UInt64.toNat).sum ≤
        budgetOf (em.availPool.getD 0) payoutBps * p.stake.toNat / stakesOf miners

omit [Chain] in
theorem toNat_totalStake (h : stakesOf miners < 2 ^ 64) : (totalStake miners).toNat = stakesOf miners := by
  have hmap : stakesOf miners = ((miners.map Miner.stake).map UInt64.toNat).sum := by
    rw [List.map_map]
    rfl
  rw [totalStake, toNat_stakeSum (hmap ▸ h), hmap]

omit [Chain] in
theorem stakesOf_append (l l' : List Miner) : stakesOf (l ++ l') = stakesOf l + stakesOf l' := by
  rw [stakesOf, List.map_append, List.sum_append]
  rfl

theorem availPayoutBps_of_validate {params : Jobs.Params} (h : params.validate = .ok ()) :
    params.availPayoutBps.toNat ≤ 10000 := by
  simp only [Jobs.Params.validate, bind_unit_ok, refuse_ok] at h
  obtain ⟨-, -, -, hbps, -⟩ := h
  exact UInt64.le_iff_toNat_le.1 (UInt64.not_lt.1 hbps)

omit [Chain] in
theorem budgetOf_le (pool : UInt64) {bps : UInt64} (h : bps.toNat ≤ 10000) : budgetOf pool bps ≤ pool.toNat :=
  Nat.div_le_of_le_mul (by
    rw [Nat.mul_comm 10000]
    exact Nat.mul_le_mul_left _ h)

variable {payoutBps : UInt64}

omit [Chain] in
/-- The shares of some miners come to no more than the share of their bonds. -/
theorem sum_shareOf_le (budget : Nat) (total : UInt64) (miners : List Miner) :
    (miners.map fun p => shareOf budget total p.stake).sum ≤ budget * stakesOf miners / total.toNat := by
  have h := sum_shares_le budget total.toNat (miners.map fun p => p.stake.toNat)
  rwa [List.map_map] at h

omit [Chain] in
theorem sum_shareOf_le_budget (budget : Nat) (hstake : stakesOf miners < 2 ^ 64) :
    (miners.map fun p => shareOf budget (totalStake miners) p.stake).sum ≤ budget := by
  refine (sum_shareOf_le budget _ miners).trans ?_
  rw [toNat_totalStake hstake]
  exact Nat.div_le_of_le_mul (Nat.mul_comm _ _).le

/-- No miner is paid more than its share. -/
theorem payMiners_le (refused : Addr → Bool) (payoutBps : UInt64) (miners : List Miner) (em : State) :
    List.Forall₂ (fun (paid : UInt64) (p : Miner) =>
    paid.toNat ≤ shareOf (budgetOf (em.availPool.getD 0) payoutBps) (totalStake miners) p.stake)
      (payMiners refused payoutBps miners em).1 miners := by
  unfold payMiners
  simp only
  split
  · exact payAll_le
  · rw [List.forall₂_map_left_iff]
    exact List.forall₂_same.2 fun p _ => Nat.zero_le _

theorem payMiners_due (hbps : payoutBps.toNat ≤ 10000) (hstake : stakesOf miners < 2 ^ 64)
    (hheld : budgetOf (em.availPool.getD 0) payoutBps ≤ em.bank.balance) :
    (payMiners refused payoutBps miners em).1.map UInt64.toNat =
      miners.map (dueOf refused (budgetOf (em.availPool.getD 0) payoutBps) (totalStake miners)) := by
  have hbudget := budgetOf_le (em.availPool.getD 0) hbps
  have hsum := sum_shareOf_le_budget (budgetOf (em.availPool.getD 0) payoutBps) hstake
  unfold payMiners
  simp only
  split
  · exact payAll_due (hsum.trans hbudget) (hsum.trans hheld)
  · next hnone =>
    -- with no budget or no bond every share is nothing
    rw [List.map_map]
    refine List.map_congr_left fun p _ => ?_
    have hzero : shareOf (budgetOf (em.availPool.getD 0) payoutBps) (totalStake miners) p.stake = 0 := by
      rw [not_and_or, not_and_or, gt_iff_lt, gt_iff_lt, gt_iff_lt, UInt64.not_lt, UInt64.not_lt,
        not_lt] at hnone
      unfold shareOf budgetOf at *
      rcases hnone with h | h | h
      · rw [show payoutBps = 0 by simpa using h]
        simp
      · rw [show totalStake miners = 0 by simpa using h]
        simp
      · rw [Nat.le_zero.1 h]
        simp
    rw [dueOf, hzero, ite_self]
    rfl

/-- The payment of any miners whose bonds fit a machine word together, under accepted parameters. -/
theorem availability_payout {params : Jobs.Params} (hv : params.validate = .ok ()) (refused : Addr → Bool)
    (miners : List Miner) (hstake : stakesOf miners < 2 ^ 64) (em : State) :
    Proportional refused params.availPayoutBps miners em := by
  have hbps := availPayoutBps_of_validate hv
  constructor
  · intro hheld miners' hperm
    have hsame : stakesOf miners' = stakesOf miners := (hperm.map _).sum_eq
    rw [payMiners_due hbps (hsame ▸ hstake) hheld]
    refine List.map_congr_left fun p _ => ?_
    rw [dueOf, shareOf, toNat_totalStake (hsame ▸ hstake), hsame]
  · exact (sum_le_of_forall₂ (payMiners_le _ _ _ _)).trans (sum_shareOf_le_budget _ hstake)
  · exact Nat.div_mul_le_self _ _
  · rintro l₁ p l₂ parts rfl hparts
    have hsame : stakesOf (l₁ ++ (parts ++ l₂)) = stakesOf (l₁ ++ p :: l₂) := by
      rw [stakesOf_append, stakesOf_append, stakesOf_append, hparts]
      rfl
    have hthere := List.forall₂_take parts.length (List.forall₂_drop l₁.length
      (payMiners_le refused params.availPayoutBps (l₁ ++ (parts ++ l₂)) em))
    rw [List.drop_left, List.take_left] at hthere
    refine (sum_le_of_forall₂ hthere).trans ((sum_shareOf_le _ _ parts).trans ?_)
    rw [toNat_totalStake (hsame ▸ hstake), hsame, hparts]

/-- The call for the balance of the pool never fails, so neither does the payment of an epoch. -/
theorem payAvailability_ok (refused : Addr → Bool) (c : Ctx) (epoch : Int) (s : Jobs.State)
    (em : State) : ∃ s', payAvailability refused c epoch s em =
      .ok (s', payMiners refused s.params.availPayoutBps (paying epoch s) em) := by
  unfold payAvailability Jobs.payAvailability
  simp only
  rw [if_neg]
  · exact ⟨_, rfl⟩
  · rintro ⟨-, -, h⟩
    cases h

end Payout

/-! ## Runs of the application -/

/-- Two miners with the same bond share ten coins. -/
theorem availability_payout_eve : Proportional (fun _ => false) payingMode.availPayoutBps
    [enrolledMiner (nameOf 0, idOf 0), enrolledMiner (nameOf 1, idOf 1)] eve :=
  availability_payout validate_payingMode (fun _ => false) _ (by decide) eve

/-- A miner proves its presence and then sets its operator to a text that is no address: the whole budget
is its share, and it is paid nothing. -/
theorem availability_unpaid : ∃ s p s', Reachable (fun _ _ => True) s ∧
    s.params.validate = .ok () ∧ paying 1 s = [p] ∧
    budgetOf (eve.availPool.getD 0) s.params.availPayoutBps * p.stake.toNat / stakesOf [p] = 10 ∧
    payAvailability (fun _ => false) (blockAt 20) 1 s eve = .ok (s', [0], eve) := by
  obtain ⟨s, hs, ht⟩ := exists_reachable (fun _ _ _ => trivial)
    (reachable_village validate_payingMode (by decide) fun _ _ _ _ => trivial)
    (show endsIn free (fun s => decide (s.params.availPayoutBps = 1000 ∧
        (paying 1 s).map (fun p => (p.stake, p.operator)) = [(1000, "x".toList)]))
      [(blockAt 10, .endBlock),
        (blockAt 11, .proveAvailability ⟨nameOf 1, idOf 1, "genesis".toList, [], 0⟩),
        (blockAt 12, .updateMiner ⟨nameOf 1, idOf 1, "x".toList, [], 0⟩)]
      (village payingMode) = true by rewrite [application_eq_tabled]; decide +kernel)
  obtain ⟨hbps, hpaying⟩ := of_decide_eq_true ht
  obtain ⟨p, hpaying, hpair⟩ := List.map_eq_singleton_iff.1 hpaying
  obtain ⟨hstake, hop⟩ := Prod.mk.inj hpair
  have hpresent : ∀ budget total, payPresent (fun _ => false) budget total p eve = (0, eve) := by
    intro budget total
    have hnone : Chain.addrBytes p.operator = none := by
      rw [hop]
      decide
    unfold payPresent
    rw [hnone]
    exact ite_self _
  have hpaid : payMiners (fun _ => false) s.params.availPayoutBps [p] eve = ([0], eve) := by
    unfold payMiners
    simp only [payAll, hpresent, List.map_cons, List.map_nil]
    exact ite_self _
  obtain ⟨s', hs'⟩ := payAvailability_ok (fun _ => false) (blockAt 20) 1 s eve
  rw [hpaying, hpaid] at hs'
  refine ⟨s, p, s', hs, (Reachable.wf hs).params, hpaying, ?_, hs'⟩
  rw [hbps, stakesOf, List.map_singleton, List.sum_singleton, hstake]
  decide

end Dendra.Emission
