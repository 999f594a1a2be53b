import Dendra.Jobs.Disputer
import Dendra.Jobs.Unwind

/-!
# The two instances agree

An open audit is concluded at its deadline, at the end of a block, or before it by a message that
adjudicates it. The slash with its refund, and the release, are written twice. On one state, with a
bank that pays, both do the same.

* `Condemnation`: what a slash does to the money, as one record.
* `instances_agree`: the deadline agrees with the adjudication.
-/

namespace Dendra.Jobs

open Word

/-! ## Payments of one kind -/

/-- What was paid on account of a job under some kinds. -/
def Funds.paidAs (ks : List Kind) (j : Str) (f : Funds) : Nat :=
  ((f.journal.filter fun p => ks.contains p.kind && decide (p.job = j)).map
    fun p => p.amount.toNat).sum

/-- The refunds to the client of a job. -/
def Funds.refunded (j : Str) (f : Funds) : Nat := f.paidAs [.refund, .bondRefund] j

/-- The retained fee, where it was paid to the operator. -/
def Funds.delivered (j : Str) (f : Funds) : Nat := f.paidAs [.heldFee] j

/-- What leaves the account in a payment to an address: the module may pay itself. -/
def moved [Chain] (a : Addr) (x : Nat) : Nat := if a = moduleAddr then 0 else x

section PaidAs

variable {ks : List Kind} {j : Str} {f f' : Funds} {p : Posting}

theorem paidAs_congr (h : f'.journal = f.journal) : f'.paidAs ks j = f.paidAs ks j := by
  rw [Funds.paidAs, h]
  rfl

theorem paidAs_cons (h : f'.journal = p :: f.journal) : f'.paidAs ks j =
    f.paidAs ks j + if ks.contains p.kind = true ∧ p.job = j then p.amount.toNat else 0 := by
  unfold Funds.paidAs
  rw [h, List.filter_cons]
  by_cases hp : ks.contains p.kind = true ∧ p.job = j
  · rw [if_pos (by rw [hp.1, decide_eq_true hp.2]; rfl), if_pos hp, List.map_cons, List.sum_cons,
      Nat.add_comm]
  · rw [if_neg (by rwa [Bool.and_eq_true, decide_eq_true_eq]), if_neg hp, Nat.add_zero]

theorem moved_le [Chain] (a : Addr) (x : Nat) : moved a x ≤ x := by
  unfold moved
  split <;> omega

theorem moved_add [Chain] (a : Addr) (x y : Nat) : moved a (x + y) = moved a x + moved a y := by
  unfold moved
  split <;> omega

end PaidAs

/-! ## Reimbursements -/

/-- `x` coins went to the client of the job, and nothing else. -/
structure Reimbursed [Chain] (j : Str) (cliBz : Addr) (x : Nat) (f f' : Funds) : Prop where
  miners : f'.miners = f.miners
  pools : f'.pools = f.pools
  balance : f'.bank.balance + moved cliBz x = f.bank.balance
  outside : f'.bank.outside = f.bank.outside + moved cliBz x
  refunded : f'.refunded j = f.refunded j + x
  delivered : f'.delivered j = f.delivered j

section Reimbursed

variable [Chain] {c : Ctx} {job : Job} {cliBz : Addr} {f f' f'' : Funds} {j : Str} {x y : Nat}

theorem Reimbursed.of_same (hm : f'.miners = f.miners) (hp : f'.pools = f.pools)
    (hb : f'.bank = f.bank) (hj : f'.journal = f.journal) : Reimbursed j cliBz 0 f f' := by
  have h0 : moved cliBz 0 = 0 := Nat.le_zero.1 (moved_le _ _)
  refine ⟨hm, hp, ?_, ?_, paidAs_congr hj, paidAs_congr hj⟩
  · rw [h0, hb]
    rfl
  · rw [h0, hb]
    rfl

theorem Reimbursed.trans (h : Reimbursed j cliBz x f f') (h' : Reimbursed j cliBz y f' f'') :
    Reimbursed j cliBz (x + y) f f'' where
  miners := h'.miners.trans h.miners
  pools := h'.pools.trans h.pools
  balance := by
    rw [moved_add, Nat.add_comm (moved cliBz x), ← Nat.add_assoc, h'.balance, h.balance]
  outside := by
    rw [moved_add, h'.outside, h.outside, Nat.add_assoc]
  refunded := by
    rw [h'.refunded, h.refunded, Nat.add_assoc]
  delivered := h'.delivered.trans h.delivered

/-- What is left of the account. -/
theorem Reimbursed.left (h : Reimbursed j cliBz x f f') : f.bank.balance ≤ f'.bank.balance + x := by
  have := h.balance
  have := moved_le cliBz x
  omega

/-- A refund that the account covers is paid. -/
theorem refundClient_reimbursed (hno : ∀ n, c.refuses n = false)
    (hbz : Chain.addrBytes job.client = some cliBz) {kind : Kind}
    (hk : kind = .refund ∨ kind = .bondRefund) {owed available : UInt64}
    (hb : (refundable owed available).toNat ≤ f.bank.balance) :
    (refundClient c kind job owed available f).1 = refundable owed available ∧
      Reimbursed job.jobId cliBz (refundable owed available).toNat f
        (refundClient c kind job owed available f).2 ∧
      (refundClient c kind job owed available f).2.held = f.held ∧
      (refundClient c kind job owed available f).2.heldDemand = f.heldDemand := by
  by_cases h0 : refundable owed available = 0
  · have hr : refundClient c kind job owed available f = (0, f) := by
      unfold refundClient
      rw [if_pos h0]
    rw [hr, h0]
    exact ⟨rfl, .of_same rfl rfl rfl rfl, rfl, rfl⟩
  · have hpay : ∃ b, f.bank.pay c (.account cliBz) (refundable owed available) = (true, b) ∧
        b.balance + moved cliBz (refundable owed available).toNat = f.bank.balance ∧
        b.outside = f.bank.outside + moved cliBz (refundable owed available).toNat := by
      unfold Bank.pay moved
      rw [if_neg (by rw [hno]; simpa using hb)]
      simp only
      split
      · exact ⟨_, rfl, rfl, rfl⟩
      · exact ⟨_, rfl, by simp only; omega, rfl⟩
    obtain ⟨b, hpay, hbal, hout⟩ := hpay
    have hr : refundClient c kind job owed available f = (refundable owed available,
        { f with bank := b, journal := ⟨kind, job.jobId, job.client, refundable owed available⟩ ::
          f.journal }) := by
      simp only [refundClient, if_neg h0, hbz, Funds.pay, hpay]
    rw [hr]
    refine ⟨rfl, ⟨rfl, rfl, hbal, hout, ?_, ?_⟩, rfl, rfl⟩
    · have hin : [Kind.refund, .bondRefund].contains kind = true := by
        rcases hk with rfl | rfl <;> decide
      rw [Funds.refunded, paidAs_cons rfl, if_pos ⟨hin, rfl⟩]
      rfl
    · have hin : [Kind.heldFee].contains kind = false := by
        rcases hk with rfl | rfl <;> decide
      rw [Funds.delivered, paidAs_cons rfl, if_neg fun h => by rw [hin] at h; cases h.1]
      rfl

/-- A retained amount that the account covers goes back as a whole. -/
theorem returnAmount_reimbursed (hno : ∀ n, c.refuses n = false)
    (hbz : Chain.addrBytes job.client = some cliBz) {amt : UInt64}
    (hb : amt.toNat ≤ f.bank.balance) :
    (returnAmount c job amt f).1 = amt ∧
      Reimbursed job.jobId cliBz amt.toNat f (returnAmount c job amt f).2 ∧
      (returnAmount c job amt f).2.held = f.held ∧
      (returnAmount c job amt f).2.heldDemand = f.heldDemand := by
  have hr := refundClient_reimbursed (f := f) hno hbz (.inl rfl)
    (by rwa [refundable_self amt])
  rw [refundable_self] at hr
  unfold returnAmount
  revert hr
  rcases refundClient c .refund job amt amt f with ⟨sent, g⟩
  rintro ⟨hs, hre, hheld, hd⟩
  dsimp only at hs hre hheld hd ⊢
  rw [hs, UInt64.sub_self, addTreasury_zero]
  exact ⟨rfl, hre, hheld, hd⟩

/-! ### A whole retention -/

/-- What one share retains. -/
def Funds.share (sh : Share) (j : Str) (f : Funds) : UInt64 := (f.heldOf sh j).getD 0

/-- What a refund of one share does, and what it leaves alone. -/
structure SharePaid (sh : Share) (j : Str) (cliBz : Addr) (f : Funds) (r : UInt64 × Funds) : Prop where
  sent : r.1 = f.share sh j
  paid : Reimbursed j cliBz (f.share sh j).toNat f r.2
  others : ∀ sh', sh' ≠ sh → r.2.share sh' j = f.share sh' j
  heldDemand : r.2.heldDemand = f.heldDemand

theorem SharePaid.of_none {sh : Share} (h : f.share sh j = 0) : SharePaid sh j cliBz f (0, f) := by
  refine ⟨h.symm, ?_, fun _ _ => rfl, rfl⟩
  rw [h]
  exact .of_same rfl rfl rfl rfl

/-- An amount out of its map is sent back. -/
theorem SharePaid.of_return {sh : Share} (since : Store Str UInt64)
    (hno : ∀ n, c.refuses n = false) (hbz : Chain.addrBytes job.client = some cliBz) {amt : UInt64}
    (h : f.heldOf sh job.jobId = some amt) (hb : amt.toNat ≤ f.bank.balance) :
    SharePaid sh job.jobId cliBz f
      (returnAmount c job amt { f.dropHeld sh job.jobId with heldSince := since }) := by
  obtain ⟨hsent, hpaid, hheld, hd⟩ := returnAmount_reimbursed
    (f := { f.dropHeld sh job.jobId with heldSince := since }) hno hbz hb
  have hs : f.share sh job.jobId = amt := by rw [Funds.share, h]; rfl
  refine ⟨hsent.trans hs.symm, ?_, fun sh' hne => ?_, hd⟩
  · rw [hs]
    exact ⟨hpaid.miners, hpaid.pools, hpaid.balance, hpaid.outside, hpaid.refunded, hpaid.delivered⟩
  · rw [Funds.share, Funds.heldOf, hheld]
    exact congrArg (Option.getD · 0) (Funds.heldOf_dropHeld_share (f := f) hne)

theorem refundShare_paid (hno : ∀ n, c.refuses n = false)
    (hbz : Chain.addrBytes job.client = some cliBz) (sh : Share)
    (hb : (f.share sh job.jobId).toNat ≤ f.bank.balance) :
    SharePaid sh job.jobId cliBz f (refundShare c sh job f) := by
  unfold refundShare
  split
  · next h => exact .of_none (by rw [Funds.share, h]; rfl)
  · next amt h =>
    have hs : f.share sh job.jobId = amt := by rw [Funds.share, h]; rfl
    rw [hs] at hb
    by_cases h0 : amt = 0
    · simp only [if_pos h0]
      refine ⟨by rw [hs, h0], ?_, fun sh' hne => ?_, rfl⟩
      · rw [hs, h0]
        exact .of_same rfl rfl rfl rfl
      · exact congrArg (Option.getD · 0) (Funds.heldOf_dropHeld_share (f := f) hne)
    · simp only [if_neg h0]
      exact .of_return f.heldSince hno hbz h hb

theorem refundFee_paid (hno : ∀ n, c.refuses n = false)
    (hbz : Chain.addrBytes job.client = some cliBz)
    (hb : (f.share .fee job.jobId).toNat ≤ f.bank.balance) :
    SharePaid .fee job.jobId cliBz f (refundFee c job f) := by
  unfold refundFee
  split
  · next h => exact .of_none (by rw [Funds.share, h]; rfl)
  · next amt h =>
    have hs : f.share .fee job.jobId = amt := by rw [Funds.share, h]; rfl
    rw [hs] at hb
    split
    · exact .of_return _ hno hbz h hb
    · next h0 => exact .of_none (by simpa [hs, UInt64.pos_iff_ne_zero] using h0)

theorem refundBurn_paid (hno : ∀ n, c.refuses n = false)
    (hbz : Chain.addrBytes job.client = some cliBz)
    (hb : (f.share .burn job.jobId).toNat ≤ f.bank.balance) :
    SharePaid .burn job.jobId cliBz f (refundBurn c job f) := by
  unfold refundBurn
  split
  · next h => exact .of_none (by rw [Funds.share, h]; rfl)
  · next amt h =>
    have hs : f.share .burn job.jobId = amt := by rw [Funds.share, h]; rfl
    rw [hs] at hb
    split
    · exact .of_return f.heldSince hno hbz h hb
    · next h0 => exact .of_none (by simpa [hs, UInt64.pos_iff_ne_zero] using h0)

/-- Everything retained for a job, in coins. -/
def Funds.retainedCoins (j : Str) (f : Funds) : Nat :=
  (f.share .fee j).toNat + (f.share .validator j).toNat + (f.share .team j).toNat +
    (f.share .treasury j).toNat + (f.share .burn j).toNat

/-- The shares of the cut go back one by one. -/
theorem refundRetainedCut_paid (hno : ∀ n, c.refuses n = false)
    (hbz : Chain.addrBytes job.client = some cliBz)
    (hb : (f.share .validator job.jobId).toNat + (f.share .team job.jobId).toNat +
      (f.share .treasury job.jobId).toNat ≤ f.bank.balance) :
    ∃ g, refundRetainedCut c job f = (f.share .validator job.jobId + f.share .team job.jobId +
        f.share .treasury job.jobId, f.heldDemand.has job.jobId, g) ∧
      Reimbursed job.jobId cliBz ((f.share .validator job.jobId).toNat +
        (f.share .team job.jobId).toNat + (f.share .treasury job.jobId).toNat) f g ∧
      g.share .burn job.jobId = f.share .burn job.jobId := by
  have h1 := refundShare_paid (c := c) (f := f) hno hbz .validator (by omega)
  unfold refundRetainedCut
  generalize refundShare c .validator job f = r₁ at h1
  obtain ⟨s₁, f₁⟩ := r₁
  have l1 := h1.paid.left
  have e2 := h1.others .team (by decide)
  have e3 := h1.others .treasury (by decide)
  have e4 := h1.others .burn (by decide)
  dsimp only at l1 e2 e3 e4
  have h2 := refundShare_paid (c := c) (f := f₁) hno hbz .team (by rw [e2]; omega)
  dsimp only
  generalize refundShare c .team job f₁ = r₂ at h2
  obtain ⟨s₂, f₂⟩ := r₂
  have l2 := h2.paid.left
  have e3' := h2.others .treasury (by decide)
  have e4' := h2.others .burn (by decide)
  dsimp only at l2 e3' e4'
  rw [e2] at l2
  have h3 := refundShare_paid (c := c) (f := f₂) hno hbz .treasury (by rw [e3', e3]; omega)
  dsimp only
  generalize refundShare c .treasury job f₂ = r₃ at h3
  obtain ⟨s₃, f₃⟩ := r₃
  have e4'' := h3.others .burn (by decide)
  have hp := (h1.paid.trans h2.paid).trans h3.paid
  have hs1 := h1.sent
  have hs2 := h2.sent
  have hs3 := h3.sent
  have hd := h3.heldDemand.trans (h2.heldDemand.trans h1.heldDemand)
  dsimp only at e4'' hp hs1 hs2 hs3 hd ⊢
  rw [e2, e3', e3] at hp
  rw [hs1, hs2, hs3, e2, e3', e3, hd]
  have hburn : f₃.share .burn job.jobId = f.share .burn job.jobId := e4''.trans (e4'.trans e4)
  by_cases hhas : f.heldDemand.has job.jobId = true
  · rw [if_pos hhas, hhas]
    exact ⟨_, rfl, ⟨hp.miners, hp.pools, hp.balance, hp.outside, hp.refunded, hp.delivered⟩, hburn⟩
  · rw [if_neg hhas, Bool.eq_false_iff.2 hhas]
    exact ⟨_, rfl, hp, hburn⟩

/-- Everything that was retained goes back. -/
theorem refundRetainedToClient_paid (hno : ∀ n, c.refuses n = false)
    (hbz : Chain.addrBytes job.client = some cliBz)
    (hb : f.retainedCoins job.jobId ≤ f.bank.balance) :
    ∃ g, refundRetainedToClient c job f =
        (retainedTotal job.jobId f, f.heldDemand.has job.jobId, g) ∧
      Reimbursed job.jobId cliBz (f.retainedCoins job.jobId) f g := by
  unfold Funds.retainedCoins at hb
  have h1 := refundFee_paid (c := c) (f := f) hno hbz (by omega)
  unfold refundRetainedToClient
  generalize refundFee c job f = r₁ at h1
  obtain ⟨s₁, f₁⟩ := r₁
  have l1 := h1.paid.left
  have ev := h1.others .validator (by decide)
  have et := h1.others .team (by decide)
  have er := h1.others .treasury (by decide)
  have eb := h1.others .burn (by decide)
  dsimp only at l1 ev et er eb
  obtain ⟨g, hg, hcut, hgb⟩ := refundRetainedCut_paid (c := c) (f := f₁) hno hbz
    (by rw [ev, et, er]; omega)
  dsimp only
  rw [hg]
  have l2 := hcut.left
  rw [ev, et, er] at l2
  have h3 := refundBurn_paid (c := c) (f := g) hno hbz (by rw [hgb, eb]; omega)
  dsimp only
  generalize refundBurn c job g = r₃ at h3
  obtain ⟨s₃, f₃⟩ := r₃
  have hp := (h1.paid.trans hcut).trans h3.paid
  have hs1 := h1.sent
  have hs3 := h3.sent
  have hd := h1.heldDemand
  dsimp only at hp hs1 hs3 hd ⊢
  rw [ev, et, er, hgb, eb] at hp
  refine ⟨f₃, ?_, ?_⟩
  · rw [hs1, hs3, ev, et, er, hgb, eb, hd]
    refine congrArg (·, f.heldDemand.has job.jobId, f₃) ?_
    show _ = f.share .fee job.jobId + f.share .burn job.jobId + f.share .validator job.jobId +
      f.share .team job.jobId + f.share .treasury job.jobId
    ac_rfl
  · unfold Funds.retainedCoins
    rw [show ∀ a b d e g : Nat, a + b + d + e + g = a + (b + d + e) + g by intros; omega]
    exact hp

end Reimbursed

/-! ## A slash -/

section Slash

variable [Chain]

/-- What a slash takes off the bond of the primary: nothing when it is gone. -/
def slashedAmount (p : Params) (job : Job) (f : Funds) : UInt64 :=
  match f.miners.get? job.minerId with
  | none => 0
  | some m => bpsOf m.stake p.slashLeakBps

/-- What of it goes to the client: the part of the fee that was not retained. -/
def bondRefund (p : Params) (job : Job) (f : Funds) : UInt64 :=
  refundable (if job.fee > retainedTotal job.jobId f then job.fee - retainedTotal job.jobId f else 0)
    (slashedAmount p job f)

/-- The miners after a slash. -/
def slashedMiners (p : Params) (job : Job) (f : Funds) : Table Miner.minerId :=
  match f.miners.get? job.minerId with
  | none => f.miners
  | some m => f.miners.put (reverseDemand p job (f.heldDemand.has job.jobId)
      { m with stake := m.stake - bpsOf m.stake p.slashLeakBps })

/-- What a slash does to the money: the retention and a part of the bond to the client, the rest of
the bond to the treasury. -/
structure Condemnation (p : Params) (job : Job) (cliBz : Addr) (f f' : Funds) : Prop where
  miners : f'.miners = slashedMiners p job f
  pools : f'.poolsOrZero = { f.poolsOrZero with treasury :=
    f.poolsOrZero.treasury + (slashedAmount p job f - bondRefund p job f) }
  balance : f'.bank.balance +
    moved cliBz (f.retainedCoins job.jobId + (bondRefund p job f).toNat) = f.bank.balance
  outside : f'.bank.outside = f.bank.outside +
    moved cliBz (f.retainedCoins job.jobId + (bondRefund p job f).toNat)
  refunded : f'.refunded job.jobId =
    f.refunded job.jobId + (f.retainedCoins job.jobId + (bondRefund p job f).toNat)
  delivered : f'.delivered job.jobId = f.delivered job.jobId
  held : ∀ sh k, f'.share sh k = if k = job.jobId then 0 else f.share sh k

variable {c : Ctx} {p : Params} {job : Job} {cliBz : Addr} {f f' g : Funds} {j : Str}

omit [Chain] in
theorem reverseDemand_stake_comm (hadRight : Bool) (m : Miner) (x : UInt64) :
    reverseDemand p job hadRight { m with stake := x } =
      { reverseDemand p job hadRight m with stake := x } := by
  unfold reverseDemand
  split <;> rfl

/-- What is held after a refund. -/
theorem refundRetainedToClient_share {r : UInt64 × Bool × Funds}
    (h : refundRetainedToClient c job f = r) (sh : Share) (k : Str) :
    r.2.2.share sh k = if k = job.jobId then 0 else f.share sh k := by
  subst h
  split
  · next hk =>
    subst hk
    exact refundRetainedToClient_gone sh
  · next hk =>
    exact congrArg (Option.getD · 0) ((refundRetainedToClient_effect job f).heldOf_ne sh k hk)

omit [Chain] in
theorem poolsOrZero_addTreasury (kind : Kind) (amt : UInt64) : (f.addTreasury kind j amt).poolsOrZero =
    { f.poolsOrZero with treasury := f.poolsOrZero.treasury + amt } := by
  unfold Funds.addTreasury
  split
  · next h => rw [h, UInt64.add_zero]
  · rfl

omit [Chain] in
theorem paidAs_addTreasury {ks : List Kind} {kind : Kind} {amt : UInt64}
    (hk : ks.contains kind = false) : (f.addTreasury kind j amt).paidAs ks j = f.paidAs ks j := by
  unfold Funds.addTreasury
  split
  · rfl
  · exact (paidAs_cons rfl).trans (by rw [if_neg fun h => by rw [hk] at h; cases h.1]; rfl)

omit [Chain] in
/-- A credit of the treasury touches nothing but the pools and the journal. -/
theorem addTreasury_beside (kind : Kind) (amt : UInt64) : (f.addTreasury kind j amt).miners = f.miners ∧
    (f.addTreasury kind j amt).bank = f.bank ∧ (f.addTreasury kind j amt).held = f.held := by
  unfold Funds.addTreasury
  split <;> exact ⟨rfl, rfl, rfl⟩

theorem spendSlash_zero (refunded : UInt64) : spendSlash c job refunded 0 f = f := by
  have h0 : ∀ owed, refundable owed 0 = 0 := fun owed =>
    UInt64.toNat_inj.1 (Nat.le_zero.1 (refundable_le owed 0))
  have hr : ∀ owed, refundClient c .bondRefund job owed 0 f = (0, f) := fun owed => by
    rw [refundClient, if_pos (h0 owed)]
  simp only [spendSlash, hr, UInt64.sub_self, addTreasury_zero]

/-- The slash at a deadline. -/
theorem slashCheatedPrimary_condemns (hno : ∀ n, c.refuses n = false)
    (hbz : Chain.addrBytes job.client = some cliBz)
    (hb : f.retainedCoins job.jobId + (slashedAmount p job f).toNat ≤ f.bank.balance) :
    Condemnation p job cliBz f (slashCheatedPrimary c p job f).2 := by
  obtain ⟨g, hg, hpaid⟩ := refundRetainedToClient_paid (f := f) hno hbz (by omega)
  have hshare := refundRetainedToClient_share hg
  dsimp only at hshare
  unfold slashCheatedPrimary
  cases hm : f.miners.get? job.minerId with
  | none =>
    have hamt : slashedAmount p job f = 0 := by simp only [slashedAmount, hm]
    have hx : bondRefund p job f = 0 := by
      rw [bondRefund, hamt]
      exact UInt64.toNat_inj.1 (Nat.le_zero.1 (refundable_le _ 0))
    simp only [hg]
    refine ⟨?_, ?_, ?_, ?_, ?_, hpaid.delivered, hshare⟩
    · simp only [slashedMiners, hm]
      exact hpaid.miners
    · rw [hamt, hx, Funds.poolsOrZero, hpaid.pools, UInt64.sub_zero, UInt64.add_zero]
      rfl
    · rw [hx]
      exact hpaid.balance
    · rw [hx]
      exact hpaid.outside
    · rw [hx]
      exact hpaid.refunded
  | some m =>
    have hamt : slashedAmount p job f = bpsOf m.stake p.slashLeakBps := by
      simp only [slashedAmount, hm]
    have hminers : slashedMiners p job f = (f.setMiner { reverseDemand p job
        (f.heldDemand.has job.jobId) m with stake := m.stake - slashedAmount p job f }).miners := by
      simp only [slashedMiners, hm, reverseDemand_stake_comm, hamt]
      rfl
    simp only [hg, ← hamt]
    set M : Miner := { reverseDemand p job (f.heldDemand.has job.jobId) m with
      stake := m.stake - slashedAmount p job f } with hM
    have hMs : (reverseDemand p job (f.heldDemand.has job.jobId) m).stake = m.stake := by
      unfold reverseDemand
      split <;> rfl
    rw [hMs, ← hM]
    have hspend : (if slashedAmount p job f > 0 then
        ({ job with slashRecords := job.slashRecords ++ [⟨job.minerId, slashedAmount p job f⟩] },
          spendSlash c job (retainedTotal job.jobId f) (slashedAmount p job f) (g.setMiner M))
        else (job, g.setMiner M)).2 =
          spendSlash c job (retainedTotal job.jobId f) (slashedAmount p job f) (g.setMiner M) := by
      split
      · rfl
      · next h0 =>
        rw [show slashedAmount p job f = 0 by simpa [UInt64.pos_iff_ne_zero] using h0, spendSlash_zero]
    rw [hspend, spendSlash]
    have hleft := hpaid.left
    have hrefund := refundClient_reimbursed (c := c) (f := g.setMiner M) hno hbz (.inr rfl) (by
      have := refundable_le (if job.fee > retainedTotal job.jobId f then
        job.fee - retainedTotal job.jobId f else 0) (slashedAmount p job f)
      show _ ≤ g.bank.balance
      exact Nat.le_trans this (by omega))
    rw [← bondRefund] at hrefund
    revert hrefund
    rcases refundClient c .bondRefund job (if job.fee > retainedTotal job.jobId f then
      job.fee - retainedTotal job.jobId f else 0) (slashedAmount p job f) (g.setMiner M) with ⟨x, g'⟩
    rintro ⟨hx, hre, hheld, -⟩
    dsimp only at hx hre hheld ⊢
    have hset : Reimbursed job.jobId cliBz (f.retainedCoins job.jobId + (bondRefund p job f).toNat)
        (f.setMiner M) g' := by
      have h1 : Reimbursed job.jobId cliBz (f.retainedCoins job.jobId) (f.setMiner M)
          (g.setMiner M) :=
        ⟨congrArg (·.put M) hpaid.miners, hpaid.pools, hpaid.balance, hpaid.outside, hpaid.refunded,
          hpaid.delivered⟩
      exact h1.trans hre
    obtain ⟨hm', hb', hh'⟩ := addTreasury_beside (f := g') (j := job.jobId) .bondPool
      (slashedAmount p job f - x)
    refine ⟨?_, ?_, ?_, ?_, ?_, ?_, fun sh k => ?_⟩
    · rw [hm', hset.miners, hminers]
    · rw [poolsOrZero_addTreasury, Funds.poolsOrZero, hset.pools, hx]
      rfl
    · rw [hb']
      exact hset.balance
    · rw [hb']
      exact hset.outside
    · rw [Funds.refunded, paidAs_addTreasury (by decide)]
      exact hset.refunded
    · rw [Funds.delivered, paidAs_addTreasury (by decide)]
      exact hset.delivered
    · rw [← hshare sh k, Funds.share, Funds.heldOf, hh', hheld]
      rfl

omit [Chain] in
theorem refundable_zero (x : UInt64) : refundable 0 x = 0 := by
  unfold refundable
  split
  · next h => exact absurd h (by simp [UInt64.lt_iff_toNat_lt])
  · rfl

/-- What an adjudication pays out of the bond. -/
theorem refundClient_bond (amt retained : UInt64) :
    (if amt > 0 ∧ job.fee > retained then refundClient c .bondRefund job (job.fee - retained) amt f
      else (0, f)) =
    refundClient c .bondRefund job (if job.fee > retained then job.fee - retained else 0) amt f := by
  by_cases hfee : job.fee > retained
  · rw [if_pos hfee]
    by_cases h0 : amt > 0
    · rw [if_pos ⟨h0, hfee⟩]
    · have hz : amt = 0 := by simpa [UInt64.pos_iff_ne_zero] using h0
      have hr : refundable (job.fee - retained) amt = 0 := by
        rw [hz]
        exact UInt64.toNat_inj.1 (Nat.le_zero.1 (refundable_le _ 0))
      rw [if_neg fun h => h0 h.1, refundClient, if_pos hr]
  · rw [if_neg hfee, if_neg fun h => hfee h.2, refundClient, if_pos (refundable_zero amt)]

/-- The slash of an adjudication, with the refund that follows it. -/
theorem slashAdjudicated_condemns (hno : ∀ n, c.refuses n = false)
    (hbz : Chain.addrBytes job.client = some cliBz)
    (hb : f.retainedCoins job.jobId + (slashedAmount p job f).toNat ≤ f.bank.balance) :
    Condemnation p job cliBz f (refundAndReverse c p job
      ((slashAdjudicated c p job ⟨f, f.poolsOrZero, []⟩).2.funds.setPools
        (slashAdjudicated c p job ⟨f, f.poolsOrZero, []⟩).2.pools)) := by
  unfold slashAdjudicated
  cases hm : f.miners.get? job.minerId with
  | none =>
    have hamt : slashedAmount p job f = 0 := by simp only [slashedAmount, hm]
    have hx : bondRefund p job f = 0 := by
      rw [bondRefund, hamt]
      exact UInt64.toNat_inj.1 (Nat.le_zero.1 (refundable_le _ 0))
    obtain ⟨g, hg, hpaid⟩ := refundRetainedToClient_paid (f := f.setPools f.poolsOrZero) hno hbz
      (show f.retainedCoins job.jobId ≤ f.bank.balance by omega)
    have hshare := refundRetainedToClient_share hg
    have hm' : (f.setPools f.poolsOrZero).miners.get? job.minerId = none := hm
    dsimp only at hshare
    simp only [refundAndReverse, hm', hg]
    refine ⟨?_, ?_, ?_, ?_, ?_, hpaid.delivered, hshare⟩
    · simp only [slashedMiners, hm]
      exact hpaid.miners
    · rw [hamt, hx, Funds.poolsOrZero, hpaid.pools, UInt64.sub_zero, UInt64.add_zero]
      rfl
    · rw [hx]
      exact hpaid.balance
    · rw [hx]
      exact hpaid.outside
    · rw [hx]
      exact hpaid.refunded
  | some m =>
    have hamt : slashedAmount p job f = bpsOf m.stake p.slashLeakBps := by
      simp only [slashedAmount, hm]
    have hid : m.minerId = job.minerId := Table.key_of_get? hm
    simp only [← hamt]
    set M : Miner := { m with stake := m.stake - slashedAmount p job f } with hM
    have hret : retainedTotal job.jobId (f.setMiner M) = retainedTotal job.jobId f := rfl
    rw [hret, refundClient_bond]
    have hrefund := refundClient_reimbursed (c := c) (f := f.setMiner M) hno hbz (.inr rfl) (by
      have := refundable_le (if job.fee > retainedTotal job.jobId f then
        job.fee - retainedTotal job.jobId f else 0) (slashedAmount p job f)
      show _ ≤ f.bank.balance
      exact Nat.le_trans this (by omega))
    rw [← bondRefund] at hrefund
    have hle : (bondRefund p job f).toNat ≤ (slashedAmount p job f).toNat := refundable_le _ _
    revert hrefund
    rcases refundClient c .bondRefund job (if job.fee > retainedTotal job.jobId f then
      job.fee - retainedTotal job.jobId f else 0) (slashedAmount p job f) (f.setMiner M) with ⟨x, f₂⟩
    rintro ⟨hx, hre, hheld, hdem⟩
    dsimp only at hx hre hheld hdem ⊢
    have hleft := hre.left
    rw [show (f.setMiner M).bank = f.bank from rfl] at hleft
    set f₃ : Funds := (f₂.post ⟨.bondPool, job.jobId, [], slashedAmount p job f - x⟩).setPools
      { f.poolsOrZero with
        treasury := f.poolsOrZero.treasury + (slashedAmount p job f - x) } with hf₃
    have hshare₃ : ∀ sh k, f₃.share sh k = f.share sh k := fun sh k => by
      show ((f₂.held sh).get k).getD 0 = _
      rw [hheld]
      rfl
    have hcoins : f₃.retainedCoins job.jobId = f.retainedCoins job.jobId := by
      simp only [Funds.retainedCoins, hshare₃]
    obtain ⟨g, hg, hpaid⟩ := refundRetainedToClient_paid (f := f₃) hno hbz (by
      rw [hcoins]
      show _ ≤ f₂.bank.balance
      omega)
    have hshare := refundRetainedToClient_share hg
    have hmin₃ : f₃.miners = f.miners.put M := hre.miners
    have hget : f₃.miners.get? job.minerId = some M := by
      rw [hmin₃, ← hid]
      exact Table.get?_put_self (v := M)
    have hdem₃ : f₃.heldDemand = f.heldDemand := hdem
    rw [hcoins] at hpaid
    dsimp only at hshare
    simp only [refundAndReverse, hget, hg, hdem₃]
    refine ⟨?_, ?_, ?_, ?_, ?_, ?_, fun sh k => ?_⟩
    · have hk : (reverseDemand p job (f.heldDemand.has job.jobId) M).minerId = M.minerId := by
        unfold reverseDemand
        split <;> rfl
      show (g.miners.put _) = _
      rw [hpaid.miners, hmin₃, Table.put_put hk.symm]
      simp only [slashedMiners, hm, hM, hamt]
    · show g.poolsOrZero = _
      rw [Funds.poolsOrZero, hpaid.pools, ← hx]
      rfl
    · show g.bank.balance + _ = _
      have h1 := hpaid.balance
      have h2 := hre.balance
      rw [moved_add]
      change g.bank.balance + _ = f₂.bank.balance at h1
      change f₂.bank.balance + _ = f.bank.balance at h2
      omega
    · show g.bank.outside = _
      have h1 := hpaid.outside
      have h2 := hre.outside
      rw [moved_add]
      change g.bank.outside = f₂.bank.outside + _ at h1
      change f₂.bank.outside = f.bank.outside + _ at h2
      omega
    · show g.refunded job.jobId = _
      have h1 := hpaid.refunded
      have h2 : f₃.refunded job.jobId = f₂.refunded job.jobId :=
        (paidAs_cons rfl).trans (by rw [if_neg fun h => by cases h.1]; rfl)
      have h3 : f₂.refunded job.jobId = f.refunded job.jobId + _ := hre.refunded
      omega
    · show g.delivered job.jobId = _
      have h1 := hpaid.delivered
      have h2 : f₃.delivered job.jobId = f₂.delivered job.jobId :=
        (paidAs_cons rfl).trans (by rw [if_neg fun h => by cases h.1]; rfl)
      have h3 : f₂.delivered job.jobId = f.delivered job.jobId := hre.delivered
      omega
    · rw [← hshare₃ sh k]
      exact hshare sh k

end Slash

/-! ## A release -/

/-- The same money, with other pools and other grounds. -/
def Funds.besides (pl : Option Pools) (ws : List (Str × Warrant)) (f : Funds) : Funds :=
  { f with pools := pl, warrants := ws }

section Release

variable [Chain] {c c' : Ctx} {p : Params} {job : Job} {f : Funds} {pl : Option Pools}
  {ws : List (Str × Warrant)}

theorem pay_besides (payee : Payee) (x : Posting) : (f.besides pl ws).pay c payee x =
    ((f.pay c payee x).1, (f.pay c payee x).2.besides pl ws) := by
  unfold Funds.pay
  rw [show (f.besides pl ws).bank = f.bank from rfl]
  split <;> rfl

theorem pay_pools (payee : Payee) (x : Posting) : (f.pay c payee x).2.pools = f.pools := by
  unfold Funds.pay
  split <;> rfl

theorem releaseBurn_besides (job : Job) (f : Funds) (pl : Option Pools)
    (ws : List (Str × Warrant)) : releaseBurn c job (f.besides pl ws) =
    (releaseBurn c job f).besides pl ws ∧ (releaseBurn c job f).pools = f.pools := by
  unfold releaseBurn
  rw [show (f.besides pl ws).heldOf .burn job.jobId = f.heldOf .burn job.jobId from rfl]
  cases f.heldOf .burn job.jobId with
  | none => exact ⟨rfl, rfl⟩
  | some hb =>
    simp only
    split
    · have hp := pay_pools (c := c) (f := f) .burn ⟨.burn, job.jobId, [], hb⟩
      rw [pay_besides]
      revert hp
      rcases f.pay c .burn ⟨.burn, job.jobId, [], hb⟩ with ⟨b, g⟩
      intro hp
      cases b <;> exact ⟨rfl, hp⟩
    · exact ⟨rfl, rfl⟩

theorem payValidatorShare_besides (job : Job) (f : Funds) (pl : Option Pools)
    (ws : List (Str × Warrant)) : payValidatorShare c job (f.besides pl ws) =
    ((payValidatorShare c job f).1, (payValidatorShare c job f).2.besides pl ws) ∧
      (payValidatorShare c job f).2.pools = f.pools := by
  unfold payValidatorShare
  rw [show (f.besides pl ws).heldOf .validator job.jobId = f.heldOf .validator job.jobId from rfl]
  cases f.heldOf .validator job.jobId with
  | none => exact ⟨rfl, rfl⟩
  | some v =>
    simp only
    split
    · exact ⟨rfl, rfl⟩
    · have hp := pay_pools (c := c) (f := f) .feeCollector ⟨.validators, job.jobId, [], v⟩
      rw [pay_besides]
      revert hp
      rcases f.pay c .feeCollector ⟨.validators, job.jobId, [], v⟩ with ⟨b, g⟩
      intro hp
      cases b <;> exact ⟨rfl, hp⟩

theorem payTeamShare_besides (job : Job) (ws : List (Str × Warrant))
    (hpl : pl.getD default = f.poolsOrZero) : ∃ pl',
    payTeamShare c p job (f.besides pl ws) =
      ((payTeamShare c p job f).1, (payTeamShare c p job f).2.besides pl' ws) ∧
      pl'.getD default = (payTeamShare c p job f).2.poolsOrZero := by
  unfold payTeamShare
  rw [show (f.besides pl ws).heldOf .team job.jobId = f.heldOf .team job.jobId from rfl]
  cases f.heldOf .team job.jobId with
  | none => exact ⟨pl, rfl, hpl⟩
  | some t =>
    simp only
    by_cases h0 : t = 0
    · simp only [if_pos h0]
      exact ⟨pl, rfl, hpl⟩
    · simp only [if_neg h0]
      by_cases hteam : p.teamAddress = []
      · simp only [if_pos hteam]
        refine ⟨some { f.poolsOrZero with team := f.poolsOrZero.team + t }, ?_, rfl⟩
        rw [show (f.besides pl ws).poolsOrZero = f.poolsOrZero from hpl]
        rfl
      · simp only [if_neg hteam]
        cases Chain.addrBytes p.teamAddress with
        | none => exact ⟨pl, rfl, hpl⟩
        | some toBz =>
          have hp := pay_pools (c := c) (f := f) (.account toBz) ⟨.team, job.jobId, p.teamAddress, t⟩
          simp only [pay_besides]
          revert hp
          rcases f.pay c (.account toBz) ⟨.team, job.jobId, p.teamAddress, t⟩ with ⟨b, g⟩
          intro hp
          have hg : pl.getD default = g.pools.getD default := by rw [show g.pools = f.pools from hp]; exact hpl
          cases b <;> exact ⟨pl, rfl, hg⟩

omit [Chain] in
theorem payTreasuryShare_besides (job : Job) (ws : List (Str × Warrant))
    (hpl : pl.getD default = f.poolsOrZero) : ∃ pl',
    payTreasuryShare job (f.besides pl ws) = (payTreasuryShare job f).besides pl' ws ∧
      pl'.getD default = (payTreasuryShare job f).poolsOrZero := by
  unfold payTreasuryShare
  rw [show (f.besides pl ws).heldOf .treasury job.jobId = f.heldOf .treasury job.jobId from rfl]
  cases f.heldOf .treasury job.jobId with
  | none => exact ⟨pl, rfl, hpl⟩
  | some t =>
    simp only
    by_cases h0 : t = 0
    · simp only [if_pos h0]
      exact ⟨pl, rfl, hpl⟩
    · simp only [if_neg h0]
      refine ⟨some { f.poolsOrZero with treasury := f.poolsOrZero.treasury + t }, ?_, rfl⟩
      rw [show (f.besides pl ws).poolsOrZero = f.poolsOrZero from hpl]
      rfl

omit [Chain] in
theorem creditDemand_besides (job : Job) (f : Funds) (pl : Option Pools)
    (ws : List (Str × Warrant)) : creditDemand job (f.besides pl ws) =
    ((creditDemand job f).1, (creditDemand job f).2.besides pl ws) ∧
      (creditDemand job f).2.pools = f.pools := by
  unfold creditDemand
  rw [show (f.besides pl ws).heldDemand = f.heldDemand from rfl,
    show (f.besides pl ws).miners = f.miners from rfl]
  cases f.heldDemand.get job.jobId with
  | none => exact ⟨rfl, rfl⟩
  | some d =>
    cases f.miners.get? job.minerId with
    | none => exact ⟨rfl, rfl⟩
    | some m => exact ⟨rfl, rfl⟩

theorem releaseFee_besides (job : Job) (f : Funds) (pl : Option Pools)
    (ws : List (Str × Warrant)) (cutPending : Bool) : releaseFee c cutPending job (f.besides pl ws) =
    (releaseFee c cutPending job f).besides pl ws ∧ (releaseFee c cutPending job f).pools = f.pools := by
  unfold releaseFee
  rw [show (f.besides pl ws).heldOf .fee job.jobId = f.heldOf .fee job.jobId from rfl,
    show (f.besides pl ws).miners = f.miners from rfl]
  cases f.heldOf .fee job.jobId with
  | none => exact ⟨rfl, rfl⟩
  | some held =>
    simp only
    split
    · exact ⟨rfl, rfl⟩
    · cases f.miners.get? job.minerId with
      | none => exact ⟨rfl, rfl⟩
      | some m =>
        simp only
        cases Chain.addrBytes m.operator with
        | none => exact ⟨rfl, rfl⟩
        | some toBz =>
          have hp := pay_pools (c := c) (f := f) (.account toBz) ⟨.heldFee, job.jobId, m.operator, held⟩
          simp only [pay_besides]
          revert hp
          rcases f.pay c (.account toBz) ⟨.heldFee, job.jobId, m.operator, held⟩ with ⟨b, g⟩
          intro hp
          cases b <;> exact ⟨rfl, hp⟩

/-- A release reads neither the grounds, nor whether the pools were ever written. -/
theorem releaseHeld_besides (job : Job) (ws : List (Str × Warrant))
    (hpl : pl.getD default = f.poolsOrZero) : ∃ pl',
    releaseHeld c p job (f.besides pl ws) = (releaseHeld c p job f).besides pl' ws ∧
      pl'.getD default = (releaseHeld c p job f).poolsOrZero := by
  unfold releaseHeld payRetainedCut
  obtain ⟨h1, hp1⟩ := releaseBurn_besides (c := c) job f pl ws
  rw [h1]
  generalize releaseBurn c job f = f₁ at hp1 ⊢
  obtain ⟨h2, hp2⟩ := payValidatorShare_besides (c := c) job f₁ pl ws
  simp only [h2]
  revert hp2
  rcases payValidatorShare c job f₁ with ⟨r₂, f₂⟩
  intro hp2
  simp only at hp2
  obtain ⟨pl₃, h3, hp3⟩ := payTeamShare_besides (c := c) (p := p) (f := f₂) job ws
    (show pl.getD default = f₂.poolsOrZero by rw [Funds.poolsOrZero, hp2, hp1]; exact hpl)
  simp only [h3]
  revert hp3
  rcases payTeamShare c p job f₂ with ⟨r₃, f₃⟩
  intro hp3
  simp only at hp3
  obtain ⟨pl₄, h4, hp4⟩ := payTreasuryShare_besides job ws hp3
  simp only [h4]
  generalize payTreasuryShare job f₃ = f₄ at hp4 ⊢
  obtain ⟨h5, hp5⟩ := creditDemand_besides job f₄ pl₄ ws
  simp only [h5]
  revert hp5
  rcases creditDemand job f₄ with ⟨r₅, f₅⟩
  intro hp5
  simp only at hp5
  obtain ⟨h6, hp6⟩ := releaseFee_besides (c := c) job f₅ pl₄ ws
    (r₂ || r₃ || r₅)
  refine ⟨pl₄, h6, ?_⟩
  rw [Funds.poolsOrZero, hp6, hp5]
  exact hp4

/-! ### A release that arrives -/

omit [Chain] in
theorem share_le_total (sh : Share) (j : Str) :
    (f.share sh j).toNat ≤ (f.held sh).total UInt64.toNat := by
  unfold Funds.share Funds.heldOf
  cases h : (f.held sh).get j with
  | none => exact Nat.zero_le _
  | some a => exact Store.le_total_of_get UInt64.toNat h

omit [Chain] in
theorem retainedCoins_le_heldTotal (j : Str) : f.retainedCoins j ≤ f.heldTotal := by
  have h := fun sh => share_le_total (f := f) sh j
  have h1 := h .fee
  have h2 := h .validator
  have h3 := h .team
  have h4 := h .treasury
  have h5 := h .burn
  unfold Funds.retainedCoins Funds.heldTotal
  omega

omit [Chain] in
/-- An account that covers what is owed covers a share. -/
theorem share_le_balance (hs : 0 ≤ f.slack) (sh : Share) (j : Str) :
    (f.share sh j).toNat ≤ f.bank.balance := by
  have hle := share_le_total (f := f) sh j
  unfold Funds.slack Funds.heldTotal at hs
  cases sh <;> omega

omit [Chain] in
theorem share_of_heldOf {sh : Share} {j : Str} {a : UInt64} (h : f.heldOf sh j = some a) :
    f.share sh j = a := by
  rw [Funds.share, h]
  rfl

omit [Chain] in
theorem share_of_none {sh : Share} {j : Str} (h : f.heldOf sh j = none) : f.share sh j = 0 := by
  rw [Funds.share, h]
  rfl

/-- A payment that the account covers arrives. -/
theorem pay_covered (hno : ∀ n, c.refuses n = false) (payee : Payee) {x : Posting}
    (hb : x.amount.toNat ≤ f.bank.balance) : ∃ b, f.pay c payee x =
      (true, { f with bank := b, journal := x :: f.journal }) := by
  have hpay : ∃ b, f.bank.pay c payee x.amount = (true, b) := by
    unfold Bank.pay
    rw [if_neg (by rw [hno]; simpa using hb)]
    cases payee with
    | account a =>
      simp only
      split <;> exact ⟨_, rfl⟩
    | feeCollector => exact ⟨_, rfl⟩
    | burn => exact ⟨_, rfl⟩
  obtain ⟨b, hpay⟩ := hpay
  exact ⟨b, by rw [Funds.pay, hpay]⟩

theorem releaseBurn_gone (job : Job) (hno : ∀ n, c.refuses n = false) (hs : 0 ≤ f.slack) :
    (releaseBurn c job f).share .burn job.jobId = 0 := by
  have hb := share_le_balance hs .burn job.jobId
  unfold releaseBurn
  cases h : f.heldOf .burn job.jobId with
  | none => exact share_of_none h
  | some a =>
    rw [share_of_heldOf h] at hb
    simp only
    split
    · obtain ⟨b, hp⟩ := pay_covered (c := c) (f := f) hno .burn
        (x := ⟨.burn, job.jobId, [], a⟩) hb
      rw [hp]
      exact share_of_none Funds.heldOf_dropHeld_self
    · next h0 =>
      rw [share_of_heldOf h]
      simpa [UInt64.pos_iff_ne_zero] using h0

theorem payValidatorShare_gone (job : Job) (hno : ∀ n, c.refuses n = false) (hs : 0 ≤ f.slack) :
    (payValidatorShare c job f).2.share .validator job.jobId = 0 := by
  have hb := share_le_balance hs .validator job.jobId
  unfold payValidatorShare
  cases h : f.heldOf .validator job.jobId with
  | none => exact share_of_none h
  | some a =>
    rw [share_of_heldOf h] at hb
    simp only
    split
    · exact share_of_none Funds.heldOf_dropHeld_self
    · obtain ⟨b, hp⟩ := pay_covered (c := c) (f := f) hno .feeCollector
        (x := ⟨.validators, job.jobId, [], a⟩) hb
      rw [hp]
      exact share_of_none Funds.heldOf_dropHeld_self

theorem payTeamShare_gone (job : Job) (hno : ∀ n, c.refuses n = false) (hs : 0 ≤ f.slack)
    (hteam : p.teamAddress = [] ∨ (Chain.addrBytes p.teamAddress).isSome = true) :
    (payTeamShare c p job f).2.share .team job.jobId = 0 := by
  have hb := share_le_balance hs .team job.jobId
  unfold payTeamShare
  cases h : f.heldOf .team job.jobId with
  | none => exact share_of_none h
  | some a =>
    rw [share_of_heldOf h] at hb
    simp only
    split
    · exact share_of_none Funds.heldOf_dropHeld_self
    · split
      · exact share_of_none Funds.heldOf_dropHeld_self
      · next hne =>
        obtain ⟨toBz, hbz⟩ := Option.isSome_iff_exists.1 (hteam.resolve_left hne)
        obtain ⟨b, hp⟩ := pay_covered (c := c) (f := f) hno (.account toBz)
          (x := ⟨.team, job.jobId, p.teamAddress, a⟩) hb
        rw [hbz]
        simp only
        rw [hp]
        exact share_of_none Funds.heldOf_dropHeld_self

omit [Chain] in
theorem payTreasuryShare_gone (job : Job) (f : Funds) :
    (payTreasuryShare job f).share .treasury job.jobId = 0 := by
  unfold payTreasuryShare
  split
  · next h => exact share_of_none h
  · split
    · exact share_of_none Funds.heldOf_dropHeld_self
    · exact share_of_none Funds.heldOf_dropHeld_self

theorem releaseFee_gone (hno : ∀ n, c.refuses n = false) (hs : 0 ≤ f.slack) {m : Miner}
    (hm : f.miners.get? job.minerId = some m) (hop : (Chain.addrBytes m.operator).isSome = true)
    (cutPending : Bool) : (releaseFee c cutPending job f).share .fee job.jobId = 0 := by
  have hb := share_le_balance hs .fee job.jobId
  obtain ⟨toBz, hbz⟩ := Option.isSome_iff_exists.1 hop
  unfold releaseFee
  cases h : f.heldOf .fee job.jobId with
  | none => exact share_of_none h
  | some a =>
    rw [share_of_heldOf h] at hb
    simp only [hm, hbz]
    split
    · next h0 => exact (share_of_heldOf h).trans h0
    · obtain ⟨b, hp⟩ := pay_covered (c := c) (f := f) hno (.account toBz)
        (x := ⟨.heldFee, job.jobId, m.operator, a⟩) hb
      rw [hp]
      exact share_of_none Funds.heldOf_dropHeld_self

/-- Nothing stays retained after a release whose receivers can be paid. -/
theorem releaseHeld_gone (hno : ∀ n, c.refuses n = false) (hs : 0 ≤ f.slack) {m : Miner}
    (hm : f.miners.get? job.minerId = some m) (hop : (Chain.addrBytes m.operator).isSome = true)
    (hteam : p.teamAddress = [] ∨ (Chain.addrBytes p.teamAddress).isSome = true) (sh : Share) :
    (releaseHeld c p job f).share sh job.jobId = 0 := by
  obtain ⟨cutPending, hr⟩ : ∃ cp, releaseHeld c p job f = releaseFee c cp job (creditDemand job
      (payTreasuryShare job (payTeamShare c p job (payValidatorShare c job
        (releaseBurn c job f)).2).2)).2 := by
    unfold releaseHeld payRetainedCut
    exact ⟨_, rfl⟩
  rw [hr]
  have e1 : HeldEffect .release job.jobId f (releaseBurn c job f) := releaseBurn_effect
  have g1 := releaseBurn_gone (c := c) job hno hs
  generalize releaseBurn c job f = f₁ at e1 g1
  have s1 := hs.trans e1.slack
  have e2 : HeldEffect .release job.jobId f₁ (payValidatorShare c job f₁).2 :=
    payValidatorShare_effect
  have g2 := payValidatorShare_gone (c := c) job hno s1
  generalize (payValidatorShare c job f₁).2 = f₂ at e2 g2
  have s2 := s1.trans e2.slack
  have e3 : HeldEffect .release job.jobId f₂ (payTeamShare c p job f₂).2 := payTeamShare_effect
  have g3 := payTeamShare_gone (c := c) job hno s2 hteam
  generalize (payTeamShare c p job f₂).2 = f₃ at e3 g3
  have s3 := s2.trans e3.slack
  have e4 : HeldEffect .release job.jobId f₃ (payTreasuryShare job f₃) := payTreasuryShare_effect
  have g4 := payTreasuryShare_gone job f₃
  generalize payTreasuryShare job f₃ = f₄ at e4 g4
  have s4 := s3.trans e4.slack
  have e5 : HeldEffect .release job.jobId f₄ (creditDemand job f₄).2 := creditDemand_effect
  generalize (creditDemand job f₄).2 = f₅ at e5
  have s5 := s4.trans e5.slack
  have e6 : HeldEffect .release job.jobId f₅ (releaseFee c cutPending job f₅) := releaseFee_effect
  -- the miner is still registered, with the operator it had
  have hmap : (f₅.miners.get? job.minerId).map Miner.sansDemand = some m.sansDemand := by
    rw [((((e1.trans e2).trans e3).trans e4).trans e5).miners, hm]
    rfl
  obtain ⟨m', hm', he⟩ := Option.map_eq_some_iff.1 hmap
  have hop' := congrArg Miner.operator he
  simp only [Miner.sansDemand] at hop'
  cases sh with
  | fee => exact releaseFee_gone hno s5 hm' (by rw [hop']; exact hop) cutPending
  | burn => exact e6.gone (e5.gone (e4.gone (e3.gone (e2.gone g1))))
  | validator => exact e6.gone (e5.gone (e4.gone (e3.gone g2)))
  | team => exact e6.gone (e5.gone (e4.gone g3))
  | treasury => exact e6.gone (e5.gone g4)

end Release

/-! ## The two instances -/

/-- The same stakes and demands, pools, retentions, account, refunds of the client and payments of the
operator. -/
structure SameMoney (j : Str) (f f' : Funds) : Prop where
  miners : f.miners = f'.miners
  pools : f.poolsOrZero = f'.poolsOrZero
  held : ∀ sh k, f.share sh k = f'.share sh k
  balance : f.bank.balance = f'.bank.balance
  outside : f.bank.outside = f'.bank.outside
  refunded : f.refunded j = f'.refunded j
  delivered : f.delivered j = f'.delivered j

/-- The operator of the primary and the team can be paid. -/
def Deliverable [Chain] (s : State) (job : Job) : Prop :=
  (∃ m, s.miner job.minerId = some m ∧ (Chain.addrBytes m.operator).isSome = true) ∧
    (s.params.teamAddress = [] ∨ (Chain.addrBytes s.params.teamAddress).isSome = true)

/-- The verdicts on a job call for a slash. -/
def Slashed (s : State) (job : Job) : Prop :=
  auditSlashDecision s.params (auditVerdictTally s job.jobId job.minerId).cheated
    (auditVerdictTally s job.jobId job.minerId).voters
    (auditVerdictTally s job.jobId job.minerId).invalidVotes
    (auditVerdictTally s job.jobId job.minerId).seats = true

/-- The verdicts on a job clear its primary. -/
def Cleared (s : State) (job : Job) : Prop :=
  auditVindicateDecision s.params (auditVerdictTally s job.jobId job.minerId).valid
    (auditVerdictTally s job.jobId job.minerId).voters
    ((auditVerdictTally s job.jobId job.minerId).voters -
      (auditVerdictTally s job.jobId job.minerId).invalidVotes : Int)
    (auditVerdictTally s job.jobId job.minerId).seats = true

section Instances

variable [Chain] {c c' : Ctx} {p : Params} {job : Job} {s s' : State} {f f' g : Funds} {cliBz : Addr}

theorem Condemnation.same (h : Condemnation p job cliBz f f') (h' : Condemnation p job cliBz f g) :
    SameMoney job.jobId f' g where
  miners := h.miners.trans h'.miners.symm
  pools := h.pools.trans h'.pools.symm
  held sh k := (h.held sh k).trans (h'.held sh k).symm
  balance := Nat.add_right_cancel (h.balance.trans h'.balance.symm)
  outside := h.outside.trans h'.outside.symm
  refunded := h.refunded.trans h'.refunded.symm
  delivered := h.delivered.trans h'.delivered.symm

omit [Chain] in
theorem slashedAmount_le_stakes (job : Job) (f : Funds) (hp : p.slashLeakBps.toNat ≤ 10000) :
    (slashedAmount p job f).toNat ≤ f.stakes := by
  unfold slashedAmount
  split
  · exact Nat.zero_le _
  · next m hm =>
    exact (toNat_le_of_le (bpsOf_le hp)).trans
      (Table.le_sum_of_get? (fun m : Miner => m.stake.toNat) hm)

omit [Chain] in
theorem SameMoney.symm {j : Str} (h : SameMoney j f f') : SameMoney j f' f :=
  ⟨h.miners.symm, h.pools.symm, fun sh k => (h.held sh k).symm, h.balance.symm, h.outside.symm,
    h.refunded.symm, h.delivered.symm⟩

omit [Chain] in
theorem SameMoney.trans {j : Str} (h : SameMoney j f f') (h' : SameMoney j f' g) : SameMoney j f g :=
  ⟨h.miners.trans h'.miners, h.pools.trans h'.pools, fun sh k => (h.held sh k).trans (h'.held sh k),
    h.balance.trans h'.balance, h.outside.trans h'.outside, h.refunded.trans h'.refunded,
    h.delivered.trans h'.delivered⟩

omit [Chain] in
theorem SameMoney.besides {pl : Option Pools} {ws : List (Str × Warrant)} (j : Str)
    (hpl : pl.getD default = f.poolsOrZero) : SameMoney j f (f.besides pl ws) :=
  ⟨rfl, hpl.symm, fun _ _ => rfl, rfl, rfl, rfl, rfl⟩

/-- Two contexts in which the bank pays. -/
theorem releaseHeld_ctx (hno : ∀ n, c.refuses n = false) (hno' : ∀ n, c'.refuses n = false) :
    releaseHeld c p job f = releaseHeld c' p job f := by
  have hpay : ∀ (g : Funds) payee x, g.pay c payee x = g.pay c' payee x := fun g payee x => by
    simp only [Funds.pay, Bank.pay, hno, hno']
  simp only [releaseHeld, releaseBurn, payRetainedCut, payValidatorShare, payTeamShare, releaseFee,
    hpay]

/-- The aggregates on the record of a job do not matter to a slash. -/
theorem Condemnation.of_judged {t : Tally} (h : Condemnation p (judgedJob t job) cliBz f f') :
    Condemnation p job cliBz f f' :=
  ⟨h.miners, h.pools, h.balance, h.outside, h.refunded, h.delivered, h.held⟩

theorem slashCheatedPrimary_bond (job : Job) :
    (slashCheatedPrimary c p job f).1.disputeBond = job.disputeBond := by
  unfold slashCheatedPrimary
  split
  · rfl
  · simp only
    split <;> rfl

theorem refundDisputeBond_none (h : job.disputeBond = 0) : refundDisputeBond c job f = (job, f) := by
  rw [refundDisputeBond, if_pos (.inl h)]

omit [Chain] in
theorem closeInstance_funds (job : Job) (f : Funds) (s : State) :
    (closeInstance job f s).funds = f := rfl

omit [Chain] in
theorem share_besides (f : Funds) (pl : Option Pools) (ws : List (Str × Warrant)) (sh : Share)
    (j : Str) : (f.besides pl ws).share sh j = f.share sh j := rfl

/-- The money after the verdicts, at a deadline. -/
theorem resolveByVerdicts_slash {a : Bool} (hbond : job.disputeBond = 0) (hs : Slashed s job) :
    (resolveByVerdicts c s.params job a s).funds = (slashCheatedPrimary c s.params
      (judgedJob (auditVerdictTally s job.jobId job.minerId) job) s.funds).2 := by
  unfold resolveByVerdicts
  have hb := slashCheatedPrimary_bond (c := c) (p := s.params) (f := s.funds)
    (judgedJob (auditVerdictTally s job.jobId job.minerId) job)
  unfold Slashed at hs
  simp only [hs, if_true]
  rw [refundDisputeBond, if_pos (.inl (hb.trans hbond))]
  rfl

theorem resolveByVerdicts_clear {a : Bool} (hbond : job.disputeBond = 0) (hs : ¬ Slashed s job)
    (hc : Cleared s job) : ∃ w, (resolveByVerdicts c s.params job a s).funds =
      releaseHeld c s.params job (s.funds.warrant job.jobId w) := by
  unfold resolveByVerdicts
  unfold Slashed at hs
  unfold Cleared at hc
  have hno : ¬ job.disputeBond > 0 := by
    rw [hbond]
    decide
  simp only [hs, hc, hno, if_true, if_false, Bool.false_eq_true, closeInstance_funds]
  exact ⟨_, rfl⟩

/-- Without a redo jury there is no fresh answer, and an adjudication goes by the verdicts. -/
theorem adjudication_byVerdicts {a : Adjudication} (hredo : redoCommitteeAllowed s job.jobId = [])
    (h : adjudication c job s = .ok a) : a.tally = auditVerdictTally s job.jobId job.minerId ∧
      (a.tally.voters : Int) ≥ effectiveSlashFloor s.params := by
  simp only [adjudication, bind_ok, ensure_ok, pure_ok] at h
  obtain ⟨-, -, orig, -, -, hq, -, -, rfl⟩ := h
  refine ⟨rfl, hq.resolve_left fun hle => ?_⟩
  have hnil : freshVotes s job.jobId orig (commitAuthorsOf s job.jobId) = [] := by
    unfold freshVotes
    refine List.filterMap_eq_nil_iff.2 fun cm _ => ?_
    simp only [hredo]
    rfl
  have hseats : redoSeats s job.jobId orig (commitAuthorsOf s job.jobId) = 0 := by
    rw [redoSeats, hredo]
    rfl
  rw [hnil, hseats] at hle
  exact absurd hle (by decide)

omit [Chain] in
/-- Nobody votes where no jury is anchored. -/
theorem auditCommitteeAllowed_ne_nil (h : Slashed s job ∨ Cleared s job) :
    auditCommitteeAllowed s job.jobId ≠ [] := by
  intro hnil
  have ht : auditVerdictTally s job.jobId job.minerId = ⟨false, false, 0, 0, 0, 0, 0⟩ := by
    rw [auditVerdictTally, if_pos hnil]
  unfold Slashed Cleared at h
  rw [ht] at h
  simp [auditSlashDecision, auditVindicateDecision] at h

/-- A slash changes nothing of the record of a job but its slashes. -/
theorem slashAdjudicated_job (job : Job) (acc : Loop) :
    ∃ recs, (slashAdjudicated c p job acc).1 = { job with slashRecords := recs } := by
  unfold slashAdjudicated
  split
  · exact ⟨job.slashRecords, rfl⟩
  · simp only
    split
    · exact ⟨_, rfl⟩
    · exact ⟨job.slashRecords, rfl⟩

theorem refundAndReverse_records (recs : List SlashRecord) :
    refundAndReverse c p { job with slashRecords := recs } f = refundAndReverse c p job f := by
  have hfee : ∀ g, refundFee c { job with slashRecords := recs } g = refundFee c job g := fun _ => rfl
  have hcut : ∀ g, refundRetainedCut c { job with slashRecords := recs } g =
      refundRetainedCut c job g := fun _ => rfl
  have hburn : ∀ g, refundBurn c { job with slashRecords := recs } g = refundBurn c job g := fun _ => rfl
  have hdemand : ∀ b m, reverseDemand p { job with slashRecords := recs } b m =
      reverseDemand p job b m := fun _ _ => rfl
  simp only [refundAndReverse, refundRetainedToClient, hfee, hcut, hburn, hdemand]

/-- Nothing is paid for a bond of nothing. -/
theorem payOrForfeit_none {upheld : Prop} [Decidable upheld] {acc acc' : Loop}
    (hb : job.disputeBond = 0) (h : payOrForfeit c upheld job acc = .ok acc') :
    acc'.funds = acc.funds ∧ acc'.pools = acc.pools := by
  unfold payOrForfeit payDisputer at h
  have hr : disputeReward 0 acc.pools = 0 := by
    unfold disputeReward
    split
    · next h => exact absurd h (by simp [UInt64.lt_iff_toNat_lt])
    · rfl
  split at h
  · simp only [hb, hr, UInt64.add_zero, UInt64.sub_zero] at h
    rw [if_neg (by decide), pure_ok] at h
    rw [← h]
    exact ⟨rfl, rfl⟩
  · simp only [hb, UInt64.add_zero, Except.ok.injEq] at h
    rw [← h]
    exact ⟨rfl, rfl⟩

/-- What an adjudication of an open audit without a bond, a redo jury or an earlier slash does. -/
theorem adjudicateDispute_audit {msg : MsgAdjudicateDispute} (h : adjudicateDispute c msg s = .ok s')
    (hid : msg.jobId = job.jobId) (hj : s.job job.jobId = some job)
    (hbond : job.disputeBond = 0) (hredo : redoCommitteeAllowed s job.jobId = [])
    (hrec : job.slashRecords = []) :
    jobIsDisputed job.state = true ∧ jobIsResolved job.state = false ∧
    (¬ (jobIsOptimistic job.state = true ∧ job.minerId ≠ []) →
      s'.funds = s.funds.setPools s.funds.poolsOrZero) ∧
    (jobIsOptimistic job.state = true ∧ job.minerId ≠ [] → (Slashed s job ∨ Cleared s job) ∧
      (Slashed s job → s'.funds = refundAndReverse c s.params job
        ((slashAdjudicated c s.params job ⟨s.funds, s.funds.poolsOrZero, []⟩).2.funds.setPools
          (slashAdjudicated c s.params job ⟨s.funds, s.funds.poolsOrZero, []⟩).2.pools)) ∧
      (¬ Slashed s job → ∃ w, s'.funds = releaseHeld c s.params job
        ((s.funds.setPools s.funds.poolsOrZero).warrant job.jobId w))) := by
  simp only [adjudicateDispute, bind_ok, ensure_ok, require_ok, pure_ok] at h
  obtain ⟨-, -, k, hk, -, hd, -, hr, a, ha, cheated, hch, acc, hacc, rfl⟩ := h
  rw [hid, hj, Option.some.injEq] at hk
  subst hk
  refine ⟨hd, hr, fun hno => ?_, fun hopt => ?_⟩
  · rw [primaryCheated, if_neg hno, Except.ok.injEq] at hch
    subst hch
    simp only [hrec, List.foldl_nil, Bool.false_eq_true, if_false] at hacc ⊢
    obtain ⟨h1, h2⟩ := payOrForfeit_none hbond hacc
    rw [closeInstance_funds, if_neg hno, h1, h2]
  · obtain ⟨htally, hfloor⟩ := adjudication_byVerdicts hredo ha
    rw [primaryCheated, if_pos hopt] at hch
    unfold decideCheated at hch
    rw [if_pos hfloor, htally] at hch
    simp only [bind_ok, ensure_ok, pure_ok] at hch
    obtain ⟨-, hdec, hch⟩ := hch
    refine ⟨hdec, fun hs => ?_, fun hs => ?_⟩
    · have hc : cheated = true := hch.symm.trans hs
      subst hc
      simp only [hrec, List.foldl_nil, if_true] at hacc ⊢
      obtain ⟨recs, he⟩ := slashAdjudicated_job (c := c) (p := s.params) job
        ⟨s.funds, s.funds.poolsOrZero, []⟩
      rw [he] at hacc ⊢
      obtain ⟨h1, h2⟩ := payOrForfeit_none (show Job.disputeBond { job with slashRecords := recs } = 0
        from hbond) hacc
      rw [closeInstance_funds,
        if_pos (show jobIsOptimistic job.state = true ∧ job.minerId ≠ [] from hopt), h1, h2]
      exact refundAndReverse_records recs
    · have hc : cheated = false := hch.symm.trans (Bool.eq_false_iff.2 hs)
      subst hc
      simp only [hrec, List.foldl_nil, Bool.false_eq_true, if_false] at hacc ⊢
      obtain ⟨h1, h2⟩ := payOrForfeit_none hbond hacc
      rw [closeInstance_funds, if_pos hopt, h1, h2]
      exact ⟨_, rfl⟩

/-- An open audit without a bond, a redo jury or an earlier slash, on a state whose account covers what
is owed: where an adjudication concludes, the deadline leaves the same money. Nothing stays retained
when the primary is slashed, nor when it is cleared and its operator and the team can be paid. -/
theorem instances_agree {ok : State → Ctx × Action → Prop} {msg : MsgAdjudicateDispute}
    (hs : Reachable ok s) (hcover : 0 ≤ s.funds.slack) (hno : ∀ n, c.refuses n = false)
    (hno' : ∀ n, c'.refuses n = false) (hj : s.job job.jobId = some job)
    (hid : msg.jobId = job.jobId) (hbond : job.disputeBond = 0)
    (hredo : redoCommitteeAllowed s job.jobId = []) (hrec : job.slashRecords = [])
    (hbz : (Chain.addrBytes job.client).isSome = true) (h : adjudicateDispute c' msg s = .ok s')
    (allowAppeal : Bool) :
    SameMoney job.jobId (resolveDisputedAudit c s.params job.jobId allowAppeal s).funds s'.funds ∧
    (jobIsOptimistic job.state = true ∧ job.minerId ≠ [] → Slashed s job ∨ Deliverable s job →
      ∀ sh, s'.funds.share sh job.jobId = 0) := by
  obtain ⟨cliBz, hbz⟩ := Option.isSome_iff_exists.1 hbz
  obtain ⟨hd, hr, hplain, haudit⟩ := adjudicateDispute_audit h hid hj hbond hredo hrec
  have hopen : ¬ (jobIsDisputed job.state = false ∨ jobIsResolved job.state = true) := by
    rw [hd, hr]
    decide
  have hw : s.Wf := Reachable.wf hs
  have hcoins : s.funds.retainedCoins job.jobId + (slashedAmount s.params job s.funds).toNat ≤
      s.funds.bank.balance := by
    have hheld := retainedCoins_le_heldTotal (f := s.funds) job.jobId
    have hstake := slashedAmount_le_stakes job s.funds hw.checked.slashLeak
    unfold Funds.slack at hcover
    omega
  unfold resolveDisputedAudit
  rw [hj]
  simp only [if_neg hopen]
  by_cases hopt : jobIsOptimistic job.state = true ∧ job.minerId ≠ []
  · obtain ⟨hdec, hslash, hclear⟩ := haudit hopt
    have hseats := auditCommitteeAllowed_ne_nil hdec
    have ha : decide (auditCommitteeAllowed s job.jobId ≠ []) = true := decide_eq_true hseats
    rw [if_pos hopt, ha]
    simp only [Bool.true_eq_false, false_and, if_false]
    by_cases hsl : Slashed s job
    · rw [resolveByVerdicts_slash hbond hsl, hslash hsl]
      have h1 : Condemnation s.params job cliBz s.funds (slashCheatedPrimary c s.params
          (judgedJob (auditVerdictTally s job.jobId job.minerId) job) s.funds).2 :=
        .of_judged (t := auditVerdictTally s job.jobId job.minerId)
          (slashCheatedPrimary_condemns hno hbz hcoins)
      have h2 := slashAdjudicated_condemns (c := c') hno' hbz hcoins
      refine ⟨h1.same h2, fun _ _ sh => ?_⟩
      rw [h2.held, if_pos rfl]
    · obtain ⟨w, hw₁⟩ := resolveByVerdicts_clear (c := c) (a := allowAppeal) hbond hsl
        (hdec.resolve_left hsl)
      obtain ⟨w', hw₂⟩ := hclear hsl
      obtain ⟨pl, hpl, hget⟩ := releaseHeld_besides (c := c) (p := s.params) (f := s.funds)
        job ((job.jobId, w) :: s.funds.warrants) (show s.funds.pools.getD default = _ from rfl)
      obtain ⟨pl', hpl', hget'⟩ := releaseHeld_besides (c := c) (p := s.params) (f := s.funds)
        job ((job.jobId, w') :: s.funds.warrants)
        (show (some s.funds.poolsOrZero).getD default = _ from rfl)
      have e₁ : s.funds.warrant job.jobId w =
          s.funds.besides s.funds.pools ((job.jobId, w) :: s.funds.warrants) := rfl
      have e₂ : (s.funds.setPools s.funds.poolsOrZero).warrant job.jobId w' =
          s.funds.besides (some s.funds.poolsOrZero) ((job.jobId, w') :: s.funds.warrants) := rfl
      rw [hw₁, hw₂, ← releaseHeld_ctx hno hno', e₁, e₂, hpl, hpl']
      refine ⟨(SameMoney.besides job.jobId hget).symm.trans (.besides job.jobId hget'),
        fun _ hor sh => ?_⟩
      obtain ⟨⟨m, hm, hop⟩, hteam⟩ := hor.resolve_left hsl
      rw [share_besides]
      exact releaseHeld_gone hno hcover hm hop hteam sh
  · rw [if_neg hopt, hplain hopt, refundDisputeBond_none (show Job.disputeBond { job with
      state := job.state ++ [.resolved] } = 0 from hbond)]
    exact ⟨.besides job.jobId rfl, fun hopt' => absurd hopt' hopt⟩

end Instances

/-! ## Runs -/

/-- The audit of a settled job, with a jury of four of which each posts one verdict. -/
def voted (verdict : String) : List (Ctx × Action) := [(blockAt 2, opening 100), (blockAt 3, .endBlock),
  (blockAt 4, declares 0), (blockAt 4, declares 1), (blockAt 4, declares 3), (blockAt 4, declares 4),
  (blockAt 4, anchors 2 "" "1"), (blockAt 5, .settleSemantic ⟨client, ticket⟩), (blockAt 6, .endBlock),
  (blockAt 7, anchors 0 "verdict__" verdict), (blockAt 7, anchors 1 "verdict__" verdict),
  (blockAt 7, anchors 3 "verdict__" verdict), (blockAt 7, anchors 4 "verdict__" verdict)]

def adjudicated (s : State) : Except Err State := adjudicateDispute (blockAt 20) ⟨client, ticket⟩ s

/-- What the four call for: the client is refunded, and the stake of the primary falls. -/
abbrev CallsForSlash (s : State) : Prop :=
  (adjudicated s).isOk = true ∧ 0 ≤ s.funds.slack ∧ s.funds.stakes + s.funds.poolCoins ≤ 10 ^ 13 ∧
    (outcome (adjudicated s) s).funds.refunded ticket = 100 ∧
    (((outcome (adjudicated s) s).miner (idOf 2)).map fun m => m.stake.toNat).getD 0 <
      ((s.miner (idOf 2)).map fun m => m.stake.toNat).getD 0 ∧
    redoCommitteeAllowed s ticket = [] ∧ ∃ job ∈ s.job ticket, job.disputeBond = 0 ∧
      job.slashRecords = [] ∧ (Chain.addrBytes job.client).isSome = true

/-- The fee stays retained, whichever instance decides. -/
abbrev LeavesFee (s : State) : Prop :=
  (adjudicated s).isOk = true ∧ (outcome (adjudicated s) s).funds.heldOf .fee ticket = some 40 ∧
    (resolveDisputedAudit (blockAt 30) s.params ticket true s).funds.heldOf .fee ticket = some 40 ∧
    redoCommitteeAllowed s ticket = [] ∧ ∃ job ∈ s.job ticket, job.disputeBond = 0 ∧
      job.slashRecords = [] ∧ (Chain.addrBytes job.client).isSome = true

/-- The four call for a slash; or they clear the primary, whose operator is then not an address. The two
runs part after the jury is seated. -/
theorem exists_voted_either : ∃ s t, Reachable (fun _ _ => True) s ∧ Reachable (fun _ _ => True) t ∧
    CallsForSlash s ∧ LeavesFee t := by
  obtain ⟨r, hr, ht⟩ := exists_reachable (fun _ _ _ => trivial)
    (reachable_village validate_unwindMode (by decide) fun _ _ _ _ => trivial)
    (show endsIn free
      (fun s => endsIn free (fun s => decide (CallsForSlash s)) ((voted "0").drop 9) s &&
        endsIn free (fun s => decide (LeavesFee s)) ((voted "1").drop 9 ++
          [(blockAt 8, .updateMiner ⟨nameOf 2, idOf 2, ['x'], [], 0⟩)]) s)
      ((voted "").take 9) (village unwindMode) = true by
      delta CallsForSlash LeavesFee
      rewrite [application_eq_tabled]
      decide +kernel)
  rw [Bool.and_eq_true] at ht
  obtain ⟨s, hs, hslash⟩ := exists_reachable (fun _ _ _ => trivial) hr ht.1
  obtain ⟨t, ht, hclear⟩ := exists_reachable (fun _ _ _ => trivial) hr ht.2
  exact ⟨s, t, hs, ht, of_decide_eq_true hslash, of_decide_eq_true hclear⟩

/-- The four call for a slash. -/
theorem exists_voted : ∃ s, Reachable (fun _ _ => True) s ∧ CallsForSlash s := by
  obtain ⟨s, -, hs, -, hslash, -⟩ := exists_voted_either
  exact ⟨s, hs, hslash⟩

/-- The four call for a slash, and the client is refunded on either way. -/
theorem instances_agree_slashed : ∃ s s', Reachable (fun _ _ => True) s ∧ adjudicated s = .ok s' ∧
    s'.funds.refunded ticket = 100 ∧
    SameMoney ticket (resolveDisputedAudit (blockAt 30) s.params ticket true s).funds s'.funds := by
  obtain ⟨s, hs, hok, hcover, -, hrefund, -, hredo, job, hj, hbond, hrec, hbz⟩ := exists_voted
  have hid : job.jobId = ticket := Table.key_of_get? hj
  have h : adjudicated s = .ok (outcome (adjudicated s) s) := eq_ok_outcome hok
  have hagree := instances_agree (c := blockAt 30) hs hcover (fun _ => rfl) (fun _ => rfl)
    (by rw [hid]; exact hj) hid.symm hbond (by rw [hid]; exact hredo) hrec hbz h true
  rw [hid] at hagree
  exact ⟨s, _, hs, h, hrefund, hagree.1⟩

/-- The four clear the primary, whose operator is not an address: its fee stays retained on either
way. -/
theorem instances_leave_fee : ∃ s s' job, Reachable (fun _ _ => True) s ∧ s.job ticket = some job ∧
    job.disputeBond = 0 ∧ redoCommitteeAllowed s ticket = [] ∧ job.slashRecords = [] ∧
    (Chain.addrBytes job.client).isSome = true ∧ adjudicated s = .ok s' ∧
    s'.funds.heldOf .fee ticket = some 40 ∧
    (resolveDisputedAudit (blockAt 30) s.params ticket true s).funds.heldOf .fee ticket = some 40 := by
  obtain ⟨-, s, -, hs, -, hok, hfee, hfee', hredo, job, hj, hbond, hrec, hbz⟩ := exists_voted_either
  have h : adjudicated s = .ok (outcome (adjudicated s) s) := eq_ok_outcome hok
  exact ⟨s, _, job, hs, hj, hbond, hredo, hrec, hbz, h, hfee, hfee'⟩

end Dendra.Jobs
