import Dendra.Jobs.Tally
import Dendra.Jobs.Progress.Registry

/-!
# Progress of a settlement

Opening a job, and the messages that tally, settle or pay it. What a settlement takes out of the
account or sets aside is never more than the escrow it frees.

* `splitFee_total`: the six parts of a fee add up to it.
* `settleSemantic_prog`, `payout_prog`, …: one lemma for each message.
-/

namespace Dendra.Jobs

open Word

/-! ## The parts of a fee -/

section Split

variable {p : Params} {fee : UInt64}

/-- The two shares of a cut do not exceed it. -/
theorem shares_le (fee : UInt64) (hs : p.validatorRewardBps.toNat + p.teamFeeBps.toNat ≤ 10000) :
    (bpsOf (cutOf p fee) p.validatorRewardBps).toNat + (bpsOf (cutOf p fee) p.teamFeeBps).toNat ≤
      (cutOf p fee).toNat := by
  have hsmall : (cutOf p fee).toNat * 10000 < 2 ^ 64 := toNat_bpsOf_lt fee p.protocolFeeBps
  rw [toNat_bpsOf_of_small hsmall (by omega), toNat_bpsOf_of_small hsmall (by omega)]
  have h := Nat.mul_le_mul_left (cutOf p fee).toNat hs
  rw [Nat.mul_add] at h
  omega

/-- The burn and the cut of a fee do not wrap. -/
theorem toNat_burn_add_cut (p : Params) (fee : UInt64) :
    (bpsOf fee p.feeBurnBps + cutOf p fee).toNat =
      (bpsOf fee p.feeBurnBps).toNat + (cutOf p fee).toNat := by
  have h1 := toNat_bpsOf_lt fee p.feeBurnBps
  have h2 := toNat_bpsOf_lt fee p.protocolFeeBps
  rw [UInt64.toNat_add]
  simp only [cutOf]
  exact Nat.mod_eq_of_lt (by omega)

/-- What is left for the miner. -/
theorem toNat_minerNetOf (h : fee ≥ bpsOf fee p.feeBurnBps + cutOf p fee) :
    (minerNetOf p fee).toNat + (bpsOf fee p.feeBurnBps).toNat + (cutOf p fee).toNat =
      fee.toNat := by
  have hle := toNat_le_of_le h
  rw [toNat_burn_add_cut] at hle
  have hburn : bpsOf fee p.feeBurnBps ≤ fee := UInt64.le_iff_toNat_le.2 (by omega)
  have hcut : cutOf p fee ≤ fee - bpsOf fee p.feeBurnBps :=
    UInt64.le_iff_toNat_le.2 (by rw [toNat_sub hburn]; omega)
  rw [minerNetOf, toNat_sub hcut, toNat_sub hburn]
  omega

/-- The parts of a fee add up to it. -/
theorem splitFee_total (hb : p.Bounded) (h : fee ≥ bpsOf fee p.feeBurnBps + cutOf p fee) :
    (splitFee p fee).immediate.toNat + (splitFee p fee).held.toNat +
      (splitFee p fee).validators.toNat + (splitFee p fee).team.toNat +
      (splitFee p fee).treasury.toNat + (splitFee p fee).burn.toNat = fee.toNat := by
  have hnet := toNat_minerNetOf h
  have hshares := shares_le fee hb.shares
  have hheld := bpsOf_le (x := minerNetOf p fee) hb.hold
  have hv : bpsOf (cutOf p fee) p.validatorRewardBps ≤ cutOf p fee :=
    UInt64.le_iff_toNat_le.2 (by omega)
  have ht : bpsOf (cutOf p fee) p.teamFeeBps ≤
      cutOf p fee - bpsOf (cutOf p fee) p.validatorRewardBps :=
    UInt64.le_iff_toNat_le.2 (by rw [toNat_sub hv]; omega)
  have h1 := toNat_sub hheld
  have h2 := toNat_le_of_le hheld
  simp only [splitFee]
  rw [toNat_sub ht, toNat_sub hv, h1]
  omega

/-- What a fee that is shared out adds up to. -/
theorem shared_le (fee : UInt64) {bps : UInt64} {n : Nat} (hb : bps.toNat ≤ 10000) (hn : n < 2 ^ 63) :
    n * ((fee - bpsOf fee bps) / UInt64.ofNat n).toNat + (bpsOf fee bps).toNat +
      (fee - bpsOf fee bps - (fee - bpsOf fee bps) / UInt64.ofNat n * UInt64.ofNat n).toNat ≤
        fee.toNat := by
  have hburn := bpsOf_le (x := fee) hb
  have h1 := toNat_sub hburn
  have h2 := toNat_le_of_le hburn
  generalize fee - bpsOf fee bps = d at h1 ⊢
  have hto : (UInt64.ofNat n).toNat = n := by
    rw [UInt64.toNat_ofNat']
    exact Nat.mod_eq_of_lt (by omega)
  have hdiv : n * (d / UInt64.ofNat n).toNat ≤ d.toNat := by
    rw [UInt64.toNat_div, hto]
    exact Nat.mul_div_le _ _
  have hmul : (d / UInt64.ofNat n * UInt64.ofNat n).toNat = n * (d / UInt64.ofNat n).toNat := by
    rw [UInt64.toNat_mul, hto, Nat.mul_comm]
    have := UInt64.toNat_lt d
    exact Nat.mod_eq_of_lt (by omega)
  have hle : d / UInt64.ofNat n * UInt64.ofNat n ≤ d :=
    UInt64.le_iff_toNat_le.2 (by rw [hmul]; exact hdiv)
  rw [toNat_sub hle, hmul]
  omega

end Split

/-! ## Setting coins aside -/

/-- `x` coins are set aside or spent on account of `j`, of which `y` are accounted for. -/
structure Funds.Deposits (j : Str) (x y : Nat) (f f' : Funds) : Prop where
  slack : f.slack ≤ f'.slack + x
  supply : f'.bank.balance + f'.bank.outside ≤ f.bank.balance + f.bank.outside
  others : ∀ k, k ≠ j → f'.purse k = f.purse k
  accounted : (f'.purse j).accounted = (f.purse j).accounted + y
  queued : (f'.purse j).queued = (f.purse j).queued
  warrants : (f'.purse j).warrants = (f.purse j).warrants
  postings : ∃ l, (f'.purse j).postings = l ++ (f.purse j).postings ∧ ∀ p ∈ l, p.kind ≠ .heldFee
  registered : ∀ m, f'.miners.has m = f.miners.has m

namespace Funds

variable {j : Str} {x x' y y' : Nat} {f f' f'' : Funds} {sh : Share} {amt : UInt64}

theorem Deposits.refl (j : Str) (f : Funds) : Deposits j 0 0 f f :=
  ⟨by simp, le_rfl, fun _ _ => rfl, rfl, rfl, rfl, ⟨[], rfl, by simp⟩, fun _ => rfl⟩

theorem Deposits.trans (h : Deposits j x y f f') (h' : Deposits j x' y' f' f'') :
    Deposits j (x + x') (y + y') f f'' where
  slack := by have := h.slack; have := h'.slack; omega
  supply := h'.supply.trans h.supply
  others k hk := (h'.others k hk).trans (h.others k hk)
  accounted := by rw [h'.accounted, h.accounted, Nat.add_assoc]
  queued := h'.queued.trans h.queued
  warrants := h'.warrants.trans h.warrants
  postings := by
    obtain ⟨l, hl, hp⟩ := h.postings
    obtain ⟨l', hl', hp'⟩ := h'.postings
    refine ⟨l' ++ l, by rw [hl', hl, List.append_assoc], fun p hm => ?_⟩
    exact (List.mem_append.1 hm).elim (hp' p) (hp p)
  registered m := (h'.registered m).trans (h.registered m)

/-- A share is retained. -/
theorem Deposits.setHeld (h : f.heldOf sh j = none) :
    Deposits j amt.toNat amt.toNat f (f.setHeld sh j amt) := by
  refine ⟨?_, le_rfl, fun k hk => ?_, ?_, rfl, rfl, ⟨[], rfl, by simp⟩, fun _ => rfl⟩
  · have ht := heldTotal_setHeld_le f sh j amt
    show (f.bank.balance : Int) - (f.stakes + f.heldTotal + f.poolCoins : Nat) ≤
      (f.bank.balance : Int) - (f.stakes + (f.setHeld sh j amt).heldTotal + f.poolCoins : Nat) + _
    omega
  · simp only [purse, heldOf_setHeld_ne hk]
    rfl
  · rw [accounted_purse, accounted_purse, Funds.accounted, Funds.accounted, heldFor_setHeld h]
    show f.posted j + _ = _
    omega

/-- A payment out of the fee. -/
theorem Deposits.paid [Chain] {c : Ctx} {payee : Payee} {p : Posting} {text : String}
    (h : f.payOrFail c payee p text = .ok f') (hj : p.job = j) (hs : p.kind.spendsFee = true)
    (hk : p.kind ≠ .heldFee) : Deposits j p.amount.toNat p.amount.toNat f f' := by
  have hsp := Spends.payOrFail (P := fun p => p.job = j ∧ p.kind ≠ .heldFee) h ⟨hj, hk⟩
  obtain ⟨b, hb, rfl⟩ := payOrFail_ok h
  refine ⟨hsp.slack, hsp.supply, fun k hkj => ?_, ?_, rfl, rfl, ⟨[p], ?_, by simpa using hk⟩,
    fun _ => rfl⟩
  · simp only [purse]
    rw [List.filter_cons_of_neg (by simpa [hj] using Ne.symm hkj)]
    rfl
  · rw [accounted_purse, accounted_purse, Funds.accounted, Funds.accounted]
    rw [posted_cons (f := f) (p := p) rfl, if_pos ⟨hs, hj⟩]
    show f.posted j + _ + f.heldFor j = _
    omega
  · simp only [purse]
    rw [List.filter_cons_of_pos (by simpa using hj)]
    rfl

/-- Dates and rights are no money. -/
theorem Deposits.bookkeeping (since demand : Store Str UInt64)
    (hsn : ∀ k, k ≠ j → since.get k = f.heldSince.get k) :
    Deposits j 0 0 f { f with heldSince := since, heldDemand := demand } := by
  refine ⟨by simp only [Nat.cast_zero, add_zero]; exact le_rfl, le_rfl, fun k hk => ?_, rfl, rfl,
    rfl, ⟨[], rfl, by simp⟩, fun _ => rfl⟩
  simp only [purse, hsn k hk]
  rfl

end Funds

/-! ## The parts of a settlement -/

section Parts

variable {f f' : Funds} {j : Str} {sh : Share} {amt : UInt64}

theorem retainShare_deposits (h : f.heldOf sh j = none) :
    Funds.Deposits j amt.toNat amt.toNat f (retainShare sh j amt f) := by
  unfold retainShare
  split
  · next h0 =>
    subst h0
    exact .refl j f
  · exact .setHeld h

theorem heldOf_retainShare {sh' : Share} (h : sh' ≠ sh) :
    (retainShare sh j amt f).heldOf sh' j = f.heldOf sh' j := by
  unfold retainShare
  split
  · rfl
  · exact Funds.heldOf_setHeld_share h

theorem retainCut_deposits {v t u : UInt64} (hv : f.heldOf .validator j = none)
    (ht : f.heldOf .team j = none) (htr : f.heldOf .treasury j = none) :
    Funds.Deposits j (v.toNat + t.toNat + u.toNat) (v.toNat + t.toNat + u.toNat) f
      (retainCut j v t u f) := by
  unfold retainCut
  refine ((retainShare_deposits hv).trans (retainShare_deposits ?_)).trans
    (retainShare_deposits ?_)
  · rw [heldOf_retainShare (by decide)]
    exact ht
  · rw [heldOf_retainShare (by decide), heldOf_retainShare (by decide)]
    exact htr

theorem heldOf_retainCut (sh : Share) {v t u : UInt64}
    (h : sh ≠ .validator ∧ sh ≠ .team ∧ sh ≠ .treasury) :
    (retainCut j v t u f).heldOf sh j = f.heldOf sh j := by
  unfold retainCut
  rw [heldOf_retainShare h.2.2, heldOf_retainShare h.2.1, heldOf_retainShare h.1]

theorem retainFee_deposits {c : Ctx} (amt : UInt64) (h : f.heldOf .fee j = none) :
    Funds.Deposits j amt.toNat amt.toNat f (retainFee c j amt f) := by
  unfold retainFee
  split
  · exact (Funds.Deposits.setHeld h).trans (.bookkeeping _ _ fun _ hk => Store.get_set_ne hk)
  · next h0 =>
    have : amt.toNat = 0 := by simpa [UInt64.lt_iff_toNat_lt] using h0
    rw [this]
    exact .refl j f

theorem heldOf_retainFee {c : Ctx} (h : sh ≠ .fee) :
    (retainFee c j amt f).heldOf sh j = f.heldOf sh j := by
  unfold retainFee
  split
  · exact Funds.heldOf_setHeld_share h
  · rfl

theorem heldOf_fee_retainFee {c : Ctx} (h : amt ≠ 0) :
    (retainFee c j amt f).heldOf .fee j = some amt := by
  have : amt > 0 := by
    rw [gt_iff_lt, UInt64.lt_iff_toNat_lt]
    exact Nat.pos_of_ne_zero fun e => h (UInt64.toNat_inj.1 e)
  unfold retainFee
  rw [if_pos this]
  exact Funds.heldOf_setHeld_self

theorem retainDemand_deposits (job : Job) (miner : Miner) (amt : UInt64) :
    Funds.Deposits j 0 0 f (retainDemand job miner amt f) ∧
      (retainDemand job miner amt f).held = f.held := by
  unfold retainDemand
  split
  · exact ⟨.bookkeeping f.heldSince _ fun _ _ => rfl, rfl⟩
  · exact ⟨.refl j f, rfl⟩

variable [Chain] {c : Ctx}

theorem retainBurn_deposits {p : Params} (hf : f.heldOf .burn j = none)
    (h : retainBurn c p j amt f = .ok f') :
    Funds.Deposits j amt.toNat amt.toNat f f' ∧ f'.heldOf .fee j = f.heldOf .fee j := by
  unfold retainBurn at h
  split at h
  · split at h
    · rw [pure_ok] at h
      subst h
      exact ⟨.setHeld hf, Funds.heldOf_setHeld_share (by decide)⟩
    · refine ⟨.paid h rfl rfl (by simp), ?_⟩
      obtain ⟨b, -, rfl⟩ := Funds.payOrFail_ok h
      rfl
  · next h0 =>
    have : amt.toNat = 0 := by simpa [UInt64.lt_iff_toNat_lt] using h0
    rw [pure_ok] at h
    subst h
    rw [this]
    exact ⟨.refl j f, rfl⟩

/-- The coins paid at once; of an operator without a readable address they are forgotten. -/
theorem payImmediate_deposits {job : Job} {miner : Miner}
    (h : payImmediate c job miner amt f = .ok f') : f'.held = f.held ∧ ∃ y,
      Funds.Deposits job.jobId amt.toNat y f f' ∧
        ((Chain.addrBytes miner.operator).isSome = true ∨ amt = 0 → y = amt.toNat) := by
  unfold payImmediate at h
  split at h
  · next hpos =>
    split at h
    · next hn =>
      rw [pure_ok] at h
      subst h
      refine ⟨rfl, 0, ?_, ?_⟩
      · exact { Funds.Deposits.refl job.jobId f with slack := by omega }
      · rintro (hs | rfl)
        · rw [hn] at hs
          cases hs
        · simp at hpos
    · refine ⟨?_, amt.toNat, .paid h rfl rfl (by simp), fun _ => rfl⟩
      obtain ⟨b, -, rfl⟩ := Funds.payOrFail_ok h
      rfl
  · next h0 =>
    have : amt.toNat = 0 := by simpa [UInt64.lt_iff_toNat_lt] using h0
    rw [pure_ok] at h
    subst h
    exact ⟨rfl, 0, this ▸ .refl job.jobId f, fun _ => this.symm⟩

end Parts

/-! ## The optimistic mode -/

section Optimistic

variable [Chain] {c : Ctx} {E : Label → Prop} {s s' : State} {job : Job}

/-- The funds after an optimistic settlement of a job that nothing is retained for. -/
theorem settledFunds_deposits {p : Params} {miner : Miner} {f f₁ f' : Funds} {right : UInt64}
    (hnone : ∀ sh, f.heldOf sh job.jobId = none)
    (h₁ : payImmediate c job miner (splitFee p job.fee).immediate f = .ok f₁)
    (h : retainBurn c p job.jobId (splitFee p job.fee).burn
      (retainDemand job miner right (retainCut job.jobId (splitFee p job.fee).validators
        (splitFee p job.fee).team (splitFee p job.fee).treasury
        (retainFee c job.jobId (splitFee p job.fee).held f₁))) = .ok f') :
    ∃ y, Funds.Deposits job.jobId ((splitFee p job.fee).immediate.toNat +
        (splitFee p job.fee).held.toNat + ((splitFee p job.fee).validators.toNat +
          (splitFee p job.fee).team.toNat + (splitFee p job.fee).treasury.toNat) +
        (splitFee p job.fee).burn.toNat) y f f' ∧
      ((Chain.addrBytes miner.operator).isSome = true ∨ (splitFee p job.fee).immediate = 0 →
        y = (splitFee p job.fee).immediate.toNat + (splitFee p job.fee).held.toNat +
          ((splitFee p job.fee).validators.toNat + (splitFee p job.fee).team.toNat +
            (splitFee p job.fee).treasury.toNat) + (splitFee p job.fee).burn.toNat) ∧
      ((splitFee p job.fee).held ≠ 0 → f'.heldOf .fee job.jobId ≠ none) := by
  obtain ⟨hheld₁, y, hd₁, hy⟩ := payImmediate_deposits h₁
  have hnone₁ : ∀ sh, f₁.heldOf sh job.jobId = none := by
    intro sh
    rw [Funds.heldOf, hheld₁]
    exact hnone sh
  have hd₂ := retainFee_deposits (c := c) (splitFee p job.fee).held (hnone₁ .fee)
  have hnone₂ : ∀ sh, sh ≠ .fee →
      (retainFee c job.jobId (splitFee p job.fee).held f₁).heldOf sh job.jobId = none := by
    intro sh hsh
    rw [heldOf_retainFee hsh]
    exact hnone₁ sh
  have hd₃ := retainCut_deposits (v := (splitFee p job.fee).validators)
    (t := (splitFee p job.fee).team) (u := (splitFee p job.fee).treasury)
    (hnone₂ .validator (by decide)) (hnone₂ .team (by decide)) (hnone₂ .treasury (by decide))
  obtain ⟨hd₄, hheld₄⟩ := retainDemand_deposits job miner right
    (j := job.jobId) (f := retainCut job.jobId (splitFee p job.fee).validators
      (splitFee p job.fee).team (splitFee p job.fee).treasury
      (retainFee c job.jobId (splitFee p job.fee).held f₁))
  obtain ⟨hd₅, hfee⟩ := retainBurn_deposits (by
    rw [Funds.heldOf, hheld₄]
    exact (heldOf_retainCut _ (by decide)).trans (hnone₂ .burn (by decide))) h
  refine ⟨_, (((hd₁.trans hd₂).trans hd₃).trans hd₄).trans hd₅, fun hp => ?_, fun hne => ?_⟩
  · rw [hy hp]
    omega
  · rw [hfee, Funds.heldOf, hheld₄]
    have e := heldOf_retainCut .fee (j := job.jobId)
      (f := retainFee c job.jobId (splitFee p job.fee).held f₁)
      (v := (splitFee p job.fee).validators) (t := (splitFee p job.fee).team)
      (u := (splitFee p job.fee).treasury) (by decide)
    rw [heldOf_fee_retainFee hne] at e
    exact fun hn => by rw [Funds.heldOf] at e; rw [hn] at e; cases e

/-- An optimistic settlement: whom it settles for, and the state it leaves. -/
theorem settleOptimistic_spec (h : settleOptimistic c job s = .ok s') :
    ∃ primId pc miner f₁ f' right,
      primaryOf s job.jobId = .ok primId ∧ primId ≠ [] ∧
      s.commit (job.jobId ++ commitKeySep ++ primId) = some pc ∧
      (parseIntVec pc.resultCommit).isSome = true ∧
      job.fee ≥ bpsOf job.fee s.params.feeBurnBps + cutOf s.params job.fee ∧
      s.miner primId = some miner ∧
      payImmediate c job miner (splitFee s.params job.fee).immediate s.funds = .ok f₁ ∧
      retainBurn c s.params job.jobId (splitFee s.params job.fee).burn
        (retainDemand job miner right (retainCut job.jobId (splitFee s.params job.fee).validators
          (splitFee s.params job.fee).team (splitFee s.params job.fee).treasury
          (retainFee c job.jobId (splitFee s.params job.fee).held f₁))) = .ok f' ∧
      ∃ r, s' = { s with
        funds := f'
        jobs := s.jobs.put
          { job with minerId := primId, state := job.state ++ [.paid, .optimistic] }
        registry := r
        queues := { s.queues with
          pendingAudit := s.queues.pendingAudit.insert (qkey (addInt64 c.h 1) job.jobId) } } := by
  simp only [settleOptimistic, bind_ok, ensure_ok, require_ok, getMiner, pure_ok] at h
  obtain ⟨primId, hprim, pc, hpc, -, hparse, -, hfee, -, -, miner, hm, f₁, h₁, f', h', rfl⟩ := h
  have hne : primId ≠ [] := by
    simp only [primaryOf, bind_ok, ensure_ok, pure_ok] at hprim
    obtain ⟨prim, -, -, hne, rfl⟩ := hprim
    exact hne
  exact ⟨primId, pc, miner, f₁, f', _, hprim, hne, hpc, hparse, hfee, hm, h₁, h', _, rfl⟩

theorem settleOptimistic_prog
    (hE : ∀ primId miner, primaryOf s job.jobId = .ok primId → s.miner primId = some miner →
      E (.settle s.params job.fee (Chain.addrBytes miner.operator).isSome))
    (hw : s.Wf) (hj : s.job job.jobId = some job) (hp : jobIsPaid job.state = false)
    (hr : jobEscrowReturned job.state = false)
    (h : settleOptimistic c job s = .ok s') : Prog E s s' := by
  obtain ⟨primId, pc, miner, f₁, f', right, hprim, hne, hpc, hparse, hfee, hm, h₁, h', r, rfl⟩ :=
    settleOptimistic_spec h
  obtain ⟨y, hd, hy, hheld⟩ := settledFunds_deposits (hw.heldOf_eq_none hj hp) h₁ h'
  refine .of_record
    (t := { job with minerId := primId, state := job.state ++ [.paid, .optimistic] })
    (hE primId miner hprim hm) hw hj hd.others
    (fun k hk => Queue.heights_insert_ne hk) (fun _ _ => rfl) (fun _ _ => rfl) (fun _ _ _ => rfl)
    hd.registered (fun hb => ?_) hd.supply ?_
  · have hs := hd.slack
    have ht := splitFee_total hb hfee
    have ho : job.owed = job.fee.toNat + job.openBond := by
      simp [Job.owed, Job.escrow, hp, hr]
    have ho' : Job.owed { job with minerId := primId, state := job.state ++ [.paid, .optimistic] } =
        job.openBond := by
      simp only [Job.owed, Job.escrow, Job.openBond, jobIsPaid_append, jobIsDisputed_append,
        jobIsResolved_append]
      simp [jobIsPaid, jobIsDisputed, jobIsResolved]
    rw [ho, ho']
    omega
  · have hq := Queue.heights_insert_self (q := s.queues.pendingAudit) (h := addInt64 c.h 1)
      (j := job.jobId)
    simp only [hq]
    refine Life.settled (v := view s job.jobId) (p := s.params)
      (k := { job with minerId := primId, state := job.state ++ [.paid, .optimistic] }) hj hp
      rfl rfl rfl hne ?_ ?_ hd.queued hd.warrants hd.postings hheld (fun hb hpay hn => ?_) hr rfl
    · simp only [view, Set.mem_ofPred_eq, answerOf, hpc, Option.bind_some]
      exact hparse
    · exact Table.has_of_get? hm
    · have ht := splitFee_total hb hfee
      rw [hd.accounted, hy hpay]
      show _ = (s.funds.purse job.jobId).accounted + job.fee.toNat
      omega

end Optimistic

/-! ## The redundant mode -/

section Redundant

/-- A posting of the redundant mode. -/
def OfWork (j : Str) (p : Posting) : Prop := p.job = j ∧ p.kind ≠ .heldFee

/-- A posting beside the fee is one of the redundant mode's. -/
theorem ofWork_of_beside {j : Str} (p : Posting) (h : Funds.Beside j p) : OfWork j p :=
  ⟨h.1, fun e => by have := h.2; rw [e] at this; cases this⟩

/-- A purse after postings on its own account. -/
theorem purse_of_spends_on {x : Int} {j : Str} {ok : Posting → Prop} {f f' : Funds}
    (h : Funds.Spends x ok f f') (hok : ∀ p, ok p → p.job = j) :
    (∀ k, k ≠ j → f'.purse k = f.purse k) ∧ ∃ l, (∀ p ∈ l, ok p) ∧
      f'.purse j = { f.purse j with postings := l ++ (f.purse j).postings } := by
  obtain ⟨l, hl, hp⟩ := h.journal
  refine ⟨fun k hk => ?_, l, hp, ?_⟩
  · simp only [Funds.purse, h.warrants, h.pending, h.heldSince, hl]
    rw [Funds.filter_append_ne fun p hm => hok p (hp p hm) ▸ Ne.symm hk]
    simp only [h.heldOf]
  · simp only [Funds.purse, h.warrants, h.pending, h.heldSince, hl]
    rw [Funds.filter_append_self fun p hm => hok p (hp p hm)]
    simp only [h.heldOf]

section Owed

variable {job job' : Job} {marks : List Mark}

/-- Nothing is owed for a job that is paid, but the bond of its dispute. -/
theorem owed_of_paid (hx : job'.disputeBond = job.disputeBond) (hst : job'.state = job.state ++ marks) (hm : ∀ m ∈ marks, m.redundant)
    (hp : jobIsPaid job'.state = true) : job'.owed = job.openBond := by
  have hd : jobIsDisputed marks = false := contains_eq_false_of_forall fun m hmm => (hm m hmm).ne.2.1
  have hr : jobIsResolved marks = false :=
    contains_eq_false_of_forall fun m hmm => (hm m hmm).ne.2.2.1
  rw [Job.owed, Job.escrow, hp, Job.openBond, hst, jobIsDisputed_append, jobIsResolved_append, hd,
    hr, Bool.or_false, Bool.or_false, hx, Job.openBond]
  simp

/-- A job that was only tallied owes what it owed. -/
theorem owed_of_tallied {j k : Job} (hx : k.disputeBond = j.disputeBond) (hfee : k.fee = j.fee)
    {l : List Mark} (hst : k.state = j.state ++ l) (hm : ∀ m ∈ l, m.redundant)
    (hp : jobIsPaid l = false) : k.owed = j.owed := by
  have hd : jobIsDisputed l = false := contains_eq_false_of_forall fun m hmm => (hm m hmm).ne.2.1
  have hr : jobIsResolved l = false :=
    contains_eq_false_of_forall fun m hmm => (hm m hmm).ne.2.2.1
  have he : jobEscrowReturned l = false :=
    contains_eq_false_of_forall fun m hmm => (hm m hmm).ne.2.2.2
  simp only [Job.owed, Job.escrow, Job.openBond, hst, jobIsPaid_append, jobIsDisputed_append,
    jobIsResolved_append, jobEscrowReturned_append, hd, hr, he, hp, Bool.or_false, hx, hfee]

/-- What an unsettled job owes. -/
theorem owed_of_unpaid (hp : jobIsPaid job.state = false)
    (hr : jobEscrowReturned job.state = false) : job.owed = job.fee.toNat + job.openBond := by
  simp [Job.owed, Job.escrow, hp, hr]

end Owed

variable [Chain] {c : Ctx} {E : Label → Prop} {s s' : State} {job job' : Job}

/-- A job takes marks of the redundant mode, and coins move on its account. -/
theorem Prog.of_mark (hE : E .plain) (hw : s.Wf) {l : List Mark} {ok : Posting → Prop} {x : Int}
    {f : Funds} (hj : s.job job.jobId = some job) (hp : jobIsPaid job.state = false)
    (hx : job.Extends l job') (hm : ∀ m ∈ l, m.redundant)
    (hf : Funds.Spends x ok s.funds f) (hok : ∀ p, ok p → OfWork job.jobId p)
    (hs : (∀ p, ok p → p.kind.drawsEscrow = false) ∨
      jobIsPaid job'.state = true ∧ jobEscrowReturned job.state = false)
    (hcost : x + job'.owed ≤ job.owed) :
    Prog E s { s with funds := f, jobs := s.jobs.put job' } := by
  obtain ⟨hothers, l, hl, hpurse⟩ := purse_of_spends_on hf fun p hp => (hok p hp).1
  have hjid : s.job job'.jobId = some job := by rw [hx.jobId]; exact hj
  refine .of_record (r := s.registry) (u := s.juries) (q := s.queues) hE hw hjid
    (by rw [hx.jobId]; exact hothers) (fun _ _ => rfl) (fun _ _ => rfl) (fun _ _ => rfl)
    (fun _ _ _ => rfl) hf.registered (fun _ => ?_) hf.supply ?_
  · have := hf.slack
    omega
  · rw [hx.jobId, hpurse]
    refine Life.marked (v := view s job.jobId) hj hp hx hm (fun p hpl => (hok p (hl p hpl)).2) ?_
    exact hs.imp (fun hs p hpl => hs p (hl p hpl)) id

/-! ### The loops -/

variable {p : Params} {per : UInt64} {vecs : List (Str × List Int)} {acc acc' : Loop}

/-- A member is paid its share, or slashed for nothing. -/
theorem settleMember_spends {e : Str × List Int} (hp : p.slashLeakBps.toNat ≤ 10000)
    (h : settleMember c p job per vecs acc e = .ok acc') :
    Funds.Spends (if inMajority vecs e then per.toNat else 0) (OfWork job.jobId) acc.settled
      acc'.settled := by
  unfold settleMember at h
  split at h
  · next hin =>
    simp only [bind_ok, pure_ok] at h
    obtain ⟨f, hf, rfl⟩ := h
    rw [if_pos hin]
    rcases payWinner_cases hf with rfl | ⟨b, hb, rfl⟩
    · exact (Funds.Spends.refl _ _).mono_cost (by omega)
    · exact Funds.Spends.paid (f := acc.settled) (p := ⟨.work, job.jobId, e.1, per⟩) hb
        ⟨rfl, by simp⟩
  · next hin =>
    rw [pure_ok] at h
    subst h
    rw [if_neg hin]
    exact slashLoser_spends hp

/-- Settling a committee costs the shares of its majority. -/
theorem settleMembers_spends (hp : p.slashLeakBps.toNat ≤ 10000) (l : List (Str × List Int))
    {acc : Loop} (h : l.foldlM (settleMember c p job per vecs) acc = .ok acc') :
    Funds.Spends (l.countP (inMajority vecs) * per.toNat : Nat) (OfWork job.jobId) acc.settled
      acc'.settled := by
  induction l generalizing acc with
  | nil =>
    cases h
    exact (Funds.Spends.refl _ _).mono_cost (by simp)
  | cons e l ih =>
    rw [List.foldlM_cons, bind_ok] at h
    obtain ⟨acc₁, h₁, h⟩ := h
    refine ((settleMember_spends hp h₁).trans (ih h)).mono_cost ?_
    rw [List.countP_cons, Nat.add_mul]
    split
    · push_cast
      omega
    · push_cast
      omega

/-- The burn and the remainder. -/
theorem closeEscrow_spends {burnAmt surplus : UInt64} {f f' : Funds}
    (h : closeEscrow c job burnAmt surplus f = .ok f') :
    Funds.Spends (burnAmt.toNat + surplus.toNat) (OfWork job.jobId) f f' := by
  obtain ⟨f₁, h₁, h₂⟩ := closeEscrow_cases h
  have hburn : Funds.Spends burnAmt.toNat (OfWork job.jobId) f f₁ := by
    rcases h₁ with rfl | h₁
    · exact (Funds.Spends.refl _ _).mono_cost (by omega)
    · exact .payOrFail h₁ ⟨rfl, by simp⟩
  have hsurplus : Funds.Spends surplus.toNat (OfWork job.jobId) f₁ f' := by
    rcases h₂ with rfl | ⟨cliBz, h₂⟩
    · exact (Funds.Spends.refl _ _).mono_cost (by omega)
    · exact .payOrFail h₂ ⟨rfl, by simp⟩
  exact hburn.trans hsurplus

/-! ### The messages -/

/-- A tally slashes, and takes no coin out of the account. -/
theorem Prog.of_tally (hE : E .plain) (hw : s.Wf) {mark : Mark} {losers : List Str}
    (hj : s.job job.jobId = some job) (hp : jobIsPaid job.state = false)
    (hm : mark = .verified ∨ mark = .finalized) {acc : Loop}
    (hacc : acc = losers.foldl (slashLoser s.params true) ⟨s.funds, s.funds.poolsOrZero, []⟩) :
    Prog E s { s with
      funds := acc.funds.setPools acc.pools
      jobs := s.jobs.put { job with
        state := job.state ++ [mark], slashRecords := job.slashRecords ++ acc.slashed } } := by
  have hf : Funds.Spends (0 + 0) (Funds.Beside job.jobId) s.funds acc.settled := by
    rw [hacc]
    exact (settled_start s.funds []).trans (slashLosers_spends hw.checked.slashLeak losers _)
  have hmarks : ∀ m ∈ [mark], m.redundant := by
    rintro m (_ | ⟨_, ⟨⟩⟩)
    exact hm.elim (fun e => .inr (.inr (.inr e))) fun e => .inr (.inr (.inl e))
  refine .of_mark (l := [mark]) hE hw hj hp ⟨rfl, rfl, rfl, rfl, rfl, fun _ => .inl rfl⟩ hmarks hf
    ofWork_of_beside (.inl fun p hp => hp.2) ?_
  rw [owed_of_tallied (j := job) (l := [mark]) (k := { job with
    state := job.state ++ [mark], slashRecords := job.slashRecords ++ acc.slashed }) rfl rfl rfl
    hmarks (by rcases hm with rfl | rfl <;> rfl)]
  omega

theorem verifySemantic_prog (hE : E .plain) (hw : s.Wf) {msg : MsgVerifySemantic}
    (h : verifySemantic msg s = .ok s') : Prog E s s' := by
  simp only [verifySemantic, bind_ok, ensure_ok, require_ok, pure_ok] at h
  obtain ⟨-, -, -, -, job, hj, -, hk, -, -, -, -, -, -, rfl⟩ := h
  have hid : job.jobId = msg.jobId := Table.key_of_get? hj
  refine .of_tally hE hw (by rw [hid]; exact hj) ?_ (.inl rfl) rfl
  simp only [jobK3Adjudicated, Bool.or_eq_false_iff] at hk
  exact hk.1.1

theorem finalizeJob_prog (hE : E .plain) (hw : s.Wf) {msg : MsgFinalizeJob}
    (h : finalizeJob msg s = .ok s') : Prog E s s' := by
  simp only [finalizeJob, bind_ok, ensure_ok, require_ok, pure_ok] at h
  obtain ⟨-, -, -, -, job, hj, -, hk, -, -, -, -, -, -, rfl⟩ := h
  have hid : job.jobId = msg.jobId := Table.key_of_get? hj
  refine .of_tally hE hw (by rw [hid]; exact hj) ?_ (.inr rfl) rfl
  simp only [jobK3Adjudicated, Bool.or_eq_false_iff] at hk
  exact hk.1.1

/-- A job whose escrow is shared out. -/
theorem Prog.of_payment (hE : E .plain) (hw : s.Wf) {l : List Mark} {x : Int} {f : Funds}
    (hj : s.job job.jobId = some job) (hp : jobIsPaid job.state = false)
    (hr : jobEscrowReturned job.state = false) (hx : job.Extends l job')
    (hbond : job'.disputeBond = job.disputeBond) (hm : ∀ m ∈ l, m.redundant)
    (hpaid : jobIsPaid l = true) (hf : Funds.Spends x (OfWork job.jobId) s.funds f)
    (hcost : x ≤ job.fee.toNat) : Prog E s { s with funds := f, jobs := s.jobs.put job' } := by
  have hpaid' : jobIsPaid job'.state = true := by
    rw [hx.state, jobIsPaid_append, hpaid, Bool.or_true]
  refine .of_mark hE hw hj hp hx hm hf (fun _ h => h) (.inr ⟨hpaid', hr⟩) ?_
  rw [owed_of_paid hbond hx.state hm hpaid', owed_of_unpaid hp hr]
  push_cast
  omega

theorem settleRedundant_prog (hE : E .plain) (hw : s.Wf) (hj : s.job job.jobId = some job)
    (hp : jobIsPaid job.state = false) (hr : jobEscrowReturned job.state = false)
    (h : settleRedundant c job s = .ok s') : Prog E s s' := by
  simp only [settleRedundant, bind_ok, ensure_ok, pure_ok] at h
  obtain ⟨committee, hc, -, -, -, -, -, -, acc, hacc, f, hf, rfl⟩ := h
  have hn : (committeeVecs s job.jobId committee).countP
      (inMajority (committeeVecs s job.jobId committee)) < 2 ^ 63 := by
    have h1 := length_committeeVecs_le s job.jobId committee
    have h2 := length_assignedCommittee_le hc
    have h3 := workCommitteeSize_lt s
    have h4 := List.countP_le_length (p := inMajority (committeeVecs s job.jobId committee))
      (l := committeeVecs s job.jobId committee)
    omega
  have hs := shared_le job.fee hw.checked.feeBurn hn
  refine .of_payment (l := [.paid, .finalized]) hE hw hj hp hr ⟨rfl, rfl, rfl, rfl, rfl, fun _ => .inl rfl⟩ rfl
    (fun m hm => ?_) rfl
    (((settled_start s.funds []).trans (settleMembers_spends hw.checked.slashLeak _ hacc)).trans
      (closeEscrow_spends hf)) ?_
  · rcases List.mem_cons.1 hm with rfl | hm
    · exact .inl rfl
    · exact .inr (.inr (.inl (by simpa using hm)))
  · push_cast
    omega

theorem settleSemantic_prog {msg : MsgSettleSemantic} (hE : E .plain)
    (hE' : s.params.verificationMode = 1 → ∀ job primId miner, s.job msg.jobId = some job →
      primaryOf s msg.jobId = .ok primId → s.miner primId = some miner →
      E (.settle s.params job.fee (Chain.addrBytes miner.operator).isSome))
    (hw : s.Wf) (h : settleSemantic c msg s = .ok s') : Prog E s s' := by
  simp only [settleSemantic, bind_ok, ensure_ok, require_ok] at h
  obtain ⟨-, -, job, hj, -, hp, -, hr, -, -, h⟩ := h
  have hid : job.jobId = msg.jobId := Table.key_of_get? hj
  have hj' : s.job job.jobId = some job := by rw [hid]; exact hj
  split at h
  · next hmode =>
    refine settleOptimistic_prog (fun primId miner hprim hm => ?_) hw hj' hp hr h
    exact hE' hmode job primId miner hj (hid ▸ hprim) hm
  · exact settleRedundant_prog hE hw hj' hp hr h

theorem payout_prog (hE : E .plain) (hw : s.Wf) {msg : MsgPayout}
    (h : payout c msg s = .ok s') : Prog E s s' := by
  simp only [payout, bind_ok, ensure_ok, require_ok, pure_ok] at h
  obtain ⟨-, -, -, -, committee, hc, job, hj, -, hp, -, hr, -, -, -, -, -, -, -, -, f₁, h₁, f, hf,
    rfl⟩ := h
  have hid : job.jobId = msg.jobId := Table.key_of_get? hj
  have hn : (winners (commitByMiner s msg.jobId committee)).length < 2 ^ 63 := by
    have h1 := length_commitByMiner_le s msg.jobId committee
    have h2 := length_assignedCommittee_le hc
    have h3 := workCommitteeSize_lt s
    have h4 := length_winners_le (commitByMiner s msg.jobId committee)
    omega
  have hs := shared_le job.fee hw.checked.feeBurn hn
  refine .of_payment (l := [.paid]) hE hw (by rw [hid]; exact hj) hp hr
    ⟨rfl, rfl, rfl, rfl, rfl, fun _ => .inl rfl⟩ rfl (fun m hm => .inl (by simpa using hm)) rfl
    ((payWinners_spends _ h₁ fun mid _ => ⟨rfl, by simp⟩).trans (closeEscrow_spends hf)) ?_
  push_cast
  omega

/-- Coins that go from one account to another do not touch the module's. -/
theorem sendWinner_spends {amt : UInt64} {f f' : Funds} {mid : Str} {ok : Posting → Prop}
    (h : sendWinner c amt f mid = .ok f') : Funds.Spends 0 ok f f' := by
  unfold sendWinner at h
  split at h
  · cases h
    exact .refl _ _
  · split at h
    · cases h
      exact .refl _ _
    · split at h
      · next b hb =>
        cases h
        obtain ⟨h1, h2⟩ := Bank.send_eq_some hb
        refine ⟨?_, le_of_eq h2, rfl, rfl, rfl, rfl, rfl, ⟨[], rfl, by simp⟩, fun _ => rfl⟩
        show (f.bank.balance : Int) - (f.stakes + f.heldTotal + f.poolCoins : Nat) ≤
          (b.balance : Int) - (f.stakes + f.heldTotal + f.poolCoins : Nat) + 0
        omega
      · cases h

theorem sendWinners_spends {amt : UInt64} {ok : Posting → Prop} (ws : List Str) {f f' : Funds}
    (h : ws.foldlM (sendWinner c amt) f = .ok f') : Funds.Spends 0 ok f f' := by
  induction ws generalizing f with
  | nil =>
    cases h
    exact .refl _ _
  | cons w ws ih =>
    rw [List.foldlM_cons, bind_ok] at h
    obtain ⟨g, hg, h⟩ := h
    exact (sendWinner_spends hg).trans (ih h)

theorem settlePay_prog (hE : E .plain) (hw : s.Wf) {msg : MsgSettlePay}
    (h : settlePay c msg s = .ok s') : Prog E s s' := by
  simp only [settlePay, bind_ok, ensure_ok, require_ok] at h
  obtain ⟨-, -, job, hj, -, -, -, -, -, hp, -, hr, -, -, committee, -, -, -, -, -, h⟩ := h
  have hid : job.jobId = msg.jobId := Table.key_of_get? hj
  split at h
  · cases h
  · simp only [bind_ok, pure_ok] at h
    obtain ⟨f₁, h₁, f, hf, rfl⟩ := h
    refine .of_payment (l := [.settled]) hE hw (by rw [hid]; exact hj) hp hr
      ⟨rfl, rfl, rfl, rfl, rfl, fun _ => .inl rfl⟩ rfl (fun m hm => .inr (.inl (by simpa using hm))) rfl
      ((sendWinner_spends h₁).trans (sendWinners_spends _ hf)) ?_
    omega

end Redundant

/-! ## Opening a job -/

section Open

variable [Chain] {c : Ctx} {E : Label → Prop} {s s' : State}

/-- A committee is anchored as a list of registered miners. -/
theorem anchorWorkCommittee_eq (s : State) (j : Str) :
    ∃ wc, anchorWorkCommittee s j = { s with workCommittee := wc } ∧
      ((∀ m, s.funds.miners.has m = true → WfMinerId m) → ∀ k raw, wc.get k = some raw →
        s.workCommittee.get k = some raw ∨ IdList raw) := by
  unfold anchorWorkCommittee
  split
  · exact ⟨_, rfl, fun _ _ _ h => .inl h⟩
  · split
    · exact ⟨_, rfl, fun _ _ _ h => .inl h⟩
    · exact ⟨_, rfl, fun _ _ _ h => .inl h⟩
    · next a as hd =>
      refine ⟨_, rfl, fun hm k raw h => ?_⟩
      by_cases hk : k = j
      · subst hk
        rw [Store.get_set_self, Option.some.injEq] at h
        exact .inr ⟨a :: as, h.symm, List.cons_ne_nil _ _,
          fun m hmem => hm m (mem_deriveCommitteeOrdered hd hmem)⟩
      · rw [Store.get_set_ne hk] at h
        exact .inl h

omit [Chain] in
theorem openBeacon_eq (c : Ctx) (j : Str) (s : State) : ∃ b q, openBeacon c j s =
    { s with beacons := b, queues := { s.queues with pendingReveal := q } } := by
  unfold openBeacon
  simp only
  split
  · exact ⟨_, _, rfl⟩
  · exact ⟨_, _, rfl⟩

/-- The appointments after a job was opened. -/
def expiryQueue (c : Ctx) (p : Params) (j : Str) (fee : UInt64) (q : Queue) : Queue :=
  if fee > 0 then q.insert (qkey (addInt64 c.h p.effectiveJobExpiry) j) else q

/-- Opening a job: its escrow is collected, its record and its appointment are written. -/
theorem openJob_spec {msg : MsgOpenJob} (h : openJob c msg s = .ok s') :
    ∃ f, s.funds.collect c msg.fee "escrow" = .ok f ∧ WfJobId msg.jobId ∧
      s.job msg.jobId = none ∧ ∃ b q frz wc,
        ((∀ m, s.funds.miners.has m = true → WfMinerId m) → ∀ k raw, wc.get k = some raw →
          s.workCommittee.get k = some raw ∨ IdList raw) ∧ s' = { s with
        funds := f
        jobs := s.jobs.put (newJob msg)
        beacons := b
        workCommittee := wc
        jobPoolFreezeHeight := frz
        queues := { s.queues with
          pendingReveal := q
          pendingJobExpiry :=
            expiryQueue c s.params msg.jobId msg.fee s.queues.pendingJobExpiry } } := by
  simp only [openJob, bind_ok, ensure_ok, pure_ok] at h
  obtain ⟨-, -, -, hwf, -, -, f, hf, -, -, -, hnone, rfl⟩ := h
  obtain ⟨b, q, hb⟩ := openBeacon_eq c msg.jobId (s.setFunds f)
  simp only [hb] at hnone ⊢
  refine ⟨f, hf, hwf, hnone, b, q, s.jobPoolFreezeHeight.set msg.jobId (frozenPoolAnchor c), ?_⟩
  split
  · have hminers : f.miners = s.funds.miners := by
      obtain ⟨bk, rfl, -⟩ := Funds.collect_ok hf
      rfl
    have hsched : scheduleExpiry c msg.jobId msg.fee
        { s.setFunds f with
          beacons := b
          jobPoolFreezeHeight := s.jobPoolFreezeHeight.set msg.jobId (frozenPoolAnchor c)
          queues := { s.queues with pendingReveal := q } } =
        { s with
          funds := f
          beacons := b
          jobPoolFreezeHeight := s.jobPoolFreezeHeight.set msg.jobId (frozenPoolAnchor c)
          queues := { s.queues with
            pendingReveal := q
            pendingJobExpiry :=
              expiryQueue c s.params msg.jobId msg.fee s.queues.pendingJobExpiry } } := by
      unfold scheduleExpiry expiryQueue
      split <;> rfl
    rw [show (s.setFunds f).queues = s.queues from rfl,
      show (s.setFunds f).jobPoolFreezeHeight = s.jobPoolFreezeHeight from rfl, hsched]
    obtain ⟨wc, hwc, hwork⟩ := anchorWorkCommittee_eq (State.setJob (newJob msg)
      { s with
        funds := f
        beacons := b
        jobPoolFreezeHeight := s.jobPoolFreezeHeight.set msg.jobId (frozenPoolAnchor c)
        queues := { s.queues with
          pendingReveal := q
          pendingJobExpiry :=
            expiryQueue c s.params msg.jobId msg.fee s.queues.pendingJobExpiry } }) msg.jobId
    refine ⟨wc, fun hm k raw hk => hwork ?_ k raw hk, by rw [hwc]; rfl⟩
    show ∀ m, f.miners.has m = true → WfMinerId m
    rw [hminers]
    exact hm
  · refine ⟨s.workCommittee, fun _ _ _ h => .inl h, ?_⟩
    unfold scheduleExpiry expiryQueue
    split <;> rfl

theorem openJob_prog (hw : s.Wf) {msg : MsgOpenJob}
    (hE : (Chain.addrBytes msg.creator).isSome = true → E (.opening msg.creator))
    (h : openJob c msg s = .ok s') : Prog E s s' := by
  obtain ⟨f, hf, hwf, hnone, b, q, frz, wc, hwc, rfl⟩ := openJob_spec h
  obtain ⟨bk, rfl, hbal, hsup⟩ := Funds.collect_ok hf
  have ha : (Chain.addrBytes msg.creator).isSome = true := by
    simp only [openJob, signer, bind_ok, require_ok] at h
    obtain ⟨addr, ha, -⟩ := h
    rw [ha]
    rfl
  refine .of_job (j := msg.jobId) (hE ha) hw (fun k hk hne => ?_) ?_ (fun _ => ?_) (le_of_eq hsup) rfl
    (fun _ => rfl) (fun k hk => ?_) rfl (hwc hw.miners)
  · ext1
    · exact Table.get?_put_ne hne
    · rfl
    · rfl
    · show Queue.heights (expiryQueue c s.params msg.jobId msg.fee s.queues.pendingJobExpiry) k = _
      unfold expiryQueue
      split
      · exact Queue.heights_insert_ne hne
      · rfl
    · rfl
    · rfl
    · rfl
    · rfl
  · have hl := Life.opened (v := view s msg.jobId) (j := newJob msg)
      (E := Queue.heights (expiryQueue c s.params msg.jobId msg.fee s.queues.pendingJobExpiry)
        msg.jobId) hnone rfl rfl (fun hfee => ?_)
    · change Life (.opening msg.creator) _ _ at hl
      convert hl using 1
      ext1
      · exact Table.get?_put_self (v := newJob msg)
      all_goals rfl
    · have hfee' : msg.fee > 0 := hfee
      rw [expiryQueue, if_pos hfee', Queue.heights_insert_self]
      exact ⟨_, Set.mem_insert _ _⟩
  · have hsum := Table.sum_put_of_none Job.owed (t := s.jobs) (v := newJob msg) hnone
    have ho : (newJob msg).owed = msg.fee.toNat := by
      simp [Job.owed, Job.escrow, Job.openBond, newJob, jobIsPaid, jobEscrowReturned, jobIsDisputed]
    show (s.funds.bank.balance : Int) - (s.funds.stakes + s.funds.heldTotal + s.funds.poolCoins : Nat)
      - (s.jobs.sum Job.owed : Nat) ≤ (bk.balance : Int) -
        (s.funds.stakes + s.funds.heldTotal + s.funds.poolCoins : Nat) -
        ((s.jobs.put (newJob msg)).sum Job.owed : Nat)
    omega
  · change (s.jobs.put (newJob msg)).has k = true at hk
    by_cases hkj : k = msg.jobId
    · exact .inr (hkj ▸ hwf)
    · rw [Table.has_put_ne (v := newJob msg) hkj] at hk
      exact .inl hk

end Open

end Dendra.Jobs
