import Dendra.Jobs.Presence
import Dendra.Jobs.Disbursement

/-!
# The records of the miners

Which steps write which fields of a registered miner.

* `Funds.read`: what a projection shows of the registered miners.
* `settleOptimistic_rights`: what a settlement stores, but for the coins.
* `read_idle`: most messages write stakes and keys only.
* `fades_block`: what a miner shows, but for stake, keys and demand, does not change within a block, unless it leaves.
-/

namespace Dendra.Jobs

open Word

/-! ## What the records show -/

/-- The registered miners and the demand rights. -/
def Funds.rights (f : Funds) : Table Miner.minerId × Store Str UInt64 := (f.miners, f.heldDemand)

/-- What `φ` shows of every registered miner. -/
def Funds.read {β : Type} (φ : Miner → β) (f : Funds) (m : Str) : Option β := (f.miners.get? m).map φ

/-- The same, of a state. -/
def State.read {β : Type} (φ : Miner → β) (s : State) : Str → Option β := s.funds.read φ

/-- `φ` shows neither the stake nor the keys. -/
def Ledgerly {β : Type} (φ : Miner → β) : Prop :=
  ∀ (r : Miner) x e v, φ { r with stake := x, encPubkey := e, vrfPubkey := v } = φ r

section Funds

variable {β : Type} {φ : Miner → β} {f f' : Funds}

theorem read_of_miners (h : f'.miners = f.miners) : f'.read φ = f.read φ := by
  funext m
  rw [Funds.read, Funds.read, h]

theorem read_setMiner {r r' : Miner} (hr : f.miners.get? r'.minerId = some r) (hφ : φ r' = φ r) :
    (f.setMiner r').read φ = f.read φ := by
  funext m
  unfold Funds.read Funds.setMiner
  by_cases hm : m = r'.minerId
  · subst hm
    have hself : (f.miners.put r').get? r'.minerId = some r' := Table.get?_put_self (v := r')
    rw [hself, hr, Option.map_some, Option.map_some, hφ]
  · have hne : (f.miners.put r').get? m = f.miners.get? m := Table.get?_put_ne (v := r') hm
    rw [hne]

/-- Another stake. -/
theorem read_stake (hφ : Ledgerly φ) {m : Str} {r : Miner} (hr : f.miners.get? m = some r) (x : UInt64) :
    (f.setMiner { r with stake := x }).read φ = f.read φ := by
  have hid : r.minerId = m := Table.key_of_get? hr
  subst hid
  exact read_setMiner hr (hφ r x r.encPubkey r.vrfPubkey)

variable [Chain] {c : Ctx}

theorem pay_rights {payee : Payee} {x : Posting} {r : Bool} (h : f.pay c payee x = (r, f')) :
    f'.rights = f.rights := by
  unfold Funds.pay at h
  split at h
  · cases h
    rfl
  · cases h
    rfl

theorem pay_miners (payee : Payee) (p : Posting) : (f.pay c payee p).2.miners = f.miners := by
  rcases h : f.pay c payee p with ⟨r, g⟩
  exact congrArg Prod.fst (pay_rights h)

theorem payOrFail_rights {payee : Payee} {x : Posting} {text : String}
    (h : f.payOrFail c payee x text = .ok f') : f'.rights = f.rights := by
  obtain ⟨b, -, rfl⟩ := Funds.payOrFail_ok h
  rfl

theorem payOrFail_miners {payee : Payee} {p : Posting} {text : String}
    (h : f.payOrFail c payee p text = .ok f') : f'.miners = f.miners :=
  congrArg Prod.fst (payOrFail_rights h)

omit [Chain] in
theorem collect_miners {amt : UInt64} {text : String} (h : f.collect c amt text = .ok f') :
    f'.miners = f.miners := by
  obtain ⟨b, rfl, -⟩ := Funds.collect_ok h
  rfl

theorem refundClient_rights (kind : Kind) (job : Job) (owed available : UInt64) :
    (refundClient c kind job owed available f).2.rights = f.rights := by
  rcases hr : refundClient c kind job owed available f with ⟨x, g⟩
  rcases refundClient_cases hr with ⟨-, rfl | rfl⟩ | ⟨-, -, b, -, rfl⟩
  · rfl
  · rfl
  · rfl

theorem refundClient_miners (kind : Kind) (job : Job) (owed available : UInt64) :
    (refundClient c kind job owed available f).2.miners = f.miners :=
  congrArg Prod.fst (refundClient_rights kind job owed available)

theorem payWinner_rights {job : Job} {per : UInt64} {mid : Str}
    (h : payWinner c job per f mid = .ok f') : f'.rights = f.rights := by
  unfold payWinner at h
  split at h
  · cases h
    rfl
  · split at h
    · cases h
      rfl
    · exact payOrFail_rights h

theorem payWinners_miners {job : Job} {per : UInt64} {l : List Str}
    (h : l.foldlM (payWinner c job per) f = .ok f') : f'.miners = f.miners := by
  induction l generalizing f with
  | nil =>
    cases h
    rfl
  | cons mid l ih =>
    obtain ⟨g, hg, hl⟩ := bind_ok.1 h
    exact (ih hl).trans (congrArg Prod.fst (payWinner_rights hg))

theorem sendWinner_miners {amt : UInt64} {mid : Str} (h : sendWinner c amt f mid = .ok f') :
    f'.miners = f.miners := by
  unfold sendWinner at h
  split at h
  · cases h
    rfl
  · split at h
    · cases h
      rfl
    · split at h
      · cases h
        rfl
      · cases h

theorem sendWinners_miners {amt : UInt64} {l : List Str}
    (h : l.foldlM (sendWinner c amt) f = .ok f') : f'.miners = f.miners := by
  induction l generalizing f with
  | nil =>
    cases h
    rfl
  | cons mid l ih =>
    obtain ⟨g, hg, hl⟩ := bind_ok.1 h
    exact (ih hl).trans (sendWinner_miners hg)

/-! ### Losers and winners -/

omit [Chain] in
theorem read_slashLoser (hφ : Ledgerly φ) (p : Params) (keepZero : Bool) (acc : Loop) (mid : Str) :
    (slashLoser p keepZero acc mid).funds.read φ = acc.funds.read φ := by
  unfold slashLoser
  split
  · rfl
  · next r hr => exact read_stake hφ hr _

omit [Chain] in
theorem read_slashLosers (hφ : Ledgerly φ) (p : Params) (keepZero : Bool) (l : List Str) (acc : Loop) :
    (l.foldl (slashLoser p keepZero) acc).funds.read φ = acc.funds.read φ := by
  induction l generalizing acc with
  | nil => rfl
  | cons mid l ih => exact (ih _).trans (read_slashLoser hφ p keepZero acc mid)

theorem read_settleMembers (hφ : Ledgerly φ) {p : Params} {job : Job} {per : UInt64}
    {vecs l : List (Str × List Int)} {acc acc' : Loop}
    (h : l.foldlM (settleMember c p job per vecs) acc = .ok acc') :
    acc'.funds.read φ = acc.funds.read φ := by
  induction l generalizing acc with
  | nil =>
    cases h
    rfl
  | cons e l ih =>
    obtain ⟨acc₁, h₁, hl⟩ := bind_ok.1 h
    refine (ih hl).trans ?_
    unfold settleMember at h₁
    split at h₁
    · obtain ⟨g, hg, hacc⟩ := bind_ok.1 h₁
      cases hacc
      exact read_of_miners (congrArg Prod.fst (payWinner_rights hg))
    · cases h₁
      exact read_slashLoser hφ p false acc e.1

omit [Chain] in
theorem read_restoreSlash (hφ : Ledgerly φ) (acc : Loop) (rec : SlashRecord) :
    (restoreSlash acc rec).funds.read φ = acc.funds.read φ := by
  unfold restoreSlash
  generalize (if rec.amount > acc.pools.treasury then acc.pools.treasury else rec.amount) = amt
  simp only
  split
  · rfl
  · split
    · rfl
    · next r hr => exact read_stake hφ hr _

omit [Chain] in
theorem read_restoreSlashes (hφ : Ledgerly φ) (l : List SlashRecord) (acc : Loop) :
    (l.foldl restoreSlash acc).funds.read φ = acc.funds.read φ := by
  induction l generalizing acc with
  | nil => rfl
  | cons rec l ih => exact (ih _).trans (read_restoreSlash hφ acc rec)

omit [Chain] in
theorem read_restoreContradicted (hφ : Ledgerly φ) (s : State) (j : Str) (fresh : List FreshVote)
    (total : UInt64) (l : List SlashRecord) (acc : Loop × Bool) :
    (l.foldl (restoreContradicted s j fresh total) acc).1.funds.read φ = acc.1.funds.read φ := by
  induction l generalizing acc with
  | nil => rfl
  | cons rec l ih =>
    refine (ih _).trans ?_
    unfold restoreContradicted
    split
    · rfl
    · split
      · rfl
      · exact read_restoreSlash hφ acc.1 rec

end Funds

/-! ## Messages that credit nothing -/

section Messages

variable [Chain] {β : Type} {φ : Miner → β} {c : Ctx} {s s' : State}

omit [Chain] in
theorem retainDemand_miners (job : Job) (m : Miner) (right : UInt64) (f : Funds) :
    (retainDemand job m right f).miners = f.miners := by
  unfold retainDemand
  split <;> rfl

/-- What an optimistic settlement stores: the primary, the job it is paid for, the right it earned. -/
theorem settleOptimistic_rights {job : Job} (h : settleOptimistic c job s = .ok s') :
    ∃ m, s.miner m.minerId = some m ∧ s'.params = s.params ∧
      s'.jobs = s.jobs.put
        { job with minerId := m.minerId, state := job.state ++ [.paid, .optimistic] } ∧
      s'.funds.rights = (retainDemand job m ((splitFee s.params job.fee).treasury +
        (splitFee s.params job.fee).team) s.funds).rights := by
  simp only [settleOptimistic, getMiner, bind_ok, require_ok, pure_ok] at h
  obtain ⟨primId, -, pc, -, -, -, -, -, -, -, m, hm, f, hf, g, hg, rfl⟩ := h
  have hid : m.minerId = primId := Table.key_of_get? hm
  subst hid
  have hpay : f.rights = s.funds.rights := by
    unfold payImmediate at hf
    split at hf
    · split at hf
      · cases hf
        rfl
      · exact payOrFail_rights hf
    · cases hf
      rfl
  have hshare : ∀ sh amt (f : Funds), (retainShare sh job.jobId amt f).rights = f.rights := by
    intro sh amt f
    unfold retainShare
    split <;> rfl
  have hfee : ∀ held (f : Funds), (retainFee c job.jobId held f).rights = f.rights := by
    intro held f
    unfold retainFee
    split <;> rfl
  have hright : ∀ right {f f' : Funds}, f'.rights = f.rights →
      (retainDemand job m right f').rights = (retainDemand job m right f).rights := by
    intro right f f' hr
    have hd : f'.heldDemand = f.heldDemand := congrArg Prod.snd hr
    unfold retainDemand
    split
    · rw [Funds.rights, hd]
      exact congrArg (·, _) (congrArg Prod.fst hr)
    · exact hr
  have hburn : ∀ (f : Funds), retainBurn c s.params job.jobId (splitFee s.params job.fee).burn f =
      .ok g → g.rights = f.rights := by
    intro f hg
    unfold retainBurn at hg
    split at hg
    · split at hg
      · cases hg
        rfl
      · exact payOrFail_rights hg
    · cases hg
      rfl
  refine ⟨m, hm, rfl, rfl, (hburn _ hg).trans (hright _ ?_)⟩
  unfold retainCut
  exact (hshare _ _ _).trans ((hshare _ _ _).trans ((hshare _ _ _).trans ((hfee _ _).trans hpay)))

theorem read_settleOptimistic {job : Job} (h : settleOptimistic c job s = .ok s') :
    s'.read φ = s.read φ := by
  obtain ⟨m, -, -, -, hrights⟩ := settleOptimistic_rights h
  exact read_of_miners ((congrArg Prod.fst hrights).trans (retainDemand_miners _ _ _ _))

theorem read_settleRedundant (hφ : Ledgerly φ) {job : Job} (h : settleRedundant c job s = .ok s') :
    s'.read φ = s.read φ := by
  simp only [settleRedundant, bind_ok, pure_ok] at h
  obtain ⟨committee, -, -, -, -, -, -, -, acc, hacc, f, hf, rfl⟩ := h
  have hclose : f.read φ = acc.funds.read φ :=
    read_of_miners ((closeEscrow_miners hf).trans (rfl : (acc.funds.setPools acc.pools).miners = _))
  exact hclose.trans (read_settleMembers hφ hacc)

/-- An action that credits no demand, registers nobody and claims nothing. -/
def Action.Idle : Action → Prop
  | .createMiner _ | .updateMiner _ | .deleteMiner _ | .claimSubsidy _ | .resolveDispute _
  | .adjudicateDispute _ | .endBlock => False
  | _ => True

omit [Chain] in
theorem read_slashToTreasury (hφ : Ledgerly φ) {m : Str} {r : Miner} (hr : s.miner m = some r) :
    (slashToTreasury r s).read φ = s.read φ := by
  have hset := read_stake hφ hr (r.stake - bpsOf r.stake s.params.slashLeakBps)
  exact (read_of_miners rfl).trans hset

theorem read_idle (hφ : Ledgerly φ) {a : Action} (h : Step s (c, a) s') (ha : a.Idle) :
    s'.read φ = s.read φ := by
  have hfunds : ∀ {f : Funds}, f.miners = s.funds.miners → f.read φ = s.read φ := read_of_miners
  cases a with
  | createMiner | updateMiner | deleteMiner | claimSubsidy | resolveDispute | adjudicateDispute
  | endBlock => exact ha.elim
  | rotateMinerKeys msg =>
    have h : rotateMinerKeys msg s = .ok s' := h
    simp only [rotateMinerKeys, getMiner, bind_ok, ensure_ok, require_ok, pure_ok] at h
    obtain ⟨-, -, r, hr, -, -, -, -, -, -, rfl⟩ := h
    have hid : r.minerId = msg.minerId := Table.key_of_get? hr
    rw [← hid] at hr
    exact read_setMiner hr (hφ r r.stake _ _)
  | declareJudge msg =>
    have h : declareJudge c msg s = .ok s' := h
    simp only [declareJudge, bind_ok, pure_ok] at h
    obtain ⟨-, -, r, -, -, -, rfl⟩ := h
    rfl
  | proveAvailability msg =>
    obtain ⟨-, -, rfl⟩ := proveAvailability_spec h
    rfl
  | rewardTraining msg =>
    have h : rewardTraining msg s = .ok s' := h
    simp only [rewardTraining, bind_ok, pure_ok] at h
    obtain ⟨-, -, -, -, r, -, -, -, rfl⟩ := h
    rfl
  | slashMiner msg =>
    have h : slashMiner msg s = .ok s' := h
    simp only [slashMiner, getMiner, bind_ok, require_ok, pure_ok] at h
    obtain ⟨-, -, -, -, r, hr, rfl⟩ := h
    exact read_slashToTreasury hφ hr
  | reportDivergence msg =>
    have h : reportDivergence msg s = .ok s' := h
    simp only [reportDivergence, getMiner, bind_ok, require_ok, pure_ok] at h
    obtain ⟨-, -, -, -, -, -, job, -, r, hr, rfl⟩ := h
    exact read_slashToTreasury hφ hr
  | submitVrfBeacon msg =>
    have h : submitVrfBeacon msg s = .ok s' := h
    simp only [submitVrfBeacon, bind_ok, ensure_ok, require_ok, pure_ok] at h
    obtain ⟨-, -, -, -, pk, -, pi, -, beta, -, -, -, rfl⟩ := h
    rfl
  | updateParams msg =>
    obtain ⟨-, rfl⟩ := updateParams_eq h
    rfl
  | openJob msg =>
    obtain ⟨f, hf, -, -, b, q, frz, wc, -, rfl⟩ := openJob_spec h
    exact hfunds (collect_miners hf)
  | createCommit msg =>
    refine (show Leaves (State.read φ) s (createCommit c msg s) from ?_) s' h
    unfold createCommit
    iterate 13 refine .bind fun _ => ?_
    refine .of_eq ?_
    simp only
    split <;> rfl
  | settleSemantic msg =>
    have h : settleSemantic c msg s = .ok s' := h
    simp only [settleSemantic, bind_ok] at h
    obtain ⟨-, -, job, -, -, -, -, -, -, -, h⟩ := h
    split at h
    · exact read_settleOptimistic h
    · exact read_settleRedundant hφ h
  | verifySemantic msg =>
    refine (show Leaves (State.read φ) s (verifySemantic msg s) from ?_) s' h
    unfold verifySemantic
    iterate 7 refine .bind fun _ => ?_
    exact .of_eq ((read_of_miners rfl).trans (read_slashLosers hφ _ _ _ _))
  | finalizeJob msg =>
    refine (show Leaves (State.read φ) s (finalizeJob msg s) from ?_) s' h
    unfold finalizeJob
    iterate 7 refine .bind fun _ => ?_
    exact .of_eq ((read_of_miners rfl).trans (read_slashLosers hφ _ _ _ _))
  | payout msg =>
    have h : payout c msg s = .ok s' := h
    simp only [payout, bind_ok, pure_ok] at h
    obtain ⟨-, -, -, -, committee, -, job, -, -, -, -, -, -, -, -, -, -, -, -, -, f, hf, g, hg, rfl⟩ := h
    exact hfunds ((closeEscrow_miners hg).trans (payWinners_miners hf))
  | settlePay msg =>
    have h : settlePay c msg s = .ok s' := h
    simp only [settlePay, bind_ok] at h
    obtain ⟨-, -, job, -, -, -, -, -, -, -, -, -, -, -, committee, -, -, -, -, -, h⟩ := h
    split at h
    · cases h
    · simp only [bind_ok, pure_ok] at h
      obtain ⟨f, hf, g, hg, rfl⟩ := h
      exact hfunds ((sendWinners_miners hg).trans (sendWinner_miners hf))
  | disputeVerdict msg =>
    have hopen : ∀ (job : Job) (s : State), (openDispute c msg.creator job s).funds = s.funds := by
      intro job s
      unfold openDispute
      simp only
      split
      · split <;> (unfold anchorRedoCommittee; split <;> rfl)
      · split <;> (unfold anchorRedoCommittee; split <;> rfl)
    have h : disputeVerdict c msg s = .ok s' := h
    simp only [disputeVerdict, bind_ok] at h
    obtain ⟨-, -, -, -, job, -, -, -, -, -, -, -, h⟩ := h
    split at h
    · simp only [bind_ok, pure_ok] at h
      obtain ⟨f, hf, rfl⟩ := h
      exact hfunds ((congrArg Funds.miners (hopen job _)).trans (collect_miners hf))
    · simp only [bind_ok, pure_ok] at h
      obtain ⟨f, rfl, rfl⟩ := h
      exact hfunds (congrArg Funds.miners (hopen job _))
  | deposit amt =>
    have h : deposit c amt s = .ok s' := h
    simp only [deposit, bind_ok, pure_ok] at h
    obtain ⟨f, hf, rfl⟩ := h
    exact hfunds (collect_miners hf)

end Messages

/-! ## What refunds and releases write -/

/-- `φ` does not show the demand. -/
def DemandBlind {β : Type} (φ : Miner → β) : Prop := ∀ (r : Miner) x, φ { r with demand := x } = φ r

section Refunds

variable [Chain] {β : Type} {φ : Miner → β} {c : Ctx} {p : Params} {job : Job} {f f' : Funds}

omit [Chain] in
theorem read_of_held (hd : DemandBlind φ) {w : Way} {j : Str} (h : HeldEffect w j f f') :
    f'.read φ = f.read φ := by
  funext m
  have hφ : ∀ o : Option Miner, o.map φ = (o.map Miner.sansDemand).map φ := by
    intro o
    cases o with
    | none => rfl
    | some r => exact congrArg some (hd r 0).symm
  rw [Funds.read, Funds.read, hφ, h.miners m, ← hφ]

theorem read_release (hd : DemandBlind φ) (w : Warrant) (job : Job) (f : Funds) :
    (releaseHeld c p job (f.warrant job.jobId w)).read φ = f.read φ :=
  (read_of_held hd (releaseHeld_effect p job _)).trans (read_of_miners rfl)

omit [Chain] in
/-- A miner, written back from a copy that the refund before has left alone. -/
theorem read_putBack {g : Funds} {r r' : Miner} {m : Str} (hm : f.miners.get? m = some r)
    (hg : g.read φ = f.read φ) (hid : r'.minerId = r.minerId) (hφ : φ r' = φ r) :
    (g.setMiner r').read φ = f.read φ := by
  have hrid : r.minerId = m := Table.key_of_get? hm
  have hsome : g.read φ m = some (φ r) := by rw [hg, Funds.read, hm, Option.map_some]
  obtain ⟨r₁, hr₁, hφ₁⟩ := Option.map_eq_some_iff.1 hsome
  rw [← hrid, ← hid] at hr₁
  exact (read_setMiner hr₁ (hφ.trans hφ₁.symm)).trans hg

omit [Chain] in
theorem reverseDemand_reads (hd : DemandBlind φ) (p : Params) (job : Job) (b : Bool) (r : Miner) :
    (reverseDemand p job b r).minerId = r.minerId ∧ φ (reverseDemand p job b r) = φ r := by
  unfold reverseDemand
  split
  · exact ⟨rfl, hd r _⟩
  · exact ⟨rfl, rfl⟩

/-- A refund and the demand that it takes off the miner. -/
theorem read_refundAndReverse (hd : DemandBlind φ) (job : Job) (f : Funds) :
    (refundAndReverse c p job f).read φ = f.read φ := by
  have he := read_of_held hd (refundRetainedToClient_effect (c := c) job f)
  unfold refundAndReverse
  cases hm : f.miners.get? job.minerId with
  | none => exact he
  | some r =>
    revert he
    rcases refundRetainedToClient c job f with ⟨x, hadRight, g⟩
    intro he
    simp only at he ⊢
    obtain ⟨hid, hφ⟩ := reverseDemand_reads hd p job hadRight r
    exact read_putBack hm he hid hφ

theorem refundDisputeBond_miners (job : Job) (f : Funds) :
    (refundDisputeBond c job f).2.miners = f.miners := by
  unfold refundDisputeBond
  split
  · rfl
  · split
    · rfl
    · next bz _ =>
      have hpay := pay_miners (f := f) (c := c) (.account bz)
        ⟨.dispute, job.jobId, job.disputer, job.disputeBond⟩
      split
      · next g hg =>
        rw [hg] at hpay
        exact hpay
      · next g hg =>
        rw [hg] at hpay
        exact hpay

omit [Chain] in
theorem forfeitBond_miners (job : Job) (f : Funds) : (forfeitBond job f).miners = f.miners := by
  unfold forfeitBond
  split <;> rfl

theorem spendSlash_miners (refunded amt : UInt64) :
    (spendSlash c job refunded amt f).miners = f.miners := by
  unfold spendSlash
  generalize (if job.fee > refunded then job.fee - refunded else 0) = owed
  have hrefund := refundClient_miners (f := f) (c := c) .bondRefund job owed amt
  simp only
  revert hrefund
  rcases refundClient c .bondRefund job owed amt f with ⟨x, g⟩
  intro hrefund
  simp only at hrefund ⊢
  unfold Funds.addTreasury
  split
  · exact hrefund
  · exact hrefund

theorem payOrForfeit_miners {upheld : Prop} [Decidable upheld] {acc acc' : Loop}
    (h : payOrForfeit c upheld job acc = .ok acc') : acc'.funds.miners = acc.funds.miners := by
  unfold payOrForfeit payDisputer at h
  split at h
  · simp only at h
    split at h
    · split at h
      · rw [pure_ok] at h
        rw [← h]
      · simp only [bind_ok, pure_ok] at h
        obtain ⟨f, hf, rfl⟩ := h
        exact payOrFail_miners hf
    · rw [pure_ok] at h
      rw [← h]
  · rw [Except.ok.injEq] at h
    rw [← h]

theorem read_unwindStrandedRetention (hd : DemandBlind φ) (p : Params) (j : Str) (s : State) :
    (unwindStrandedRetention c p j s).2.read φ = s.read φ := by
  unfold unwindStrandedRetention
  split
  · rfl
  · next job _ =>
    exact (read_of_miners (refundDisputeBond_miners job _)).trans (read_refundAndReverse hd job _)

theorem read_deferResolution (hd : DemandBlind φ) (p : Params) (j : Str) (b : Bool) (s : State) :
    (deferResolution c p j b s).read φ = s.read φ := by
  have hun := read_unwindStrandedRetention (c := c) hd p j s
  unfold deferResolution
  split
  · next h =>
    rw [h] at hun
    exact hun
  · next h =>
    rw [h] at hun
    split
    · exact hun
    · exact hun

end Refunds

/-! ## What the rulings and the block write -/

/-- `φ` shows neither the stake, the keys nor the demand. -/
structure Lifelong {β : Type} (φ : Miner → β) : Prop where
  ledgerly : Ledgerly φ
  blind : DemandBlind φ

section Lifelong

variable [Chain] {β : Type} {φ : Miner → β} {c : Ctx} {p : Params} {job : Job} {f f' : Funds} {s s' : State}

theorem read_slashCheatedPrimary (hφ : Lifelong φ) (job : Job) (f : Funds) :
    (slashCheatedPrimary c p job f).2.read φ = f.read φ := by
  have he := read_of_held hφ.blind (refundRetainedToClient_effect (c := c) job f)
  unfold slashCheatedPrimary
  cases hm : f.miners.get? job.minerId with
  | none =>
    dsimp only
    exact he
  | some r =>
    revert he
    rcases refundRetainedToClient c job f with ⟨x, hadRight, g⟩
    intro he
    simp only at he ⊢
    obtain ⟨hid, hc⟩ := reverseDemand_reads hφ.blind p job hadRight r
    have hset : (g.setMiner { reverseDemand p job hadRight r with
        stake := (reverseDemand p job hadRight r).stake - bpsOf r.stake p.slashLeakBps }).read φ = f.read φ :=
      read_putBack hm he hid ((hφ.ledgerly _ _ _ _).trans hc)
    split
    · dsimp only
      exact (read_of_miners (spendSlash_miners _ _)).trans hset
    · exact hset

theorem read_slashAdjudicated (hφ : Lifelong φ) (job : Job) (acc : Loop) :
    (slashAdjudicated c p job acc).2.funds.read φ =
      acc.funds.read φ := by
  unfold slashAdjudicated
  cases hr : acc.funds.miners.get? job.minerId with
  | none => rfl
  | some r =>
    simp only
    generalize bpsOf r.stake p.slashLeakBps = amt
    have hset := read_stake hφ.ledgerly hr (r.stake - amt)
    generalize acc.funds.setMiner { r with stake := r.stake - amt } = g at hset ⊢
    generalize job.fee - retainedTotal job.jobId g = owed
    have hrefund := refundClient_miners (f := g) (c := c) .bondRefund job owed amt
    split
    · exact (read_of_miners hrefund).trans hset
    · exact hset

theorem payDisputerOrFail_miners {acc acc' : Loop} (h : payDisputerOrFail c job acc = .ok acc') :
    acc'.funds.miners = acc.funds.miners := by
  simp only [payDisputerOrFail] at h
  split at h
  · simp only [bind_ok, pure_ok] at h
    obtain ⟨bz, -, g, hg, rfl⟩ := h
    exact payOrFail_miners hg
  · rw [pure_ok] at h
    rw [← h]

omit [Chain] in
theorem read_setFunds (f : Funds) (s : State) : (s.setFunds f).read φ = f.read φ := rfl

omit [Chain] in
theorem read_removePendingAudit (key : QueueKey) (s : State) : (removePendingAudit key s).read φ = s.read φ := rfl

omit [Chain] in
theorem read_closeInstance (job : Job) (f : Funds) (s : State) :
    (closeInstance job f s).read φ = f.read φ := rfl

theorem read_resolveDispute (hφ : Lifelong φ) {msg : MsgResolveDispute} (h : resolveDispute c msg s = .ok s') :
    s'.read φ = s.read φ := by
  simp only [resolveDispute, bind_ok, pure_ok] at h
  obtain ⟨-, -, -, -, job, -, -, -, -, -, acc, hacc, rfl⟩ := h
  have hruling : acc.funds.read φ = s.funds.read φ := by
    unfold authorityRuling at hacc
    split at hacc
    · exact (read_of_miners (payDisputerOrFail_miners hacc)).trans
        (read_restoreSlashes hφ.ledgerly _ _)
    · cases hacc
      rfl
  have hpools : (acc.funds.setPools acc.pools).read φ =
      s.funds.read φ := (read_of_miners rfl).trans hruling
  rw [read_closeInstance]
  split
  · split
    · exact (read_refundAndReverse hφ.blind job _).trans hpools
    · exact (read_release hφ.blind .authority job _).trans hpools
  · exact hpools

theorem read_adjudicateDispute (hφ : Lifelong φ) {msg : MsgAdjudicateDispute}
    (h : adjudicateDispute c msg s = .ok s') : s'.read φ = s.read φ := by
  simp only [adjudicateDispute, bind_ok, pure_ok] at h
  obtain ⟨-, -, job, -, -, -, -, -, a, -, cheated, -, acc, hacc, rfl⟩ := h
  have hrestored := read_restoreContradicted hφ.ledgerly s job.jobId a.fresh a.total
    job.slashRecords (⟨s.funds, s.funds.poolsOrZero, []⟩, false)
  generalize job.slashRecords.foldl (restoreContradicted s job.jobId a.fresh a.total)
    (⟨s.funds, s.funds.poolsOrZero, []⟩, false) = restored at hacc hrestored
  have hslashed : (if cheated then slashAdjudicated c s.params job restored.1
      else (job, restored.1)).2.funds.read φ =
        restored.1.funds.read φ := by
    split
    · exact read_slashAdjudicated hφ job _
    · rfl
  generalize (if cheated then slashAdjudicated c s.params job restored.1
    else (job, restored.1)) = slashed at hacc hslashed ⊢
  have hpaid := read_of_miners (φ := φ) (payOrForfeit_miners hacc)
  have hpools : (acc.funds.setPools acc.pools).read φ =
      s.funds.read φ :=
    (read_of_miners rfl).trans (hpaid.trans (hslashed.trans hrestored))
  rw [read_closeInstance]
  split
  · split
    · exact (read_refundAndReverse hφ.blind _ _).trans hpools
    · exact (read_release hφ.blind _ _ _).trans hpools
  · exact hpools

/-! ### The passes of a block -/

theorem read_refundEscrow (job : Job) (s : State) :
    (refundEscrow c job s).read φ = s.read φ := by
  have hrefund := refundClient_miners (f := s.funds) (c := c) .escrow job job.fee job.fee
  unfold refundEscrow
  simp only
  split
  · exact read_of_miners hrefund
  · exact read_of_miners hrefund

theorem read_expireOne (key : QueueKey) (s : State) : (expireOne c s key).read φ = s.read φ := by
  unfold expireOne expireUnservedJob
  split
  · rfl
  · split
    · rfl
    · split
      · rfl
      · split
        · rfl
        · split
          · rfl
          · exact read_refundEscrow _ (removeExpiry key s)

theorem read_runReveal (seed : Str) (s : State) : (runReveal c seed s).read φ = s.read φ := by
  have hdefer : ∀ (s : State) key, (deferReveal c s key).read φ = s.read φ := by
    intro s key
    unfold deferReveal
    split <;> rfl
  have hanchor : ∀ (s : State) key j, (removeReveal key (anchorWorkCommittee s j)).read φ =
      s.read φ := by
    intro s key j
    unfold anchorWorkCommittee
    split
    · rfl
    · split <;> rfl
  have hone : ∀ (s : State) key, (revealOne seed s key).read φ = s.read φ := by
    intro s key
    unfold revealOne
    simp only
    split
    · split
      · exact hanchor _ key _
      · exact hanchor s key _
    · exact hanchor s key _
  unfold runReveal
  simp only
  split
  · exact leaves_foldl hdefer _ s
  · exact leaves_foldl hone _ s

theorem read_resolveByVerdicts (hφ : Lifelong φ) (p : Params) (job : Job) (b : Bool) (s : State) :
    (resolveByVerdicts c p job b s).read φ = s.read φ := by
  unfold resolveByVerdicts
  simp only
  split
  · rw [read_closeInstance]
    exact (read_of_miners (refundDisputeBond_miners _ _)).trans (read_slashCheatedPrimary hφ _ _)
  · split
    · rw [read_closeInstance]
      split
      · exact (read_of_miners (forfeitBond_miners job _)).trans (read_release hφ.blind _ job s.funds)
      · exact read_release hφ.blind _ job s.funds
    · exact read_deferResolution hφ.blind p job.jobId b s

theorem read_resolveDisputedAudit (hφ : Lifelong φ) (p : Params) (j : Str) (b : Bool) (s : State) :
    (resolveDisputedAudit c p j b s).read φ = s.read φ := by
  unfold resolveDisputedAudit
  split
  · rfl
  · next job hjob =>
    have hj : job.jobId = j := Table.key_of_get? hjob
    subst hj
    split
    · rfl
    · split
      · simp only
        split
        · rw [read_closeInstance]
          exact (read_of_miners (refundDisputeBond_miners job _)).trans (read_release hφ.blind _ job s.funds)
        · split
          · rw [read_closeInstance]
            exact (read_of_miners (forfeitBond_miners job _)).trans (read_release hφ.blind _ job s.funds)
          · exact read_resolveByVerdicts hφ p job b s
      · exact read_of_miners (refundDisputeBond_miners _ _)

theorem read_deferAudit (hφ : Lifelong φ) (key : QueueKey) (s : State) : (deferAudit c s key).read φ = s.read φ := by
  have hun := read_unwindStrandedRetention (c := c) hφ.blind s.params (ofLex key).2 s
  unfold deferAudit
  simp only
  split
  · split
    · next h =>
      rw [h] at hun
      exact hun
    · next h =>
      rw [h] at hun
      exact hun
  · rfl

theorem read_deferAuditForSmallJury (hφ : Lifelong φ) (key : QueueKey) (s : State) :
    (deferAuditForSmallJury c key s).read φ = s.read φ := by
  have hun := read_unwindStrandedRetention (c := c) hφ.blind s.params (ofLex key).2 s
  unfold deferAuditForSmallJury
  split
  · next h =>
    rw [h] at hun
    exact hun
  · next h =>
    rw [h] at hun
    exact hun

theorem read_auditOne (hφ : Lifelong φ) (seed : Str) (key : QueueKey) (s : State) :
    Leaves (State.read φ) s (auditOne c seed s key) := by
  have hopen : ∀ (job : Job) members (s : State), (openAudit c job members s).read φ = s.read φ := by
    intro job members s
    unfold openAudit
    simp only
    split <;> rfl
  unfold auditOne
  simp only
  split
  · exact .of_eq rfl
  · next job hjob =>
    have hj : job.jobId = (ofLex key).2 := Table.key_of_get? hjob
    split
    · exact .of_eq rfl
    · split
      · unfold selectAudit
        simp only
        generalize hbump : (if s.juries.auditSelected.has job.jobId = false ∧
          jobIsDisputed job.state = false then setJuries (bumpAuditsOpened s) s else s) = s₁
        have hs₁ : s₁.read φ = s.read φ := by
          rw [← hbump]
          split <;> rfl
        split
        · exact .error
        · split
          · exact .of_eq ((read_deferAuditForSmallJury hφ key _).trans hs₁)
          · exact .of_eq ((hopen job _ s₁).trans hs₁)
      · refine .of_eq ?_
        rw [← hj]
        rw [read_removePendingAudit, read_setFunds]
        exact read_release hφ.blind _ job s.funds

theorem read_runOptimisticAudit (hφ : Lifelong φ) (seed : Str) (s : State) :
    Leaves (State.read φ) s (runOptimisticAudit c seed s) := by
  unfold runOptimisticAudit
  simp only
  split
  · exact .of_eq rfl
  · split
    · exact .of_eq rfl
    · split
      · exact .of_eq (leaves_foldl (fun s key => read_deferAudit hφ key s) _ s)
      · exact leaves_foldlM (fun s key => read_auditOne hφ seed key s) _ s

theorem read_retryHeldReleases (hφ : Lifelong φ) (s : State) : (retryHeldReleases c s).read φ = s.read φ := by
  refine leaves_foldl (fun s j => ?_) _ s
  split
  · exact read_of_miners rfl
  · next job _ =>
    rw [read_setFunds]
    exact read_of_held hφ.blind (releaseHeld_effect s.params job s.funds)

theorem read_runAvailabilityEpoch (hφ : Lifelong φ) (s : State) :
    Leaves (State.read φ) s (runAvailabilityEpoch c s) := by
  have hone : ∀ (p : Params) (f : Funds) m,
      (slashUnavailable c p f m).read φ = f.read φ := by
    intro p f m
    unfold slashUnavailable
    split
    · rfl
    · next r hr =>
      simp only
      split
      · rfl
      · exact (read_of_miners (pay_miners _ _)).trans (read_stake hφ.ledgerly hr _)
  have hall : ∀ (p : Params) (l : List Str) (f : Funds),
      (l.foldl (slashUnavailable c p) f).read φ = f.read φ := by
    intro p l
    induction l with
    | nil => exact fun _ => rfl
    | cons m l ih => exact fun f => (ih _).trans (hone p f m)
  have hslash : ∀ epoch, (runAvailabilitySlash c epoch s).read φ = s.read φ := by
    intro epoch
    unfold runAvailabilitySlash
    simp only
    split
    · rfl
    · split
      · rfl
      · exact hall s.params _ s.funds
  unfold runAvailabilityEpoch
  simp only
  split
  · exact .of_eq rfl
  · intro s' h
    split at h
    · obtain ⟨s₂, h₂, h₃⟩ := bind_ok.1 h
      cases payAvailability_eq c _ h₂
      cases h₃
      exact hslash _
    · cases h
      rfl

/-! ### Who leaves -/

/-- Every miner shows what it showed, or has left. -/
def Fades {β : Type} (g g' : Str → Option β) : Prop := ∀ m, g' m = g m ∨ g' m = none

omit [Chain] in
theorem Fades.refl {β : Type} (g : Str → Option β) : Fades g g := fun _ => .inl rfl

omit [Chain] in
theorem Fades.trans {β : Type} {g g' g'' : Str → Option β} (h : Fades g g') (h' : Fades g' g'') :
    Fades g g'' := by
  intro m
  rcases h' m with he | hn
  · rw [he]
    exact h m
  · exact .inr hn

omit [Chain] in
theorem fades_removeMiner {β : Type} {φ : Miner → β} (m : Str) (hf : f.miners = s.funds.miners) :
    Fades (s.read φ) ((removeMiner m f s).read φ) := by
  intro x
  show ((f.miners.erase m).get? x).map φ = (s.funds.miners.get? x).map φ ∨
    ((f.miners.erase m).get? x).map φ = none
  rw [hf]
  by_cases hx : x = m
  · subst hx
    rw [Table.get?_erase_self]
    exact .inr rfl
  · rw [Table.get?_erase_ne hx]
    exact .inl rfl

theorem fades_pruneInactiveMiners (s : State) :
    Fades (s.read φ) ((pruneInactiveMiners c s).read φ) := by
  have hone : ∀ (s : State) m, Fades (s.read φ) ((pruneOne c s m).read φ) := by
    intro s m
    unfold pruneOne
    split
    · exact .refl _
    · next r _ =>
      split
      · split
        · exact .refl _
        · next toBz _ =>
          have hpay := pay_miners (f := s.funds) (c := c) (.account toBz)
            ⟨.stake, [], r.minerId, r.stake⟩
          split
          · next g hg =>
            rw [hg] at hpay
            exact fades_removeMiner m hpay
          · next g hg =>
            rw [hg] at hpay
            exact fun x => .inl (congrFun (read_of_miners hpay) x)
      · exact fades_removeMiner m rfl
  have hall : ∀ (l : List Str) (s : State), Fades (s.read φ) ((l.foldl (pruneOne c) s).read φ) := by
    intro l
    induction l with
    | nil => exact fun s => .refl _
    | cons m l ih => exact fun s => (hone s m).trans (ih _)
  unfold pruneInactiveMiners
  split
  · exact .refl _
  · exact hall _ s

theorem fades_block (hφ : Lifelong φ) (h : endBlock c s = .ok s') : Fades (s.read φ) (s'.read φ) := by
  unfold endBlock at h
  simp only at h
  obtain ⟨s₁, h₁, h₂⟩ := bind_ok.1 h
  have hexpiry : (runExpiry c s).read φ = s.read φ :=
    leaves_foldl (fun s key => read_expireOne key s) _ s
  have haudit : (runAuditResolveTimeout c s₁).read φ = s₁.read φ := by
    refine leaves_foldl (fun s key => ?_) _ s₁
    exact read_resolveDisputedAudit hφ s.params (ofLex key).2 true s
  have happeal : ∀ s : State, (runAppealResolveTimeout c s).read φ = s.read φ := by
    intro s
    refine leaves_foldl (fun s key => ?_) _ s
    exact read_resolveDisputedAudit hφ s.params (ofLex key).2 false s
  have hperiodic : ∀ s : State, Fades (s.read φ) ((runPeriodic c s).read φ) := by
    intro s
    unfold runPeriodic
    split
    · rw [read_retryHeldReleases hφ]
      exact fades_pruneInactiveMiners s
    · exact .refl _
  have hlast := read_runAvailabilityEpoch hφ _ s' h₂
  rw [hlast]
  refine Fades.trans (fun m => .inl ?_) (hperiodic _)
  rw [happeal, haudit, read_runOptimisticAudit hφ _ _ s₁ h₁, read_runReveal, hexpiry]

end Lifelong

/-! ## What was claimed -/

/-- The subsidy that every registered miner has claimed. -/
abbrev State.claimed (s : State) : Str → Option UInt64 := s.read Miner.subsidyClaimed

theorem ledgerly_claimed : Ledgerly Miner.subsidyClaimed := fun _ _ _ _ => rfl

theorem lifelong_claimed : Lifelong Miner.subsidyClaimed := ⟨ledgerly_claimed, fun _ _ => rfl⟩

section Claimed

variable [Chain] {c : Ctx} {s s' : State}

theorem claimed_resolveDispute {msg : MsgResolveDispute} (h : resolveDispute c msg s = .ok s') :
    s'.claimed = s.claimed :=
  read_resolveDispute lifelong_claimed h

theorem claimed_adjudicateDispute {msg : MsgAdjudicateDispute} (h : adjudicateDispute c msg s = .ok s') :
    s'.claimed = s.claimed :=
  read_adjudicateDispute lifelong_claimed h

theorem fades_endBlock (h : endBlock c s = .ok s') : Fades s.claimed s'.claimed :=
  fades_block lifelong_claimed h

end Claimed

end Dendra.Jobs
