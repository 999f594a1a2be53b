import Dendra.Jobs.Update
import Dendra.Jobs.Washing
import Dendra.Jobs.Records

/-!
# Reversing a demand

A settlement in audit mode records the demand that it earns its primary, and the release of the
retention credits it. A refund after the release takes it off again; the amount was not kept, so
`reverseDemand` computes it from the parameters and the operator of the day, and takes no more than the
miner still has.

* `releaseHeld_rights`, `refundRetainedToClient_right`: what the two ways out do to the right.
* `Square`: the right is still recorded, or a refund takes off what was credited.
* `step_square`: every event of a run that meets `Lasting` keeps it.
* `refund_reverses`: hence such a run ends in a state where the two are equal.
* `refund_drifts`: a change of the fee, and an update of the miner, after the release.
-/

namespace Dendra.Jobs

open Word

/-! ## The rights -/

/-- The miner with some more demand. -/
def Miner.credit (d : UInt64) (m : Miner) : Miner := { m with demand := m.demand + d }

section Rights

variable [Chain] {c : Ctx} {p : Params} {job : Job} {f f' : Funds} {s s' : State}

omit [Chain] in
theorem addTreasury_rights (kind : Kind) (j : Str) (amt : UInt64) :
    (f.addTreasury kind j amt).rights = f.rights := by
  unfold Funds.addTreasury
  split <;> rfl

theorem returnAmount_rights (amt : UInt64) : (returnAmount c job amt f).2.rights = f.rights :=
  (addTreasury_rights _ _ _).trans (refundClient_rights _ _ _ _)

/-! ### A release -/

theorem releaseBurn_rights : (releaseBurn c job f).rights = f.rights := by
  unfold releaseBurn
  split
  · rfl
  · split
    · split
      · next hg =>
        have hpay := pay_rights hg
        exact hpay
      · next hg =>
        have hpay := pay_rights hg
        exact hpay
    · rfl

theorem payValidatorShare_rights : (payValidatorShare c job f).2.rights = f.rights := by
  unfold payValidatorShare
  split
  · rfl
  · split
    · rfl
    · split
      · next hg =>
        have hpay := pay_rights hg
        exact hpay
      · next hg =>
        have hpay := pay_rights hg
        exact hpay

theorem payTeamShare_rights : (payTeamShare c p job f).2.rights = f.rights := by
  unfold payTeamShare
  split
  · rfl
  · split
    · rfl
    · split
      · rfl
      · split
        · rfl
        · split
          · next hg =>
            have hpay := pay_rights hg
            exact hpay
          · next hg =>
            have hpay := pay_rights hg
            exact hpay

omit [Chain] in
theorem payTreasuryShare_rights : (payTreasuryShare job f).rights = f.rights := by
  unfold payTreasuryShare
  split
  · rfl
  · split <;> rfl

theorem releaseFee_rights (cutPending : Bool) :
    (releaseFee c cutPending job f).rights = f.rights := by
  unfold releaseFee
  split
  · rfl
  · split
    · rfl
    · split
      · rfl
      · split
        · rfl
        · split
          · next hg =>
            have hpay := pay_rights hg
            exact hpay
          · next hg =>
            have hpay := pay_rights hg
            exact hpay

omit [Chain] in
/-- A credit looks at the rights only. -/
theorem creditDemand_congr (h : f'.rights = f.rights) :
    (creditDemand job f').2.rights = (creditDemand job f).2.rights := by
  have hm : f'.miners = f.miners := congrArg Prod.fst h
  have hd : f'.heldDemand = f.heldDemand := congrArg Prod.snd h
  unfold creditDemand
  rw [hm, hd]
  split
  · exact h
  · split
    · exact h
    · simp only [Funds.rights, Funds.setMiner, hm]

omit [Chain] in
/-- The demand that is credited, if any. -/
theorem creditDemand_cases (job : Job) (f : Funds) :
    (creditDemand job f).2.rights = f.rights ∨
      ∃ d m, f.heldDemand.get job.jobId = some d ∧ f.miners.get? job.minerId = some m ∧
        (creditDemand job f).2.rights =
          (f.miners.put (m.credit d), f.heldDemand.remove job.jobId) := by
  unfold creditDemand
  split
  · exact .inl rfl
  · next d hd =>
    split
    · exact .inl rfl
    · next m hm => exact .inr ⟨d, m, hd, hm, rfl⟩

/-- Of all that a release does, the credit alone touches the rights. -/
theorem releaseHeld_rights : (releaseHeld c p job f).rights = (creditDemand job f).2.rights := by
  unfold releaseHeld payRetainedCut
  simp only
  rw [releaseFee_rights]
  exact creditDemand_congr (payTreasuryShare_rights.trans
    (payTeamShare_rights.trans (payValidatorShare_rights.trans releaseBurn_rights)))

/-! ### A refund -/

theorem refundFee_heldDemand : (refundFee c job f).2.heldDemand = f.heldDemand := by
  unfold refundFee
  split
  · rfl
  · split
    · exact congrArg Prod.snd (returnAmount_rights _)
    · rfl

theorem refundShare_heldDemand (sh : Share) : (refundShare c sh job f).2.heldDemand = f.heldDemand := by
  unfold refundShare
  split
  · rfl
  · simp only
    split
    · rfl
    · exact congrArg Prod.snd (returnAmount_rights _)

/-- A refund tells its caller whether the right was still recorded. -/
theorem refundRetainedToClient_right :
    (refundRetainedToClient c job f).2.1 = f.heldDemand.has job.jobId := by
  have hcut : ∀ g : Funds, (refundRetainedCut c job g).2.1 = g.heldDemand.has job.jobId := by
    intro g
    have hd : (refundShare c .treasury job (refundShare c .team job
        (refundShare c .validator job g).2).2).2.heldDemand = g.heldDemand :=
      (refundShare_heldDemand _).trans ((refundShare_heldDemand _).trans (refundShare_heldDemand _))
    unfold refundRetainedCut
    simp only [hd]
    split
    · next h => exact h.symm
    · next h => exact (Bool.eq_false_iff.2 h).symm
  unfold refundRetainedToClient
  simp only
  rw [hcut, refundFee_heldDemand]

/-! ### A settlement -/

/-- A committee is paid and slashed without a right. -/
theorem settleRedundant_heldDemand (h : settleRedundant c job s = .ok s') :
    s'.funds.heldDemand = s.funds.heldDemand := by
  have hmembers : ∀ {p : Params} {per : UInt64} {vecs l : List (Str × List Int)} {acc acc' : Loop},
      l.foldlM (settleMember c p job per vecs) acc = .ok acc' →
        acc'.funds.heldDemand = acc.funds.heldDemand := by
    intro p per vecs l
    induction l with
    | nil =>
      intro acc acc' h
      cases h
      rfl
    | cons e l ih =>
      intro acc acc' h
      obtain ⟨acc₁, h₁, hl⟩ := bind_ok.1 h
      refine (ih hl).trans ?_
      unfold settleMember at h₁
      split at h₁
      · obtain ⟨g, hg, hacc⟩ := bind_ok.1 h₁
        cases hacc
        exact congrArg Prod.snd (payWinner_rights hg)
      · cases h₁
        unfold slashLoser
        split <;> rfl
  simp only [settleRedundant, bind_ok, pure_ok] at h
  obtain ⟨committee, -, -, -, -, -, -, -, acc, hacc, f, hf, rfl⟩ := h
  have hclose : f.heldDemand = acc.funds.heldDemand := by
    obtain ⟨f₁, h₁, h₂⟩ := closeEscrow_cases hf
    have hburn : f₁.rights = (acc.funds.setPools acc.pools).rights := by
      rcases h₁ with rfl | h₁
      · rfl
      · exact payOrFail_rights h₁
    have hrest : f.rights = f₁.rights := by
      rcases h₂ with rfl | ⟨cliBz, h₂⟩
      · rfl
      · exact payOrFail_rights h₂
    exact congrArg Prod.snd (hrest.trans hburn)
  exact hclose.trans (hmembers hacc)

end Rights

/-! ## Between a settlement and a refund -/

/-- What a settlement under these parameters earns the miner. -/
def earns (p : Params) (job : Job) (m : Miner) : UInt64 :=
  if job.client = m.operator then 0 else (splitFee p job.fee).treasury + (splitFee p job.fee).team

/-- What happens between the settlement of a job and its refund. -/
inductive Change
  | settle (c : Ctx) (msg : MsgSettleSemantic)
  | release (c : Ctx) (jobId : Str)
  | setParams (msg : MsgUpdateParams)
  | update (msg : MsgUpdateMiner)

/-- A state between the two, and what the job has credited to its primary so far. -/
structure Interim where
  state : State
  credited : Int

/-- The demand of a miner. -/
def demandHeld (m : Str) (s : State) : Int := (s.miner m).elim 0 fun r => r.demand.toNat

/-- The miner that a job was settled for. -/
def primaryIn (j : Str) (s : State) : Str := (s.job j).elim [] Job.minerId

/-- What the event credits to the primary of `j` on account of `j`. -/
def Change.credit (j : Str) (s s' : State) : Change → Int
  | .release _ k => if k = j then demandHeld (primaryIn j s) s' - demandHeld (primaryIn j s) s else 0
  | _ => 0

/-- The event keeps what `j` earned its miner, once its right is no longer recorded. A release of `j`
credits what a settlement would earn now, and no release overflows the demand. Afterwards, new
parameters earn the same, and the miner is updated only if the job earned nothing. -/
def Lasting (j : Str) (s : State) (e : Change) : Prop :=
  ∀ job m, s.job j = some job → s.miner job.minerId = some m →
    match e with
    | .settle _ _ => True
    | .release _ k => ∀ o d, s.job k = some o → o.minerId = job.minerId →
        s.funds.heldDemand.get k = some d →
        (k = j → d = earns s.params job m) ∧
          (k = j ∨ s.funds.heldDemand.has j = false → m.demand.toNat + d.toNat < 2 ^ 64)
    | .setParams msg => s.funds.heldDemand.has j = false →
        earns msg.params job m = earns s.params job m
    | .update msg => msg.minerId = job.minerId → s.funds.heldDemand.has j = false →
        earns s.params job m = 0 ∧ earns s.params job (m.updated msg) = 0

section Run

variable [Chain] {c : Ctx} {p : Params} {job o : Job} {m : Miner} {s s' : State} {j k : Str}
  {t t' : Interim} {e : Change}

/-- Where the event leads. -/
def Change.Leads (s : State) : Change → State → Prop
  | .settle c msg, s' => settleSemantic c msg s = .ok s'
  | .release c k, s' =>
    ∃ job, s.job k = some job ∧ s' = s.setFunds (releaseHeld c s.params job s.funds)
  | .setParams msg, s' => updateParams msg s = .ok s'
  | .update msg, s' => updateMiner msg s = .ok s'

/-- The job has just been settled in audit mode, in the state `s`. -/
def SettledIn (s : State) (j : Str) (t : Interim) : Prop :=
  ∃ c msg, msg.jobId = j ∧ s.params.verificationMode = 1 ∧
    settleSemantic c msg s = .ok t.state ∧
    t.credited = demandHeld (primaryIn j t.state) t.state - demandHeld (primaryIn j t.state) s

def Settled (j : Str) (t : Interim) : Prop := ∃ s, SettledIn s j t

/-- One event, and what it credits. -/
def Between (j : Str) (t : Interim) (e : Change) (t' : Interim) : Prop :=
  e.Leads t.state t'.state ∧ t'.credited = t.credited + e.credit j t.state t'.state

/-- What a refund of the job takes off the demand of its primary. -/
def lowered (c : Ctx) (j : Str) (s : State) : Int :=
  (s.job j).elim 0 fun job =>
    (s.miner job.minerId).elim 0 fun m =>
      m.demand.toNat -
        (reverseDemand s.params job (refundRetainedToClient c job s.funds).2.1 m).demand.toNat

/-- The right of the job is recorded and has credited nothing, or the job has credited what a
settlement would earn now, and the miner still has it. -/
def Square (j : Str) (t : Interim) : Prop :=
  ∃ job m, t.state.job j = some job ∧ jobIsPaid job.state = true ∧
    t.state.miner job.minerId = some m ∧
    (t.state.funds.heldDemand.has j = true ∧ t.credited = 0 ∨
      t.state.funds.heldDemand.has j = false ∧
        t.credited = (earns t.state.params job m).toNat ∧
        earns t.state.params job m ≤ m.demand)

/-! ### The refund -/

omit [Chain] in
theorem reverseDemand_demand (hle : earns p job m ≤ m.demand) :
    (reverseDemand p job false m).demand = m.demand - earns p job m := by
  unfold reverseDemand earns at *
  by_cases hc : job.client = m.operator
  · rw [if_neg (fun h => h.2 hc), if_pos hc, UInt64.sub_zero]
  · rw [if_neg hc, treasury_add_team] at hle
    rw [if_pos ⟨rfl, hc⟩, if_neg hc, treasury_add_team]
    exact congrArg (m.demand - ·) (if_neg (UInt64.not_lt.2 hle))

/-- Where the accounts are square, a refund takes off what was credited. -/
theorem lowered_of_square (h : Square j t) (c : Ctx) : lowered c j t.state = t.credited := by
  obtain ⟨job, m, hjob, -, hm, hsquare⟩ := h
  have hid : job.jobId = j := Table.key_of_get? hjob
  rw [lowered, hjob, Option.elim_some, hm, Option.elim_some, refundRetainedToClient_right, hid]
  rcases hsquare with ⟨hhas, h0⟩ | ⟨hhas, hcredited, hle⟩
  · rw [hhas, reverseDemand, if_neg (fun h => by cases h.1), h0]
    exact Int.sub_self _
  · have hnat := UInt64.le_iff_toNat_le.1 hle
    rw [hhas, reverseDemand_demand hle, toNat_sub hle, hcredited]
    omega

/-! ### A settlement -/

/-- What a settlement shows of a miner. -/
def Miner.due (m : Miner) : Str × UInt64 := (m.operator, m.demand)

omit [Chain] in
theorem earns_congr {m' : Miner} (h : m'.operator = m.operator) : earns p job m' = earns p job m := by
  rw [earns, earns, h]

omit [Chain] in
/-- A settlement that records no right earns nothing. -/
theorem earns_eq_zero (h : ¬ (job.client ≠ m.operator ∧
    (splitFee p job.fee).treasury + (splitFee p job.fee).team > 0)) : earns p job m = 0 := by
  unfold earns
  split
  · rfl
  · next hc =>
    by_contra h0
    exact h ⟨hc, UInt64.pos_iff_ne_zero.2 h0⟩

theorem settled_square (h : Settled j t) : Square j t := by
  obtain ⟨s, c, msg, rfl, hmode, hset, hcredited⟩ := h
  simp only [settleSemantic, bind_ok, require_ok, ensure_ok] at hset
  obtain ⟨-, -, job, hjob, -, -, -, -, -, -, hset⟩ := hset
  rw [if_pos hmode] at hset
  have hid : job.jobId = msg.jobId := Table.key_of_get? hjob
  obtain ⟨m, hm, hparams, hjobs, hrights⟩ := settleOptimistic_rights hset
  have hminers : t.state.funds.miners = s.funds.miners :=
    (congrArg Prod.fst hrights).trans (retainDemand_miners _ _ _ _)
  have hheld : t.state.funds.heldDemand = (retainDemand job m ((splitFee s.params job.fee).treasury +
      (splitFee s.params job.fee).team) s.funds).heldDemand := congrArg Prod.snd hrights
  have h0 : t.credited = 0 := by
    rw [hcredited, demandHeld, demandHeld, State.miner, State.miner, hminers]
    exact Int.sub_self _
  set paid : Job := { job with minerId := m.minerId, state := job.state ++ [.paid, .optimistic] }
  refine ⟨paid, m, ?_, ?_, ?_, ?_⟩
  · rw [State.job, hjobs, ← hid]
    exact Table.get?_put_self (v := paid)
  · rw [jobIsPaid_append]
    exact Bool.or_true _
  · rw [State.miner, hminers]
    exact hm
  · unfold retainDemand at hheld
    split at hheld
    · refine .inl ⟨?_, h0⟩
      rw [hheld, ← hid]
      exact Table.has_put_self
    · next hno =>
      -- no right was recorded, and nothing was earned
      have hnone : earns s.params job m = 0 := earns_eq_zero hno
      cases hb : t.state.funds.heldDemand.has msg.jobId with
      | true => exact .inl ⟨rfl, h0⟩
      | false =>
        refine .inr ⟨rfl, ?_, ?_⟩
        · rw [h0, hparams]
          exact congrArg (fun x : UInt64 => (x.toNat : Int)) hnone.symm
        · rw [hparams]
          exact hnone.trans_le (UInt64.zero_le)

/-- A settlement of another job. -/
theorem settleSemantic_apart {msg : MsgSettleSemantic} (h : settleSemantic c msg s = .ok s')
    (hne : j ≠ msg.jobId) :
    s'.params = s.params ∧ s'.job j = s.job j ∧
      s'.funds.heldDemand.has j = s.funds.heldDemand.has j ∧
      s'.read Miner.due = s.read Miner.due := by
  simp only [settleSemantic, bind_ok, require_ok, ensure_ok] at h
  obtain ⟨-, -, job, hjob, -, -, -, -, -, -, h⟩ := h
  have hid : job.jobId = msg.jobId := Table.key_of_get? hjob
  rw [← hid] at hne
  split at h
  · obtain ⟨m, -, hparams, hjobs, hrights⟩ := settleOptimistic_rights h
    refine ⟨hparams, ?_, ?_, read_settleOptimistic h⟩
    · rw [State.job, hjobs]
      exact Table.get?_put_ne hne
    · rw [show s'.funds.heldDemand = _ from congrArg Prod.snd hrights]
      unfold retainDemand
      split
      · exact Table.has_put_ne hne
      · rfl
  · refine ⟨?_, ?_, by rw [settleRedundant_heldDemand h], read_settleRedundant (fun _ _ _ _ => rfl) h⟩
    · simp only [settleRedundant, bind_ok, pure_ok] at h
      obtain ⟨-, -, -, -, -, -, -, -, acc, -, f, -, rfl⟩ := h
      rfl
    · simp only [settleRedundant, bind_ok, pure_ok] at h
      obtain ⟨-, -, -, -, -, -, -, -, acc, -, f, -, rfl⟩ := h
      exact Table.get?_put_ne hne

/-! ### One event -/

omit [Chain] in
/-- Square accounts stay so while nothing that they speak of changes. -/
theorem Square.congr (h : Square j t) (hparams : t'.state.params = t.state.params)
    (hjob : t'.state.job j = t.state.job j)
    (hhas : t'.state.funds.heldDemand.has j = t.state.funds.heldDemand.has j)
    (hread : t'.state.read Miner.due (primaryIn j t.state) = t.state.read Miner.due (primaryIn j t.state))
    (hcredited : t'.credited = t.credited) : Square j t' := by
  obtain ⟨job, m, hj, hpaid, hm, hsquare⟩ := h
  have hprim : primaryIn j t.state = job.minerId := by rw [primaryIn, hj, Option.elim_some]
  have hsome : t'.state.read Miner.due job.minerId = some m.due := by
    rw [← hprim, hread, hprim]
    exact congrArg (Option.map Miner.due) hm
  obtain ⟨m', hm', hdue⟩ := Option.map_eq_some_iff.1 hsome
  have hop : m'.operator = m.operator := congrArg Prod.fst hdue
  have hdem : m'.demand = m.demand := congrArg Prod.snd hdue
  refine ⟨job, m', hjob.trans hj, hpaid, hm', ?_⟩
  rw [hhas, hcredited, hparams, earns_congr hop, hdem]
  exact hsquare

/-- No job is settled twice. -/
theorem settle_square {msg : MsgSettleSemantic} (h : Square j t)
    (hs : settleSemantic c msg t.state = .ok t'.state) (hcredited : t'.credited = t.credited) :
    Square j t' := by
  by_cases hj : j = msg.jobId
  · obtain ⟨job, m, hjob, hpaid, -⟩ := h
    simp only [settleSemantic, bind_ok, require_ok, ensure_ok] at hs
    obtain ⟨-, -, o, ho, -, hunpaid, -⟩ := hs
    rw [← hj, hjob] at ho
    cases ho
    rw [hpaid] at hunpaid
    cases hunpaid
  · obtain ⟨hparams, hjob, hhas, hread⟩ := settleSemantic_apart hs hj
    exact h.congr hparams hjob hhas (congrFun hread _) hcredited

omit [Chain] in
/-- A release that credits the demand `d`. -/
theorem credit_square {d : UInt64} {r : Miner} (h : Square j t)
    (hok : Lasting j t.state (.release c k)) (ho : t.state.job k = some o)
    (hd : t.state.funds.heldDemand.get k = some d) (hr : t.state.miner o.minerId = some r)
    (hparams : t'.state.params = t.state.params) (hjobs : t'.state.job j = t.state.job j)
    (hminers : t'.state.funds.miners = t.state.funds.miners.put (r.credit d))
    (hheld : t'.state.funds.heldDemand = t.state.funds.heldDemand.remove k)
    (hcredited : t'.credited = t.credited + (Change.release c k).credit j t.state t'.state) :
    Square j t' := by
  have hrid : r.minerId = o.minerId := Table.key_of_get? hr
  have hsq := h
  obtain ⟨job, m, hjob, hpaid, hm, hsquare⟩ := hsq
  have hprim : primaryIn j t.state = job.minerId := by rw [primaryIn, hjob, Option.elim_some]
  have hother : k ≠ j → t'.state.funds.heldDemand.has j = t.state.funds.heldDemand.has j := by
    intro hk
    rw [hheld]
    exact Table.has_erase_ne (Ne.symm hk)
  by_cases hsame : o.minerId = job.minerId
  · rw [hsame] at hr hrid
    obtain rfl : m = r := Option.some.inj (hm.symm.trans hr)
    have hsum : m.demand.toNat + d.toNat < 2 ^ 64 →
        (m.credit d).demand.toNat = m.demand.toNat + d.toNat := by
      intro hfit
      exact (UInt64.toNat_add _ _).trans (Nat.mod_eq_of_lt hfit)
    have hop : earns t.state.params job (m.credit d) = earns t.state.params job m := rfl
    have hm' : t'.state.miner job.minerId = some (m.credit d) := by
      rw [State.miner, hminers, ← hrid]
      exact Table.get?_put_self (v := m.credit d)
    obtain ⟨hnow, hfits⟩ := hok job m hjob hm o d ho hsame hd
    by_cases hk : k = j
    · -- the right of the job itself
      subst hk
      have hsum := hsum (hfits (.inl rfl))
      have hhas : t.state.funds.heldDemand.has k = true := Table.has_of_get? (Store.get?_of_get hd)
      have h0 : t.credited = 0 := by
        rcases hsquare with ⟨-, h0⟩ | ⟨hno, -⟩
        · exact h0
        · rw [hhas] at hno
          cases hno
      refine ⟨job, _, hjobs.trans hjob, hpaid, hm', .inr ⟨?_, ?_, ?_⟩⟩
      · rw [hheld]
        exact Table.has_erase_self
      · rw [hcredited, h0, Change.credit, if_pos rfl, hprim, demandHeld, demandHeld, hm', hm,
          Option.elim_some, Option.elim_some, hsum, hparams, hop, ← hnow rfl]
        omega
      · rw [hparams, hop, ← hnow rfl, UInt64.le_iff_toNat_le, hsum]
        omega
    · have hc : t'.credited = t.credited := by
        rw [hcredited, Change.credit, if_neg hk, Int.add_zero]
      refine ⟨job, _, hjobs.trans hjob, hpaid, hm', ?_⟩
      rw [hother hk, hc, hparams, hop]
      refine hsquare.imp_right fun ⟨hno, hearned, hle⟩ => ⟨hno, hearned, ?_⟩
      have hsum := hsum (hfits (.inr hno))
      have hnat := UInt64.le_iff_toNat_le.1 hle
      rw [UInt64.le_iff_toNat_le, hsum]
      omega
  · have hk : k ≠ j := by
      rintro rfl
      rw [hjob] at ho
      cases ho
      exact hsame rfl
    refine h.congr hparams hjobs (hother hk) ?_ (by rw [hcredited, Change.credit, if_neg hk, Int.add_zero])
    rw [hprim, State.read, State.read, Funds.read, Funds.read, hminers, Table.get?_put_ne]
    rw [show (r.credit d).minerId = o.minerId from hrid]
    exact Ne.symm hsame

theorem release_square (h : Square j t) (hok : Lasting j t.state (.release c k))
    (ho : t.state.job k = some o)
    (hs : t'.state = t.state.setFunds (releaseHeld c t.state.params o t.state.funds))
    (hcredited : t'.credited = t.credited + (Change.release c k).credit j t.state t'.state) :
    Square j t' := by
  have hid : o.jobId = k := Table.key_of_get? ho
  subst hid
  have hparams : t'.state.params = t.state.params := by rw [hs]; rfl
  have hjobs : t'.state.job j = t.state.job j := by rw [hs]; rfl
  have hrights : t'.state.funds.rights = (creditDemand o t.state.funds).2.rights := by
    rw [hs]
    exact releaseHeld_rights
  rcases creditDemand_cases o t.state.funds with hsame | ⟨d, r, hd, hr, hcredit⟩
  · rw [hsame] at hrights
    have hminers : t'.state.funds.miners = t.state.funds.miners := congrArg Prod.fst hrights
    have hheld : t'.state.funds.heldDemand = t.state.funds.heldDemand := congrArg Prod.snd hrights
    refine h.congr hparams hjobs (by rw [hheld]) (congrFun (read_of_miners hminers) _) ?_
    rw [hcredited, Change.credit, demandHeld, demandHeld, State.miner, State.miner, hminers,
      Int.sub_self, ite_self, Int.add_zero]
  · rw [hcredit] at hrights
    exact credit_square h hok ho hd hr hparams hjobs (congrArg Prod.fst hrights)
      (congrArg Prod.snd hrights) hcredited

theorem update_square {msg : MsgUpdateMiner} (h : Square j t)
    (hok : Lasting j t.state (.update msg)) (hs : updateMiner msg t.state = .ok t'.state)
    (hcredited : t'.credited = t.credited) : Square j t' := by
  obtain ⟨m₀, hm₀, hs'⟩ := updateMiner_eq hs
  have hid : m₀.minerId = msg.minerId := Table.key_of_get? hm₀
  have hminers : t'.state.funds.miners = t.state.funds.miners.put (m₀.updated msg).reset := by
    rw [hs']
    rfl
  have hsq := h
  obtain ⟨job, m, hjob, hpaid, hm, hsquare⟩ := hsq
  have hparams : t'.state.params = t.state.params := by rw [hs']; rfl
  have hjobs : t'.state.job j = t.state.job j := by rw [hs']; rfl
  have hhas : t'.state.funds.heldDemand.has j = t.state.funds.heldDemand.has j := by rw [hs']; rfl
  by_cases hsame : msg.minerId = job.minerId
  · rw [hsame] at hm₀ hid
    obtain rfl : m = m₀ := Option.some.inj (hm.symm.trans hm₀)
    have hm' : t'.state.miner job.minerId = some (m.updated msg).reset := by
      rw [State.miner, hminers, ← hid]
      exact Table.get?_put_self (v := (m.updated msg).reset)
    refine ⟨job, _, hjobs.trans hjob, hpaid, hm', ?_⟩
    rw [hhas, hcredited, hparams]
    refine hsquare.imp_right fun ⟨hno, hearned, _⟩ => ?_
    obtain ⟨hbefore, hafter⟩ := hok job m hjob hm hsame hno
    have hafter' : earns t.state.params job (m.updated msg).reset = 0 := hafter
    rw [hearned, hbefore, hafter']
    exact ⟨hno, rfl, UInt64.zero_le⟩
  · refine h.congr hparams hjobs hhas ?_ hcredited
    rw [primaryIn, hjob, Option.elim_some, State.read, State.read, Funds.read, Funds.read, hminers,
      Table.get?_put_ne]
    rw [show Miner.minerId (m₀.updated msg).reset = msg.minerId from hid]
    exact Ne.symm hsame

/-- A step of a run keeps the accounts of the job square. -/
theorem step_square (h : Square j t) (hok : Lasting j t.state e) (hs : Between j t e t') :
    Square j t' := by
  obtain ⟨hlead, hcredited⟩ := hs
  cases e with
  | settle c msg => exact settle_square h hlead (hcredited.trans (Int.add_zero _))
  | release c k =>
    obtain ⟨o, ho, hs⟩ := hlead
    exact release_square h hok ho hs hcredited
  | setParams msg =>
    have hlead : updateParams msg t.state = .ok t'.state := hlead
    obtain ⟨-, hs⟩ := updateParams_eq hlead
    obtain ⟨job, m, hjob, hpaid, hm, hsquare⟩ := h
    refine ⟨job, m, ?_, hpaid, ?_, ?_⟩
    · rw [hs]
      exact hjob
    · rw [hs]
      exact hm
    · rw [hs, hcredited.trans (Int.add_zero _)]
      refine hsquare.imp_right fun ⟨hno, hearned, hle⟩ => ?_
      have hsame : earns msg.params job m = earns t.state.params job m := hok job m hjob hm hno
      simp only [hsame]
      exact ⟨hno, hearned, hle⟩
  | update msg => exact update_square h hok hlead (hcredited.trans (Int.add_zero _))

/-- A refund takes off exactly what the job has credited, in every state of a run whose events last. -/
theorem refund_reverses (h : Reach (Settled j) (Between j) (fun t e => Lasting j t.state e) t)
    (c : Ctx) : lowered c j t.state = t.credited := by
  refine lowered_of_square (Reach.invariant (P := Square j) ?_ ?_ h) c
  · exact fun t ht => settled_square ht
  · exact fun t e t' _ ht hok hs => step_square ht hok hs

end Run

/-! ## A run -/

/-- The retention of the job is released in block 50. -/
def freed (job : Job) (s : State) : State := s.setFunds (releaseHeld (blockAt 50) s.params job s.funds)

/-- The authority lowers the cut to a tenth of the fee. -/
def lowerFee : MsgUpdateParams := ⟨governance, { auditMode with protocolFeeBps := 1000 }⟩

/-- A right of eight coins is recorded, and a release credits them. Then the lower fee would take five
of them back, and after an update of the miner there is nothing to take. -/
abbrev Drifts (job : Job) (m : Miner) (s : State) : Prop :=
  m.demand = 0 ∧ s.funds.heldDemand.get ticket = some 8 ∧ earns s.params job m = 8 ∧
    demandHeld job.minerId (freed job s) = 8 ∧ lowered (blockAt 51) ticket (freed job s) = 8 ∧
    (updateParams lowerFee (freed job s)).isOk = true ∧
    lowered (blockAt 51) ticket (outcome (updateParams lowerFee (freed job s)) (freed job s)) = 5 ∧
    (updateMiner (refresh 2) (freed job s)).isOk = true ∧
    lowered (blockAt 51) ticket (outcome (updateMiner (refresh 2) (freed job s)) (freed job s)) = 0

/-- A job of 100 coins is settled in audit mode. -/
theorem exists_drifting : ∃ s s' job m, Reachable (fun _ _ => True) s ∧
    s.params.verificationMode = 1 ∧ settleSemantic (blockAt 5) ⟨client, ticket⟩ s = .ok s' ∧
    s'.job ticket = some job ∧ s'.miner job.minerId = some m ∧ demandHeld job.minerId s = 0 ∧
    Drifts job m s' := by
  obtain ⟨s, hs, ht⟩ := exists_reachable (fun _ _ _ => trivial)
    (reachable_village validate_auditMode (by decide) fun _ _ _ _ => trivial)
    (show endsIn free
      (fun s => decide (s.params.verificationMode = 1 ∧
        (settleSemantic (blockAt 5) ⟨client, ticket⟩ s).isOk = true ∧
        ∃ job ∈ (outcome (settleSemantic (blockAt 5) ⟨client, ticket⟩ s) s).job ticket,
        ∃ m ∈ (outcome (settleSemantic (blockAt 5) ⟨client, ticket⟩ s) s).miner job.minerId,
          demandHeld job.minerId s = 0 ∧
          Drifts job m (outcome (settleSemantic (blockAt 5) ⟨client, ticket⟩ s) s)))
      (served.take 3) (village auditMode) = true by
      delta Drifts
      rewrite [application_eq_tabled]
      decide +kernel)
  obtain ⟨hmode, hok, job, hjob, m, hm, hzero, hdrift⟩ := of_decide_eq_true ht
  exact ⟨s, _, job, m, hs, hmode, eq_ok_outcome hok, hjob, hm, hzero, hdrift⟩

/-- The settlement, the release, and the two ways to drift from there. -/
theorem exists_released : ∃ s t t' t₁ t₂, Reachable (fun _ _ => True) s ∧ SettledIn s ticket t ∧
    Lasting ticket t.state (.release (blockAt 50) ticket) ∧
    Between ticket t (.release (blockAt 50) ticket) t' ∧ t'.credited = 8 ∧
    Between ticket t' (.setParams lowerFee) t₁ ∧ lowered (blockAt 51) ticket t₁.state = 5 ∧
    Between ticket t' (.update (refresh 2)) t₂ ∧ lowered (blockAt 51) ticket t₂.state = 0 := by
  obtain ⟨s, s', job, m, hs, hmode, hset, hjob, hm, hzero, hm0, hright, hearns, hfreed, -, hparams, hlow,
    hupdate, hnone⟩ := exists_drifting
  have hprim : primaryIn ticket s' = job.minerId := by rw [primaryIn, hjob, Option.elim_some]
  have hnow : demandHeld job.minerId s' = 0 := by
    rw [demandHeld, hm, Option.elim_some, hm0]
    rfl
  have hset₁ := eq_ok_outcome (s := freed job s') hparams
  generalize outcome (updateParams lowerFee (freed job s')) (freed job s') = s₁ at hset₁ hlow
  have hset₂ := eq_ok_outcome (s := freed job s') hupdate
  generalize outcome (updateMiner (refresh 2) (freed job s')) (freed job s') = s₂ at hset₂ hnone
  refine ⟨s, ⟨s', 0⟩, ⟨freed job s', 8⟩, ⟨s₁, 8⟩, ⟨s₂, 8⟩, hs,
    ⟨blockAt 5, ⟨client, ticket⟩, rfl, hmode, hset, ?_⟩, ?_, ⟨⟨job, hjob, rfl⟩, ?_⟩, rfl,
    ⟨hset₁, (Int.add_zero 8).symm⟩, hlow, ⟨hset₂, (Int.add_zero 8).symm⟩, hnone⟩
  · show (0 : Int) = _
    rw [hprim, hnow, hzero]
    rfl
  · intro o r ho hr o' d ho' _ hd
    cases hjob.symm.trans ho
    cases hm.symm.trans hr
    cases hright.symm.trans hd
    refine ⟨fun _ => hearns.symm, fun _ => ?_⟩
    rw [hm0]
    decide
  · show (8 : Int) = 0 + (Change.release (blockAt 50) ticket).credit ticket s' (freed job s')
    rw [Change.credit, if_pos rfl, hprim, hnow, hfreed]
    rfl

/-- Refunded right after the release, the job gives its eight coins of demand back. -/
theorem refund_reverses_freed : ∃ t,
    Reach (Settled ticket) (Between ticket) (fun t e => Lasting ticket t.state e) t ∧
      t.credited = 8 ∧ lowered (blockAt 51) ticket t.state = t.credited := by
  obtain ⟨s, t, t', -, -, -, hset, hok, hrel, h8, -⟩ := exists_released
  have hrun : Reach (Settled ticket) (Between ticket) (fun t e => Lasting ticket t.state e) t' :=
    .step (.init ⟨s, hset⟩) hok hrel
  exact ⟨t', hrun, h8, refund_reverses hrun _⟩

/-- Of the eight coins, a refund takes five after the fee was lowered, and none after an update. -/
theorem refund_drifts : ∃ s t t₁ t₂, Reachable (fun _ _ => True) s ∧ SettledIn s ticket t ∧
    Reach (· = t) (Between ticket) (fun _ _ => True) t₁ ∧ t₁.credited = 8 ∧
    lowered (blockAt 51) ticket t₁.state = 5 ∧
    Reach (· = t) (Between ticket) (fun _ _ => True) t₂ ∧ t₂.credited = 8 ∧
    lowered (blockAt 51) ticket t₂.state = 0 := by
  obtain ⟨s, t, t', t₁, t₂, hs, hset, -, hrel, h8, hparams, hlow, hupdate, hnone⟩ := exists_released
  have hrun : Reach (· = t) (Between ticket) (fun _ _ => True) t' := .step (.init rfl) trivial hrel
  have h₁ : t₁.credited = 8 := hparams.2.trans ((Int.add_zero _).trans h8)
  have h₂ : t₂.credited = 8 := hupdate.2.trans ((Int.add_zero _).trans h8)
  exact ⟨s, t, t₁, t₂, hs, hset, .step hrun trivial hparams, h₁, hlow, .step hrun trivial hupdate, h₂,
    hnone⟩

end Dendra.Jobs
