import Dendra.Jobs.View

/-!
# Progress of what touches no job

The messages about one miner, commits, deposits, the inactivity prune and the availability pass:
none of them changes a job, a retention or a queue of a job, and a miner only leaves when nothing
holds it.

* `Prog.of_spends`: funds move on nobody's account.
* `Prog.removeMiner`: a miner leaves, its bond paid out.
-/

namespace Dendra.Jobs

open Word

variable {c : Ctx} {E : Label → Prop} {s s' : State}

/-! ## The general moves -/

/-- What the exit guard lets go, no job holds. -/
theorem free_of_hasOpenObligation {m : Str} (h : hasOpenObligation c s m = false) (k : Str) :
    (view s k).Free m := by
  intro job hj hm
  have hj' : s.jobs.get? k = some job := hj
  simp only [hasOpenObligation, Bool.or_eq_false_iff] at h
  obtain ⟨⟨hfee, -⟩, hjobs⟩ := h
  constructor
  · cases ha : (view s k).purse.held .fee with
    | none => rfl
    | some a =>
      have hmem := Store.get_eq_some_iff.1 (show (s.funds.held .fee).get k = some a from ha)
      have := List.any_eq_false.1 hfee _ hmem
      simp [State.job, hj', hm] at this
  · intro hd
    have := List.any_eq_false.1 hjobs job (Table.mem_of_get? hj')
    simp only [jobHolds, hm, decide_true, hd, Bool.true_and, Bool.or_eq_true, Bool.and_eq_true,
      Bool.not_eq_true', not_or, Bool.not_eq_false] at this
    exact this.1

variable [Chain]

/-- Funds move on nobody's account, and the registry changes. -/
theorem Prog.of_spends (hE : E .plain) (hw : s.Wf) {x : Int} {f : Funds}
    (hf : s.params.Bounded → x ≤ 0) (h : Funds.Spends x (Funds.Beside []) s.funds f)
    (r : Registry) : Prog E s { s with funds := f, registry := r } := by
  refine .quiet hE hw rfl (fun k hk => Funds.purse_of_spends h hk.1) rfl rfl ⟨rfl, rfl⟩
    (fun _ _ h => h) (fun _ h => .inl h) (fun m hm => .inl (h.registered m ▸ hm))
    (fun m _ hm => .inl ((h.registered m).symm ▸ hm)) (fun hb => ?_) h.supply rfl
    (fun _ _ h => .inl h)
  have hs := h.slack
  have hx := hf hb
  show s.funds.slack - (s.jobs.sum Job.owed : Nat) ≤ f.slack - (s.jobs.sum Job.owed : Nat)
  omega

/-- Only the registry changes. -/
theorem Prog.of_registry (hE : E .plain) (hw : s.Wf) (r : Registry) :
    Prog E s { s with registry := r } :=
  .of_spends hE hw (fun _ => le_rfl) (.refl _ s.funds) r

/-- A record is replaced, with the bond it had. -/
theorem Prog.of_setMiner (hE : E .plain) (hw : s.Wf) {m m' : Miner}
    (hm : s.miner m'.minerId = some m) (hs : m'.stake = m.stake) :
    Prog E s (s.setFunds (s.funds.setMiner m')) :=
  .of_spends hE hw (fun _ => by rw [hs]; omega) (Funds.Spends.setMiner hm) s.registry

/-- A miner that nothing holds leaves, its bond paid out. -/
theorem Prog.removeMiner (hE : E .plain) (hw : s.Wf) {m : Str} {miner : Miner} {f : Funds}
    (hm : s.miner m = some miner) (hfree : ∀ k, (view s k).Free m)
    (hf : Funds.Spends miner.stake.toNat (Funds.Beside []) s.funds f)
    (hsame : f.miners = s.funds.miners) : Prog E s (removeMiner m f s) := by
  have hget : f.miners.get? m = some miner := by rw [hsame]; exact hm
  refine .quiet hE hw rfl (fun k hk => Funds.purse_of_spends hf hk.1) rfl rfl ⟨rfl, rfl⟩
    (fun _ _ h => h) (fun _ h => .inl h) (fun x hx => .inl ?_) (fun x k hx => ?_) (fun _ => ?_)
    hf.supply rfl (fun _ _ h => .inl h)
  · change (f.miners.erase m).has x = true at hx
    by_cases hxm : x = m
    · rw [hxm, Table.has_erase_self] at hx
      cases hx
    · rw [Table.has_erase_ne hxm, hsame] at hx
      exact hx
  · by_cases hxm : x = m
    · exact .inr (hxm ▸ hfree k)
    · refine .inl ?_
      show (f.miners.erase m).has x = true
      rw [Table.has_erase_ne hxm, hsame]
      exact hx
  · have hs := hf.slack
    have hsum := Table.sum_erase_of_some (fun m : Miner => m.stake.toNat) hget
    show s.funds.slack - (s.jobs.sum Job.owed : Nat) ≤ (f.bank.balance : Int) -
      ((f.miners.erase m).sum (fun m => m.stake.toNat) + f.heldTotal + f.poolCoins : Nat) -
        (s.jobs.sum Job.owed : Nat)
    have hst : f.stakes = f.miners.sum fun m => m.stake.toNat := rfl
    rw [Funds.slack, Funds.slack, hst] at hs
    rw [Funds.slack]
    omega

/-- A miner joins, its bond collected. -/
theorem Prog.addMiner (hE : E .plain) (hw : s.Wf) {miner : Miner} {f : Funds} {text : String}
    (hwf : WfMinerId miner.minerId) (hnew : s.miner miner.minerId = none)
    (hf : s.funds.collect c miner.stake text = .ok f) (r : Registry) :
    Prog E s { s with funds := f.setMiner miner, registry := r } := by
  have hsp := Funds.Spends.collected (P := Funds.Beside []) hf
  obtain ⟨b, rfl, hbal, hsup⟩ := Funds.collect_ok hf
  refine .quiet hE hw rfl (fun k hk => Funds.purse_of_spends hsp hk.1) rfl rfl ⟨rfl, rfl⟩
    (fun _ _ h => h) (fun _ h => .inl h) (fun x hx => ?_) (fun x k hx => .inl ?_) (fun _ => ?_)
    (le_of_eq hsup) rfl (fun _ _ h => .inl h)
  · change (s.funds.miners.put miner).has x = true at hx
    by_cases hxm : x = miner.minerId
    · exact .inr (hxm ▸ hwf)
    · rw [Table.has_put_ne hxm] at hx
      exact .inl hx
  · show (s.funds.miners.put miner).has x = true
    by_cases hxm : x = miner.minerId
    · rw [hxm, Table.has_put_self]
    · rw [Table.has_put_ne hxm]
      exact hx
  · have hsum := Table.sum_put_of_none (fun m : Miner => m.stake.toNat) (t := s.funds.miners) hnew
    have hs := hsp.slack
    show s.funds.slack - (s.jobs.sum Job.owed : Nat) ≤ (b.balance : Int) -
      ((s.funds.miners.put miner).sum (fun m => m.stake.toNat) + s.funds.heldTotal +
        s.funds.poolCoins : Nat) - (s.jobs.sum Job.owed : Nat)
    rw [hsum, Funds.slack, Funds.stakes]
    omega

/-! ## The messages about one miner -/

theorem createMiner_prog (hE : E .plain) (hw : s.Wf) {msg : MsgCreateMiner}
    (h : createMiner c msg s = .ok s') : Prog E s s' := by
  simp only [createMiner, bind_ok, ensure_ok, require_ok, pure_ok] at h
  obtain ⟨signerBz, -, wantID, hid, -, hwant, -, hnew, -, -, funds, hc, -, -, -, -, rfl⟩ := h
  exact .addMiner hE hw (hwant ▸ deriveMinerID_wf hid) hnew hc _

theorem updateMiner_prog (hE : E .plain) (hw : s.Wf) {msg : MsgUpdateMiner}
    (h : updateMiner msg s = .ok s') : Prog E s s' := by
  simp only [updateMiner, bind_ok, ensure_ok, getMiner, require_ok, pure_ok] at h
  obtain ⟨-, -, val, hv, -, -, -, -, rfl⟩ := h
  exact .of_setMiner hE hw hv rfl

theorem deleteMiner_prog (hE : E .plain) (hw : s.Wf) {msg : MsgDeleteMiner}
    (h : deleteMiner c msg s = .ok s') : Prog E s s' := by
  simp only [deleteMiner, bind_ok, ensure_ok, getMiner, require_ok] at h
  obtain ⟨-, -, val, hv, -, -, -, ho, h⟩ := h
  split at h
  · simp only [bind_ok, pure_ok] at h
    obtain ⟨bz, -, f, hf, rfl⟩ := h
    have hsame : f.miners = s.funds.miners := by
      obtain ⟨b, -, rfl⟩ := Funds.payOrFail_ok hf
      rfl
    exact .removeMiner hE hw hv (free_of_hasOpenObligation ho) (Funds.Spends.payOrFail hf ⟨rfl, rfl⟩) hsame
  · rw [pure_ok] at h
    subst h
    exact .removeMiner hE hw hv (free_of_hasOpenObligation ho) ((Funds.Spends.refl _ s.funds).mono_cost (by omega)) rfl

theorem rotateMinerKeys_prog (hE : E .plain) (hw : s.Wf) {msg : MsgRotateMinerKeys}
    (h : rotateMinerKeys msg s = .ok s') : Prog E s s' := by
  simp only [rotateMinerKeys, bind_ok, ensure_ok, getMiner, require_ok, pure_ok] at h
  obtain ⟨-, -, val, hv, -, -, -, -, -, -, rfl⟩ := h
  have hid : val.minerId = msg.minerId := Table.key_of_get? hv
  exact .of_setMiner hE hw (m := val) (by rw [hid]; exact hv) rfl

theorem declareJudge_prog (hE : E .plain) (hw : s.Wf) {msg : MsgDeclareJudge}
    (h : declareJudge c msg s = .ok s') : Prog E s s' := by
  simp only [declareJudge, bind_ok, ensure_ok, pure_ok] at h
  obtain ⟨-, -, -, -, -, -, rfl⟩ := h
  exact .of_registry hE hw _

theorem proveAvailability_prog (hE : E .plain) (hw : s.Wf) {msg : MsgProveAvailability}
    (h : proveAvailability c msg s = .ok s') : Prog E s s' := by
  simp only [proveAvailability, bind_ok, ensure_ok] at h
  obtain ⟨-, -, -, -, miner, -, -, -, -, -, -, -, -, -, -, -, -, -, h⟩ := h
  split at h
  · simp only [bind_ok, ensure_ok, pure_ok] at h
    obtain ⟨-, -, -, -, -, -, rfl⟩ := h
    exact .of_registry hE hw _
  · rw [pure_ok] at h
    subst h
    exact .of_registry hE hw _

theorem claimSubsidy_prog (hE : E .plain) (hw : s.Wf) {msg : MsgClaimSubsidy}
    (h : claimSubsidy c msg s = .ok s') : Prog E s s' := by
  simp only [claimSubsidy, bind_ok, ensure_ok, getMiner, require_ok, pure_ok] at h
  obtain ⟨-, -, miner, hm, -, -, -, -, -, -, paid, -, -, -, rfl⟩ := h
  have hid : miner.minerId = msg.minerId := Table.key_of_get? hm
  refine .of_spends hE hw (fun _ => ?_)
    ((Funds.Spends.setMiner (m := miner) (by rw [hid]; exact hm)).trans (Funds.Spends.setPools _))
    s.registry
  simp only [Funds.poolCoins_eq]
  show (miner.stake.toNat : Int) - miner.stake.toNat +
    ((s.funds.poolsOrZero.treasury.toNat + s.funds.poolsOrZero.team.toNat : Nat) -
      (s.funds.poolsOrZero.treasury.toNat + s.funds.poolsOrZero.team.toNat : Nat)) ≤ 0
  omega

theorem rewardTraining_prog (hE : E .plain) (hw : s.Wf) {msg : MsgRewardTraining}
    (h : rewardTraining msg s = .ok s') : Prog E s s' := by
  simp only [rewardTraining, bind_ok, ensure_ok, pure_ok] at h
  obtain ⟨-, -, -, -, -, -, -, -, rfl⟩ := h
  refine .of_spends hE hw (fun _ => ?_) (Funds.Spends.setPools _) s.registry
  rw [Funds.poolCoins_eq]
  simp only
  omega

/-- The treasury takes what a bond loses. -/
theorem slashToTreasury_prog (hE : E .plain) (hw : s.Wf) {miner : Miner} {m : Str}
    (hm : s.miner m = some miner) : Prog E s (slashToTreasury miner s) := by
  have hid : miner.minerId = m := Table.key_of_get? hm
  refine .of_spends hE hw (fun hb => ?_)
    ((Funds.Spends.setMiner (m := miner) (by rw [hid]; exact hm)).trans (Funds.Spends.setPools _))
    s.registry
  have h1 := toNat_sub (bpsOf_le (x := miner.stake) hb.slashLeak)
  have h2 := toNat_le_of_le (bpsOf_le (x := miner.stake) hb.slashLeak)
  have h3 := poolCoins_credit_le s.funds (bpsOf miner.stake s.params.slashLeakBps)
  show ((miner.stake - bpsOf miner.stake s.params.slashLeakBps).toNat : Int) - miner.stake.toNat +
    (((s.funds.poolsOrZero.treasury + bpsOf miner.stake s.params.slashLeakBps).toNat +
      s.funds.poolsOrZero.team.toNat : Nat) - s.funds.poolCoins) ≤ 0
  omega

theorem slashMiner_prog (hE : E .plain) (hw : s.Wf) {msg : MsgSlashMiner}
    (h : slashMiner msg s = .ok s') : Prog E s s' := by
  simp only [slashMiner, bind_ok, ensure_ok, getMiner, require_ok, pure_ok] at h
  obtain ⟨-, -, -, -, miner, hm, rfl⟩ := h
  exact slashToTreasury_prog hE hw hm

theorem reportDivergence_prog (hE : E .plain) (hw : s.Wf) {msg : MsgReportDivergence}
    (h : reportDivergence msg s = .ok s') : Prog E s s' := by
  simp only [reportDivergence, bind_ok, ensure_ok, getMiner, require_ok, pure_ok] at h
  obtain ⟨-, -, -, -, -, -, job, -, miner, hm, rfl⟩ := h
  exact slashToTreasury_prog hE hw hm

theorem submitVrfBeacon_prog (hE : E .plain) (hw : s.Wf) {msg : MsgSubmitVrfBeacon}
    (h : submitVrfBeacon msg s = .ok s') : Prog E s s' := by
  simp only [submitVrfBeacon, bind_ok, ensure_ok, pure_ok] at h
  obtain ⟨-, -, -, -, -, -, -, -, beta, -, -, -, rfl⟩ := h
  exact .quiet hE hw rfl (fun _ _ => rfl) rfl rfl ⟨rfl, rfl⟩ (fun _ _ h => h) (fun _ h => .inl h)
    (fun _ h => .inl h) (fun _ _ h => .inl h) (fun _ => le_rfl) le_rfl rfl (fun _ _ h => .inl h)

theorem deposit_prog (hE : E .plain) (hw : s.Wf) {amt : UInt64}
    (h : deposit c amt s = .ok s') : Prog E s s' := by
  simp only [deposit, bind_ok, pure_ok] at h
  obtain ⟨f, hf, rfl⟩ := h
  exact .of_spends hE hw (fun _ => by omega) (Funds.Spends.collected hf) s.registry

/-! ## Commits -/

/-- A commit is stored under a new, well-formed key. -/
theorem createCommit_spec {msg : MsgCreateCommit} (h : createCommit c msg s = .ok s') :
    ∃ k miner cm r, parseCommitKey msg.jobId = some k ∧ s.miner k.minerId = some miner ∧
      msg.creator = miner.operator ∧ s.commit msg.jobId = none ∧ cm.jobId = msg.jobId ∧
      cm.resultCommit = msg.resultCommit ∧ cm.creator = msg.creator ∧
      (k.jobScoped = true → s.jobs.has k.jobId = true) ∧
      s' = { s with commits := s.commits.put cm, registry := r } := by
  simp only [createCommit, bind_ok, ensure_ok, getMiner, require_ok, pure_ok] at h
  obtain ⟨-, -, k, hk, -, -, -, hjob, -, -, -, -, -, -, -, -, -, -, miner, hm, -, hcr, -, hnew, -,
    -, h⟩ := h
  have hreg : ∃ r, s' = { s with
      commits := s.commits.put
        ⟨msg.jobId, msg.promptCommit, msg.resultCommit, msg.kind, msg.creator, msg.modelId,
          msg.weightsHash⟩
      registry := r } := by
    refine ⟨s'.registry, ?_⟩
    split at h <;> subst h <;> rfl
  obtain ⟨r, hr⟩ := hreg
  exact ⟨k, miner, _, r, hk, hm, hcr, hnew, rfl, rfl, rfl, hjob, hr⟩

theorem createCommit_prog (hE : E .plain) (hw : s.Wf) {msg : MsgCreateCommit}
    (h : createCommit c msg s = .ok s') : Prog E s s' := by
  obtain ⟨k, miner, cm, r, hk, hm, -, hnew, hid, -, -, -, rfl⟩ := createCommit_spec h
  have hwf : WfMinerId k.minerId := hw.miners _ (Table.has_of_get? hm)
  have hnew' : s.commits.get? cm.jobId = none := by rw [hid]; exact hnew
  refine .quiet hE hw rfl (fun _ _ => rfl) rfl rfl ⟨rfl, rfl⟩ (fun key cm' hcm => ?_)
    (fun key hkey => ?_) (fun _ h => .inl h) (fun _ _ h => .inl h) (fun _ => le_rfl) le_rfl rfl
    (fun _ _ h => .inl h)
  · have hne : key ≠ cm.jobId := by
      rintro rfl
      rw [State.commit, hnew'] at hcm
      cases hcm
    show (s.commits.put cm).get? key = some cm'
    rw [Table.get?_put_ne hne]
    exact hcm
  · by_cases hne : key = cm.jobId
    · exact .inr ⟨k, by rw [hne, hid]; exact hk, hwf⟩
    · change (s.commits.put cm).has key = true at hkey
      rw [Table.has_put_ne hne] at hkey
      exact .inl hkey

end Dendra.Jobs
