import Dendra.Jobs.Application

/-!
# Updating a miner

`UpdateMiner` builds the record anew from the message and copies what an update must not change. It
copies the bond and the keys, and leaves out the two counters of the subsidy: the demand that the
miner's jobs earned it and what it has claimed of the subsidy go back to zero. `RotateMinerKeys` edits
the stored record, and keeps both.

* `updateMiner_eq`: what an update stores.
* `update_keeps_iff`: which updates keep the accounting of their miner.
* `update_forgets`: an update that takes a demand of eight coins.
-/

namespace Dendra.Jobs

section Update

variable [Chain] {s s' : State} {a : Ctx × Action}

/-- The record of a miner with what an update may set. -/
def Miner.updated (msg : MsgUpdateMiner) (m : Miner) : Miner :=
  { m with operator := msg.operator, region := msg.region }

/-- The record with both counters of the subsidy at zero. -/
def Miner.reset (m : Miner) : Miner := { m with demand := 0, subsidyClaimed := 0 }

/-- If the step is an update, it changes the operator and the region of the miner and nothing else. -/
def KeepsAccounting (s : State) (a : Ctx × Action) (s' : State) : Prop :=
  ∀ msg, a.2 = .updateMiner msg → ∃ m, s.miner msg.minerId = some m ∧
    s' = s.setFunds (s.funds.setMiner (m.updated msg))

/-- If the step is an update, its miner has earned no demand and has claimed nothing. -/
def UpdatesFresh (s : State) (a : Ctx × Action) : Prop :=
  ∀ msg m, a.2 = .updateMiner msg → s.miner msg.minerId = some m →
    m.demand = 0 ∧ m.subsidyClaimed = 0

omit [Chain] in
theorem Miner.reset_eq_self_iff {m : Miner} : m.reset = m ↔ m.demand = 0 ∧ m.subsidyClaimed = 0 := by
  constructor
  · intro h
    exact ⟨(congrArg Miner.demand h).symm, (congrArg Miner.subsidyClaimed h).symm⟩
  · rintro ⟨hd, hc⟩
    cases m
    cases hd
    cases hc
    rfl

/-- What an accepted update stores: the updated record, with both counters at zero. -/
theorem updateMiner_eq {msg : MsgUpdateMiner} (h : updateMiner msg s = .ok s') :
    ∃ m, s.miner msg.minerId = some m ∧ s' = s.setFunds (s.funds.setMiner (m.updated msg).reset) := by
  simp only [updateMiner, getMiner, bind_ok, ensure_ok, require_ok, pure_ok] at h
  obtain ⟨-, -, m, hm, -, hcreator, -, -, rfl⟩ := h
  have hid : m.minerId = msg.minerId := Table.key_of_get? hm
  refine ⟨m, hm, ?_⟩
  rw [Miner.updated, Miner.reset, ← hid, ← hcreator]

omit [Chain] in
/-- A record that is put is read back. -/
theorem miner_setMiner (s : State) (m : Miner) :
    (s.setFunds (s.funds.setMiner m)).miner m.minerId = some m :=
  Table.get?_put_self

/-- An update that keeps the accounting of its miner has reset nothing. -/
theorem updatesFresh_of_keeps (h : Step s a s') (hkeep : KeepsAccounting s a s') :
    UpdatesFresh s a := by
  obtain ⟨c, a⟩ := a
  intro msg m ha hm
  obtain ⟨m₁, hm₁, hs₁⟩ := hkeep msg ha
  dsimp only at ha
  subst ha
  obtain ⟨m₂, hm₂, hs₂⟩ := updateMiner_eq h
  have h₁ : m₁ = m := Option.some.inj (hm₁.symm.trans hm)
  have h₂ : m₂ = m := Option.some.inj (hm₂.symm.trans hm)
  subst h₁ h₂
  -- both are the record that is stored under the id
  have hread := miner_setMiner s (m₂.updated msg).reset
  rw [← hs₂, hs₁] at hread
  have hsame : m₂.updated msg = (m₂.updated msg).reset :=
    Option.some.inj ((miner_setMiner s (m₂.updated msg)).symm.trans hread)
  have hzero := Miner.reset_eq_self_iff.1 hsame.symm
  exact hzero

/-- An update keeps the accounting of its miner exactly when there is none to keep. -/
theorem update_keeps_iff (h : Step s a s') : KeepsAccounting s a s' ↔ UpdatesFresh s a := by
  refine ⟨updatesFresh_of_keeps h, fun hfresh msg ha => ?_⟩
  obtain ⟨c, a⟩ := a
  dsimp only at ha
  subst ha
  obtain ⟨m, hm, hs'⟩ := updateMiner_eq h
  have hnone : (m.updated msg).reset = m.updated msg :=
    Miner.reset_eq_self_iff.2 (hfresh msg m rfl hm)
  exact ⟨m, hm, hs'.trans (by rw [hnone])⟩

end Update

/-! ## A run -/

/-- The update of a miner that asks for what is already there. -/
def refresh (i : Nat) : MsgUpdateMiner := ⟨nameOf i, idOf i, nameOf i, [], 0⟩

/-- A settled job was passed over by the audits, and has earned its miner a demand. -/
theorem exists_credited : ∃ s m, Reachable (fun _ _ => True) s ∧ s.miner (idOf 2) = some m ∧
    m.demand = 8 ∧ m.operator = nameOf 2 ∧ m.region = [] ∧
    (updateMiner (refresh 2) s).isOk = true := by
  obtain ⟨s, hs, ht⟩ := exists_reachable (fun _ _ _ => trivial)
    (reachable_village validate_auditMode (by decide) fun _ _ _ _ => trivial)
    (show endsIn free
      (fun s => decide ((∃ m ∈ s.miner (idOf 2), m.demand = 8 ∧ m.operator = nameOf 2 ∧
        m.region = []) ∧ (updateMiner (refresh 2) s).isOk = true))
      (served ++ [(blockAt 50, .endBlock)]) (village auditMode) = true by rewrite [application_eq_tabled]; decide +kernel)
  obtain ⟨⟨m, hm, hd, ho, hr⟩, hok⟩ := of_decide_eq_true ht
  exact ⟨s, m, hs, hm, hd, ho, hr, hok⟩

/-- The miner asks for the operator and the region that it has. -/
theorem update_keeps_iff_credited : ∃ s s', Step s (blockAt 51, .updateMiner (refresh 2)) s' ∧
    (KeepsAccounting s (blockAt 51, .updateMiner (refresh 2)) s' ↔
      UpdatesFresh s (blockAt 51, .updateMiner (refresh 2))) := by
  obtain ⟨s, -, -, -, -, -, -, hok⟩ := exists_credited
  have hstep : Step s (blockAt 51, .updateMiner (refresh 2)) (outcome (updateMiner (refresh 2) s) s) :=
    eq_ok_outcome hok
  exact ⟨s, _, hstep, update_keeps_iff hstep⟩

/-- It had earned a demand of eight coins, which would be kept if the record were left as it was. -/
theorem update_forgets : ∃ s m s', Reachable (fun _ _ => True) s ∧ s.miner (idOf 2) = some m ∧
    m.demand = 8 ∧ m.updated (refresh 2) = m ∧ Step s (blockAt 51, .updateMiner (refresh 2)) s' ∧
    ¬ KeepsAccounting s (blockAt 51, .updateMiner (refresh 2)) s' := by
  obtain ⟨s, m, hs, hm, hd, ho, hr, hok⟩ := exists_credited
  have hstep : Step s (blockAt 51, .updateMiner (refresh 2)) (outcome (updateMiner (refresh 2) s) s) :=
    eq_ok_outcome hok
  refine ⟨s, m, _, hs, hm, hd, ?_, hstep, fun hkeep => ?_⟩
  · rw [Miner.updated, refresh, ← ho, ← hr]
  · obtain ⟨h0, -⟩ := updatesFresh_of_keeps hstep hkeep (refresh 2) m rfl hm
    rw [hd] at h0
    cases h0

end Dendra.Jobs
