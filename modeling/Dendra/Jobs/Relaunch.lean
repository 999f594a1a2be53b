import Dendra.Jobs.Records
import Dendra.Jobs.Seated

/-!
# An export as the next genesis

An exported chain can be started again: the checks of a genesis file and those of its import accept what a running
chain exports.

* `GenesisState.validate`: `types/genesis.go`.
* `Launched`: a chain whose first parameters were checked at load time, with its restarts.
* `relaunch`: its exports are accepted.
-/

namespace Dendra.Jobs

open Word Relation

/-! ## The checks of a genesis file -/

/-- One of the maps: no index twice, and each record passes the check. `seen` holds the indexes before. -/
def validateMap {α : Type} (what : String) (index : α → Str) (check : α → Except Err Unit) :
    List Str → List α → Except Err Unit
  | _, [] => pure ()
  | seen, elem :: l => do
    ensure (index elem ∉ seen) .plain s!"duplicated index for {what}"
    check elem
    validateMap what index check (index elem :: seen) l

theorem validateMap_ok {α : Type} {what : String} {index : α → Str} {check : α → Except Err Unit} {seen : List Str}
    {l : List α} (hseen : ∀ a ∈ l, index a ∉ seen) (hnodup : (l.map index).Nodup)
    (hcheck : ∀ a ∈ l, check a = .ok ()) : validateMap what index check seen l = .ok () := by
  induction l generalizing seen with
  | nil => rfl
  | cons a l ih =>
    obtain ⟨ha, hl⟩ := List.nodup_cons.1 hnodup
    simp only [validateMap, bind_ok, ensure_ok]
    refine ⟨(), hseen a List.mem_cons_self, (), hcheck a List.mem_cons_self, ih (fun b hb => ?_) hl fun b hb => ?_⟩
    · rw [List.mem_cons, not_or]
      exact ⟨fun he => ha (he ▸ List.mem_map_of_mem hb), hseen b (List.mem_cons_of_mem a hb)⟩
    · exact hcheck b (List.mem_cons_of_mem a hb)

section Validate

variable [Chain]

/-- `GenesisState.Validate`. -/
def GenesisState.validate (gs : GenesisState) : Except Err Unit := do
  validateMap "miner" Miner.minerId (fun elem => validateMinerIdentity elem.minerId elem.creator) [] gs.minerMap
  validateMap "job" Job.jobId (fun _ => pure ()) [] gs.jobMap
  validateMap "commit" Commit.jobId (fun _ => pure ()) [] gs.commitMap
  validateMap "beacon" Beacon.jobId (fun _ => pure ()) [] gs.beaconMap
  match gs.params.validate with
  | .error e => .error ⟨.plain, e⟩
  | .ok () =>
    ensure (gs.params.washSubsidyNegativeEV gs.params.workGateBps = true) .plain
      "invariant #8 violated: these genesis params would make Sybil self-dealing +EV (emission drain); lower work_gate_bps or raise cut+burn relative to team+treasury"

end Validate

/-! ## What a run keeps -/

/-- The codec of the accounts reads bech32. -/
structure Codec [Chain] : Prop where
  decodes : ∀ a bz, Chain.addrBytes a = some bz → Chain.decodeBech32 a = some bz
  nonempty : Chain.addrBytes [] = none

/-- What the checks ask of a state. -/
structure Sound [Chain] (s : State) : Prop where
  miners : ∀ m creator, s.read Miner.creator m = some creator → validateMinerIdentity m creator = .ok ()
  params : s.params.validate = .ok ()
  wash : s.params.washSubsidyNegativeEV s.params.workGateBps = true
  team : checkTeamAddressPrefix s.params = .ok ()

theorem lifelong_creator : Lifelong Miner.creator := ⟨fun _ _ _ _ => rfl, fun _ _ => rfl⟩

section Run

variable [Chain] {c : Ctx} {a : Action} {s s' : State}

theorem validateMinerIdentity_ok {m creator : Str} : validateMinerIdentity m creator = .ok () ↔
    creator ≠ [] ∧ (Chain.decodeBech32 creator).bind deriveMinerID = some m := by
  simp only [validateMinerIdentity, bind_ok, ensure_ok, require_ok]
  constructor
  · rintro ⟨-, hne, want, hwant, rfl⟩
    exact ⟨hne, hwant⟩
  · rintro ⟨hne, hwant⟩
    exact ⟨(), hne, m, hwant, rfl⟩

omit [Chain] in
/-- A record written over the one of its id: the others are what they were. -/
theorem read_put {φ : Miner → Str} {f : Funds} {r : Miner} {m creator : Str} (hf : f.miners = s.funds.miners)
    (hm : (f.setMiner r).read φ m = some creator) : s.read φ m = some creator ∨ m = r.minerId ∧ creator = φ r := by
  rw [Funds.read, Funds.setMiner, hf, Table.get?_put] at hm
  split at hm
  next he => exact .inr ⟨he, (Option.some.inj hm).symm⟩
  next => exact .inl hm

/-- The creators that a step leaves are those that it found, and one that its id derives from. -/
theorem Step.creators (hcodec : Codec) (h : Step s (c, a) s') (m creator : Str)
    (hm : s'.read Miner.creator m = some creator) :
    s.read Miner.creator m = some creator ∨ validateMinerIdentity m creator = .ok () := by
  have hfades (hf : Fades (s.read Miner.creator) (s'.read Miner.creator)) : s.read Miner.creator m = some creator := by
    rcases hf m with he | hn
    · rw [← he, hm]
    · rw [hn] at hm
      cases hm
  cases a with
  | createMiner msg =>
    have h : createMiner c msg s = .ok s' := h
    simp only [createMiner, signer, bind_ok, ensure_ok, require_ok, pure_ok] at h
    obtain ⟨bz, hbz, id, hid, -, rfl, -, -, -, -, f, hf, -, -, -, -, rfl⟩ := h
    refine (read_put (φ := Miner.creator) (collect_miners hf) hm).imp_right ?_
    rintro ⟨rfl, rfl⟩
    rw [validateMinerIdentity_ok, hcodec.decodes _ _ hbz]
    refine ⟨fun hnil => ?_, hid⟩
    rw [show msg.creator = [] from hnil, hcodec.nonempty] at hbz
    cases hbz
  | updateMiner msg =>
    have h : updateMiner msg s = .ok s' := h
    simp only [updateMiner, getMiner, bind_ok, ensure_ok, require_ok, pure_ok] at h
    obtain ⟨-, -, r, hr, -, howner, -, -, rfl⟩ := h
    refine .inl ((read_put (φ := Miner.creator) rfl hm).elim id ?_)
    rintro ⟨rfl, rfl⟩
    show Option.map Miner.creator (s.miner msg.minerId) = some msg.creator
    rw [hr, howner, Option.map_some]
  | deleteMiner msg =>
    have h : deleteMiner c msg s = .ok s' := h
    simp only [deleteMiner, bind_ok] at h
    obtain ⟨-, -, r, -, -, -, -, -, h⟩ := h
    split at h
    · simp only [bind_ok, pure_ok] at h
      obtain ⟨bz, -, f, hf, rfl⟩ := h
      exact .inl (hfades (fades_removeMiner msg.minerId (payOrFail_miners hf)))
    · cases h
      exact .inl (hfades (fades_removeMiner msg.minerId rfl))
  | claimSubsidy msg =>
    have h : claimSubsidy c msg s = .ok s' := h
    simp only [claimSubsidy, getMiner, bind_ok, require_ok, pure_ok] at h
    obtain ⟨-, -, r, hr, -, -, -, -, bz, -, paid, -, -, -, rfl⟩ := h
    have hid : r.minerId = msg.minerId := Table.key_of_get? hr
    rw [← hid] at hr
    refine .inl ((read_put (φ := Miner.creator) rfl hm).elim id ?_)
    rintro ⟨rfl, rfl⟩
    exact congrArg (Option.map Miner.creator) hr
  | resolveDispute msg => exact .inl (by rwa [read_resolveDispute lifelong_creator h] at hm)
  | adjudicateDispute msg => exact .inl (by rwa [read_adjudicateDispute lifelong_creator h] at hm)
  | endBlock => exact .inl (hfades (fades_block lifelong_creator h))
  | _ => exact .inl (by rwa [read_idle lifelong_creator.ledgerly h trivial] at hm)

theorem Sound.step (hcodec : Codec) (hw : s.Wf) (hs : Sound s) (h : Step s (c, a) s') : Sound s' := by
  have hminers (m creator : Str) (hm : s'.read Miner.creator m = some creator) :
      validateMinerIdentity m creator = .ok () :=
    (h.creators hcodec m creator hm).elim (hs.miners m creator) id
  by_cases ha : ∃ msg, a = .updateParams msg
  · obtain ⟨msg, rfl⟩ := ha
    have h : updateParams msg s = .ok s' := h
    simp only [updateParams, bind_ok, ensure_ok] at h
    obtain ⟨-, -, -, -, h⟩ := h
    split at h
    · cases h
    next hvalid =>
      simp only [bind_ok, ensure_ok, pure_ok] at h
      obtain ⟨-, hwash, ⟨⟩, hteam, rfl⟩ := h
      exact ⟨hminers, hvalid, hwash, hteam⟩
  · have hparams := (step_prog hw h fun msg he => ha ⟨msg, he⟩).params
    exact ⟨hminers, hparams ▸ hs.params, hparams ▸ hs.wash, hparams ▸ hs.team⟩

theorem Sound.later (hcodec : Codec) (hw : s.Wf) (hs : Sound s) (h : Later s s') : Sound s' := by
  cases h with
  | step h => exact hs.step hcodec hw h
  | restart h =>
    have hr := restarted h
    refine ⟨fun m creator hm => hs.miners m creator ?_, hr.params ▸ hs.params, hr.params ▸ hs.wash,
      hr.params ▸ hs.team⟩
    rwa [State.read, Funds.read, hr.miners] at hm

/-- A chain whose first parameters were checked at load time, with its restarts. -/
def Launched (s : State) : Prop := ∃ unanchored p balance outside,
  checkGenesisParams unanchored p = .ok () ∧ ReflTransGen Later (genesis p balance outside) s

theorem checkGenesisParams_ok {unanchored : Option (List Str)} {p : Params} :
    checkGenesisParams unanchored p = .ok () ↔ p.washSubsidyNegativeEV p.workGateBps = true ∧
      p.validate = .ok () ∧ checkTeamAddressPrefix p = .ok () ∧
        (p.enforceModelRegistry = true → unanchored = some []) := by
  simp only [checkGenesisParams, bind_ok, ensure_ok]
  constructor
  · rintro ⟨-, hwash, h⟩
    split at h
    · cases h
    next hvalid =>
      obtain ⟨⟨⟩, hteam, h⟩ := bind_ok.1 h
      refine ⟨hwash, hvalid, hteam, fun henforce => ?_⟩
      simp only [henforce, if_true, bind_ok, require_ok, ensure_ok] at h
      obtain ⟨l, rfl, rfl⟩ := h
      rfl
  · rintro ⟨hwash, hvalid, hteam, hanchored⟩
    refine ⟨(), hwash, ?_⟩
    rw [hvalid]
    refine bind_ok.2 ⟨(), hteam, ?_⟩
    split
    next henforce =>
      rw [hanchored henforce]
      rfl
    next => rfl

theorem Launched.sound (hcodec : Codec) (h : Launched s) : s.Wf ∧ Sound s := by
  obtain ⟨unanchored, p, balance, outside, hp, h⟩ := h
  obtain ⟨hwash, hvalid, hteam, -⟩ := checkGenesisParams_ok.1 hp
  induction h with
  | refl =>
    refine ⟨wf_genesis hvalid balance outside, fun m creator hm => ?_, hvalid, hwash, hteam⟩
    cases show (none : Option Str) = some creator from hm
  | tail _ hl ih => exact ⟨hl.wf ih.1, ih.2.later hcodec ih.1 hl⟩

/-! ## The import -/

theorem importMiners_ok {l : List Miner} (hl : ∀ m ∈ l, validateMinerIdentity m.minerId m.creator = .ok ()) :
    ∃ s', l.foldlM (importMiner c) s = .ok s' := by
  induction l generalizing s with
  | nil => exact ⟨s, rfl⟩
  | cons m l ih =>
    rw [List.foldlM_cons]
    unfold importMiner
    rw [hl m List.mem_cons_self]
    exact ih fun n hn => hl n (List.mem_cons_of_mem m hn)

/-- Whatever a chain went through, its export is a valid genesis file, and a chain starts from it unless the registry
of models is enforced and does not answer that every active model is anchored. -/
theorem relaunch (hcodec : Codec) (h : Launched s) (c c' : Ctx) (unanchored : Option (List Str)) (p : Params)
    (balance outside : Nat) : (exportGenesis c s).validate = .ok () ∧
      ((∃ s', initGenesis c' unanchored (exportGenesis c s) (genesis p balance outside) = .ok s') ↔
        (s.params.enforceModelRegistry = true → unanchored = some [])) := by
  obtain ⟨-, hs⟩ := h.sound hcodec
  have hminers (m : Miner) (hm : m ∈ s.funds.miners.entries) : validateMinerIdentity m.minerId m.creator = .ok () := by
    refine hs.miners m.minerId m.creator ?_
    rw [State.read, Funds.read, Table.get?_eq_some_iff.2 ⟨hm, rfl⟩, Option.map_some]
  constructor
  · have hjobs : ((s.jobs.entries.map (exportJob c)).map Job.jobId).Nodup := by
      rw [List.map_map]
      refine (List.map_congr_left fun job _ => ?_) ▸ s.jobs.nodup_map_key
      unfold exportJob
      dsimp only [Function.comp]
      split <;> rfl
    simp only [GenesisState.validate, bind_ok]
    refine ⟨(), validateMap_ok (fun _ _ => List.not_mem_nil) s.funds.miners.nodup_map_key hminers,
      (), validateMap_ok (fun _ _ => List.not_mem_nil) hjobs fun _ _ => rfl,
      (), validateMap_ok (fun _ _ => List.not_mem_nil) s.commits.nodup_map_key fun _ _ => rfl,
      (), validateMap_ok (fun _ _ => List.not_mem_nil) s.beacons.nodup_map_key fun _ _ => rfl, ?_⟩
    show (match s.params.validate with
      | .error e => _
      | .ok () => _) = _
    rw [hs.params]
    exact ensure_ok.2 hs.wash
  · obtain ⟨s₁, h₁⟩ := importMiners_ok (c := c') (s := genesis p balance outside) hminers
    have hcheck : checkGenesisParams unanchored s.params = .ok () ↔
        (s.params.enforceModelRegistry = true → unanchored = some []) := by
      rw [checkGenesisParams_ok]
      exact ⟨fun h => h.2.2.2, fun h => ⟨hs.wash, hs.params, hs.team, h⟩⟩
    rw [← hcheck]
    unfold initGenesis
    simp only [bind_ok, pure_ok]
    constructor
    · rintro ⟨s', -, -, ⟨⟩, h, -⟩
      exact h
    · intro h
      exact ⟨_, s₁, h₁, (), h, rfl⟩

/-- A run in which the parameters would pass the checks of a genesis at every step. -/
theorem Reachable.launched {unanchored : Option (List Str)}
    (h : Reachable (fun s _ => checkGenesisParams unanchored s.params = .ok ()) s)
    (hp : checkGenesisParams unanchored s.params = .ok ()) : Launched s := by
  induction h with
  | init h =>
    obtain ⟨p, balance, outside, -, rfl⟩ := h
    exact ⟨unanchored, p, balance, outside, hp, .refl⟩
  | step _ hok hstep ih =>
    obtain ⟨u, p, balance, outside, hload, h⟩ := ih hok
    exact ⟨u, p, balance, outside, hload, h.tail (.step hstep)⟩

end Run

/-! ## On the application -/

theorem codec_application : Codec where
  decodes a bz h := by
    have h : stringToBytes a = some bz := h
    unfold stringToBytes at h
    split at h
    · cases h
    · obtain ⟨⟨hrp, bz'⟩, hdec, h⟩ := Option.bind_eq_some_iff.1 h
      dsimp only at h
      split at h
      · cases h
      · cases h
        exact congrArg (Option.map Prod.snd) hdec
  nonempty := rfl

theorem checked_default : checkGenesisParams none Params.default = .ok () :=
  checkGenesisParams_ok.2 ⟨by decide, by decide, rfl, by decide⟩

/-- A chain of registered miners is exported, and started again. -/
theorem relaunch_village : (exportGenesis (blockAt 8) (village .default)).validate = .ok () ∧
    ∃ s', initGenesis (blockAt 9) none (exportGenesis (blockAt 8) (village .default)) (genesis .default 0 0) =
      .ok s' := by
  have hrun : Launched (village .default) :=
    Reachable.launched (reachable_village (checkGenesisParams_ok.1 checked_default).2.1 (by decide)
      fun s _ _ hp => by rw [hp]; exact checked_default) checked_default
  obtain ⟨hvalid, himport⟩ := relaunch codec_application hrun (blockAt 8) (blockAt 9) none .default 0 0
  exact ⟨hvalid, himport.2 fun h => nomatch h⟩

end Dendra.Jobs
