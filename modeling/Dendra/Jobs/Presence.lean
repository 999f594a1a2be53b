import Dendra.Jobs.Frame
import Dendra.Jobs.Application

/-!
# Presence

A proof of availability answers the challenge of an epoch, counts at the boundary that closes it, and
makes its miner present for the draws.

* `Clock`, `Tick`: runs in which the blocks have consecutive heights, with the proofs and registrations
  seen so far, which no code reads.
* `Roll`: while the length of an epoch does not change, the presences of a state are those of its open
  epoch, whose challenge is in force.
* `proof_counted_once`: each proof is read at one boundary, the next one, and then forgotten.
-/

namespace Dendra.Jobs

open Word

/-! ## The clock -/

/-- A proof of availability, with the epoch length it was made under, or a registration. -/
structure Sighting where
  minerId : Str
  height : Nat
  length : Option UInt64
  deriving DecidableEq

/-- The state between two actions, and the height of the open block. The log is proof-only. -/
structure Clock where
  state : State
  block : Nat
  log : List Sighting

/-- What an action shows of a miner. -/
def Action.sightings (c : Ctx) (s : State) : Action → List Sighting
  | .proveAvailability msg => [⟨msg.minerId, c.height, some s.params.availEpochBlocks⟩]
  | .createMiner msg => [⟨msg.minerId, c.height, none⟩]
  | _ => []

/-- The height of the open block after an action. -/
def Action.next (block : Nat) : Action → Nat
  | .endBlock => block + 1
  | _ => block

/-- An action in the open block. -/
structure Tick [Chain] (t : Clock) (a : Ctx × Action) (t' : Clock) : Prop where
  height : a.1.height = t.block
  step : Step t.state a t'.state
  block : t'.block = a.2.next t.block
  log : t'.log = a.2.sightings a.1 t.state ++ t.log

/-- The clocks that a run from a fresh chain, whose first block has any height, reaches. -/
abbrev Ticking [Chain] (ok : Clock → Ctx × Action → Prop) : Clock → Prop :=
  Reach (fun t => Genesis t.state ∧ t.log = []) Tick ok

/-! ## The steps -/

section Steps

variable [Chain] {c : Ctx} {s s' : State} {a : Action}

omit [Chain] in
theorem rolled_of_noted (h : s'.noted = s.noted) : s'.rolled = s.rolled :=
  rolled_of_kept (kept_of_noted h)

/-- An action that writes no presence and no parameters. -/
def Action.Still : Action → Prop
  | .proveAvailability _ => False
  | .updateParams _ => False
  | .endBlock => False
  | _ => True

/-- It leaves the presences of the epoch, its challenge and its length alone. -/
theorem step_still (h : Step s (c, a) s') (ha : a.Still) :
    s'.rolled = s.rolled ∧ s'.params = s.params := by
  have hkept : s'.kept = s.kept → s'.rolled = s.rolled ∧ s'.params = s.params :=
    fun hk => ⟨rolled_of_kept hk, params_of_kept hk⟩
  cases a with
  | proveAvailability | updateParams | endBlock => exact ha.elim
  | openJob msg =>
    have htold := openJob_told h
    exact ⟨rolled_of_told htold, params_of_told htold⟩
  | submitVrfBeacon msg =>
    have htold := submitVrfBeacon_told h
    exact ⟨rolled_of_told htold, params_of_told htold⟩
  | createMiner msg => exact hkept (createMiner_kept c msg s' h)
  | deleteMiner msg => exact hkept (deleteMiner_kept c msg s' h)
  | _ => exact hkept (kept_of_noted (step_noted h trivial))

/-- The length of an epoch in blocks. -/
abbrev epochLength (s : State) : Int := toInt64 s.params.availEpochBlocks

/-- An accepted proof: it answers the challenge in force, and is written under its epoch. -/
theorem proveAvailability_spec {msg : MsgProveAvailability} (h : proveAvailability c msg s = .ok s') :
    epochLength s ≠ 0 ∧ s.registry.availChallenge = some msg.challenge ∧
      s' = { s with
        registry :=
          { s.registry with
            available := s.registry.available.insert
              (qkey (availChallengeEpoch c s (epochLength s)) msg.minerId)
            lastPresentEpoch :=
              if decide (availChallengeEpoch c s (epochLength s) ≥ 0) &&
                  (s.registry.lastPresentEpoch.get msg.minerId).all
                    (fun last => decide (toUint64 (availChallengeEpoch c s (epochLength s)) > last)) then
                s.registry.lastPresentEpoch.set msg.minerId
                  (toUint64 (availChallengeEpoch c s (epochLength s)))
              else s.registry.lastPresentEpoch } } := by
  simp only [proveAvailability, bind_ok, ensure_ok] at h
  obtain ⟨-, -, -, heb, miner, -, -, -, -, -, -, hne, -, hch, -, -, -, -, h⟩ := h
  have hchallenge : s.registry.availChallenge = some msg.challenge := by
    cases hcur : s.registry.availChallenge with
    | none =>
      rw [hcur] at hne
      exact absurd rfl hne
    | some cur =>
      rw [hcur] at hch
      rw [hch]
      rfl
  refine ⟨heb, hchallenge, ?_⟩
  split at h
  · simp only [bind_ok, require_ok, ensure_ok, pure_ok] at h
    obtain ⟨-, -, -, -, -, -, h⟩ := h
    exact h.symm
  · exact (Except.ok.inj h).symm

omit [Chain] in
theorem purged_congr (h : s'.rolled = s.rolled) (epoch : Int) : purged s' epoch = purged s epoch := by
  simp only [State.rolled, Prod.mk.injEq] at h
  rw [purged, purged, presentAt, presentAt, h.1]

omit [Chain] in
theorem mem_foldl_remove (l : List QueueKey) (q : KeySet QueueKey) (key : QueueKey) :
    key ∈ (l.foldl (fun a k => a.remove k) q).entries ↔ key ∈ q.entries ∧ key ∉ l := by
  induction l generalizing q with
  | nil => simp
  | cons k l ih =>
    rw [List.foldl_cons, ih, KeySet.mem_remove, List.mem_cons, not_or, and_assoc]

omit [Chain] in
/-- The boundary of an epoch forgets the presences of the one that ended. -/
theorem mem_purged (s : State) (epoch : Int) (key : QueueKey) : key ∈ (purged s epoch).entries ↔
    key ∈ s.registry.available.entries ∧ ¬ (epoch ≥ 1 ∧ (ofLex key).1 = epoch - 1) := by
  unfold purged
  split
  · next hge =>
    rw [mem_foldl_remove, presentAt, List.mem_filter, decide_eq_true_eq]
    tauto
  · next hge => simp [hge]

/-- The height closes an epoch. -/
def closing (c : Ctx) (s : State) : Prop :=
  0 < epochLength s ∧ 0 < c.h ∧ c.h % epochLength s = 0

instance (c : Ctx) (s : State) : Decidable (closing c s) := by
  unfold closing
  infer_instance

/-- The end of a block: within an epoch the presences and the challenge stay, at its boundary the
presences are purged and a challenge is rolled. -/
theorem endBlock_rolled (h : endBlock c s = .ok s') : s'.params = s.params ∧
    (¬ closing c s ∧ s'.rolled = s.rolled ∨ closing c s ∧ ∃ challenge,
      s'.rolled = (purged s (c.h / epochLength s), some challenge, some c.h)) := by
  obtain ⟨s₁, hnoted, hs⟩ := endBlock_eq c s h
  have htold := runReveal_runExpiry_told c s (blockSeed c s.params)
  have hperiodic := runPeriodic_kept c s₁
  generalize runPeriodic c s₁ = s₂ at hs hperiodic
  have hrolled : s₂.rolled = s.rolled := (rolled_of_kept hperiodic).trans
    ((rolled_of_noted hnoted).trans (rolled_of_told htold))
  have hparams : s₂.params = s.params := (params_of_kept hperiodic).trans
    ((params_of_kept (kept_of_noted hnoted)).trans (params_of_told htold))
  rcases runAvailabilityEpoch_eq c s₂ hs with ⟨hquiet, rfl⟩ | ⟨hclose, -, -, hp, challenge, hr⟩
  · refine ⟨hparams, .inl ⟨?_, hrolled⟩⟩
    rw [hparams] at hquiet
    unfold closing epochLength
    omega
  · refine ⟨hp.trans hparams, .inr ⟨?_, challenge, ?_⟩⟩
    · rw [hparams] at hclose
      exact hclose
    · rw [hr, hparams, purged_congr hrolled]

end Steps

/-! ## Epochs of a fixed length -/

/-- The length of an epoch does not change. -/
def Steady (t : Clock) (a : Ctx × Action) : Prop :=
  ∀ msg, a.2 = .updateParams msg →
    msg.params.availEpochBlocks = t.state.params.availEpochBlocks

/-- The epoch that is open in a block: the block that closes an epoch belongs to it. -/
def openEpoch (t : Clock) : Int := ((t.block : Int) - 1) / epochLength t.state

/-- No challenge has been rolled and nothing is present, or the presences are those of the open epoch,
whose challenge is in force. -/
def Roll (t : Clock) : Prop :=
  (t.state.registry.available.entries = [] ∧ t.state.registry.availChallenge = none) ∨
  (0 < epochLength t.state ∧ 0 < t.block ∧
    t.state.registry.availChallengeHeight = some (openEpoch t * epochLength t.state) ∧
    ∀ key ∈ t.state.registry.available.entries, (ofLex key).1 = openEpoch t)

/-- The epoch before a boundary, and elsewhere. -/
theorem ediv_pred {eb n : Int} (heb : 0 < eb) :
    (n % eb = 0 → (n - 1) / eb = n / eb - 1) ∧ (n % eb ≠ 0 → (n - 1) / eb = n / eb) := by
  have hdiv := Int.mul_ediv_add_emod n eb
  have hlt := Int.emod_lt_of_pos n heb
  have hge := Int.emod_nonneg n (by omega : eb ≠ 0)
  constructor
  · intro h
    refine (Int.ediv_emod_unique heb (r := eb - 1) (q := n / eb - 1)).2 ⟨?_, by omega, by omega⟩ |>.1
    rw [mul_sub, mul_one]
    omega
  · intro h
    refine (Int.ediv_emod_unique heb (r := n % eb - 1) (q := n / eb)).2 ⟨?_, by omega, by omega⟩ |>.1
    omega

section Roll

variable [Chain] {c : Ctx} {t t' : Clock} {a : Action}

omit [Chain] in
/-- The challenge that a proof answers is that of the open epoch, and so is the one that a query on the
state before the block reports. -/
theorem Roll.challenge (h : Roll t) (hch : t.state.registry.availChallenge ≠ none)
    (hc : c.height = t.block ∨ c.height + 1 = t.block) :
    availChallengeEpoch c t.state (epochLength t.state) = openEpoch t := by
  rcases h with ⟨-, hnone⟩ | ⟨heb, hblock, hheight, -⟩
  · exact absurd hnone hch
  · obtain ⟨hon, hoff⟩ := ediv_pred (n := t.block) heb
    unfold availChallengeEpoch
    simp only
    rw [hheight]
    unfold openEpoch at *
    rcases hc with hc | hc
    · have hh : c.h = t.block := congrArg Nat.cast hc
      rw [hh]
      split
      · next hq => exact (hoff (by omega)).symm
      · next hq =>
        have hz : (t.block : Int) % epochLength t.state = 0 := by omega
        rw [hon hz, if_neg]
        intro he
        have hdiv := Int.mul_ediv_add_emod (t.block : Int) (epochLength t.state)
        rw [hz, add_zero, mul_comm] at hdiv
        have := Option.some.inj he
        rw [sub_mul, one_mul, hdiv] at this
        omega
    · have hh : c.h = (t.block : Int) - 1 := by
        show (c.height : Int) = t.block - 1
        omega
      rw [hh]
      split
      · rfl
      · next hq =>
        have hz : ((t.block : Int) - 1) % epochLength t.state = 0 := by omega
        have hdiv := Int.mul_ediv_add_emod ((t.block : Int) - 1) (epochLength t.state)
        rw [hz, add_zero, mul_comm] at hdiv
        rw [hdiv, if_pos rfl]

omit [Chain] in
theorem closing_iff (hc : c.height = t.block) : closing c t.state ↔
    0 < epochLength t.state ∧ 0 < t.block ∧ (t.block : Int) % epochLength t.state = 0 := by
  have hh : c.h = t.block := congrArg Nat.cast hc
  rw [closing, hh, Int.natCast_pos]

/-- What a tick does to the presences. -/
inductive Turn (t t' : Clock) : Prop
  | quiet (hb : t'.block = t.block) (hr : t'.state.rolled = t.state.rolled)
  | proof {m : Str} (hb : t'.block = t.block) (hch : t.state.registry.availChallenge ≠ none)
      (hheight : t'.state.registry.availChallengeHeight = t.state.registry.availChallengeHeight)
      (hch' : t'.state.registry.availChallenge = t.state.registry.availChallenge)
      (ha : t'.state.registry.available = t.state.registry.available.insert (qkey (openEpoch t) m))
  | within (hb : t'.block = t.block + 1) (hr : t'.state.rolled = t.state.rolled)
      (hclose : ¬ (0 < epochLength t.state ∧ 0 < t.block ∧ (t.block : Int) % epochLength t.state = 0))
  | boundary {challenge : Str} (hb : t'.block = t.block + 1) (heb : 0 < epochLength t.state)
      (hpos : 0 < t.block) (hclose : (t.block : Int) % epochLength t.state = 0)
      (hr : t'.state.rolled =
        (purged t.state (t.block / epochLength t.state), some challenge, some (t.block : Int)))

/-- Every tick of a steady run is one of these. -/
theorem Tick.turn (h : Tick t (c, a) t') (hok : Steady t (c, a)) (hr : Roll t) :
    epochLength t'.state = epochLength t.state ∧ Turn t t' := by
  have hb := h.block
  have hstill : a.Still → a.next t.block = t.block →
      epochLength t'.state = epochLength t.state ∧ Turn t t' := by
    intro ha hnext
    obtain ⟨hrolled, hparams⟩ := step_still h.step ha
    exact ⟨congrArg (fun p : Params => toInt64 p.availEpochBlocks) hparams,
      .quiet (hb.trans hnext) hrolled⟩
  cases a with
  | proveAvailability msg =>
    obtain ⟨heb, hch, hs⟩ := proveAvailability_spec h.step
    have hsome : t.state.registry.availChallenge ≠ none := by
      rw [hch]
      exact Option.some_ne_none _
    have hepoch := hr.challenge hsome (.inl h.height)
    rw [hepoch] at hs
    refine ⟨by rw [hs], .proof (m := msg.minerId) hb hsome ?_ ?_ ?_⟩
    · rw [hs]
    · rw [hs]
    · rw [hs]
  | updateParams msg =>
    obtain ⟨-, hs⟩ := updateParams_eq h.step
    refine ⟨?_, .quiet hb ?_⟩
    · rw [hs]
      exact congrArg toInt64 (hok msg rfl)
    · rw [hs]
      rfl
  | endBlock =>
    obtain ⟨hparams, hend⟩ := endBlock_rolled h.step
    have hh : c.h = t.block := congrArg Nat.cast h.height
    refine ⟨congrArg (fun p : Params => toInt64 p.availEpochBlocks) hparams, ?_⟩
    rcases hend with ⟨hopen, hrolled⟩ | ⟨hclose, challenge, hrolled⟩
    · rw [closing_iff h.height] at hopen
      exact .within hb hrolled hopen
    · rw [closing_iff h.height] at hclose
      rw [hh] at hrolled
      exact .boundary hb hclose.1 hclose.2.1 hclose.2.2 hrolled
  | _ => exact hstill trivial rfl

omit [Chain] in
/-- All that is present at a boundary is purged there. -/
theorem Roll.purged (hr : Roll t) (heb : 0 < epochLength t.state) (hpos : 0 < t.block)
    (hclose : (t.block : Int) % epochLength t.state = 0) (key : QueueKey) :
    key ∉ (Jobs.purged t.state (t.block / epochLength t.state)).entries := by
  rw [mem_purged]
  rintro ⟨hmem, hleft⟩
  rcases hr with ⟨hempty, -⟩ | ⟨-, -, -, hkeys⟩
  · rw [hempty] at hmem
    cases hmem
  · have hpred := (ediv_pred (n := t.block) heb).1 hclose
    have hkey := hkeys key hmem
    refine hleft ⟨?_, hkey.trans hpred⟩
    have hdiv := Int.mul_ediv_add_emod (t.block : Int) (epochLength t.state)
    rw [hclose, add_zero] at hdiv
    have hprod : 0 < epochLength t.state * ((t.block : Int) / epochLength t.state) := by omega
    exact (mul_pos_iff_of_pos_left heb).1 hprod

omit [Chain] in
theorem Turn.roll (h : Turn t t') (hl : epochLength t'.state = epochLength t.state) (hr : Roll t) :
    Roll t' := by
  have hr0 := hr
  cases h with
  | quiet hb hrolled =>
    simp only [State.rolled, Prod.mk.injEq] at hrolled
    obtain ⟨havail, hch, hheight⟩ := hrolled
    unfold Roll openEpoch
    rw [havail, hch, hheight, hl, hb]
    exact hr
  | proof hb hsome hheight hch ha =>
    rcases hr with ⟨-, hnone⟩ | ⟨heb, hpos, hh, hkeys⟩
    · exact absurd hnone hsome
    · right
      unfold openEpoch
      rw [hl, hb, hheight, ha]
      refine ⟨heb, hpos, hh, fun key hkey => ?_⟩
      rcases KeySet.mem_insert.1 hkey with rfl | hkey
      · rfl
      · exact hkeys key hkey
  | within hb hrolled hclose =>
    simp only [State.rolled, Prod.mk.injEq] at hrolled
    obtain ⟨havail, hch, hheight⟩ := hrolled
    unfold Roll openEpoch
    rw [havail, hch, hheight, hl, hb]
    rcases hr with hr | ⟨heb, hpos, hh, hkeys⟩
    · exact .inl hr
    · right
      have hsame : (((t.block + 1 : Nat) : Int) - 1) / epochLength t.state = openEpoch t := by
        rw [openEpoch, (ediv_pred heb).2 fun hz => hclose ⟨heb, hpos, hz⟩]
        congr 1
        omega
      rw [hsame]
      exact ⟨heb, Nat.succ_pos _, hh, hkeys⟩
  | boundary hb heb hpos hclose hrolled =>
    simp only [State.rolled, Prod.mk.injEq] at hrolled
    obtain ⟨havail, hch, hheight⟩ := hrolled
    right
    unfold openEpoch
    rw [havail, hheight, hl, hb]
    refine ⟨heb, Nat.succ_pos _, congrArg some ?_, fun key hkey => ?_⟩
    · have hdiv := Int.mul_ediv_add_emod (t.block : Int) (epochLength t.state)
      rw [hclose, add_zero, mul_comm] at hdiv
      rw [show (((t.block + 1 : Nat) : Int) - 1) = t.block by omega, hdiv]
    · exact absurd hkey (hr0.purged heb hpos hclose key)

/-- A presence of an epoch that has begun is there until the boundary that closes the epoch. -/
def Held (key : QueueKey) (t : Clock) : Prop :=
  (ofLex key).1 * epochLength t.state < t.block ∧
    (key ∈ t.state.registry.available.entries ↔
      t.block ≤ ((ofLex key).1 + 1) * epochLength t.state)

omit [Chain] in
theorem Turn.held {key : QueueKey} (h : Turn t t') (hl : epochLength t'.state = epochLength t.state)
    (hr : Roll t) (hh : Held key t) : Held key t' := by
  obtain ⟨hlt, hiff⟩ := hh
  unfold Held
  rw [hl]
  cases h with
  | quiet hb hrolled =>
    simp only [State.rolled, Prod.mk.injEq] at hrolled
    rw [hb, hrolled.1]
    exact ⟨hlt, hiff⟩
  | proof hb hsome hheight hch ha =>
    rw [hb, ha, KeySet.mem_insert]
    refine ⟨hlt, ⟨?_, fun hle => .inr (hiff.2 hle)⟩⟩
    rintro (rfl | hmem)
    · -- a proof of this epoch: its boundary is still to come
      rcases hr with ⟨-, hnone⟩ | ⟨heb, -, -, -⟩
      · exact absurd hnone hsome
      · have hdiv := Int.lt_ediv_add_one_mul_self ((t.block : Int) - 1) heb
        change (t.block : Int) ≤ (openEpoch t + 1) * epochLength t.state
        unfold openEpoch
        omega
    · exact hiff.1 hmem
  | within hb hrolled hclose =>
    simp only [State.rolled, Prod.mk.injEq] at hrolled
    rw [hb, hrolled.1]
    refine ⟨by omega, hiff.trans ⟨fun hle => ?_, fun hle => by omega⟩⟩
    rcases hr with ⟨hempty, -⟩ | ⟨heb, hpos, -, -⟩
    · have hmem := hiff.2 hle
      rw [hempty] at hmem
      cases hmem
    · have hne : (t.block : Int) ≠ ((ofLex key).1 + 1) * epochLength t.state := by
        intro he
        refine hclose ⟨heb, hpos, ?_⟩
        rw [he]
        exact Int.mul_emod_left _ _
      omega
  | boundary hb heb hpos hclose hrolled =>
    simp only [State.rolled, Prod.mk.injEq] at hrolled
    rw [hb, hrolled.1]
    refine ⟨by omega, ⟨fun hmem => absurd hmem (hr.purged heb hpos hclose key), fun hle => ?_⟩⟩
    -- the boundary is a multiple of the length beyond the beginning of the epoch
    have hdiv := Int.mul_ediv_add_emod (t.block : Int) (epochLength t.state)
    rw [hclose, add_zero, mul_comm] at hdiv
    rw [← hdiv] at hlt
    have hgt := (Int.mul_lt_mul_right heb).1 hlt
    have hge : ((ofLex key).1 + 1) * epochLength t.state ≤ t.block := by
      rw [← hdiv]
      exact Int.mul_le_mul_of_nonneg_right (by omega) (by omega)
    omega

theorem Ticking.roll (h : Ticking Steady t) : Roll t := by
  refine Reach.invariant (P := Roll) ?_ (fun t a t' _ hr hok hs => ?_) h
  · rintro t ⟨⟨p, balance, outside, -, hs⟩, -⟩
    rw [Roll, hs]
    exact .inl ⟨rfl, rfl⟩
  · obtain ⟨c, a⟩ := a
    obtain ⟨hl, hturn⟩ := hs.turn hok hr
    exact hturn.roll hl hr

/-- The presences that the slash and the payment at the end of a block read. -/
def boundaryPresences (c : Ctx) (s : State) : List QueueKey :=
  if closing c s ∧ c.h / epochLength s ≥ 1 then presentAt s (c.h / epochLength s - 1) else []

omit [Chain] in
/-- A presence is read at the end of the block that closes its epoch, and of no other. -/
theorem Held.count {key : QueueKey} (hr : Roll t) (hh : Held key t) (hc : c.height = t.block) :
    (boundaryPresences c t.state).count key =
      if (t.block : Int) = ((ofLex key).1 + 1) * epochLength t.state then 1 else 0 := by
  have hch : c.h = t.block := congrArg Nat.cast hc
  obtain ⟨hlt, hiff⟩ := hh
  have hmem : key ∈ boundaryPresences c t.state ↔
      (t.block : Int) = ((ofLex key).1 + 1) * epochLength t.state := by
    have hclosing := closing_iff (t := t) hc
    unfold boundaryPresences
    rw [hch]
    constructor
    · intro hmem
      split at hmem
      · next hq =>
        obtain ⟨heb, hpos, hclose⟩ := hclosing.1 hq.1
        obtain ⟨-, hkey⟩ := List.mem_filter.1 hmem
        rw [of_decide_eq_true hkey, sub_add_cancel]
        have hdiv := Int.mul_ediv_add_emod (t.block : Int) (epochLength t.state)
        rw [hclose, add_zero, mul_comm] at hdiv
        exact hdiv.symm
      · cases hmem
    · intro he
      have hin := hiff.2 (le_of_eq he)
      rcases hr with ⟨hempty, -⟩ | ⟨heb, hpos, -, -⟩
      · rw [hempty] at hin
        cases hin
      · have hquot : (t.block : Int) / epochLength t.state = (ofLex key).1 + 1 := by
          rw [he]
          exact Int.mul_ediv_cancel _ (by omega)
        have hclose : (t.block : Int) % epochLength t.state = 0 := by
          rw [he]
          exact Int.mul_emod_left _ _
        have hge : (ofLex key).1 + 1 ≥ 1 := by
          have hpos' : 0 < ((ofLex key).1 + 1) * epochLength t.state := by omega
          exact (mul_pos_iff_of_pos_right heb).1 hpos'
        rw [hquot, if_pos ⟨hclosing.2 ⟨heb, hpos, hclose⟩, hge⟩]
        exact List.mem_filter.2 ⟨hin, decide_eq_true (by omega)⟩
  have hnodup : (boundaryPresences c t.state).Nodup := by
    unfold boundaryPresences
    split
    · exact t.state.registry.available.nodup_entries.filter _
    · exact List.nodup_nil
  rw [hnodup.count]
  exact if_congr hmem rfl rfl

end Roll

/-! ## Runs -/

/-- Two blocks to an epoch. -/
def twoBlocks : Params := { Params.default with availEpochBlocks := 2 }

theorem validate_twoBlocks : twoBlocks.validate = .ok () := by
  simp only [Params.validate, Params.validateMode, Params.validateMode1, Params.validateEpoch14,
    Params.validateEpoch15, bind_unit_ok, refuse_ok]
  simp [twoBlocks, Params.default, Params.effectiveAuditFloor]

/-- The `i`-th miner answers the challenge of an empty application hash. -/
def proves (i : Nat) : Action := .proveAvailability ⟨nameOf i, idOf i, "genesis".toList, [], 0⟩

/-- A chain in whose first block one miner registered. -/
def hamlet (p : Params) : Clock :=
  ⟨enrolled (blockAt 1) (genesis p 0 1000000) (nameOf 0, idOf 0), 1, [⟨idOf 0, 1, none⟩]⟩

theorem ticking_hamlet {ok : Clock → Ctx × Action → Prop} {p : Params} (hp : p.validate = .ok ())
    (hmin : p.minStake ≤ 1000) (hok : ∀ t c msg, ok t (c, .createMiner msg)) :
    Ticking ok (hamlet p) := by
  refine .step (s := ⟨genesis p 0 1000000, 1, []⟩)
    (a := (blockAt 1, .createMiner (enrolment (nameOf 0, idOf 0)))) (.init ⟨⟨p, 0, 1000000, hp, rfl⟩, rfl⟩)
    (hok _ _ _) ⟨rfl, ?_, rfl, rfl⟩
  exact createMiner_enrolment (by decide) rfl hmin (show 1000 ≤ 1000000 by decide) rfl

/-- Run a list of actions by the clock. -/
def tickAll : List (Ctx × Action) → Clock → Except Err Clock
  | [], t => .ok t
  | (c, a) :: l, t =>
    if c.height = t.block then do
      let s ← a.run c t.state
      tickAll l ⟨s, a.next t.block, a.sightings c t.state ++ t.log⟩
    else .error ⟨.plain, "height"⟩

theorem ticking_tickAll {ok : Clock → Ctx × Action → Prop} {l : List (Ctx × Action)} {t t' : Clock}
    (hok : ∀ t, ∀ a ∈ l, ok t a) (ht : Ticking ok t) (h : tickAll l t = .ok t') : Ticking ok t' := by
  induction l generalizing t with
  | nil =>
    cases h
    exact ht
  | cons a l ih =>
    obtain ⟨c, a⟩ := a
    unfold tickAll at h
    split at h
    · next hheight =>
      obtain ⟨s, hs, hrest⟩ := bind_ok.1 h
      refine ih (fun t b hb => hok t b (.tail _ hb)) ?_ hrest
      exact .step ht (hok t (c, a) (.head _)) ⟨hheight, hs, rfl, rfl⟩
    · cases h

/-- A run by the clock, to a state that passes the test. -/
theorem exists_ticking {ok : Clock → Ctx × Action → Prop} {test : Clock → Bool}
    {l : List (Ctx × Action)} {t : Clock} (hok : ∀ t, ∀ a ∈ l, ok t a) (ht : Ticking ok t)
    (h : (tickAll l t).toOption.any test = true) : ∃ t', Ticking ok t' ∧ test t' = true := by
  cases hrun : tickAll l t with
  | error e =>
    rw [hrun] at h
    cases h
  | ok t' =>
    rw [hrun] at h
    exact ⟨t', ticking_tickAll hok ht hrun, h⟩

/-- Three epochs of two blocks. -/
def sixBlocks : List (Ctx × Action) :=
  [(blockAt 1, .endBlock), (blockAt 2, .endBlock), (blockAt 3, .endBlock), (blockAt 4, .endBlock),
    (blockAt 5, .endBlock), (blockAt 6, .endBlock)]

theorem sixBlocks_endBlock : ∀ a ∈ sixBlocks, a.2 = .endBlock := by
  simp [sixBlocks]

end Dendra.Jobs
