import Dendra.Jobs.Draws
import Dendra.Jobs.Application

/-!
# The seed of a job

An opened job without a seed has one reveal to come, in every state, until the seed is written; a seed
that is written stays; and a chain that asks for decentralised seeds writes no other at the end of a block.
-/

namespace Dendra.Jobs

open Word

section Result

variable [Chain] {ok : State → Ctx × Action → Prop} {s s' : State} {c : Ctx} {a : Action} {j : Str}

/-- A job that exists keeps the seed it has. -/
theorem step_seed (hw : s.Wf) (h : Step s (c, a) s') (hj : s.job j ≠ none) {seed : Str}
    (hseed : (draw s j).seed = some seed) (hne : seed ≠ []) :
    s'.job j ≠ none ∧ (draw s' j).seed = some seed := by
  have ha : ∀ msg, a = .openJob msg → msg.jobId ≠ j := by
    rintro msg rfl rfl
    exact hj (step_opened h).1
  exact ⟨(step_job hw h ha).2 hj, (step_draw h ha).seed_kept hseed hne⟩

/-- So it does over a run. -/
theorem run_seed (hw : s.Wf) (hj : s.job j ≠ none) {seed : Str} (hseed : (draw s j).seed = some seed)
    (hne : seed ≠ []) (h : Reach (· = s) Step ok s') :
    s'.job j ≠ none ∧ (draw s' j).seed = some seed := by
  refine h.invariant (P := fun s' => s'.job j ≠ none ∧ (draw s' j).seed = some seed) ?_
    fun s₁ a s₂ hr ih _ hs => step_seed (wf_of_run hw hr) hs ih.1 ih.2 hne
  rintro _ rfl
  exact ⟨hj, hseed⟩

omit [Chain] in
/-- Whether the seed is decentralised does not depend on the fallback, nor then does the seed. -/
theorem committeeBaseSeedSourced_congr {p : Params} {f : Str}
    (h : (committeeBaseSeedSourced c p f).2 = true) (f' : Str) :
    committeeBaseSeedSourced c p f' = committeeBaseSeedSourced c p f := by
  unfold committeeBaseSeedSourced at h ⊢
  by_cases hsource : p.committeeSeedSource ≠ 1
  · rw [if_pos hsource] at h
    cases h
  · rw [if_neg hsource] at h ⊢
    rw [if_neg hsource]
    cases hseed : c.vrfSeed with
    | none =>
      rw [hseed] at h
      cases h
    | some seed =>
      rw [hseed] at h
      simp only at h ⊢
      by_cases hempty : seed = []
      · rw [if_pos hempty] at h
        cases h
      · rw [if_neg hempty] at h ⊢
        rw [if_neg hempty]
        by_cases hfew : p.committeeMinVrfContributors > 0 ∧
            c.vrfContributors.getD 0 < p.committeeMinVrfContributors
        · rw [if_pos hfew] at h
          cases h
        · rw [if_neg hfew] at h ⊢
          rw [if_neg hfew]
          cases hpower : c.vrfPower with
          | none =>
            rw [hpower] at h
            cases h
          | some bps =>
            rw [hpower] at h
            simp only at h ⊢
            by_cases hlow : bps < p.effectiveMinVrfContributorPowerBps
            · rw [if_pos hlow] at h
              cases h
            · rw [if_neg hlow, if_neg hlow]

omit [Chain] in
/-- The seed that a block reveals on a chain that asks for decentralised ones. -/
theorem revealSeed_sourced {seed : Str} (hsource : s.params.committeeSeedSource = 1)
    (h : revealSeed c s = some seed) (fallback : Str) :
    committeeBaseSeedSourced c s.params fallback = (seed, true) := by
  unfold revealSeed at h
  split at h
  · cases h
  · next hd =>
    have htrue : (committeeBaseSeedSourced c s.params (blockSeed c s.params)).2 = true := by
      rw [← Bool.not_eq_false]
      exact fun hf => hd ⟨hsource, hf⟩
    have hfallback := committeeBaseSeedSourced_congr htrue fallback
    have hblock : (committeeBaseSeedSourced c s.params (blockSeed c s.params)).1 =
        blockSeed c s.params :=
      congrArg Prod.fst (committeeBaseSeedSourced_congr htrue _).symm
    rw [hfallback, ← Option.some.inj h]
    exact Prod.ext hblock htrue

/-- An opened job has a beacon. While its seed is empty, it has exactly one reveal to come; once it is
not, no step changes it; and what the end of a block writes on a chain that asks for decentralised seeds
is the decentralised seed of that block. -/
theorem seed_once (h : Reachable ok s) {job : Job} (hj : s.job j = some job) :
    ∃ b, s.beacons.get? j = some b ∧
      (b.seed = [] → ∃! k, qkey k j ∈ s.queues.pendingReveal.entries) ∧
      (b.seed ≠ [] → ∀ s', Reach (· = s) Step ok s' →
        ∃ b', s'.beacons.get? j = some b' ∧ b'.seed = b.seed) ∧
      ∀ c s' b', Step s (c, .endBlock) s' → s.params.verificationMode = 1 →
        s.params.committeeSeedSource = 1 → s'.beacons.get? j = some b' → b'.seed ≠ b.seed →
        ∀ fallback, committeeBaseSeedSourced c s.params fallback = (b'.seed, true) := by
  have hne : s.job j ≠ none := by
    rw [hj]
    exact Option.some_ne_none _
  obtain ⟨seed, hseed, hsub, hpending⟩ := (h.draw j).seeded hne
  obtain ⟨b, hb, rfl⟩ := Option.map_eq_some_iff.1 hseed
  refine ⟨b, hb, fun hempty => ?_, fun hfull s' hr => ?_, fun c s' b' hs _ hsource hb' hnew fallback => ?_⟩
  · obtain ⟨k, hk⟩ := hpending hempty
    exact ⟨k, hk, fun k' hk' => hsub hk' hk⟩
  · obtain ⟨-, hs'⟩ := run_seed h.wf hne hseed hfull hr
    exact Option.map_eq_some_iff.1 hs'
  · have hwritten : (draw s' j).seed = some b'.seed := congrArg (Option.map Beacon.seed) hb'
    rcases (endBlock_draw hs j).seed_block with hsame | ⟨seed, ho, hs'⟩
    · rw [hwritten, hseed] at hsame
      exact absurd (Option.some.inj hsame) hnew
    · rw [hwritten] at hs'
      rw [Option.some.inj hs']
      exact revealSeed_sourced hsource ho fallback

end Result

/-! ## A run -/

/-- A job that waits for its seed. -/
theorem seed_once_pending : ∃ s, Reachable (fun _ _ => True) s ∧
    ∃! k, qkey k ticket ∈ s.queues.pendingReveal.entries := by
  obtain ⟨s, hs, ht⟩ := exists_reachable (fun _ _ _ => trivial)
    (reachable_village validate_auditMode (by decide) fun _ _ _ _ => trivial)
    (show endsIn free
      (fun s => decide ((s.job ticket).isSome = true ∧
        (s.beacons.get? ticket).map Beacon.seed = some []))
      [(blockAt 2, opening 100)] (village auditMode) = true by rewrite [application_eq_tabled]; decide +kernel)
  obtain ⟨hjob, hempty⟩ := of_decide_eq_true ht
  obtain ⟨job, hjob⟩ := Option.isSome_iff_exists.1 hjob
  obtain ⟨b, hb, hone, -⟩ := seed_once hs hjob
  rw [hb, Option.map_some, Option.some.injEq] at hempty
  exact ⟨s, hs, hone hempty⟩

end Dendra.Jobs
