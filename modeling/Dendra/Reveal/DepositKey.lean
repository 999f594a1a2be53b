import Dendra.Jobs.Keys
import Dendra.Relay.Attributed
import Dendra.Reveal.JobId

/-!
# The readers of a deposit key

The relay splits `<job>__<miner>` at four places: where it binds the header's miner, where it attributes a request to
its job, where it asks what the job paid and who its committee is, and where it asks whether the miner is attested.
Three of them split at the last separator, the gate of the attestations at the first.

* `ReadAs`: all four read one job and one miner.
* `readAs_iff`: they do, of ids that the chain accepts, exactly if the job's id does not end with an underscore.
-/

namespace Dendra.Reveal

open Jobs Relay

/-! ## The four places -/

/-- `_request_refusal`, after it has split the key. -/
def refusalOf (lib : Library) (cfg : Relay.Settings) (out : Surroundings) (price : Int) (jid mid : Str) :
    Option Reason :=
  match ((out.jobDoc jid).bind lib.loads).bind (jobFeeFromDoc jid) with
  | none => some .feeUnreadable
  | some fee =>
    match ((out.jobDoc jid).bind lib.loads).bind (jobStateFromDoc jid) with
    | none => some .jobStateUnreadable
    | some state =>
      if state ≠ "open".toList then some .jobNotOpen
      else if fee < price then some .underpaid
      else match ((out.committeeDoc jid).bind lib.loads).bind committeeFromDoc with
        | none => some .committeeUnreadable
        | some members =>
          if members.contains mid = false then some .unassignedMiner
          else if cfg.attestRequire = true ∧ out.attested mid = false then some .notAttested
          else none

/-- Every place that splits the key reads this job and this miner. -/
structure ReadAs (key job miner : Str) : Prop where
  binding : ∀ kind, kind = .req ∨ kind = .res → minerNamedByKey kind key = some miner
  attribution : ∀ mid, jobFromKey key mid = if mid = miner then some job else none
  price : ∀ lib cfg out p, cfg.requestPrice = some p →
    requestRefusal lib cfg out key = refusalOf lib cfg out p job miner
  gate : ∀ cfg out, gateCloses cfg out .req key =
    (cfg.attestRequire && !(decide (miner ≠ []) && out.attested miner))

variable {j m : Str}

theorem gateCloses_req (cfg : Relay.Settings) (out : Surroundings) (key : Str) : gateCloses cfg out .req key =
    (cfg.attestRequire && !((afterFirst key).any fun mid => decide (mid ≠ []) && out.attested mid)) := by
  unfold gateCloses
  rw [decide_eq_true rfl, Bool.and_true]

/-- The first separator, when none starts before it. -/
theorem afterFirst_append {s : Str} (hs : ¬ commitKeySep <:+: s) (hend : ¬ ['_'] <:+ s) (t : Str) :
    afterFirst (s ++ commitKeySep ++ t) = some t := by
  induction s with
  | nil => rfl
  | cons a s ih =>
    have hrest : afterFirst (s ++ commitKeySep ++ t) = some t :=
      ih (fun h => hs (h.trans (List.suffix_cons a s).isInfix)) fun h => hend (h.trans (List.suffix_cons a s))
    rw [List.cons_append, List.cons_append, afterFirst, if_neg]
    · exact hrest
    · intro hprefix
      rw [List.isPrefixOf_iff_prefix] at hprefix
      obtain ⟨r, hr⟩ := hprefix
      have hcons : '_' :: '_' :: r = a :: (s ++ commitKeySep ++ t) := hr
      obtain ⟨rfl, htail⟩ := List.cons.inj hcons
      -- a separator would start at this character
      cases s with
      | nil => exact hend (List.suffix_refl _)
      | cons b s =>
        obtain ⟨rfl, -⟩ := List.cons.inj htail
        exact hs ⟨[], s, rfl⟩

/-- An underscore at the end of the job's id starts the first separator. -/
theorem afterFirst_pairKey {s : Str} (hs : ¬ commitKeySep <:+: s ++ ['_']) (m : Str) :
    afterFirst (pairKey (s ++ ['_']) m) = some ('_' :: m) := by
  have hend : ¬ ['_'] <:+ s := by
    rintro ⟨r, rfl⟩
    refine hs ⟨r, [], ?_⟩
    rw [List.append_nil, List.append_assoc]
    rfl
  have heq : pairKey (s ++ ['_']) m = s ++ commitKeySep ++ '_' :: m := by
    simp [pairKey, commitKeySep]
  rw [heq]
  exact afterFirst_append (fun h => hs (h.trans (List.prefix_append _ _).isInfix)) hend _

/-- The places that split at the last separator read the job and the miner. -/
theorem jobFromKey_pairKey (hj : j ≠ []) (hm : WfMinerId m) (mid : Str) :
    jobFromKey (pairKey j m) mid = if mid = m then some j else none := by
  have hsplit : Str.splitLast "__".toList (pairKey j m) = some (j, m) := splitLast_pairKey hm
  unfold jobFromKey
  rw [hsplit]
  dsimp only
  by_cases h : mid = m
  · rw [if_pos h, if_neg]
    rw [not_or, not_not]
    exact ⟨hj, h.symm⟩
  · rw [if_neg h, if_pos (.inr (Ne.symm h))]

theorem requestRefusal_pairKey (hm : WfMinerId m) {lib : Library} {cfg : Relay.Settings} {out : Surroundings}
    {p : Int} (hp : cfg.requestPrice = some p) :
    requestRefusal lib cfg out (pairKey j m) = refusalOf lib cfg out p j m := by
  have hsplit : Str.splitLast "__".toList (pairKey j m) = some (j, m) := splitLast_pairKey hm
  unfold requestRefusal
  rw [hp, hsplit]
  rfl

/-- **One reading of a deposit key.** Of a job id and a miner id that the chain accepts, every place of the relay reads
that job and that miner exactly if the job's id does not end with an underscore. -/
theorem readAs_iff [Chain] {j m : Str} (hj : OpenedId j) (hm : RegisteredId m) :
    ReadAs (pairKey j m) j m ↔ ¬ ['_'] <:+ j := by
  have hsep : ¬ commitKeySep <:+: j := of_decide_eq_false hj.wf.2
  constructor
  · rintro h ⟨s, rfl⟩
    -- the gate asks for another miner
    have hgate := h.gate strictRelay { oneJob with attested := fun mid => decide (mid = m) }
    rw [gateCloses_req, afterFirst_pairKey hsep] at hgate
    simp [strictRelay, hm.wf.1] at hgate
  · intro hend
    refine ⟨?_, jobFromKey_pairKey hj.wf.1 hm.wf, fun lib cfg out p hp => requestRefusal_pairKey hm.wf hp,
      fun cfg out => ?_⟩
    · rintro kind (rfl | rfl)
      · exact congrArg (Option.map Prod.snd) (splitLast_pairKey hm.wf)
      · exact congrArg (Option.map Prod.snd) (splitLast_pairKey hm.wf)
    · rw [gateCloses_req]
      unfold pairKey
      rw [afterFirst_append hsep hend]
      rfl

/-! ## Two jobs -/

theorem opened_of_opening {job : String}
    (h : (openJob (blockAt 2) (openingOf job) (village .default)).isOk = true) : OpenedId job.toList := by
  obtain ⟨s', hs'⟩ := exists_ok h
  exact ⟨blockAt 2, openingOf job, village .default, s', rfl, hs'⟩

/-- The id of the first account. -/
def oneMiner : Str := "dm1cnck7c5pdxuhd5y6kx5vf6".toList

theorem registered_oneMiner : RegisteredId oneMiner :=
  ⟨blockAt 1, enrolment ("dendra1qyqszqgpqyqszqgpqyqszqgpqyqszqgpg56jm2".toList, oneMiner), genesis .default 0 1000000,
    _, rfl, createMiner_enrolment (.head _) rfl (by decide) (by decide) rfl⟩

theorem readAs_job : ReadAs (pairKey "job-1".toList oneMiner) "job-1".toList oneMiner :=
  (readAs_iff (opened_of_opening (by rewrite [Jobs.application_eq_tabled]; decide +kernel)) registered_oneMiner).2 (by decide)

/-- The chain opens a job `a_`, and the gate of its requests asks for another miner. -/
theorem readAs_broken :
    OpenedId "a_".toList ∧ RegisteredId oneMiner ∧ ¬ ReadAs (pairKey "a_".toList oneMiner) "a_".toList oneMiner := by
  refine ⟨opened_of_opening (by rewrite [Jobs.application_eq_tabled]; decide +kernel), registered_oneMiner, fun h => ?_⟩
  have hgate := h.gate strictRelay { oneJob with attested := fun mid => decide (mid = oneMiner) }
  exact absurd hgate (by decide)

end Dendra.Reveal
