import Dendra.Jobs.Draw
import Dendra.Jobs.Msg.Miner
import Dendra.Jobs.Application

/-!
# The decentralised seed

Every validator may add to its vote a VRF proof over the block it votes on. The votes of a block come back
in the next one, whose first step turns the proofs into a seed and notes how many validators contributed
and with how much of the power. The jobs module takes the seed if both are enough.

* `tallyVotes`, `aggregateSeed`, `preBlock`: from the votes to what is recorded.
* `Validated`: what the validation of an extended commit promises.
* `seed_accepted`: where an accepted seed comes from, and what it does not depend on.
-/

namespace Dendra.App

open Word Jobs

/-! ## Votes -/

/-- `BlockIDFlag`: what a vote is for. -/
inductive BlockIDFlag
  | commit | nil | absent | unknown
  deriving DecidableEq

/-- `ExtendedVoteInfo`. -/
structure ExtendedVoteInfo where
  address : List UInt8
  power : Int
  blockIdFlag : BlockIDFlag
  voteExtension : List UInt8
  deriving DecidableEq

/-- What the application reads of its state. -/
structure Keepers where
  /-- `GetBlockHash`, for every height -/
  blockHash : Int → Option (List UInt8)
  /-- `GetDecentralizedSeed`, for every height -/
  decentralizedSeed : Int → Option (List UInt8)
  /-- the operator address of the validator with a consensus address, when staking knows it -/
  operatorOf : List UInt8 → Option Addr
  /-- the VRF keys anchored under accounts -/
  validatorVrfPubkey : Store Str Str

def voteFlagReason : BlockIDFlag → String
  | .commit => ""
  | .nil => "precommit_nil"
  | .absent => "vote_absent"
  | .unknown => "flag_unknown"

/-! ## The input of the proofs -/

def vrfVoteDomain : Str := "dendra/vrf/ve/v1".toList

/-- `n` in big-endian order, in `size` bytes. -/
def beBytes : Nat → Nat → List UInt8
  | 0, _ => []
  | size + 1, n => beBytes size (n / 256) ++ [UInt8.ofNat n]

def vrfVoteAlphaBase (height : Int) : List UInt8 :=
  Str.utf8 vrfVoteDomain ++ beBytes 8 (toUint64 height).toNat

def vrfVoteAlphaWithHash (k : Keepers) (height : Int) (hash : List UInt8) : List UInt8 :=
  let a := vrfVoteAlphaBase height
  if hash ≠ [] then a ++ hash
  else if height > 1 then a ++ (k.decentralizedSeed (height - 1)).getD []
  else a

def vrfVoteAlphaForAggregation (k : Keepers) (extHeight : Int) : List UInt8 :=
  vrfVoteAlphaWithHash k extHeight ((k.blockHash extHeight).getD [])

/-! ## The tally -/

section Tally

variable [Chain]

/-- `validatorVrfPubkey`: the key anchored under the operator account of a validator. -/
def validatorVrfPubkey (k : Keepers) (consAddr : List UInt8) : Option (List UInt8) :=
  match k.operatorOf consAddr with
  | none => none
  | some valBz =>
    match k.validatorVrfPubkey.get (Chain.addrString valBz) with
    | none => none
    | some hexpk => decodeHexOf 32 hexpk

structure SeedTally where
  betas : List (List UInt8)
  contribPower : Int
  totalPower : Int
  notCommit : Nat
  noExt : Nat
  noPk : Nat
  badProof : Nat
  mute : List (List UInt8 × String)

/-- The size of a proof, in bytes. -/
def ProofSize : Nat := 80

/-- One vote: the flag comes first, because it changes what the next check means. -/
def tallyVote (alpha : List UInt8) (pubkeyOf : List UInt8 → Option (List UInt8)) (t : SeedTally)
    (v : ExtendedVoteInfo) : SeedTally :=
  let t := { t with totalPower := addInt64 t.totalPower v.power }
  if voteFlagReason v.blockIdFlag ≠ "" then
    { t with
      notCommit := t.notCommit + 1
      mute := t.mute ++ [(v.address, voteFlagReason v.blockIdFlag)] }
  else if v.voteExtension.length ≠ ProofSize then
    { t with noExt := t.noExt + 1, mute := t.mute ++ [(v.address, "no_extension")] }
  else
    match pubkeyOf v.address with
    | none => { t with noPk := t.noPk + 1, mute := t.mute ++ [(v.address, "vrf_key_not_anchored")] }
    | some pk =>
      match Chain.vrfVerify pk alpha v.voteExtension with
      | some beta =>
        { t with
          betas := t.betas ++ [beta]
          contribPower := addInt64 t.contribPower v.power }
      | none =>
        { t with badProof := t.badProof + 1, mute := t.mute ++ [(v.address, "invalid_proof")] }

def tallyVotes (votes : List ExtendedVoteInfo) (alpha : List UInt8)
    (pubkeyOf : List UInt8 → Option (List UInt8)) : SeedTally :=
  votes.foldl (tallyVote alpha pubkeyOf) ⟨[], 0, 0, 0, 0, 0, 0, []⟩

def aggregateDomain : Str := "dendra/vrf/aggregate/v1".toList

/-- `bytes.Compare(a, b) <= 0`. -/
def BytesLe (a b : List UInt8) : Prop := a.map UInt8.toNat ≤ b.map UInt8.toNat

instance : DecidableRel BytesLe := fun a b =>
  inferInstanceAs (Decidable (a.map UInt8.toNat ≤ b.map UInt8.toNat))

/-- `AggregateBeacons`: the hash of the sorted outputs, each behind its length. -/
def aggregateBeacons (betas : List (List UInt8)) : Option (List UInt8) :=
  if betas = [] then none
  else
    some (Chain.sha256 (Str.utf8 aggregateDomain ++
      (betas.insertionSort BytesLe).flatMap fun b => beBytes 4 b.length ++ b))

/-- `aggregateSeed`: the seed, the number of contributions and their share of the power. -/
def aggregateSeed (k : Keepers) (votes : List ExtendedVoteInfo) (extHeight : Int) :
    Option (List UInt8 × Nat × UInt64) :=
  let t := tallyVotes votes (vrfVoteAlphaForAggregation k extHeight) (validatorVrfPubkey k)
  match aggregateBeacons t.betas with
  | none => none
  | some seed =>
    let powerBps :=
      if t.totalPower > 0 ∧ t.contribPower ≥ 0 then
        toUint64 t.contribPower * 10000 / toUint64 t.totalPower
      else 0
    some (seed, t.betas.length, powerBps)

/-- The pre-blocker: what is recorded for the height of `c`, given the extended commit that the block
carries, if it carries one and may use it. -/
def preBlock (k : Keepers) (ec : Option (List ExtendedVoteInfo)) (c : Ctx) : Ctx :=
  match ec.bind fun votes => aggregateSeed k votes (c.h - 1) with
  | none => { c with vrfSeed := none, vrfContributors := none, vrfPower := none }
  | some (seed, n, powerBps) =>
    { c with
      vrfSeed := some seed
      vrfContributors := some (UInt64.ofNat n)
      vrfPower := some powerBps }

end Tally

/-! ## What the tally counts -/

section Contributions

variable [Chain] {k : Keepers} {alpha : List UInt8} {pubkeyOf : List UInt8 → Option (List UInt8)}
  {votes : List ExtendedVoteInfo} {v : ExtendedVoteInfo} {t : SeedTally}

/-- The output that a vote contributes: it is for the block, and its extension is a valid proof under the
key of its validator. -/
def contribution (alpha : List UInt8) (pubkeyOf : List UInt8 → Option (List UInt8))
    (v : ExtendedVoteInfo) : Option (List UInt8) :=
  if v.blockIdFlag = .commit ∧ v.voteExtension.length = ProofSize then
    (pubkeyOf v.address).bind fun pk => Chain.vrfVerify pk alpha v.voteExtension
  else none

theorem contribution_some {beta : List UInt8} (h : contribution alpha pubkeyOf v = some beta) :
    v.blockIdFlag = .commit ∧
      ∃ pk, pubkeyOf v.address = some pk ∧ Chain.vrfVerify pk alpha v.voteExtension = some beta := by
  unfold contribution at h
  split at h
  · next hq =>
    obtain ⟨pk, hpk, hbeta⟩ := Option.bind_eq_some_iff.1 h
    exact ⟨hq.1, pk, hpk, hbeta⟩
  · cases h

/-- The votes that contribute. -/
def contributors (alpha : List UInt8) (pubkeyOf : List UInt8 → Option (List UInt8))
    (votes : List ExtendedVoteInfo) : List ExtendedVoteInfo :=
  votes.filter fun v => (contribution alpha pubkeyOf v).isSome

omit [Chain] in
theorem voteFlagReason_eq {flag : BlockIDFlag} : voteFlagReason flag = "" ↔ flag = .commit := by
  cases flag <;> simp [voteFlagReason]

theorem tallyVote_eq (t : SeedTally) (v : ExtendedVoteInfo) :
    (tallyVote alpha pubkeyOf t v).betas = t.betas ++ (contribution alpha pubkeyOf v).toList ∧
    (tallyVote alpha pubkeyOf t v).totalPower = addInt64 t.totalPower v.power ∧
    (tallyVote alpha pubkeyOf t v).contribPower =
      if (contribution alpha pubkeyOf v).isSome then addInt64 t.contribPower v.power
      else t.contribPower := by
  unfold tallyVote contribution
  simp only [ne_eq, voteFlagReason_eq]
  by_cases hflag : v.blockIdFlag = .commit
  · by_cases hsize : v.voteExtension.length = ProofSize
    · rw [if_neg (not_not.2 hflag), if_neg (not_not.2 hsize), if_pos ⟨hflag, hsize⟩]
      cases hpk : pubkeyOf v.address with
      | none => simp
      | some pk =>
        rw [Option.bind_some]
        cases hbeta : Chain.vrfVerify pk alpha v.voteExtension with
        | none => simp [hbeta]
        | some beta => simp [hbeta]
    · rw [if_neg (not_not.2 hflag), if_pos hsize, if_neg fun h => hsize h.2]
      simp
  · rw [if_pos hflag, if_neg fun h => hflag h.1]
    simp

/-- What the validation of an extended commit promises: the votes are those of the validators of the last
commit, each once, so no power is negative, and the sum of the powers is an `int64`. -/
structure Validated (votes : List ExtendedVoteInfo) : Prop where
  nonneg : ∀ v ∈ votes, 0 ≤ v.power
  sum_lt : (votes.map ExtendedVoteInfo.power).sum < 2 ^ 63
  nodup : (votes.map ExtendedVoteInfo.address).Nodup

omit [Chain] in
theorem addInt64_eq {a b : Int} (ha : 0 ≤ a) (hb : 0 ≤ b) (h : a + b < 2 ^ 63) :
    addInt64 a b = a + b := by
  unfold addInt64
  exact Int.bmod_eq_of_le (by omega) (by omega)

omit [Chain] in
theorem sum_nonneg {l : List ExtendedVoteInfo} (h : ∀ v ∈ l, 0 ≤ v.power) :
    0 ≤ (l.map ExtendedVoteInfo.power).sum := by
  induction l with
  | nil => exact le_rfl
  | cons v l ih =>
    rw [List.map_cons, List.sum_cons]
    exact add_nonneg (h v (.head _)) (ih fun w hw => h w (.tail _ hw))

/-- The tally of the votes that follow, on a tally within bounds. -/
theorem foldl_tallyVote (hnonneg : ∀ v ∈ votes, 0 ≤ v.power) (hpos : 0 ≤ t.contribPower)
    (hle : t.contribPower ≤ t.totalPower)
    (hsum : t.totalPower + (votes.map ExtendedVoteInfo.power).sum < 2 ^ 63) :
    (votes.foldl (tallyVote alpha pubkeyOf) t).betas =
      t.betas ++ votes.filterMap (contribution alpha pubkeyOf) ∧
    (votes.foldl (tallyVote alpha pubkeyOf) t).totalPower =
      t.totalPower + (votes.map ExtendedVoteInfo.power).sum ∧
    (votes.foldl (tallyVote alpha pubkeyOf) t).contribPower =
      t.contribPower + ((contributors alpha pubkeyOf votes).map ExtendedVoteInfo.power).sum := by
  induction votes generalizing t with
  | nil => simp [contributors]
  | cons v votes ih =>
    obtain ⟨hbetas, htotal, hcontrib⟩ := @tallyVote_eq _ alpha pubkeyOf t v
    have hv := hnonneg v (.head _)
    have hrest := fun w hw => hnonneg w (.tail v hw)
    have hrestSum := sum_nonneg hrest
    rw [List.map_cons, List.sum_cons] at hsum
    rw [addInt64_eq (by omega) hv (by omega)] at htotal
    rw [addInt64_eq hpos hv (by omega)] at hcontrib
    rw [List.foldl_cons]
    generalize tallyVote alpha pubkeyOf t v = t₁ at *
    have hbound : 0 ≤ t₁.contribPower ∧ t₁.contribPower ≤ t₁.totalPower := by
      rw [hcontrib, htotal]
      split
      · omega
      · omega
    obtain ⟨ihb, iht, ihc⟩ := ih (t := t₁) hrest hbound.1 hbound.2 (by rw [htotal]; omega)
    refine ⟨?_, ?_, ?_⟩
    · rw [ihb, hbetas, List.filterMap_cons]
      cases contribution alpha pubkeyOf v with
      | none => simp
      | some beta => simp
    · rw [iht, htotal, List.map_cons, List.sum_cons, add_assoc]
    · rw [ihc, hcontrib, contributors, contributors, List.filter_cons]
      split
      · rw [List.map_cons, List.sum_cons, add_assoc]
      · rfl

/-- The tally of a validated commit. -/
theorem tallyVotes_eq (hv : Validated votes) :
    (tallyVotes votes alpha pubkeyOf).betas = votes.filterMap (contribution alpha pubkeyOf) ∧
    (tallyVotes votes alpha pubkeyOf).totalPower = (votes.map ExtendedVoteInfo.power).sum ∧
    (tallyVotes votes alpha pubkeyOf).contribPower =
      ((contributors alpha pubkeyOf votes).map ExtendedVoteInfo.power).sum := by
  obtain ⟨hb, ht, hc⟩ := @foldl_tallyVote _ alpha pubkeyOf votes ⟨[], 0, 0, 0, 0, 0, 0, []⟩
    hv.nonneg le_rfl le_rfl (by simpa using hv.sum_lt)
  exact ⟨hb, by rw [tallyVotes, ht, zero_add], by rw [tallyVotes, hc, zero_add]⟩

end Contributions

/-! ## The seed -/

section Seed

variable [Chain] {k : Keepers} {votes votes' : List ExtendedVoteInfo} {c : Ctx} {p : Params}

omit [Chain] in
theorem bytesLe_antisymm {a b : List UInt8} (h : BytesLe a b) (h' : BytesLe b a) : a = b :=
  List.map_injective_iff.2 (fun _ _ => UInt8.toNat_inj.1) (le_antisymm h h')

instance : Std.Total BytesLe := ⟨fun a b => le_total (a.map UInt8.toNat) (b.map UInt8.toNat)⟩

instance : IsTrans (List UInt8) BytesLe := ⟨fun _ _ _ h h' => le_trans h h'⟩

/-- The aggregation does not see the order of the outputs. -/
theorem aggregateBeacons_perm {l l' : List (List UInt8)} (h : l.Perm l') :
    aggregateBeacons l = aggregateBeacons l' := by
  have hsort : l.insertionSort BytesLe = l'.insertionSort BytesLe := by
    refine List.Perm.eq_of_pairwise (fun a b _ _ => bytesLe_antisymm)
      (List.pairwise_insertionSort _ _) (List.pairwise_insertionSort _ _) ?_
    exact (List.perm_insertionSort _ l).trans (h.trans (List.perm_insertionSort _ l').symm)
  unfold aggregateBeacons
  rw [hsort]
  refine if_congr ?_ rfl rfl
  rw [← List.length_eq_zero_iff, ← List.length_eq_zero_iff, h.length_eq]

omit [Chain] in
theorem Validated.perm (h : Validated votes) (hp : votes'.Perm votes) : Validated votes' where
  nonneg v hv := h.nonneg v (hp.mem_iff.1 hv)
  sum_lt := by
    rw [(hp.map _).sum_eq]
    exact h.sum_lt
  nodup := (hp.map _).nodup_iff.2 h.nodup

/-- The seed of a commit, by its contributions. -/
theorem aggregateSeed_eq (hv : Validated votes) (h : Int) :
    aggregateSeed k votes h =
      (aggregateBeacons (votes.filterMap (contribution (vrfVoteAlphaForAggregation k h)
        (validatorVrfPubkey k)))).map fun seed => (seed,
          (votes.filterMap (contribution (vrfVoteAlphaForAggregation k h)
            (validatorVrfPubkey k))).length,
          if (votes.map ExtendedVoteInfo.power).sum > 0 ∧
              ((contributors (vrfVoteAlphaForAggregation k h) (validatorVrfPubkey k) votes).map
                ExtendedVoteInfo.power).sum ≥ 0 then
            toUint64 ((contributors (vrfVoteAlphaForAggregation k h) (validatorVrfPubkey k) votes).map
              ExtendedVoteInfo.power).sum * 10000 /
              toUint64 (votes.map ExtendedVoteInfo.power).sum
          else 0) := by
  obtain ⟨hb, ht, hc⟩ := @tallyVotes_eq _ (vrfVoteAlphaForAggregation k h)
    (validatorVrfPubkey k) votes hv
  unfold aggregateSeed
  simp only [hb, ht, hc]
  cases aggregateBeacons (votes.filterMap (contribution (vrfVoteAlphaForAggregation k h)
    (validatorVrfPubkey k))) with
  | none => rfl
  | some seed => rfl

theorem aggregateSeed_perm (hv : Validated votes) (hp : votes'.Perm votes) (h : Int) :
    aggregateSeed k votes' h = aggregateSeed k votes h := by
  rw [aggregateSeed_eq (hv.perm hp), aggregateSeed_eq hv, aggregateBeacons_perm (hp.filterMap _),
    (hp.filterMap _).length_eq, (hp.map _).sum_eq]
  unfold contributors
  rw [((hp.filter _).map _).sum_eq]

omit [Chain] in
theorem sum_filter_le (h : ∀ v ∈ votes, 0 ≤ v.power) (q : ExtendedVoteInfo → Bool) :
    ((votes.filter q).map ExtendedVoteInfo.power).sum ≤ (votes.map ExtendedVoteInfo.power).sum := by
  induction votes with
  | nil => exact le_rfl
  | cons v votes ih =>
    have hv := h v (.head _)
    have := ih fun w hw => h w (.tail _ hw)
    rw [List.filter_cons]
    split
    · simp only [List.map_cons, List.sum_cons]
      omega
    · simp only [List.map_cons, List.sum_cons]
      omega

omit [Chain] in
theorem Validated.filter (hv : Validated votes) (q : ExtendedVoteInfo → Bool) :
    Validated (votes.filter q) where
  nonneg v hm := hv.nonneg v (List.mem_of_mem_filter hm)
  sum_lt := (sum_filter_le hv.nonneg q).trans_lt hv.sum_lt
  nodup := hv.nodup.sublist ((List.filter_sublist).map _)

/-- Votes that are not for the block do not change the seed. -/
theorem aggregateSeed_filter (hv : Validated votes) (h : Int) :
    (aggregateSeed k (votes.filter fun v => decide (v.blockIdFlag = .commit)) h).map Prod.fst =
      (aggregateSeed k votes h).map Prod.fst := by
  have hsame : (votes.filter fun v => decide (v.blockIdFlag = .commit)).filterMap
      (contribution (vrfVoteAlphaForAggregation k h) (validatorVrfPubkey k)) =
      votes.filterMap (contribution (vrfVoteAlphaForAggregation k h) (validatorVrfPubkey k)) := by
    rw [List.filterMap_filter]
    refine List.filterMap_congr fun v _ => ?_
    split
    · rfl
    · next hflag =>
      unfold contribution
      rw [if_neg fun hq => hflag (decide_eq_true hq.1)]
  rw [aggregateSeed_eq (hv.filter _), aggregateSeed_eq hv, hsame]
  simp only [Option.map_map]
  rfl

omit [Chain] in
theorem toNat_toUint64 {n : Int} (h0 : 0 ≤ n) (h : n < 2 ^ 63) : ((toUint64 n).toNat : Int) = n := by
  unfold toUint64
  rw [UInt64.toNat_ofNat']
  omega

omit [Chain] in
/-- A share in basis points, if it is not zero, is at most the true one: a product that wraps only
lowers it. -/
theorem share_le {part total : Int} {bar : UInt64} (hpart : 0 ≤ part) (hle : part ≤ total)
    (hlt : total < 2 ^ 63) (hbar : 0 < bar.toNat)
    (h : bar ≤ if total > 0 ∧ part ≥ 0 then toUint64 part * 10000 / toUint64 total else 0) :
    0 < total ∧ (bar.toNat : Int) * total ≤ part * 10000 := by
  have hle' := toNat_le_of_le h
  split at hle'
  · next hq =>
    refine ⟨hq.1, ?_⟩
    have htotal := toNat_toUint64 (n := total) (by omega) hlt
    have hpart' := toNat_toUint64 hpart (by omega)
    rw [UInt64.toNat_div, UInt64.toNat_mul, Nat.le_div_iff_mul_le (by omega)] at hle'
    have hmod := Nat.mod_le ((toUint64 part).toNat * (10000 : UInt64).toNat) (2 ^ 64)
    have hprod : bar.toNat * (toUint64 total).toNat ≤ (toUint64 part).toNat * 10000 :=
      hle'.trans hmod
    rw [← htotal, ← hpart']
    exact_mod_cast hprod
  · exact absurd hle' (by simp; omega)

/-- The bar is above two thirds, posted or compiled. -/
theorem bar_ge (hp : p.validate = .ok ()) : 6667 ≤ p.effectiveMinVrfContributorPowerBps.toNat := by
  simp only [Params.validate, bind_unit_ok, refuse_ok] at hp
  obtain ⟨-, -, -, -, -, -, -, -, -, -, -, -, -, -, -, -, -, -, -, -, -, -, -, -, -, -, -, h15⟩ := hp
  simp only [Params.validateEpoch15, bind_unit_ok, refuse_ok] at h15
  obtain ⟨-, -, hbar, -⟩ := h15
  unfold Params.effectiveMinVrfContributorPowerBps
  split
  · next hpos =>
    have hlow : ¬ p.committeeMinVrfPowerBps < VrfContributorPowerFloorBps :=
      fun h => hbar ⟨hpos, .inl h⟩
    exact toNat_le_of_le (UInt64.not_lt.1 hlow)
  · decide

omit [Chain] in
/-- What makes the jobs module take a recorded seed. -/
theorem sourced_spec {fallback out : Str} (h : committeeBaseSeedSourced c p fallback = (out, true)) :
    ∃ seed bps, c.vrfSeed = some seed ∧ out = Str.hex seed ∧ c.vrfPower = some bps ∧
      p.effectiveMinVrfContributorPowerBps ≤ bps ∧
      p.committeeMinVrfContributors ≤ c.vrfContributors.getD 0 := by
  unfold committeeBaseSeedSourced at h
  split at h
  · cases h
  · split at h
    · cases h
    · next seed hseed =>
      split at h
      · cases h
      · split at h
        · cases h
        · next hfew =>
          split at h
          · cases h
          · next bps hbps =>
            split at h
            · cases h
            · next hlow =>
              refine ⟨seed, bps, hseed, (congrArg Prod.fst h).symm, hbps, UInt64.not_lt.1 hlow, ?_⟩
              by_cases hpos : p.committeeMinVrfContributors > 0
              · exact UInt64.not_lt.1 fun hlt => hfew ⟨hpos, hlt⟩
              · exact UInt64.le_trans (UInt64.not_lt.1 hpos) (UInt64.zero_le)

/-- An accepted seed is the aggregate of the outputs of contributors: validators, each counted once, that
voted for the block with a valid proof under their anchored key. They are at least as many as the
parameters ask for, and hold the governed share of the power of the whole commit, more than two thirds.
Neither the order of the votes nor those that are not for the block make a difference to the seed. -/
theorem seed_accepted (hp : p.validate = .ok ()) (hv : Validated votes) :
    (∀ fallback out, committeeBaseSeedSourced (preBlock k (some votes) c) p fallback = (out, true) →
      ∃ seed, out = Str.hex seed ∧
        aggregateBeacons (votes.filterMap (contribution (vrfVoteAlphaForAggregation k (c.h - 1))
          (validatorVrfPubkey k))) = some seed ∧
        let chosen := contributors (vrfVoteAlphaForAggregation k (c.h - 1)) (validatorVrfPubkey k) votes
        (∀ v ∈ chosen, v ∈ votes ∧ v.blockIdFlag = .commit ∧
          ∃ pk beta, validatorVrfPubkey k v.address = some pk ∧
            Chain.vrfVerify pk (vrfVoteAlphaForAggregation k (c.h - 1)) v.voteExtension = some beta) ∧
        (chosen.map ExtendedVoteInfo.address).Nodup ∧
        p.committeeMinVrfContributors.toNat ≤ chosen.length ∧
        (p.effectiveMinVrfContributorPowerBps.toNat : Int) *
            (votes.map ExtendedVoteInfo.power).sum ≤
          (chosen.map ExtendedVoteInfo.power).sum * 10000 ∧
        2 * (votes.map ExtendedVoteInfo.power).sum < 3 * (chosen.map ExtendedVoteInfo.power).sum) ∧
    (∀ votes', votes'.Perm votes → preBlock k (some votes') c = preBlock k (some votes) c) ∧
    (preBlock k (some (votes.filter fun v => decide (v.blockIdFlag = .commit))) c).vrfSeed =
      (preBlock k (some votes) c).vrfSeed := by
  have hseedOf : ∀ l, (preBlock k (some l) c).vrfSeed =
      (aggregateSeed k l (c.h - 1)).map Prod.fst := by
    intro l
    unfold preBlock
    rw [Option.bind_some]
    cases aggregateSeed k l (c.h - 1) with
    | none => rfl
    | some r => rfl
  refine ⟨fun fallback out h => ?_, fun votes' hperm => ?_, ?_⟩
  · obtain ⟨seed, bps, hseed, hout, hbps, hbar, hmin⟩ := sourced_spec h
    have heq := aggregateSeed_eq (k := k) hv (c.h - 1)
    generalize hbetas : votes.filterMap (contribution (vrfVoteAlphaForAggregation k (c.h - 1))
      (validatorVrfPubkey k)) = betas at heq ⊢
    generalize hchosen : contributors (vrfVoteAlphaForAggregation k (c.h - 1)) (validatorVrfPubkey k)
      votes = chosen at heq ⊢
    -- as many outputs as contributors
    have hlen : betas.length = chosen.length := by
      rw [← hbetas, ← hchosen, contributors, List.length_filterMap_eq_countP,
        List.countP_eq_length_filter]
    have hchosenNonneg : 0 ≤ (chosen.map ExtendedVoteInfo.power).sum := by
      rw [← hchosen]
      exact sum_nonneg (hv.filter _).nonneg
    have hle : (chosen.map ExtendedVoteInfo.power).sum ≤ (votes.map ExtendedVoteInfo.power).sum := by
      rw [← hchosen]
      exact sum_filter_le hv.nonneg _
    cases hagg : aggregateBeacons betas with
    | none =>
      rw [hagg] at heq
      rw [hseedOf, heq] at hseed
      cases hseed
    | some seed' =>
      rw [hagg] at heq
      unfold preBlock at hseed hbps hmin
      rw [Option.bind_some, heq] at hseed hbps hmin
      simp only [Option.map_some, Option.some.injEq, Option.getD_some] at hseed hbps hmin
      subst hseed
      rw [← hbps] at hbar
      have h6667 := bar_ge hp
      obtain ⟨hpos, hshare⟩ := share_le hchosenNonneg hle hv.sum_lt (by omega) hbar
      refine ⟨seed', hout, rfl, fun v hv => ?_, ?_, ?_, hshare, ?_⟩
      · rw [← hchosen] at hv
        obtain ⟨hmem, hsome⟩ := List.mem_filter.1 hv
        obtain ⟨beta, hbeta⟩ := Option.isSome_iff_exists.1 hsome
        obtain ⟨hflag, pk, hpk, hverify⟩ := contribution_some hbeta
        exact ⟨hmem, hflag, pk, beta, hpk, hverify⟩
      · rw [← hchosen]
        exact (hv.filter _).nodup
      · have hle := toNat_le_of_le hmin
        rw [UInt64.toNat_ofNat', hlen] at hle
        exact hle.trans (Nat.mod_le _ _)
      · have hscale : (6667 : Int) * (votes.map ExtendedVoteInfo.power).sum ≤
            p.effectiveMinVrfContributorPowerBps.toNat * (votes.map ExtendedVoteInfo.power).sum :=
          Int.mul_le_mul_of_nonneg_right (by omega) (by omega)
        omega
  · unfold preBlock
    rw [Option.bind_some, Option.bind_some, aggregateSeed_perm hv hperm]
  · rw [hseedOf, hseedOf, aggregateSeed_filter hv]

end Seed

/-! ## A commit -/

/-- The key of a validator, a proof of it over the input of height 4, and the output. -/
def provenKey : Str := "d75a980182b10ab7d54bfed3c964073a0ee172f3daa62325af021a68f707511a".toList

def provenProof : List UInt8 :=
  (Str.unhex ("c816260428d0f991537028455864aa4a383a0278ba7f7bf7f99f7662697265108709dc51bed98ab2" ++
    "a352e4ed3a88d2026edecdae074beaba85f876992a09c34df8ffa8d1e1f049e57f9a482291d6770e").toList).getD []

def provenOutput : List UInt8 :=
  (Str.unhex ("9e55b4713fcf1780dc6a2665a47370d079b374a3177c60050aa6ef772b282de3" ++
    "b32e9e92420620dd6b29b10dce558c6afdcc149317b90b10b75c71979f0583d0").toList).getD []

/-- The application, with the verification of that one proof. -/
abbrev proving : Chain :=
  { application with
    vrfVerify := fun pk alpha pi =>
      if some pk = Str.unhex provenKey ∧ alpha = vrfVoteAlphaBase 4 ∧ pi = provenProof then
        some provenOutput
      else none }

/-- Three validators, of which the first has anchored a key. -/
def crew : Keepers where
  blockHash _ := none
  decentralizedSeed _ := none
  operatorOf a := some a
  validatorVrfPubkey := Store.set (bytesToString [1]) provenKey .empty

/-- A commit: 70 of the power proves, 20 votes for nil, and 10 is absent. -/
def ballot : List ExtendedVoteInfo :=
  [⟨[1], 70, .commit, provenProof⟩, ⟨[2], 20, .nil, []⟩, ⟨[3], 10, .absent, []⟩]

/-- Decentralised seeds. -/
def seededMode : Params := { Params.default with committeeSeedSource := 1 }

theorem validate_seededMode [Chain] : seededMode.validate = .ok () := by
  simp only [Params.validate, Params.validateMode, Params.validateMode1, Params.validateEpoch14,
    Params.validateEpoch15, bind_unit_ok, refuse_ok]
  simp [seededMode, Params.default, Params.effectiveAuditFloor]

/-- The seed of that commit is accepted. -/
theorem seed_accepted_seventy : ∃ seed,
    committeeBaseSeedSourced (@preBlock proving crew (some ballot) (blockAt 5)) seededMode [] =
      (Str.hex seed, true) ∧ @aggregateBeacons proving [provenOutput] = some seed := by
  have hvalid : Validated ballot := ⟨by decide, by decide, by decide⟩
  obtain ⟨hsourced, hone⟩ : (committeeBaseSeedSourced (@preBlock proving crew (some ballot) (blockAt 5))
        seededMode []).2 = true ∧
      ballot.filterMap (@contribution proving (vrfVoteAlphaForAggregation crew ((blockAt 5).h - 1))
        (@validatorVrfPubkey proving crew)) = [provenOutput] := by decide +kernel
  obtain ⟨haccepted, -⟩ :=
    @seed_accepted proving crew ballot (blockAt 5) seededMode validate_seededMode hvalid
  have hpair : ∀ r : Str × Bool, r.2 = true → r = (r.1, true) := fun r h => Prod.ext rfl h
  have hseed := hpair _ hsourced
  obtain ⟨seed, hout, hagg, -⟩ := haccepted [] _ hseed
  rw [hout] at hseed
  refine ⟨seed, hseed, ?_⟩
  rw [hone] at hagg
  exact hagg

end Dendra.App
