import Dendra.Jobs.Progress.Settle

/-!
# Commit keys, back and forth

A key is built from a kind, a job or an epoch, and a miner. `OpenJob` accepts no job id with the
separator in it, registration accepts only derived miner ids, and an epoch is written in decimal: under
these, a key parses back to what it was built from, and the parser accepts no key that is built otherwise.

* `ParsedCommitKey.format`: the key of a decomposition.
* `parseUint_formatUint`: a decimal numeral reads back, and it is no longer than twenty digits.
* `parseEpochMarkerBase_iff`: which bases are epoch markers.
* `commit_keys_exact`: the round trips, and that no two decompositions share a key.
-/

namespace Dendra.Jobs

/-! ## Decimal numerals -/

section Decimal

variable {n : Nat} {s : Str}

theorem digits_formatUint (n : Nat) : Str.digits (Str.formatUint n) = some n := by
  have hdigit : (Str.formatUint n).all Char.isDigit = true :=
    List.all_eq_true.2 fun a ha => Nat.isDigit_of_mem_toDigits (by decide) (by decide) ha
  rw [Str.digits, if_pos ⟨Nat.toDigits_ne_nil, hdigit⟩]
  exact congrArg some Nat.ofDigitChars_ten_toDigits

/-- A numeral of a machine word reads back. -/
theorem parseUint_formatUint (h : n < 2 ^ 64) : Str.parseUint (Str.formatUint n) = some n := by
  rw [Str.parseUint, digits_formatUint]
  simpa [Option.filter] using h

theorem parseUint_lt (h : Str.parseUint s = some n) : n < 2 ^ 64 := by
  obtain ⟨-, hlt⟩ := Option.filter_eq_some_iff.1 h
  simpa using hlt

theorem utf8Size_of_isDigit {a : Char} (h : a.isDigit = true) : a.utf8Size = 1 := by
  simp only [Char.isDigit, Bool.and_eq_true, decide_eq_true_eq] at h
  rw [Char.utf8Size_eq_one_iff]
  exact UInt32.le_trans h.2 (by decide)

/-- Digits take one byte each, and a machine word has at most twenty. -/
theorem byteLen_formatUint_le (h : n < 2 ^ 64) :
    Str.byteLen (Str.formatUint n) ≤ epochMaxDigits := by
  have hone : (Str.formatUint n).map Char.utf8Size =
      List.replicate (Str.formatUint n).length 1 := by
    rw [← List.map_const']
    refine List.map_congr_left fun a ha => ?_
    have hdigit := Nat.isDigit_of_mem_toDigits (by decide) (by decide) ha
    exact utf8Size_of_isDigit hdigit
  rw [Str.byteLen, hone, List.sum_replicate, smul_eq_mul, mul_one]
  exact (Nat.length_toDigits_le_iff (by decide) (by decide)).2 (h.trans (by decide))

end Decimal

/-! ## Epoch markers -/

/-- The base of an epoch's marker. -/
def epochMarkerBase (epoch : Nat) : Str :=
  epochMarkerPrefix ++ Str.formatUint epoch ++ (commitKeySep ++ commitRoleReveals)

/-- A base is an epoch's marker only in the epoch's one decimal form. -/
theorem parseEpochMarkerBase_iff {base : Str} {epoch : Nat} :
    parseEpochMarkerBase base = some epoch ↔ base = epochMarkerBase epoch ∧ epoch < 2 ^ 64 := by
  constructor
  · intro h
    simp only [parseEpochMarkerBase, Option.bind_eq_bind, Option.bind_eq_some_iff] at h
    obtain ⟨rest, hrest, digits, hdigits, h⟩ := h
    rw [Str.cutSuffix_eq_some] at hrest
    rw [Str.cutPrefix_eq_some] at hdigits
    split at h
    · cases h
    · obtain ⟨ep, hep, h⟩ := Option.bind_eq_some_iff.1 h
      split at h
      · cases h
      · next hcanon =>
        cases h
        rw [ne_eq, not_not] at hcanon
        rw [hrest, hdigits, epochMarkerBase, hcanon]
        exact ⟨rfl, parseUint_lt hep⟩
  · rintro ⟨rfl, hlt⟩
    have hne : ¬ (Str.formatUint epoch = [] ∨ Str.byteLen (Str.formatUint epoch) > epochMaxDigits) :=
      not_or.2 ⟨Nat.toDigits_ne_nil, Nat.not_lt.2 (byteLen_formatUint_le hlt)⟩
    simp only [parseEpochMarkerBase, epochMarkerBase, Str.cutSuffix_append, Str.cutPrefix_append,
      Option.bind_eq_bind, Option.bind_some, if_neg hne, parseUint_formatUint hlt, ne_eq,
      not_true_eq_false, if_false]

/-! ## Keys -/

/-- The key of a decomposition. -/
def ParsedCommitKey.format (k : ParsedCommitKey) : Str :=
  if k.kind = .epochMarker then epochMarkerBase k.epoch ++ commitKeySep ++ k.minerId
  else commitKey k.kind k.jobId k.minerId

section Keys

variable [Chain]

/-- A job id that `OpenJob` accepts. -/
def OpenedId (j : Str) : Prop :=
  ∃ (c : Ctx) (msg : MsgOpenJob) (s s' : State), msg.jobId = j ∧ openJob c msg s = .ok s'

/-- A miner id that is accepted at registration. -/
def RegisteredId (m : Str) : Prop :=
  ∃ (c : Ctx) (msg : MsgCreateMiner) (s s' : State), msg.minerId = m ∧ createMiner c msg s = .ok s'

/-- What a key may be built from: a kind, a job for all kinds but one and an epoch for that one, and a
miner. -/
structure ParsedCommitKey.Served (k : ParsedCommitKey) : Prop where
  miner : RegisteredId k.minerId
  job : k.kind ≠ .epochMarker → OpenedId k.jobId ∧ k.epoch = 0
  epoch : k.kind = .epochMarker → k.jobId = [] ∧ k.epoch < 2 ^ 64

variable {j m key : Str} {k : ParsedCommitKey}

theorem OpenedId.wf (h : OpenedId j) : WfJobId j := by
  obtain ⟨c, msg, s, s', rfl, h⟩ := h
  simp only [openJob, bind_ok, ensure_ok] at h
  obtain ⟨-, -, -, hwf, -⟩ := h
  exact hwf

theorem RegisteredId.wf (h : RegisteredId m) : WfMinerId m := by
  obtain ⟨c, msg, s, s', rfl, h⟩ := h
  simp only [createMiner, bind_ok, ensure_ok, require_ok] at h
  obtain ⟨bz, -, want, hid, -, hwant, -⟩ := h
  exact hwant ▸ deriveMinerID_wf hid

omit [Chain] in
/-- The marker of an epoch parses back. -/
theorem parseCommitKey_epochMarker {epoch : Nat} (hm : WfTail m) (h : epoch < 2 ^ 64) :
    parseCommitKey (epochMarkerBase epoch ++ commitKeySep ++ m) =
      some ⟨.epochMarker, [], m, epoch⟩ := by
  have hs : Str.splitLast commitKeySep (epochMarkerBase epoch ++ commitKeySep ++ m) =
      some (epochMarkerBase epoch, m) := Str.splitLast_of_last commitKeySep_ne_nil hm.2
  have hne : ¬ (epochMarkerBase epoch = [] ∨ m = []) := by
    rw [not_or]
    exact ⟨by simp [epochMarkerBase, epochMarkerPrefix], hm.1⟩
  unfold parseCommitKey
  simp only [hs, if_neg hne, parseEpochMarkerBase_iff.2 ⟨rfl, h⟩]

theorem parseCommitKey_format (h : k.Served) : parseCommitKey k.format = some k := by
  obtain ⟨kind, j, m, epoch⟩ := k
  have hm : WfTail m := h.miner.wf.tail
  rw [ParsedCommitKey.format]
  by_cases hk : kind = .epochMarker
  · obtain ⟨hj, hlt⟩ := h.epoch hk
    dsimp only at hj hlt
    subst hk hj
    exact parseCommitKey_epochMarker hm hlt
  · obtain ⟨hj, hep⟩ := h.job hk
    dsimp only at hep
    subst hep
    rw [if_neg hk]
    exact parseCommitKey_commitKey hj.wf hm hk

omit [Chain] in
/-- A key that parses to an epoch is the marker of that epoch. -/
theorem format_of_epochMarker (h : parseCommitKey key = some k) (hk : k.kind = .epochMarker) :
    key = k.format ∧ k.epoch < 2 ^ 64 := by
  unfold parseCommitKey at h
  cases hs : Str.splitLast commitKeySep key with
  | none => simp [hs] at h
  | some bm =>
    obtain ⟨base, m⟩ := bm
    obtain ⟨rfl, -⟩ := Str.splitLast_eq_some commitKeySep_ne_nil hs
    simp only [hs] at h
    split at h
    · cases h
    · split at h
      · next ep hep =>
        obtain ⟨rfl, hlt⟩ := parseEpochMarkerBase_iff.1 hep
        simp only [Option.some.injEq] at h
        subst h
        exact ⟨rfl, hlt⟩
      · rcases hc : cutRole base with ⟨kind, j⟩
        simp only [hc] at h
        split at h
        · cases h
        · simp only [Option.some.injEq] at h
          subst h
          exact absurd hk (cutRole_eq hc).2

omit [Chain] in
theorem format_of_parse (h : parseCommitKey key = some k) : key = k.format := by
  by_cases hk : k.kind = .epochMarker
  · exact (format_of_epochMarker h hk).1
  · have hscoped : k.jobScoped = true := by
      unfold ParsedCommitKey.jobScoped
      cases hkind : k.kind with
      | epochMarker => exact absurd hkind hk
      | _ => rfl
    rw [ParsedCommitKey.format, if_neg hk]
    exact (parseCommitKey_eq_some h hscoped).1

/-- A key that is built parses back to what it was built from; a key that parses is the key of what it
parses to; epochs are read in their decimal form only; and no two decompositions share a key. -/
theorem commit_keys_exact :
    (∀ k : ParsedCommitKey, k.Served → parseCommitKey k.format = some k) ∧
    (∀ key k, parseCommitKey key = some k → key = k.format) ∧
    (∀ base epoch, parseEpochMarkerBase base = some epoch ↔
      base = epochMarkerBase epoch ∧ epoch < 2 ^ 64) ∧
    ∀ k k' : ParsedCommitKey, k.Served → k'.Served → k.format = k'.format → k = k' := by
  refine ⟨fun k h => parseCommitKey_format h, fun key k h => format_of_parse h,
    fun base epoch => parseEpochMarkerBase_iff, fun k k' h h' he => ?_⟩
  have hparse := parseCommitKey_format h
  rw [he, parseCommitKey_format h', Option.some.injEq] at hparse
  exact hparse.symm

end Keys

end Dendra.Jobs
