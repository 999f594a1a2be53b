import Dendra.Lib.Str
import Dendra.Lib.Sha256

/-!
# Rule sets of the season

The season pays by published sets of rules. A day names its set by the digest of the set's text, and a later
day never goes back to an earlier set.

* `ruleHistory`: the sets in the order in which they took effect. The last two carry keys that the program
  learns: the kit floor, and the periods and the payer of the jury set.
* `ruleSetOf`: the position and the set of a fingerprint.
* `capSeason_mono`: the season's cap never shrinks from one set to a later one.
-/

namespace Dendra.Season

/-! ## The sets -/

/-- The keys of the kit set. They travel together. -/
structure KitRules where
  judgeActivePerDay : Int
  probationFirstDayBps : Int
  kitMin : Int
  deriving DecidableEq

/-- A period of controlled-fault requests. -/
structure FaultPeriod where
  fromDay : Nat
  toDay : Nat
  commitment : Str
  deriving DecidableEq

/-- The keys of the jury set. They travel together. -/
structure JuryRules where
  faultPeriods : List FaultPeriod
  faultPayer : Str
  deriving DecidableEq

/-- A set of rules. Amounts are in udndr. -/
structure Rules where
  presencePerWindow : Int
  presenceMaxWindows : Int
  workPerRequest : Int
  jurorPerVerdict : Int
  capProgrammeDay : Int
  capSeason : Int
  requestsPerDay : Int
  /-- `unwound_audit_work` and `finality`, from decision 18 on -/
  unwoundAuditWork : Option (Str × Str)
  kit : Option KitRules
  jury : Option JuryRules
  deriving DecidableEq

def udndr : Int := 1000000

def rules17 : Rules where
  presencePerWindow := 2000
  presenceMaxWindows := 50
  workPerRequest := 50000
  jurorPerVerdict := 8000
  capProgrammeDay := 50 * udndr
  capSeason := 1500 * udndr
  requestsPerDay := 600
  unwoundAuditWork := none
  kit := none
  jury := none

/-- `RULES`, decision 18. -/
def rules18 : Rules :=
  { rules17 with
    unwoundAuditWork := some ("paid_if_answered_and_graded_own_answer_first".toList,
      "audit_unwind_blocks+audit_resolve_timeout+200".toList) }

def rulesDoubled : Rules :=
  { rules18 with
    presencePerWindow := 4000
    workPerRequest := 100000
    jurorPerVerdict := 16000
    capProgrammeDay := 100 * udndr
    capSeason := 3000 * udndr }

def rulesMoreRequests : Rules := { rulesDoubled with requestsPerDay := 900 }

def judgeActivePerDay : Int := 500000

def probationFirstDayBps : Int := 6000

def kitRules (kitMin : Nat) : Rules :=
  { rulesMoreRequests with kit := some ⟨judgeActivePerDay, probationFirstDayBps, kitMin⟩ }

def juryRules (kitMin : Nat) (jury : JuryRules) : Rules := { kitRules kitMin with jury := some jury }

/-- What the program has learned: the kit floor, a positive number, and the keys of the jury set. -/
structure Keys where
  kitMin : Nat
  kitMin_pos : 1 ≤ kitMin
  jury : JuryRules

/-- `RULE_HISTORY`. -/
def ruleHistory (keys : Keys) : List Rules :=
  [rules17, rules18, rulesDoubled, rulesMoreRequests, kitRules keys.kitMin,
    juryRules keys.kitMin keys.jury]

/-! ## Fingerprints -/

def jsonText (s : Str) : Str := '"' :: s ++ ['"']

def jsonObject (fields : List (String × Str)) : Str :=
  '{' :: [','].intercalate (fields.map fun f => jsonText f.1.toList ++ ':' :: f.2) ++ ['}']

def FaultPeriod.json (p : FaultPeriod) : Str :=
  jsonObject [("commitment", jsonText p.commitment), ("from_day", Str.formatUint p.fromDay),
    ("to_day", Str.formatUint p.toDay)]

def juroRule : Str := "verdict_paid_whatever_the_vote_contradicted_on_incoherent_or_no_reveal_faults".toList

/-- `json.dumps(r, sort_keys=True, separators=(",", ":"))`. No value needs an escape. -/
def Rules.json (r : Rules) : Str :=
  jsonObject <|
    [("cap_programme_day", Str.formatInt r.capProgrammeDay), ("cap_season", Str.formatInt r.capSeason),
      ("day_blocks", "17280".toList), ("end_time", jsonText "2026-11-08T00:00:00Z".toList)] ++
    (match r.jury with
      | none => []
      | some j =>
        [("fault_payer", jsonText j.faultPayer),
          ("fault_periods", '[' :: [','].intercalate (j.faultPeriods.map FaultPeriod.json) ++ [']'])]) ++
    (match r.unwoundAuditWork with
      | none => []
      | some u => [("finality", jsonText u.2)]) ++
    (match r.kit with
      | none => []
      | some k => [("judge_active_per_day", Str.formatInt k.judgeActivePerDay)]) ++
    [("juror_per_verdict", Str.formatInt r.jurorPerVerdict)] ++
    (match r.jury with
      | none => []
      | some _ => [("juror_rule", jsonText juroRule)]) ++
    (match r.kit with
      | none => []
      | some k => [("kit_min", Str.formatInt k.kitMin)]) ++
    [("presence_max_windows", Str.formatInt r.presenceMaxWindows),
      ("presence_per_window", Str.formatInt r.presencePerWindow)] ++
    (match r.kit with
      | none => []
      | some k => [("probation_first_day_bps", Str.formatInt k.probationFirstDayBps)]) ++
    [("requests_per_day", Str.formatInt r.requestsPerDay), ("season", jsonText "final-testnet".toList)] ++
    (match r.unwoundAuditWork with
      | none => []
      | some u => [("unwound_audit_work", jsonText u.1)]) ++
    [("work_per_request", Str.formatInt r.workPerRequest)]

@[irreducible] def fingerprint (r : Rules) : Str := Str.hex (Sha256.hash (Str.utf8 r.json))

/-- The loop of `rule_set_of`, from position `n`. -/
def ruleSetFrom (fp : Str) : Nat → List Rules → Option (Nat × Rules)
  | _, [] => none
  | n, r :: rs => if fingerprint r = fp then some (n, r) else ruleSetFrom fp (n + 1) rs

def ruleSetOf (keys : Keys) (fp : Str) : Option (Nat × Rules) := ruleSetFrom fp 0 (ruleHistory keys)

/-- `pays_judge_presence`. -/
def paysJudgePresence (r : Rules) : Bool := r.kit.isSome

/-- The published fingerprint of the first set. -/
theorem head_rules17 : (fingerprint rules17).take 8 = "c591851f".toList := by decide +kernel

theorem fingerprint_ne_of_head {r r' : Rules} {a b : Str} (h : (fingerprint r).take 8 = a)
    (h' : (fingerprint r').take 8 = b) (hab : a ≠ b) : fingerprint r ≠ fingerprint r' := by
  intro heq
  rw [heq, h'] at h
  exact hab h.symm

/-! ## Caps -/

section Caps

variable {keys : Keys} {fp : Str} {pos pos' n : Nat} {r r' : Rules} {l : List Rules}

/-- A set of another fingerprint is passed over. -/
theorem ruleSetFrom_of_ne (h : fingerprint r ≠ fp) : ruleSetFrom fp n (r :: l) = ruleSetFrom fp (n + 1) l := by
  rw [ruleSetFrom, if_neg h]

theorem ruleSetFrom_eq_some (h : ruleSetFrom fp n l = some (pos, r)) :
    n ≤ pos ∧ l[pos - n]? = some r ∧ fingerprint r = fp := by
  induction l generalizing n with
  | nil => cases h
  | cons a l ih =>
    unfold ruleSetFrom at h
    split at h
    · next hfp =>
      obtain ⟨rfl, rfl⟩ := Prod.mk.inj (Option.some.inj h)
      exact ⟨le_refl _, by simp, hfp⟩
    · obtain ⟨hle, hget, hfp⟩ := ih h
      refine ⟨by omega, ?_, hfp⟩
      rw [show pos - n = (pos - (n + 1)) + 1 by omega, List.getElem?_cons_succ]
      exact hget

theorem ruleSetOf_eq_some (h : ruleSetOf keys fp = some (pos, r)) :
    (ruleHistory keys)[pos]? = some r ∧ fingerprint r = fp :=
  (ruleSetFrom_eq_some h).2

/-- With distinct fingerprints, a set is found by its own. -/
theorem ruleSetFrom_of_nodup (hn : (l.map fingerprint).Nodup) (h : l[pos]? = some r) :
    ruleSetFrom (fingerprint r) n l = some (n + pos, r) := by
  induction l generalizing n pos with
  | nil => simp at h
  | cons a l ih =>
    rw [List.map_cons, List.nodup_cons] at hn
    cases pos with
    | zero =>
      obtain rfl : a = r := by simpa using h
      rw [ruleSetFrom, if_pos rfl]
      rfl
    | succ pos =>
      rw [List.getElem?_cons_succ] at h
      have hne : fingerprint a ≠ fingerprint r := fun heq =>
        hn.1 (heq ▸ List.mem_map_of_mem (List.mem_of_getElem? h))
      rw [ruleSetFrom_of_ne hne, ih hn.2 h]
      congr 2
      omega

theorem ruleSetOf_of_nodup (hn : ((ruleHistory keys).map fingerprint).Nodup)
    (h : (ruleHistory keys)[pos]? = some r) : ruleSetOf keys (fingerprint r) = some (pos, r) := by
  have := ruleSetFrom_of_nodup (n := 0) hn h
  rwa [Nat.zero_add] at this

/-- No rate and no cap is negative. -/
structure Rules.Sound (r : Rules) : Prop where
  presencePerWindow : 0 ≤ r.presencePerWindow
  workPerRequest : 0 ≤ r.workPerRequest
  jurorPerVerdict : 0 ≤ r.jurorPerVerdict
  capProgrammeDay : 0 ≤ r.capProgrammeDay
  capSeason : 0 ≤ r.capSeason
  kit : ∀ k, r.kit = some k → 0 ≤ k.judgeActivePerDay ∧ 0 ≤ k.probationFirstDayBps

theorem sound_plain (h : 0 ≤ r.presencePerWindow ∧ 0 ≤ r.workPerRequest ∧ 0 ≤ r.jurorPerVerdict ∧
    0 ≤ r.capProgrammeDay ∧ 0 ≤ r.capSeason) (hkit : r.kit = none) : r.Sound :=
  ⟨h.1, h.2.1, h.2.2.1, h.2.2.2.1, h.2.2.2.2, fun k hk => by rw [hkit] at hk; cases hk⟩

theorem sound_kit {kitMin : Nat} : (kitRules kitMin).Sound := by
  have h : rulesMoreRequests.Sound := sound_plain (by decide) rfl
  have hkit : 0 ≤ judgeActivePerDay ∧ 0 ≤ probationFirstDayBps := by decide
  refine ⟨h.1, h.2, h.3, h.4, h.5, ?_⟩
  rintro k ⟨⟩
  exact hkit

theorem sound_of_mem (h : r ∈ ruleHistory keys) : r.Sound := by
  simp only [ruleHistory, List.mem_cons, List.not_mem_nil, or_false] at h
  rcases h with rfl | rfl | rfl | rfl | rfl | rfl
  · exact sound_plain (by decide) rfl
  · exact sound_plain (by decide) rfl
  · exact sound_plain (by decide) rfl
  · exact sound_plain (by decide) rfl
  · exact sound_kit
  · have h := @sound_kit keys.kitMin
    exact ⟨h.1, h.2, h.3, h.4, h.5, h.6⟩

theorem capSeason_mono (h : (ruleHistory keys)[pos]? = some r) (h' : (ruleHistory keys)[pos']? = some r')
    (hle : pos ≤ pos') : r.capSeason ≤ r'.capSeason := by
  have hcaps : ((ruleHistory keys).map Rules.capSeason) =
      [1500000000, 1500000000, 3000000000, 3000000000, 3000000000, 3000000000] := rfl
  have hsorted : ((ruleHistory keys).map Rules.capSeason).Pairwise (· ≤ ·) := by
    rw [hcaps]
    decide
  obtain ⟨hlt, rfl⟩ := List.getElem?_eq_some_iff.1 h
  obtain ⟨hlt', rfl⟩ := List.getElem?_eq_some_iff.1 h'
  rcases Nat.lt_or_eq_of_le hle with hlt'' | rfl
  · have := List.pairwise_iff_getElem.1 hsorted pos pos' (by simpa using hlt) (by simpa using hlt') hlt''
    simpa using this
  · exact le_refl _

end Caps

end Dendra.Season
