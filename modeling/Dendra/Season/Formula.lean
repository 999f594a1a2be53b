import Dendra.Season.Check
import Dendra.Lib.MapM

/-!
# The check accepts exactly the formula

A day passes the payer's check if and only if its rows and totals are those that the calculator gives on the
rows' own counts, whatever the order of the rows and the words on them, provided that the day is well formed:
no count is negative, the day publishes the kit floor of its set, and a row under a set without a floor names
no kit.

* `AsComputed`, `WellFormed`, `dayOk_iff`: one day.
* `toJson`, `parseDay`: a ranking as it is published and read back. `Produced`: a season that the calculator
  produced, published and read back.
* `check_days_exact`: the check and the formula; produced seasons are accepted; accepted seasons stay within
  their caps.
-/

namespace Dendra.Season

/-! ## One day -/

/-- A row without the words on it. -/
def Row.plain (x : Row) : Row := { x with reason := [] }

/-- The day is the one that the calculator gives on the rows' own counts. -/
def AsComputed (n : Nat) (paidBefore : Int) (r : Rules) (d : DayResult) : Prop :=
  ∃ c, computeDay n (d.rows.map Row.facts) paidBefore r = some c ∧
    (c.rows.map Row.plain).Perm (d.rows.map Row.plain) ∧ d.day = c.day ∧
    d.rulesFingerprint = c.rulesFingerprint ∧ d.totalGross = c.totalGross ∧
    d.totalPayable = c.totalPayable ∧ d.dayBudget = c.dayBudget ∧ d.totalPaid = c.totalPaid ∧
    d.scaleNum = c.scaleNum ∧ d.scaleDen = c.scaleDen

/-- No count is negative, the floor is that of the set, and no row names a kit under a set without a floor. -/
structure WellFormed (r : Rules) (d : DayResult) : Prop where
  counts : ∀ x ∈ d.rows, 0 ≤ x.presence ∧ 0 ≤ x.verifiedRequests ∧ 0 ≤ x.verdicts
  kitMin : d.kitMin = r.kit.map KitRules.kitMin
  noKit : r.kit = none → ∀ x ∈ d.rows, x.kitVersion = none

section Day

variable {n : Nat} {paidBefore : Int} {d : DayResult} {r : Rules} {x y : Row} {scale : Int × Int}

/-- The row of some facts carries them, their gross and what is payable of it. -/
theorem rowOf_spec {i : Identity} (h : rowOf i r = some y) :
    y.facts = i ∧ grossOf i r = some y.gross ∧ (∃ ok, kitAllowsPay i r = some ok) ∧
      y.payable = payableOf i r y.gross ∧ y.paid = 0 := by
  unfold rowOf at h
  split at h
  · cases h
  · next g hg =>
    split at h
    · cases h
    · next ok hok =>
      obtain rfl := Option.some.inj h
      refine ⟨rfl, hg, ⟨ok, hok⟩, ?_, rfl⟩
      unfold payableOf
      rw [hok]
      rfl

theorem plain_of_rowOf (h : rowOf x.facts r = some y) :
    y.plain = { x.plain with gross := y.gross, payable := y.payable, paid := 0 } := by
  obtain ⟨hf, -, -, -, hpaid⟩ := rowOf_spec h
  cases x
  cases y
  obtain ⟨⟩ := hf
  obtain rfl := hpaid
  rfl

/-- Facts with a gross carry nothing that their set does not have, the kit apart. -/
theorem fields_of_grossOf {i : Identity} {g : Int} (h : grossOf i r = some g) :
    (i.judgeActive = 0 ∨ i.judgeActive = 1) ∧
      (r.kit = none → i.judgeActive = 0 ∧ i.probation = false ∧ i.registrationNotDated = false) := by
  unfold grossOf at h
  split at h
  · cases h
  · next hja =>
    refine ⟨by omega, fun hk => ?_⟩
    dsimp only at h
    rw [hk] at h
    dsimp only at h
    split at h
    · cases h
    · next hno =>
      rw [not_or, not_or, Bool.not_eq_true, Bool.not_eq_true, not_not] at hno
      exact hno

theorem kitVersion_nonneg {i : Identity} {ok : Bool} (h : kitAllowsPay i r = some ok)
    (hkv : r.kit = none → i.kitVersion = none) : ∀ kv, i.kitVersion = some kv → 0 ≤ kv := by
  intro kv hi
  unfold kitAllowsPay at h
  split at h
  · next hk =>
    rw [hkv hk] at hi
    cases hi
  · split at h
    · next hnone =>
      rw [hnone] at hi
      cases hi
    · next kv' hkv' =>
      rw [hkv'] at hi
      obtain rfl := Option.some.inj hi
      split at h
      · cases h
      · next hneg => exact not_lt.1 hneg

/-- A row that is right is the one its facts give, but for what is paid. -/
theorem RowOk.rowOf (h : RowOk r x) :
    ∃ y, rowOf x.facts r = some y ∧ y.gross = x.gross ∧ y.payable = x.payable := by
  have hkit : ∃ ok, kitAllowsPay x.facts r = some ok := by
    unfold kitAllowsPay
    split
    · exact ⟨_, rfl⟩
    · split
      · exact ⟨_, rfl⟩
      · next kv hkv =>
        have := h.kitVersion kv hkv
        rw [if_neg (by omega)]
        exact ⟨_, rfl⟩
  obtain ⟨ok, hok⟩ := hkit
  unfold Season.rowOf
  rw [h.gross, hok]
  refine ⟨_, rfl, rfl, ?_⟩
  rw [h.payable]
  unfold payableOf
  rw [hok]
  rfl

/-- The other way: the facts give the row, and it carries nothing that its set does not have. -/
theorem rowOk_of_rowOf (h : rowOf x.facts r = some y) (hg : y.gross = x.gross)
    (hp : y.payable = x.payable)
    (hc : 0 ≤ x.presence ∧ 0 ≤ x.verifiedRequests ∧ 0 ≤ x.verdicts)
    (hkv : r.kit = none → x.kitVersion = none) : RowOk r x := by
  obtain ⟨-, hgross, ⟨ok, hok⟩, hpay, -⟩ := rowOf_spec h
  obtain ⟨hja, hfields⟩ := fields_of_grossOf hgross
  refine ⟨hc, hja, kitVersion_nonneg hok hkv, fun hk => ?_, hg ▸ hgross, by rw [← hp, hpay, hg]⟩
  obtain ⟨h1, h2, h3⟩ := hfields hk
  exact ⟨h1, h2, hkv hk, h3⟩

/-- A share leaves the words and the amount paid to the day. -/
theorem plain_pay : (y.pay scale).plain = { y.plain with paid := y.payable * scale.1 / scale.2 } := rfl

/-- The computed rows, in the order of the facts. -/
theorem computeDay_eq_some {ids : List Identity} {c : DayResult} :
    computeDay n ids paidBefore r = some c ↔
      (ids.map Identity.minerId).Nodup ∧ ∃ ys, ids.mapM (fun i => rowOf i r) = some ys ∧
        let scale := dayScale (dayBudget r paidBefore) (ys.map Row.payable).sum
        let paid := (ys.map (Row.pay scale)).insertionSort rankedBefore
        c = ⟨n, fingerprint r, (paid.map Row.gross).sum, (ys.map Row.payable).sum, dayBudget r paidBefore,
          (paid.map Row.paid).sum, scale.1, scale.2, paid, none⟩ := by
  unfold computeDay
  by_cases hn : (ids.map Identity.minerId).Nodup
  · rw [if_pos hn]
    cases ids.mapM fun i => rowOf i r with
    | none => simp
    | some ys =>
      simp only [Option.some.injEq, hn, true_and, exists_eq_left']
      exact eq_comm
  · rw [if_neg hn]
    simp [hn]

theorem minerId_facts : (d.rows.map Row.facts).map Identity.minerId = d.rows.map Row.minerId := by
  rw [List.map_map]
  rfl

/-- A day that is right is as computed. -/
theorem DayOk.asComputed (h : DayOk n paidBefore r d) (hfp : fingerprint r = d.rulesFingerprint) :
    AsComputed n paidBefore r d := by
  have hmap : ∃ ys, (d.rows.map Row.facts).mapM (fun i => rowOf i r) = some ys ∧
      List.Forall₂ (fun x y => rowOf x.facts r = some y ∧ y.gross = x.gross ∧ y.payable = x.payable)
        d.rows ys := by
    have hrows := h.rows
    generalize d.rows = rows at hrows
    induction rows with
    | nil => exact ⟨[], rfl, .nil⟩
    | cons x rows ih =>
      obtain ⟨y, hy, hg, hp⟩ := (hrows x List.mem_cons_self).rowOf
      obtain ⟨ys, hys, hall⟩ := ih fun z hz => hrows z (List.mem_cons_of_mem _ hz)
      refine ⟨y :: ys, ?_, .cons ⟨hy, hg, hp⟩ hall⟩
      rw [mapM_eq_some] at hys ⊢
      exact .cons hy hys
  obtain ⟨ys, hys, hall⟩ := hmap
  have hpay : ys.map Row.payable = d.rows.map Row.payable :=
    (map_eq_of_forall₂ hall fun x y hxy => hxy.2.2.symm).symm
  have hscale : dayScale (dayBudget r paidBefore) (ys.map Row.payable).sum = (d.scaleNum, d.scaleDen) := by
    rw [hpay, h.totalPayable, h.scale]
  have hplain : (ys.map (Row.pay (d.scaleNum, d.scaleDen))).map Row.plain = d.rows.map Row.plain := by
    have hpaid := h.paid
    generalize d.rows = rows at hall hpaid
    clear hys hpay hscale
    induction hall with
    | nil => rfl
    | @cons x y xs ys hxy _ ih =>
      rw [List.map_cons, List.map_cons, List.map_cons, ih fun z hz => hpaid z (List.mem_cons_of_mem _ hz),
        plain_pay, plain_of_rowOf hxy.1, hxy.2.1, hxy.2.2, ← hpaid x List.mem_cons_self]
      rfl
  have hperm : (((ys.map (Row.pay (d.scaleNum, d.scaleDen))).insertionSort rankedBefore).map Row.plain).Perm
      (d.rows.map Row.plain) := by
    rw [← hplain]
    exact (List.perm_insertionSort _ _).map _
  refine ⟨_, computeDay_eq_some.2 ⟨by rw [minerId_facts]; exact h.nodup, ys, hys, rfl⟩, ?_⟩
  dsimp only
  rw [hscale]
  refine ⟨hperm, h.day, hfp.symm, ?_, ?_, h.budget, ?_, rfl, rfl⟩
  · have := (hperm.map Row.gross).sum_eq
    rw [List.map_map, List.map_map] at this
    rw [← h.totalGross]
    exact this.symm
  · rw [hpay, h.totalPayable]
  · have := (hperm.map Row.paid).sum_eq
    rw [List.map_map, List.map_map] at this
    rw [← h.totalPaid]
    exact this.symm

/-- A well formed day that is as computed is right. -/
theorem AsComputed.dayOk (h : AsComputed n paidBefore r d) (hw : WellFormed r d) : DayOk n paidBefore r d := by
  obtain ⟨c, hc, hperm, hday, -, hgross, hpayable, hbudget, hpaid, hnum, hden⟩ := h
  obtain ⟨hn, ys, hys, rfl⟩ := computeDay_eq_some.1 hc
  rw [minerId_facts] at hn
  dsimp only at hperm hday hgross hpayable hbudget hpaid hnum hden
  have hscale : dayScale (dayBudget r paidBefore) (ys.map Row.payable).sum = (d.scaleNum, d.scaleDen) := by
    rw [hnum, hden]
  rw [hscale] at hperm hgross hpaid
  -- each computed row is the published one: they have the same identity, and an identity is ranked once
  have hmem : ∀ y ∈ ys, (y.pay (d.scaleNum, d.scaleDen)).plain ∈ d.rows.map Row.plain := by
    intro y hy
    refine hperm.mem_iff.1 (List.mem_map_of_mem ?_)
    rw [List.mem_insertionSort]
    exact List.mem_map_of_mem hy
  have hall : List.Forall₂ (fun x y => rowOf x.facts r = some y ∧
      x.plain = (y.pay (d.scaleNum, d.scaleDen)).plain) d.rows ys := by
    rw [mapM_eq_some, List.forall₂_map_left_iff] at hys
    rw [List.forall₂_iff_zip] at hys ⊢
    refine ⟨hys.1, fun {x y} hxy => ?_⟩
    have hrow := hys.2 hxy
    refine ⟨hrow, ?_⟩
    obtain ⟨hx, hy⟩ := List.of_mem_zip hxy
    obtain ⟨z, hz, hzy⟩ := List.mem_map.1 (hmem y hy)
    have hid : z.minerId = x.minerId := by
      have h1 := congrArg Row.minerId hzy
      have h2 := congrArg Row.minerId (plain_of_rowOf hrow)
      exact h1.trans h2
    obtain rfl := List.inj_on_of_nodup_map hn hz hx hid
    exact hzy
  have hone : ∀ x ∈ d.rows, ∃ y, rowOf x.facts r = some y ∧
      x.plain = (y.pay (d.scaleNum, d.scaleDen)).plain := by
    intro x hx
    obtain ⟨i, hi, rfl⟩ := List.getElem_of_mem hx
    have hlen := hall.length_eq
    exact ⟨ys[i], (List.forall₂_iff_get.1 hall).2 i hi (hlen ▸ hi)⟩
  have hpays : ys.map Row.payable = d.rows.map Row.payable :=
    (map_eq_of_forall₂ hall fun x y hxy => congrArg Row.payable hxy.2).symm
  refine ⟨hday, hw.kitMin, hn, ?_, ?_, ?_, ?_, hbudget, ?_, ?_⟩
  · intro x hx
    obtain ⟨y, hy, hxy⟩ := hone x hx
    exact rowOk_of_rowOf hy (congrArg Row.gross hxy).symm (congrArg Row.payable hxy).symm (hw.counts x hx)
      fun hk => hw.noKit hk x hx
  · have := (hperm.map Row.paid).sum_eq
    rw [List.map_map, List.map_map] at this
    rw [hpaid]
    exact this.symm
  · rw [hpayable, hpays]
  · have := (hperm.map Row.gross).sum_eq
    rw [List.map_map, List.map_map] at this
    rw [hgross]
    exact this.symm
  · rw [hpayable, ← hscale]
  · intro x hx
    obtain ⟨y, -, hxy⟩ := hone x hx
    have h1 := congrArg Row.paid hxy
    have h2 := congrArg Row.payable hxy
    have h1 : x.paid = y.payable * d.scaleNum / d.scaleDen := h1
    have h2 : x.payable = y.payable := h2
    rw [h1, h2]

theorem DayOk.wellFormed (h : DayOk n paidBefore r d) : WellFormed r d :=
  ⟨fun x hx => (h.rows x hx).counts, h.kitMin, fun hk x hx => ((h.rows x hx).plain hk).2.2.1⟩

/-- The check asks for the formula. -/
theorem dayOk_iff (hfp : fingerprint r = d.rulesFingerprint) :
    DayOk n paidBefore r d ↔ WellFormed r d ∧ AsComputed n paidBefore r d :=
  ⟨fun h => ⟨h.wellFormed, h.asComputed hfp⟩, fun h => h.2.dayOk h.1⟩

end Day

/-! ## The whole list -/

section Season

variable {keys : Keys} {n prev pos : Nat} {paidBefore : Int} {days : List DayResult} {d : DayResult} {r : Rules}

/-- The days name published sets, none earlier than one before it. -/
def SetsInOrder (keys : Keys) : Nat → List DayResult → Prop
  | _, [] => True
  | prev, d :: days =>
    ∃ pos r, ruleSetOf keys d.rulesFingerprint = some (pos, r) ∧ prev ≤ pos ∧ SetsInOrder keys pos days

/-- Day by day, the list is well formed and as computed, each day after what the days before it paid. -/
def AllComputed (keys : Keys) : Nat → Int → List DayResult → Prop
  | _, _, [] => True
  | n, paidBefore, d :: days =>
    (∀ pos r, ruleSetOf keys d.rulesFingerprint = some (pos, r) →
      WellFormed r d ∧ AsComputed n paidBefore r d) ∧ AllComputed keys (n + 1) (paidBefore + d.totalPaid) days

/-- What was paid before is within the cap of every set to come. -/
def WithinCaps (keys : Keys) (prev : Nat) (paidBefore : Int) : Prop :=
  ∀ pos r, (ruleHistory keys)[pos]? = some r → prev ≤ pos → paidBefore ≤ r.capSeason

theorem withinCaps_zero : WithinCaps keys 0 0 :=
  fun _ _ h _ => (sound_of_mem (List.mem_of_getElem? h)).capSeason

theorem DayOk.withinCaps (h : DayOk n paidBefore r d) (hpos : (ruleHistory keys)[pos]? = some r)
    (hb : paidBefore ≤ r.capSeason) : WithinCaps keys pos (paidBefore + d.totalPaid) :=
  fun _ _ h' hle => (h.season_le hb).trans (capSeason_mono hpos h' hle)

theorem checkFrom_cons (hset : ruleSetOf keys d.rulesFingerprint = some (pos, r)) (hprev : prev ≤ pos)
    (hb : WithinCaps keys prev paidBefore) :
    checkFrom keys n prev paidBefore (d :: days) = none ↔
      DayOk n paidBefore r d ∧ checkFrom keys (n + 1) pos (paidBefore + d.totalPaid) days = none := by
  have hcap := hb pos r (ruleSetOf_eq_some hset).1 hprev
  conv_lhs => unfold checkFrom
  cases hc : checkDay keys n prev paidBefore d with
  | error why =>
    simp only [reduceCtorEq, false_iff, not_and]
    intro hd
    have := (checkDay_ok hset hprev hcap).2 ⟨hd, rfl⟩
    rw [hc] at this
    cases this
  | ok out =>
    obtain ⟨hd, rfl⟩ := (checkDay_ok hset hprev hcap).1 hc
    simp [hd]

theorem checkFrom_none (hsets : SetsInOrder keys prev days) (hb : WithinCaps keys prev paidBefore) :
    checkFrom keys n prev paidBefore days = none ↔ AllComputed keys n paidBefore days := by
  induction days generalizing n prev paidBefore with
  | nil => simp [checkFrom, AllComputed]
  | cons d days ih =>
    obtain ⟨pos, r, hset, hprev, hrest⟩ := hsets
    obtain ⟨hget, hfp⟩ := ruleSetOf_eq_some hset
    have hcap := hb pos r hget hprev
    rw [checkFrom_cons hset hprev hb, dayOk_iff hfp]
    conv_rhs => unfold AllComputed
    constructor
    · rintro ⟨hd, hdays⟩
      refine ⟨fun pos' r' hset' => ?_, (ih hrest (((dayOk_iff hfp).2 hd).withinCaps hget hcap)).1 hdays⟩
      rw [hset] at hset'
      obtain ⟨rfl, rfl⟩ := Prod.mk.inj (Option.some.inj hset')
      exact hd
    · rintro ⟨hd, hdays⟩
      have hd := hd pos r hset
      exact ⟨hd, (ih hrest (((dayOk_iff hfp).2 hd).withinCaps hget hcap)).2 hdays⟩

/-- A list that is accepted pays each day within its cap, and all of it within the cap of the last set. -/
theorem caps_of_checkFrom (hsets : SetsInOrder keys prev days) (hb : WithinCaps keys prev paidBefore)
    (h : checkFrom keys n prev paidBefore days = none) :
    (∀ d ∈ days, ∀ pos r, ruleSetOf keys d.rulesFingerprint = some (pos, r) →
        d.totalPaid ≤ r.capProgrammeDay) ∧
      ∀ d, days.getLast? = some d → ∀ pos r, ruleSetOf keys d.rulesFingerprint = some (pos, r) →
        paidBefore + (days.map DayResult.totalPaid).sum ≤ r.capSeason := by
  induction days generalizing n prev paidBefore with
  | nil => exact ⟨by simp, by simp⟩
  | cons d days ih =>
    obtain ⟨pos, r, hset, hprev, hrest⟩ := hsets
    obtain ⟨hget, hfp⟩ := ruleSetOf_eq_some hset
    have hcap := hb pos r hget hprev
    obtain ⟨hd, hdays⟩ := (checkFrom_cons hset hprev hb).1 h
    obtain ⟨hday, hall⟩ := ih hrest (hd.withinCaps hget hcap) hdays
    refine ⟨fun d' hd' pos' r' hset' => ?_, fun l hl pos' r' hset' => ?_⟩
    · rcases List.mem_cons.1 hd' with rfl | hd'
      · rw [hset] at hset'
        obtain ⟨rfl, rfl⟩ := Prod.mk.inj (Option.some.inj hset')
        exact hd.totalPaid_le.trans (dayBudget_le (sound_of_mem (List.mem_of_getElem? hget)) _)
      · exact hday d' hd' pos' r' hset'
    · rw [List.map_cons, List.sum_cons, ← add_assoc]
      cases days with
      | nil =>
        obtain rfl : d = l := by simpa using hl
        rw [hset] at hset'
        obtain ⟨rfl, rfl⟩ := Prod.mk.inj (Option.some.inj hset')
        simpa using hd.season_le hcap
      | cons d' days =>
        rw [List.getLast?_cons_cons] at hl
        exact hall l hl pos' r' hset'

end Season

/-! ## Published rankings -/

/-- The fields of a published row that only the kit set writes. -/
structure KitFields where
  judgeActive : Int
  probation : Bool
  kitVersion : Option Int
  registrationNotDated : Bool
  deriving DecidableEq

/-- A published row. -/
structure RowJson where
  rank : Nat
  minerId : Str
  payoutAddress : Str
  presence : Int
  verifiedRequests : Int
  verdicts : Int
  grossUdndr : Int
  payableUdndr : Int
  paidUdndr : Int
  reason : Str
  kit : Option KitFields
  deriving DecidableEq

/-- What a ranking publishes of its inputs and the payer reads: the floor (`kit_floor.kit_min`), the last
block of the day and that of the season. -/
structure Inputs where
  kitFloor : Option Int
  lastHeight : Int
  seasonEndHeight : Option Int
  deriving DecidableEq

/-- A published ranking. -/
structure RankingJson where
  day : Int
  rulesFingerprint : Str
  totalGrossUdndr : Int
  totalPayableUdndr : Int
  dayBudgetUdndr : Int
  totalPaidUdndr : Int
  proRata : Int × Int
  ranking : List RowJson
  inputs : Inputs
  deriving DecidableEq

/-- `publishes_kit_fields`. -/
def publishesKitFields (keys : Keys) (fp : Str) : Bool :=
  match ruleSetOf keys fp with
  | none => false
  | some (_, r) => paysJudgePresence r

def Row.toJson (kit : Bool) (rank : Nat) (x : Row) : RowJson :=
  ⟨rank, x.minerId, x.payoutAddress, x.presence, x.verifiedRequests, x.verdicts, x.gross, x.payable, x.paid,
    x.reason,
    if kit then some ⟨x.judgeActive, x.probation, x.kitVersion, x.registrationNotDated⟩ else none⟩

/-- `to_json`, with the inputs that the ranking adds. -/
def toJson (keys : Keys) (d : DayResult) (inputs : Inputs) : RankingJson where
  day := d.day
  rulesFingerprint := d.rulesFingerprint
  totalGrossUdndr := d.totalGross
  totalPayableUdndr := d.totalPayable
  dayBudgetUdndr := d.dayBudget
  totalPaidUdndr := d.totalPaid
  proRata := (d.scaleNum, d.scaleDen)
  ranking := d.rows.zipIdx.map fun e => e.1.toJson (publishesKitFields keys d.rulesFingerprint) (e.2 + 1)
  inputs := inputs

/-- The row of a published row. On a day with a kit floor a missing field is an error. -/
def parseRow (kitDay : Bool) (x : RowJson) : Option Row :=
  if kitDay ∧ x.kit = none then none
  else
    let k := x.kit.getD ⟨0, false, none, false⟩
    some ⟨x.minerId, x.payoutAddress, x.presence, x.verifiedRequests, x.verdicts, x.grossUdndr, x.payableUdndr,
      x.paidUdndr, x.reason, k.judgeActive, k.probation, k.kitVersion, k.registrationNotDated⟩

/-- `parse_day`: the day, and the season's last block if this day holds it. -/
def parseDay (x : RankingJson) : Option (DayResult × Option Int) :=
  match x.ranking.mapM (parseRow x.inputs.kitFloor.isSome) with
  | none => none
  | some rows =>
    match x.inputs.seasonEndHeight with
    | some e =>
      if 0 < e ∧ e = x.inputs.lastHeight then
        some (⟨x.day, x.rulesFingerprint, x.totalGrossUdndr, x.totalPayableUdndr, x.dayBudgetUdndr,
          x.totalPaidUdndr, x.proRata.1, x.proRata.2, rows, x.inputs.kitFloor⟩, some e)
      else none
    | none =>
      some (⟨x.day, x.rulesFingerprint, x.totalGrossUdndr, x.totalPayableUdndr, x.dayBudgetUdndr,
        x.totalPaidUdndr, x.proRata.1, x.proRata.2, rows, x.inputs.kitFloor⟩, none)

/-- The inputs of a ranking under `r`: the floor of the set, and the season's last block only as the day's
own. -/
def Inputs.Of (r : Rules) (i : Inputs) : Prop :=
  i.kitFloor = r.kit.map KitRules.kitMin ∧ ∀ e, i.seasonEndHeight = some e → 0 < e ∧ e = i.lastHeight

/-- A season that the calculator produced day by day, each day published and read back. -/
def Produced (keys : Keys) : Nat → Nat → Int → List DayResult → Prop
  | _, _, _, [] => True
  | n, prev, paidBefore, d :: days =>
    ∃ pos r ids c inputs last, (ruleHistory keys)[pos]? = some r ∧ prev ≤ pos ∧
      (∀ i ∈ ids, 0 ≤ i.presence ∧ 0 ≤ i.verifiedRequests ∧ 0 ≤ i.verdicts) ∧
      computeDay n ids paidBefore r = some c ∧ inputs.Of r ∧
      parseDay (toJson keys c inputs) = some (d, last) ∧ Produced keys (n + 1) pos (paidBefore + c.totalPaid) days

section RoundTrip

variable {keys : Keys} {n pos : Nat} {paidBefore : Int} {r : Rules} {ids : List Identity} {c d : DayResult}
  {inputs : Inputs} {last : Option Int}

/-- What is read back of a row: under a set without a floor, without the fields that it does not write. -/
def Row.readBack (r : Rules) (x : Row) : Row :=
  if paysJudgePresence r then x
  else { x with judgeActive := 0, probation := false, kitVersion := none, registrationNotDated := false }

theorem parseRow_toJson {rank : Nat} {x : Row} :
    parseRow (paysJudgePresence r) (x.toJson (paysJudgePresence r) rank) = some (x.readBack r) := by
  unfold parseRow Row.toJson Row.readBack
  cases paysJudgePresence r <;> simp

theorem parseDay_toJson (hk : publishesKitFields keys c.rulesFingerprint = paysJudgePresence r)
    (hi : inputs.Of r) (h : parseDay (toJson keys c inputs) = some (d, last)) :
    d = { c with rows := c.rows.map (Row.readBack r), kitMin := r.kit.map KitRules.kitMin } := by
  have hfloor : inputs.kitFloor.isSome = paysJudgePresence r := by
    rw [hi.1, Option.isSome_map]
    rfl
  have hrows : (toJson keys c inputs).ranking.mapM (parseRow (paysJudgePresence r)) =
      some (c.rows.map (Row.readBack r)) := by
    unfold toJson
    dsimp only
    rw [hk, mapM_eq_some, List.forall₂_map_left_iff, List.forall₂_map_right_iff]
    have : ∀ (rows : List Row) (k : Nat), List.Forall₂ (fun (e : Row × Nat) x =>
        parseRow (paysJudgePresence r) (e.1.toJson (paysJudgePresence r) (e.2 + 1)) = some (x.readBack r))
        (rows.zipIdx k) rows := by
      intro rows
      induction rows with
      | nil => exact fun _ => .nil
      | cons x rows ih => exact fun k => .cons parseRow_toJson (ih (k + 1))
    exact this c.rows 0
  unfold parseDay at h
  have hfloor' : (toJson keys c inputs).inputs.kitFloor.isSome = paysJudgePresence r := hfloor
  rw [hfloor', hrows] at h
  dsimp only at h
  split at h
  · next e he =>
    have hend : 0 < e ∧ e = (toJson keys c inputs).inputs.lastHeight := hi.2 e he
    rw [if_pos hend] at h
    rw [← (Prod.mk.inj (Option.some.inj h)).1]
    unfold toJson
    dsimp only
    rw [hi.1]
  · rw [← (Prod.mk.inj (Option.some.inj h)).1]
    unfold toJson
    dsimp only
    rw [hi.1]

/-- A computed row, read back, is right. -/
theorem rowOk_readBack {i : Identity} {y : Row} {scale : Int × Int} (h : rowOf i r = some y)
    (hc : 0 ≤ i.presence ∧ 0 ≤ i.verifiedRequests ∧ 0 ≤ i.verdicts) :
    RowOk r ((y.pay scale).readBack r) := by
  obtain ⟨rfl, hgross, ⟨ok, hok⟩, hpay, -⟩ := rowOf_spec h
  obtain ⟨hja, hfields⟩ := fields_of_grossOf hgross
  cases hk : r.kit with
  | some k =>
    have hkit : paysJudgePresence r = true := by unfold paysJudgePresence; rw [hk]; rfl
    have hback : (y.pay scale).readBack r = y.pay scale := if_pos hkit
    rw [hback]
    refine ⟨hc, hja, kitVersion_nonneg hok fun hno => ?_, fun hno => ?_, hgross, hpay⟩
    · rw [hk] at hno
      cases hno
    · rw [hk] at hno
      cases hno
  | none =>
    obtain ⟨h1, h2, h3⟩ := hfields hk
    have hback : (y.pay scale).readBack r = { y.pay scale with kitVersion := none } := by
      unfold Row.readBack
      rw [if_neg (paysJudgePresence_eq_false.2 hk)]
      have h1 : y.judgeActive = 0 := h1
      have h2 : y.probation = false := h2
      have h3 : y.registrationNotDated = false := h3
      simp only [Row.pay, h1, h2, h3]
    rw [hback]
    refine ⟨hc, hja, by rintro kv ⟨⟩, fun _ => ⟨h1, h2, rfl, h3⟩, hgross, ?_⟩
    -- without a floor the kit does not decide
    have hpay : y.payable = payableOf y.facts r y.gross := hpay
    unfold payableOf kitAllowsPay at hpay ⊢
    rw [hk] at hpay ⊢
    exact hpay

/-- A computed day, published and read back, is right. -/
theorem dayOk_produced (hk : publishesKitFields keys c.rulesFingerprint = paysJudgePresence r)
    (hc : ∀ i ∈ ids, 0 ≤ i.presence ∧ 0 ≤ i.verifiedRequests ∧ 0 ≤ i.verdicts)
    (hcomp : computeDay n ids paidBefore r = some c) (hi : inputs.Of r)
    (h : parseDay (toJson keys c inputs) = some (d, last)) : DayOk n paidBefore r d := by
  obtain rfl := parseDay_toJson hk hi h
  obtain ⟨hn, ys, hys, rfl⟩ := computeDay_eq_some.1 hcomp
  dsimp only at hk h ⊢
  rw [mapM_eq_some] at hys
  have hids : ys.map Row.minerId = ids.map Identity.minerId :=
    (map_eq_of_forall₂ hys fun i y hy => by rw [← (rowOf_spec hy).1]; rfl).symm
  generalize hscale : dayScale (dayBudget r paidBefore) (ys.map Row.payable).sum = scale
  have hperm : ((ys.map (Row.pay scale)).insertionSort rankedBefore).Perm (ys.map (Row.pay scale)) :=
    List.perm_insertionSort _ _
  have hread : ∀ {α : Type} (f : Row → α), (∀ x, f (x.readBack r) = f x) → ∀ l : List Row,
      (l.map (Row.readBack r)).map f = l.map f := by
    intro α f hf l
    rw [List.map_map]
    exact List.map_congr_left fun x _ => hf x
  have hfield : ∀ x : Row, (x.readBack r).minerId = x.minerId ∧ (x.readBack r).paid = x.paid ∧
      (x.readBack r).payable = x.payable ∧ (x.readBack r).gross = x.gross := by
    intro x
    unfold Row.readBack
    split <;> exact ⟨rfl, rfl, rfl, rfl⟩
  refine ⟨rfl, rfl, ?_, ?_, ?_, ?_, ?_, rfl, ?_, ?_⟩
  · dsimp only
    rw [hread _ fun x => (hfield x).1, ((hperm.map Row.minerId).nodup_iff), List.map_map]
    have : Row.minerId ∘ Row.pay scale = Row.minerId := rfl
    rw [this, hids]
    exact hn
  · intro x hx
    dsimp only at hx
    obtain ⟨z, hz, rfl⟩ := List.mem_map.1 hx
    obtain ⟨y, hy, rfl⟩ := List.mem_map.1 (hperm.mem_iff.1 hz)
    obtain ⟨j, hj, rfl⟩ := List.getElem_of_mem hy
    have hlen := hys.length_eq
    have hrow := (List.forall₂_iff_get.1 hys).2 j (by omega) hj
    exact rowOk_readBack hrow (hc _ (List.getElem_mem _))
  · dsimp only
    rw [hread _ fun x => (hfield x).2.1]
  · dsimp only
    rw [hread _ fun x => (hfield x).2.2.1, (hperm.map Row.payable).sum_eq, List.map_map]
    rfl
  · dsimp only
    rw [hread _ fun x => (hfield x).2.2.2]
  · exact hscale.symm
  · intro x hx
    dsimp only at hx ⊢
    obtain ⟨z, hz, rfl⟩ := List.mem_map.1 hx
    obtain ⟨y, hy, rfl⟩ := List.mem_map.1 (hperm.mem_iff.1 hz)
    rw [(hfield _).2.1, (hfield _).2.2.1]
    rfl

/-- A produced season is accepted. -/
theorem Produced.accepted (hfp : ((ruleHistory keys).map fingerprint).Nodup) {days : List DayResult}
    {prev : Nat} (h : Produced keys n prev paidBefore days) (hb : WithinCaps keys prev paidBefore) :
    SetsInOrder keys prev days ∧ checkFrom keys n prev paidBefore days = none := by
  induction days generalizing n prev paidBefore with
  | nil => exact ⟨trivial, rfl⟩
  | cons d days ih =>
    obtain ⟨pos, r, ids, c, inputs, last, hget, hprev, hc, hcomp, hi, hparse, hrest⟩ := h
    have hset := ruleSetOf_of_nodup hfp hget
    have hcfp : c.rulesFingerprint = fingerprint r := by
      obtain ⟨-, ys, -, rfl⟩ := computeDay_eq_some.1 hcomp
      rfl
    have hk : publishesKitFields keys c.rulesFingerprint = paysJudgePresence r := by
      unfold publishesKitFields
      rw [hcfp, hset]
    have hd := dayOk_produced hk hc hcomp hi hparse
    have hdc := parseDay_toJson hk hi hparse
    have hdset : ruleSetOf keys d.rulesFingerprint = some (pos, r) := by
      rw [hdc, ← hset, ← hcfp]
    have htotal : d.totalPaid = c.totalPaid := by rw [hdc]
    have hcap := hb pos r hget hprev
    obtain ⟨hsets, hdays⟩ := ih (htotal ▸ hrest) (hd.withinCaps hget hcap)
    exact ⟨⟨pos, r, hdset, hprev, hsets⟩, (checkFrom_cons hdset hprev hb).2 ⟨hd, hdays⟩⟩

end RoundTrip

/-! ## The check and the formula -/

/-- The check accepts a list of days, under published sets in order, if and only if it is well formed and as
computed day by day; an accepted list stays within the cap of each day and of the season; and what the
calculator produces, published and read back, is accepted. -/
theorem check_days_exact (keys : Keys) :
    (∀ days, SetsInOrder keys 0 days →
      (checkDays keys days = none ↔ AllComputed keys 0 0 days) ∧
        (checkDays keys days = none →
          (∀ d ∈ days, ∀ pos r, ruleSetOf keys d.rulesFingerprint = some (pos, r) →
              d.totalPaid ≤ r.capProgrammeDay) ∧
            ∀ d, days.getLast? = some d → ∀ pos r, ruleSetOf keys d.rulesFingerprint = some (pos, r) →
              (days.map DayResult.totalPaid).sum ≤ r.capSeason)) ∧
      (((ruleHistory keys).map fingerprint).Nodup → ∀ days, Produced keys 0 0 0 days →
        checkDays keys days = none) := by
  refine ⟨fun days hsets => ⟨checkFrom_none hsets withinCaps_zero, fun h => ?_⟩, fun hfp days h => ?_⟩
  · obtain ⟨hday, hall⟩ := caps_of_checkFrom hsets withinCaps_zero h
    refine ⟨hday, fun d hd pos r hset => ?_⟩
    have := hall d hd pos r hset
    rwa [zero_add] at this
  · exact (h.accepted hfp withinCaps_zero).2

/-- A floor and a jury set. -/
def someKeys : Keys := ⟨3, by omega, ⟨[⟨70, 75, List.replicate 64 '0'⟩], "dendra1payer".toList⟩⟩

/-- A first day with one row: three windows and two requests. -/
def firstDay : DayResult :=
  ⟨0, fingerprint rules17, 106000, 106000, 50000000, 106000, 1, 1,
    [⟨['m'], ['a'], 3, 2, 0, 106000, 106000, 106000, [], 0, false, none, false⟩], none⟩

theorem setsInOrder_of_rules17 {d : DayResult} (h : d.rulesFingerprint = fingerprint rules17) :
    SetsInOrder someKeys 0 [d] := by
  refine ⟨0, rules17, ?_, le_refl 0, trivial⟩
  rw [h]
  unfold ruleSetOf ruleHistory ruleSetFrom
  rw [if_pos rfl]

theorem check_days_exact_first : AllComputed someKeys 0 0 [firstDay] :=
  (((check_days_exact someKeys).1 [firstDay] (setsInOrder_of_rules17 rfl)).1).1 (by decide +kernel)

/-- A day whose one row has a presence of -1 and nothing else. -/
def negativeDay : DayResult :=
  ⟨0, fingerprint rules17, 0, 0, 50000000, 0, 1, 1,
    [⟨['m'], ['a'], -1, 0, 0, 0, 0, 0, [], 0, false, none, false⟩], none⟩

/-- The calculator gives that day on its own counts, and the check refuses it. -/
theorem negative_count_refused :
    SetsInOrder someKeys 0 [negativeDay] ∧ AsComputed 0 0 rules17 negativeDay ∧
      checkDays someKeys [negativeDay] = some ⟨0, .count ['m']⟩ := by
  refine ⟨setsInOrder_of_rules17 rfl, ⟨negativeDay, by decide +kernel, List.Perm.refl _, ?_⟩, by decide +kernel⟩
  exact ⟨rfl, rfl, rfl, rfl, rfl, rfl, rfl, rfl⟩

end Dendra.Season
