import Dendra.Gateway.Quota

/-!
# The counters of the free tier cover its jobs

While every job settles on the day of its reservation, the counters of that day are at least what its jobs used
and what its open ones may use. The exception is a crash before the settlement of a job that no escrow bounds is
on disk: no figure stands for that job, and the free tier is closed for the day instead.

* `Quota.Sound`: counters are not negative and what is open is positive.
* `Covers`: what a copy of the counters, in memory or as the next start would load it, says of the jobs of the day.
* `Inv`: both copies cover the jobs; `Inv.step`.
* `quota_accounted`: the result, with what a refused reservation leaves. `counters_short`: what fails otherwise.
-/

namespace Dendra.Gateway

/-! ## Dictionaries of tokens -/

section Tokens

variable {d : Ordered Str Int} {key k : Str} {n v : Int}

theorem tokens_set : tokens (d.set key v) k = if k = key then v else tokens d k := by
  unfold tokens
  rw [Ordered.get?_set]
  split
  · rfl
  · rfl

theorem tokens_addTokens : tokens (addTokens d key n) k = tokens d k + if k = key then n else 0 := by
  unfold addTokens
  rw [tokens_set]
  split
  · next h => rw [h]
  · omega

theorem tokens_takeTokens :
    tokens (takeTokens d key n) k = if k = key then max 0 (tokens d key - n) else tokens d k := by
  unfold takeTokens
  split
  · next hle =>
    unfold tokens at hle ⊢
    rw [Ordered.get?_pop]
    split
    · rw [Option.getD_none]
      omega
    · rfl
  · next hlt =>
    rw [tokens_set]
    split
    · omega
    · rfl

/-- All entries are positive. -/
def Positive (d : Ordered Str Int) : Prop := ∀ k v, d.get? k = some v → 0 < v

theorem positive_empty : Positive .empty := fun _ _ h => by cases h

theorem Positive.tokens_nonneg (h : Positive d) (k : Str) : 0 ≤ tokens d k := by
  unfold tokens
  cases hk : d.get? k with
  | none => exact le_refl 0
  | some v => exact (h k v hk).le

theorem Positive.set (h : Positive d) (hv : 0 < v) : Positive (d.set key v) := by
  intro k w hw
  rw [Ordered.get?_set] at hw
  split at hw
  · exact Option.some.inj hw ▸ hv
  · exact h k w hw

theorem Positive.addTokens (h : Positive d) (hn : 0 < n) : Positive (addTokens d key n) :=
  h.set (Int.add_pos_of_nonneg_of_pos (h.tokens_nonneg key) hn)

theorem Positive.takeTokens (h : Positive d) : Positive (takeTokens d key n) := by
  unfold Gateway.takeTokens
  split
  · intro k w hw
    rw [Ordered.get?_pop] at hw
    split at hw
    · cases hw
    · exact h k w hw
  · next hlt => exact h.set (by omega)

theorem Positive.openValid (h : Positive d) : openValid d = true := by
  unfold Gateway.openValid
  rw [List.all_eq_true]
  intro e he
  exact decide_eq_true (h e.1 e.2 (Ordered.get?_eq_some.2 he)).le

theorem tokens_chargeAll {cap : Int} (l : List (Str × Int)) (d : Ordered Str Int) (k : Str) :
    tokens (l.foldl (fun ip e => ip.set e.1 (max (tokens ip e.1) cap)) d) k =
      if ∃ e ∈ l, e.1 = k then max (tokens d k) cap else tokens d k := by
  induction l generalizing d with
  | nil => simp
  | cons e l ih =>
    rw [List.foldl_cons, ih, tokens_set]
    by_cases hk : k = e.1
    · subst hk
      rw [if_pos rfl, if_pos (⟨e, List.mem_cons_self, rfl⟩ : ∃ e' ∈ e :: l, e'.1 = e.1)]
      split
      · omega
      · rfl
    · have hiff : (∃ e' ∈ e :: l, e'.1 = k) ↔ ∃ e' ∈ l, e'.1 = k := by
        simp only [List.mem_cons, exists_eq_or_imp, Ne.symm hk, false_or]
      simp only [if_neg hk, hiff]

end Tokens

/-! ## The counters -/

theorem Scope.has_iff {k key : Str} : Scope.has (some k) key = true ↔ k = key :=
  decide_eq_true_iff.trans eq_comm

theorem Scope.cap_nonneg (conf : Config) (sc : Scope) : 0 ≤ sc.cap conf := by
  cases sc <;> exact Int.natCast_nonneg _

namespace Quota

variable {q : Quota} {sc : Scope} {key : Str} {n : Int} {conf : Config} {today : Nat}

/-- Counters are not negative and what is open is positive. -/
structure Sound (q : Quota) : Prop where
  glob : 0 ≤ q.glob
  ip : ∀ k, 0 ≤ tokens q.ip k
  opened : Positive q.opened

theorem Sound.count (h : q.Sound) (sc : Scope) : 0 ≤ q.count sc := by
  cases sc with
  | none => exact h.glob
  | some k => exact h.ip k

theorem sound_fresh (day : Option Nat) : (⟨day, 0, .empty, .empty⟩ : Quota).Sound :=
  ⟨le_refl 0, fun _ => le_refl 0, positive_empty⟩

theorem count_fresh (day : Option Nat) : (⟨day, 0, .empty, .empty⟩ : Quota).count sc = 0 := by
  cases sc <;> rfl

/-- A reservation raises the counters that its key is in. -/
theorem count_debit {ceiling : Bool} :
    (q.debit key n ceiling).count sc = q.count sc + if sc.has key then n else 0 := by
  cases sc with
  | none => rfl
  | some k =>
    change tokens (addTokens q.ip key n) k = tokens q.ip k + _
    rw [tokens_addTokens]
    by_cases h : k = key
    · rw [if_pos h, if_pos (Scope.has_iff.2 h)]
    · rw [if_neg h, if_neg fun hs => h (Scope.has_iff.1 hs)]

/-- A settlement moves them, down to 0 at the most. -/
theorem count_replace {real : Int} {ceiling : Bool} (h : q.Sound) (sc : Scope) :
    (q.replace key n real ceiling).count sc = max 0 (q.count sc + if sc.has key then real - n else 0) := by
  cases sc with
  | none => rfl
  | some k =>
    change tokens (q.ip.set key _) k = max 0 (tokens q.ip k + _)
    rw [tokens_set]
    by_cases hk : k = key
    · rw [if_pos hk, if_pos (Scope.has_iff.2 hk), hk]
    · have := h.ip k
      rw [if_neg hk, if_neg fun hs => hk (Scope.has_iff.1 hs)]
      omega

theorem chargeOpenAtCap_day : (chargeOpenAtCap conf today q).day = q.day := by
  unfold chargeOpenAtCap
  dsimp only
  split <;> rfl

theorem chargeOpenAtCap_opened : (chargeOpenAtCap conf today q).opened = .empty := by
  unfold chargeOpenAtCap
  dsimp only
  split <;> rfl

/-- A start lowers no counter. -/
theorem count_le_charge (sc : Scope) : q.count sc ≤ (chargeOpenAtCap conf today q).count sc := by
  unfold chargeOpenAtCap
  dsimp only
  split
  · cases sc with
    | none => exact le_max_left _ _
    | some k =>
      unfold count
      dsimp only
      rw [tokens_chargeAll]
      split
      · exact le_max_left _ _
      · exact le_refl _
  · cases sc <;> exact le_refl _

/-- Where a key has something open, a start charges the caps. -/
theorem cap_le_charge (hday : q.day = some today) (hopen : 0 < tokens q.opened key) (hsc : sc.has key = true) :
    sc.cap conf ≤ (chargeOpenAtCap conf today q).count sc := by
  obtain ⟨v, hv⟩ : ∃ v, q.opened.get? key = some v := by
    cases hget : q.opened.get? key with
    | none =>
      unfold tokens at hopen
      rw [hget] at hopen
      exact absurd hopen (lt_irrefl 0)
    | some v => exact ⟨v, rfl⟩
  have hpos : 0 < v := by
    unfold tokens at hopen
    rwa [hv] at hopen
  have hmem : (key, v) ∈ q.opened.items.filter fun e => decide (0 < e.2) :=
    List.mem_filter.2 ⟨Ordered.get?_eq_some.1 hv, decide_eq_true hpos⟩
  unfold chargeOpenAtCap
  dsimp only
  rw [if_pos ⟨List.ne_nil_of_mem hmem, hday⟩]
  cases sc with
  | none => exact le_max_right _ _
  | some k =>
    have hk : key = k := (Scope.has_iff.1 hsc).symm
    unfold count
    dsimp only
    rw [tokens_chargeAll, if_pos ⟨_, hmem, hk⟩]
    exact le_max_right _ _

theorem Sound.charge (h : q.Sound) : (chargeOpenAtCap conf today q).Sound where
  glob := (h.count none).trans (count_le_charge none)
  ip k := (h.count (some k)).trans (count_le_charge (some k))
  opened := by
    rw [chargeOpenAtCap_opened]
    exact positive_empty

theorem tokens_opened_debit {ceiling : Bool} {k : Str} :
    tokens (q.debit key n ceiling).opened k = tokens q.opened k + if ceiling = false ∧ k = key then n else 0 := by
  unfold debit
  dsimp only
  cases ceiling with
  | true => simp
  | false =>
    rw [if_neg Bool.false_ne_true, tokens_addTokens]
    simp

theorem Sound.debit {ceiling : Bool} (h : q.Sound) (hn : 0 < n) : (q.debit key n ceiling).Sound where
  glob := by
    have := h.glob
    unfold Quota.debit
    dsimp only
    omega
  ip k := by
    have := h.ip k
    unfold Quota.debit
    dsimp only
    rw [tokens_addTokens]
    split <;> omega
  opened := by
    unfold Quota.debit
    dsimp only
    split
    · exact h.opened
    · exact h.opened.addTokens hn

/-- A reservation that is taken back leaves what is read. -/
theorem count_credit {ceiling : Bool} (h : q.Sound) (sc : Scope) :
    ((q.debit key n ceiling).credit key n ceiling).count sc = q.count sc := by
  cases sc with
  | none => exact Int.add_sub_cancel _ _
  | some k =>
    change tokens (takeTokens (addTokens q.ip key n) key n) k = tokens q.ip k
    have := h.ip key
    rw [tokens_takeTokens, tokens_addTokens, tokens_addTokens, if_pos rfl]
    by_cases hk : k = key
    · rw [if_pos hk, hk]
      omega
    · rw [if_neg hk, if_neg hk]
      omega

theorem tokens_opened_credit {ceiling : Bool} {k : Str} (h : q.Sound) :
    tokens ((q.debit key n ceiling).credit key n ceiling).opened k = tokens q.opened k := by
  cases ceiling with
  | true => rfl
  | false =>
    change tokens (takeTokens (addTokens q.opened key n) key n) k = tokens q.opened k
    have := h.opened.tokens_nonneg key
    rw [tokens_takeTokens, tokens_addTokens, tokens_addTokens, if_pos rfl]
    by_cases hk : k = key
    · rw [if_pos hk, hk]
      omega
    · rw [if_neg hk, if_neg hk]
      omega

theorem Sound.credit {ceiling : Bool} (h : q.Sound) (hn : 0 < n) :
    ((q.debit key n ceiling).credit key n ceiling).Sound where
  glob := (h.count none).trans_eq (count_credit h none).symm
  ip k := (h.count (some k)).trans_eq (count_credit h (some k)).symm
  opened := by
    have hd : Positive (q.debit key n ceiling).opened := (h.debit hn).opened
    unfold Quota.credit
    dsimp only
    split
    · exact hd
    · exact hd.takeTokens

theorem tokens_opened_replace {real : Int} {ceiling : Bool} {k : Str} :
    tokens (q.replace key n real ceiling).opened k =
      if ceiling = false ∧ k = key ∧ q.opened.has key then max 0 (tokens q.opened k - n) else tokens q.opened k := by
  unfold replace
  dsimp only
  cases ceiling with
  | true => simp
  | false =>
    by_cases hhas : q.opened.has key = true
    · rw [if_pos (by simp [hhas]), tokens_takeTokens]
      by_cases hk : k = key
      · rw [if_pos hk, if_pos ⟨rfl, hk, hhas⟩, hk]
      · rw [if_neg hk, if_neg fun h => hk h.2.1]
    · simp [hhas]

theorem Sound.replace {real : Int} {ceiling : Bool} (h : q.Sound) : (q.replace key n real ceiling).Sound where
  glob := (le_max_left _ _).trans_eq (count_replace h none).symm
  ip k := (le_max_left _ _).trans_eq (count_replace h (some k)).symm
  opened := by
    unfold Quota.replace
    dsimp only
    split
    · exact h.opened.takeTokens
    · exact h.opened

end Quota

/-! ## The jobs of a day -/

section Jobs

variable {sc : Scope} {j : Job} {l l' : List Job} {settled : List (Job × Nat)} {i real : Nat} {k : Str}

theorem sum_eraseIdx (w : Job → Int) (h : l[i]? = some j) :
    w j + ((l.eraseIdx i).map w).sum = (l.map w).sum := by
  obtain ⟨hi, rfl⟩ := List.getElem?_eq_some_iff.1 h
  have := ((List.getElem_cons_eraseIdx_perm hi).map w).sum_eq
  rwa [List.map_cons, List.sum_cons] at this

/-- The estimate of a job, if it is in scope. -/
def Job.weight (sc : Scope) (j : Job) : Int := if sc.has j.key then (j.est : Int) else 0

theorem Job.weight_nonneg : 0 ≤ j.weight sc := by
  unfold Job.weight
  split <;> omega

theorem estimates_cons : estimates sc (j :: l) = j.weight sc + estimates sc l := List.sum_cons

theorem estimates_append : estimates sc (l ++ l') = estimates sc l + estimates sc l' := by
  unfold estimates
  rw [List.map_append, List.sum_append]

theorem estimates_eraseIdx (h : l[i]? = some j) : j.weight sc + estimates sc (l.eraseIdx i) = estimates sc l :=
  sum_eraseIdx (Job.weight sc) h

theorem consumption_cons : consumption sc ((j, real) :: settled) =
    (if sc.has j.key then j.consumed real else 0) + consumption sc settled := List.sum_cons

theorem Job.consumed_nonneg : 0 ≤ j.consumed real := by
  unfold Job.consumed
  split <;> omega

theorem Job.consumed_le (h : j.ceiling = true) : j.consumed real ≤ j.est := by
  unfold Job.consumed
  rw [if_pos h]
  exact min_le_right _ _

/-- The estimate of a job that no escrow bounds, if it is one of the key. -/
def Job.openWeight (k : Str) (j : Job) : Int := if j.ceiling = false ∧ k = j.key then (j.est : Int) else 0

/-- What stands open for a key. -/
def openOf (k : Str) (l : List Job) : Int := (l.map (Job.openWeight k)).sum

theorem openOf_cons : openOf k (j :: l) = j.openWeight k + openOf k l := List.sum_cons

theorem openOf_eraseIdx (h : l[i]? = some j) : j.openWeight k + openOf k (l.eraseIdx i) = openOf k l :=
  sum_eraseIdx (Job.openWeight k) h

theorem Job.openWeight_nonneg : 0 ≤ j.openWeight k := by
  unfold Job.openWeight
  split <;> omega

theorem openOf_nonneg (k : Str) (l : List Job) : 0 ≤ openOf k l := by
  refine List.sum_nonneg fun x hx => ?_
  obtain ⟨j, -, rfl⟩ := List.mem_map.1 hx
  exact j.openWeight_nonneg

/-- An open job that no escrow bounds is part of what its key has open. -/
theorem est_le_openOf (h : l[i]? = some j) (hc : j.ceiling = false) : (j.est : Int) ≤ openOf j.key l := by
  have hw : j.openWeight j.key = j.est := if_pos ⟨hc, rfl⟩
  have := openOf_eraseIdx (k := j.key) h
  have := openOf_nonneg j.key (l.eraseIdx i)
  omega

end Jobs

/-! ## The invariant -/

namespace Gate

/-- Nothing has been admitted today. -/
structure Idle (g : Gate) : Prop where
  live : g.live = []
  lost : g.lost = []
  settled : g.settled = []
  unsaved : g.unsaved = []
  forgotten : g.forgotten = []

theorem Idle.used {g : Gate} (h : g.Idle) (sc : Scope) : g.used sc = 0 := by
  unfold Gate.used
  rw [h.live, h.lost, h.settled]
  rfl

/-- A copy of the counters covers the jobs of the day, or is at the caps where the settlement of a job of
`gone` is not in it. -/
structure Covers (conf : Config) (g : Gate) (gone : List Job) (q : Quota) : Prop where
  covers : ∀ sc : Scope, (∀ j ∈ gone, sc.has j.key = false) → g.used sc ≤ q.count sc
  closed : ∀ sc : Scope, ∀ j ∈ gone, sc.has j.key = true → sc.cap conf ≤ q.count sc

variable {conf : Config} {g : Gate} {q q' : Quota} {gone : List Job}

theorem Covers.mono (h : Covers conf g gone q) (hq : ∀ sc, q.count sc ≤ q'.count sc) : Covers conf g gone q' where
  covers sc hs := (h.covers sc hs).trans (hq sc)
  closed sc j hj hs := (h.closed sc j hj hs).trans (hq sc)

theorem Idle.covers (h : g.Idle) (hq : q.Sound) : Covers conf g [] q where
  covers sc _ := (h.used sc).trans_le (hq.count sc)
  closed _ _ hj := absurd hj List.not_mem_nil

/-- Memory, and the file as a start would load it, cover the jobs of the day. -/
structure Inv (conf : Config) (g : Gate) : Prop where
  mem : g.store.mem.Sound
  memDay : ∀ d, g.store.mem.day = some d → d ≤ g.today
  memIdle : g.store.mem.day ≠ some g.today → g.Idle
  memCovers : g.store.mem.day = some g.today → Covers conf g g.forgotten g.store.mem
  memOpen : ∀ k, openOf k g.live ≤ tokens g.store.mem.opened k
  file : ∀ f, g.store.file = some f → f.Sound
  fileDay : ∀ f, g.store.file = some f → ∀ d, f.day = some d → d ≤ g.today
  fileIdle : (∀ f, g.store.file = some f → f.day ≠ some g.today) → g.Idle
  fileCovers : ∀ f, g.store.file = some f → f.day = some g.today →
    Covers conf g (g.unsaved ++ g.forgotten) (chargeOpenAtCap conf g.today f)
  fileOpen : ∀ f, g.store.file = some f → f.day = some g.today →
    ∀ j ∈ g.live, j.ceiling = false → 0 < tokens f.opened j.key
  shut : g.forgotten ≠ [] → g.live = []

/-- On a day without jobs little is to be shown. -/
theorem Idle.inv (h : g.Idle) (mem : g.store.mem.Sound) (memDay : ∀ d, g.store.mem.day = some d → d ≤ g.today)
    (file : ∀ f, g.store.file = some f → f.Sound)
    (fileDay : ∀ f, g.store.file = some f → ∀ d, f.day = some d → d ≤ g.today) : Inv conf g where
  mem := mem
  memDay := memDay
  memIdle _ := h
  memCovers _ := by
    rw [h.forgotten]
    exact h.covers mem
  memOpen k := by
    rw [h.live]
    exact mem.opened.tokens_nonneg k
  file := file
  fileDay := fileDay
  fileIdle _ := h
  fileCovers f hf _ := by
    rw [h.unsaved, h.forgotten]
    exact h.covers (file f hf).charge
  fileOpen _ _ _ j hj := by
    rw [h.live] at hj
    cases hj
  shut _ := h.live

/-! ## One operation -/

section Operations

variable {j : Job} {i real : Nat}

/-- The day's reset. -/
theorem Inv.roll (h : Inv conf g) (written : Bool) :
    Inv conf { g with store := roll g.today written g.store } ∧
      (Gateway.roll g.today written g.store).mem.day = some g.today := by
  unfold Gateway.roll
  split
  · next hday =>
    have hidle := h.memIdle hday
    have hle : ∀ d, some g.today = some d → d ≤ g.today := fun d hd => (Option.some.inj hd).ge
    cases written with
    | true =>
      refine ⟨Idle.inv ⟨hidle.1, hidle.2, hidle.3, hidle.4, hidle.5⟩ (Quota.sound_fresh _) hle ?_ ?_, rfl⟩
      · intro f hf
        obtain rfl := Option.some.inj hf
        exact Quota.sound_fresh _
      · intro f hf
        obtain rfl := Option.some.inj hf
        exact hle
    | false => exact ⟨Idle.inv ⟨hidle.1, hidle.2, hidle.3, hidle.4, hidle.5⟩ (Quota.sound_fresh _) hle h.file h.fileDay, rfl⟩
  · next hday => exact ⟨h, not_not.1 hday⟩

/-- Once the tier is closed by a crash it admits nothing. -/
theorem Inv.forgotten_of_room (h : Inv conf g) (j : Job) (hday : g.store.mem.day = some g.today)
    (hroom : g.store.mem.glob + j.est ≤ conf.freeTokDay) : g.forgotten = [] := by
  by_contra hne
  obtain ⟨j', hj'⟩ := List.exists_mem_of_ne_nil _ hne
  have hclosed : (conf.freeTokDay : Int) ≤ g.store.mem.glob := (h.memCovers hday).closed none j' hj' rfl
  have := j.pos
  omega

/-- An admitted job. -/
theorem Inv.reserved (h : Inv conf g) (j : Job) (hday : g.store.mem.day = some g.today)
    (hroom : g.store.mem.glob + j.est ≤ conf.freeTokDay) :
    Inv conf { g with
      store := ⟨g.store.mem.debit j.key j.est j.ceiling, some (g.store.mem.debit j.key j.est j.ceiling)⟩
      live := j :: g.live
      unsaved := [] } := by
  have hforgotten := h.forgotten_of_room j hday hroom
  have hpos : (0 : Int) < j.est := Int.natCast_pos.2 j.pos
  have hsound : (g.store.mem.debit j.key j.est j.ceiling).Sound := h.mem.debit hpos
  have hdays : ∀ d, (g.store.mem.debit j.key j.est j.ceiling).day = some d → d ≤ g.today := h.memDay
  have hopen : ∀ k, openOf k (j :: g.live) ≤ tokens (g.store.mem.debit j.key j.est j.ceiling).opened k := by
    intro k
    have := h.memOpen k
    rw [openOf_cons, Quota.tokens_opened_debit, Job.openWeight]
    omega
  have hcovers : Covers conf { g with
      store := ⟨g.store.mem.debit j.key j.est j.ceiling, some (g.store.mem.debit j.key j.est j.ceiling)⟩
      live := j :: g.live
      unsaved := [] } g.forgotten (g.store.mem.debit j.key j.est j.ceiling) := by
    have hnone : ∀ j', j' ∉ g.forgotten := fun j' => hforgotten ▸ List.not_mem_nil
    refine ⟨fun sc _ => ?_, fun _ j' hj' => absurd hj' (hnone j')⟩
    have hold := (h.memCovers hday).covers sc fun j' hj' => absurd hj' (hnone j')
    unfold used at hold ⊢
    dsimp only
    rw [estimates_cons, Quota.count_debit, Job.weight]
    omega
  refine ⟨hsound, hdays, fun hne => absurd hday hne, fun _ => hcovers, hopen, ?_, ?_, ?_, ?_, ?_, fun hne => absurd hforgotten hne⟩
  · intro f hf
    exact Option.some.inj hf ▸ hsound
  · intro f hf
    exact Option.some.inj hf ▸ hdays
  · exact fun hno => absurd hday (hno (g.store.mem.debit j.key j.est j.ceiling) rfl)
  · intro f hf _
    obtain rfl := Option.some.inj hf
    exact hcovers.mono fun sc => Quota.count_le_charge sc
  · intro f hf _ j' hj' hc
    obtain rfl := Option.some.inj hf
    obtain ⟨i, hi⟩ := List.mem_iff_getElem?.1 hj'
    exact (Int.natCast_pos.2 j'.pos).trans_le ((est_le_openOf hi hc).trans (hopen j'.key))

/-- What a reservation that was not refused adds to stays under the caps. -/
theorem Inv.within_reserved (h : Inv conf g) (j : Job) (hday : g.store.mem.day = some g.today)
    (hroom : g.store.mem.glob + j.est ≤ conf.freeTokDay) (hkey : tokens g.store.mem.ip j.key + j.est ≤ conf.freeTokIp)
    (hold : ∀ sc : Scope, g.used sc ≤ sc.cap conf) (sc : Scope) : j.weight sc + g.used sc ≤ sc.cap conf := by
  have hforgotten := h.forgotten_of_room j hday hroom
  have hcovers := (h.memCovers hday).covers sc fun j' hj' => by
    rw [hforgotten] at hj'
    cases hj'
  have hsc := hold sc
  unfold Job.weight
  split
  · next hs =>
    have hroom' : g.store.mem.count sc + j.est ≤ sc.cap conf := by
      cases sc with
      | none => exact hroom
      | some k =>
        obtain rfl := Scope.has_iff.1 hs
        exact hkey
    omega
  · omega

/-- A reservation that could not be saved. -/
theorem Inv.refused (h : Inv conf g) (j : Job) :
    Inv conf { g with
      store := { g.store with
        mem := (g.store.mem.debit j.key j.est j.ceiling).credit j.key j.est j.ceiling } } where
  mem := h.mem.credit (Int.natCast_pos.2 j.pos)
  memDay := h.memDay
  memIdle hne :=
    have hidle := h.memIdle hne
    ⟨hidle.1, hidle.2, hidle.3, hidle.4, hidle.5⟩
  memCovers hday :=
    have hc := (h.memCovers hday).mono fun sc => (Quota.count_credit h.mem sc).ge
    ⟨hc.covers, hc.closed⟩
  memOpen k := (h.memOpen k).trans_eq (Quota.tokens_opened_credit h.mem).symm
  file := h.file
  fileDay := h.fileDay
  fileIdle hno :=
    have hidle := h.fileIdle hno
    ⟨hidle.1, hidle.2, hidle.3, hidle.4, hidle.5⟩
  fileCovers f hf hd :=
    have hc := h.fileCovers f hf hd
    ⟨hc.covers, hc.closed⟩
  fileOpen := h.fileOpen
  shut := h.shut

/-- What a settlement does to the use of the day. -/
theorem used_settled (hj : g.live[i]? = some j) (store : Store) (unsaved : List Job) (sc : Scope) :
    Gate.used { g with
      store := store
      live := g.live.eraseIdx i
      settled := (j, real) :: g.settled
      unsaved := unsaved } sc = g.used sc + if sc.has j.key then j.consumed real - j.est else 0 := by
  have hrest : j.weight sc + estimates sc (g.live.eraseIdx i) = estimates sc g.live := estimates_eraseIdx hj
  unfold used
  dsimp only
  rw [consumption_cons]
  unfold Job.weight at hrest
  split
  · next hs =>
    rw [if_pos hs] at hrest
    omega
  · next hs =>
    rw [if_neg hs] at hrest
    omega

theorem openOf_settled (h : Inv conf g) (hj : g.live[i]? = some j) (n : Int) (k : Str) :
    openOf k (g.live.eraseIdx i) ≤ tokens (g.store.mem.replace j.key j.est n j.ceiling).opened k := by
  have hopen := h.memOpen k
  have hrest := openOf_eraseIdx (k := k) hj
  have hnonneg := openOf_nonneg k (g.live.eraseIdx i)
  have hpos := j.pos
  rw [Quota.tokens_opened_replace]
  by_cases hk : j.ceiling = false ∧ k = j.key
  · rw [Job.openWeight, if_pos hk] at hrest
    have hhas : g.store.mem.opened.has j.key = true := by
      by_contra hno
      rw [Ordered.has_eq_isSome, Option.not_isSome_iff_eq_none] at hno
      have hzero : tokens g.store.mem.opened k = 0 := by
        unfold tokens
        rw [hk.2, hno]
        rfl
      omega
    rw [if_pos ⟨hk.1, hk.2, hhas⟩]
    omega
  · rw [Job.openWeight, if_neg hk] at hrest
    rw [if_neg fun h => hk ⟨h.1, h.2.1⟩]
    omega

/-- A job of the day that is settled. -/
theorem Inv.settled (h : Inv conf g) (hday : g.store.mem.day = some g.today) (hj : g.live[i]? = some j) (real : Nat)
    (saved : Bool) :
    Inv conf { g with
      store := (save saved { g.store with
        mem := g.store.mem.replace j.key j.est (j.consumed real) j.ceiling }).2
      live := g.live.eraseIdx i
      settled := (j, real) :: g.settled
      unsaved := if saved then [] else if j.ceiling then g.unsaved else j :: g.unsaved } := by
  have hjmem : j ∈ g.live := List.mem_of_getElem? hj
  have hlive : g.live ≠ [] := List.ne_nil_of_mem hjmem
  have hforgotten : g.forgotten = [] := by
    by_contra hne
    exact hlive (h.shut hne)
  have hnone : ∀ j', j' ∉ g.forgotten := fun j' => hforgotten ▸ List.not_mem_nil
  have hsound : (g.store.mem.replace j.key j.est (j.consumed real) j.ceiling).Sound := h.mem.replace
  have hcovers : ∀ store unsaved, Covers conf { g with
      store := store
      live := g.live.eraseIdx i
      settled := (j, real) :: g.settled
      unsaved := unsaved } g.forgotten (g.store.mem.replace j.key j.est (j.consumed real) j.ceiling) := by
    intro store unsaved
    refine ⟨fun sc _ => ?_, fun _ j' hj' => absurd hj' (hnone j')⟩
    have hold := (h.memCovers hday).covers sc fun j' hj' => absurd hj' (hnone j')
    rw [used_settled hj, Quota.count_replace h.mem]
    omega
  cases saved with
  | true =>
    refine ⟨hsound, h.memDay, fun hne => absurd hday hne, fun _ => hcovers _ _, openOf_settled h hj _, ?_, ?_, ?_, ?_, ?_,
      fun hne => absurd hforgotten hne⟩
    · intro f hf
      exact Option.some.inj hf ▸ hsound
    · intro f hf
      exact Option.some.inj hf ▸ h.memDay
    · exact fun hno => absurd hday (hno (g.store.mem.replace j.key j.est (j.consumed real) j.ceiling) rfl)
    · intro f hf _
      obtain rfl := Option.some.inj hf
      exact (hcovers _ _).mono fun sc => Quota.count_le_charge sc
    · intro f hf _ j' hj' hc
      obtain rfl := Option.some.inj hf
      obtain ⟨i', hi'⟩ := List.mem_iff_getElem?.1 hj'
      exact (Int.natCast_pos.2 j'.pos).trans_le ((est_le_openOf hi' hc).trans (openOf_settled h hj _ _))
  | false =>
    refine ⟨hsound, h.memDay, fun hne => absurd hday hne, fun _ => hcovers _ _, openOf_settled h hj _, h.file,
      h.fileDay, fun hno => absurd (h.fileIdle hno).live hlive, ?_, ?_, fun hne => absurd hforgotten hne⟩
    · intro f hf hd
      have hold := h.fileCovers f hf hd
      refine ⟨fun sc hs => ?_, fun sc j' hj' hs => ?_⟩
      · rw [used_settled hj]
        have hs' : ∀ j' ∈ g.unsaved ++ g.forgotten, sc.has j'.key = false := by
          intro j' hj'
          refine hs j' ?_
          cases hc : j.ceiling with
          | true => exact hj'
          | false => exact List.mem_cons_of_mem _ hj'
        have hle : g.used sc ≤ (chargeOpenAtCap conf g.today f).count sc := hold.covers sc hs'
        dsimp only
        cases hc : j.ceiling with
        | true =>
          have : j.consumed real ≤ j.est := j.consumed_le hc
          split <;> omega
        | false =>
          have hout : sc.has j.key = false := hs j (by simp [hc])
          rw [if_neg (Bool.eq_false_iff.1 hout)]
          omega
      · by_cases hold' : j' ∈ g.unsaved ++ g.forgotten
        · exact hold.closed sc j' hold' hs
        · have hnew : j' = j ∧ j.ceiling = false := by
            cases hc : j.ceiling with
            | true =>
              simp only [hc] at hj'
              exact absurd hj' hold'
            | false =>
              simp only [hc] at hj'
              exact ⟨(List.mem_cons.1 hj').resolve_right hold', rfl⟩
          rw [hnew.1] at hs
          exact Quota.cap_le_charge hd (h.fileOpen f hf hd j hjmem hnew.2) hs
    · intro f hf hd j' hj' hc
      exact h.fileOpen f hf hd j' (List.mem_of_mem_eraseIdx hj') hc

/-- A crash, and what the next start loads. -/
theorem Inv.crash (h : Inv conf g) :
    Inv conf { g with
      store := { g.store with mem := load conf g.today g.store.file }
      live := []
      older := []
      lost := g.live ++ g.lost
      unsaved := []
      forgotten := g.unsaved ++ g.forgotten } := by
  have hidle : g.Idle → Idle { g with
      store := { g.store with mem := load conf g.today g.store.file }
      live := []
      older := []
      lost := g.live ++ g.lost
      unsaved := []
      forgotten := g.unsaved ++ g.forgotten } := by
    intro hi
    refine ⟨rfl, ?_, hi.settled, rfl, ?_⟩
    · dsimp only
      rw [hi.live, hi.lost, List.nil_append]
    · dsimp only
      rw [hi.unsaved, hi.forgotten, List.nil_append]
  cases hf : g.store.file with
  | none =>
    rw [hf] at hidle
    have hnone : ∀ f, g.store.file = some f → f.day ≠ some g.today := fun f hf' => by
      rw [hf] at hf'
      cases hf'
    exact (hidle (h.fileIdle hnone)).inv (Quota.sound_fresh none) (fun _ hd => by cases hd) h.file h.fileDay
  | some f =>
    have hsound := h.file f hf
    have hload : load conf g.today (some f) = chargeOpenAtCap conf g.today f := if_pos hsound.opened.openValid
    have hle : ∀ d, (chargeOpenAtCap conf g.today f).day = some d → d ≤ g.today := by
      rw [Quota.chargeOpenAtCap_day]
      exact h.fileDay f hf
    rw [hf, hload] at hidle
    rw [hload]
    by_cases hday : f.day = some g.today
    · have hold := h.fileCovers f hf hday
      have hused : ∀ sc, estimates sc [] + estimates sc (g.live ++ g.lost) + consumption sc g.settled = g.used sc := by
        intro sc
        unfold used
        rw [estimates_append]
        exact congrArg (· + _) (zero_add _)
      refine ⟨hsound.charge, hle, ?_, fun _ => ?_, ?_, h.file, h.fileDay, ?_, ?_, ?_, fun _ => rfl⟩
      · exact fun hne => absurd (Quota.chargeOpenAtCap_day.trans hday) hne
      · exact ⟨fun sc hs => (hused sc).trans_le (hold.covers sc hs), hold.closed⟩
      · exact fun k => hsound.charge.opened.tokens_nonneg k
      · exact fun hno => absurd hday (hno f hf)
      · intro f' hf' hd'
        obtain rfl := Option.some.inj (hf.symm.trans hf')
        exact ⟨fun sc hs => (hused sc).trans_le (hold.covers sc hs), hold.closed⟩
      · intro _ _ _ _ hj
        cases hj
    · refine (hidle (h.fileIdle fun f' hf' => ?_)).inv hsound.charge hle h.file h.fileDay
      exact Option.some.inj (hf.symm.trans hf') ▸ hday

/-- Midnight. -/
theorem Inv.newDay (h : Inv conf g) {day : Nat} (hlt : g.today < day) :
    Inv conf ⟨g.store, day, [], g.live ++ g.older, [], [], [], []⟩ :=
  Idle.inv ⟨rfl, rfl, rfl, rfl, rfl⟩ h.mem (fun d hd => (h.memDay d hd).trans hlt.le) h.file
    fun f hf d hd => (h.fileDay f hf d hd).trans hlt.le

end Operations

/-! ## Runs -/

section Runs

variable {g' : Gate} {a : Event}

/-- What `quota_reserve` does, after the day's reset. -/
theorem reserve_cases (conf : Config) (today : Nat) (rolled saved : Bool) (key : Str) (est : Int) (ceiling : Bool)
    {s s₁ : Store} (hs : Gateway.roll today rolled s = s₁) :
    (reserve conf today rolled saved key est ceiling s = (.globalReached, s₁) ∨
      reserve conf today rolled saved key est ceiling s = (.keyReached, s₁)) ∨
    s₁.mem.glob + est ≤ conf.freeTokDay ∧ tokens s₁.mem.ip key + est ≤ conf.freeTokIp ∧
      reserve conf today rolled saved key est ceiling s =
        if saved then (.ok, ⟨s₁.mem.debit key est ceiling, some (s₁.mem.debit key est ceiling)⟩)
        else (.unsaved, { s₁ with mem := (s₁.mem.debit key est ceiling).credit key est ceiling }) := by
  unfold reserve
  rw [hs]
  dsimp only
  split
  · exact .inl (.inl rfl)
  · split
    · exact .inl (.inr rfl)
    · refine .inr ⟨by omega, by omega, ?_⟩
      cases saved <;> rfl

/-- No step settles a job of an earlier day. -/
def SameDay (_ : Gate) (a : Event) : Prop := ∀ i real rolled saved, a ≠ .settleLate i real rolled saved

theorem Inv.step (h : Inv conf g) (hok : SameDay g a) (hs : g.step conf a = some g') : Inv conf g' := by
  cases a with
  | reserve key prompt ceiling rolled saved =>
    have hroll := h.roll rolled
    simp only [Gate.step] at hs
    obtain (hr | hr) | ⟨hroom, -, hr⟩ := reserve_cases conf g.today rolled saved key (estimate conf prompt) ceiling rfl
    · rw [hr] at hs
      exact Option.some.inj hs ▸ hroll.1
    · rw [hr] at hs
      exact Option.some.inj hs ▸ hroll.1
    · rw [hr] at hs
      cases saved with
      | true =>
        exact Option.some.inj hs ▸
          hroll.1.reserved ⟨key, estimate conf prompt, ceiling, estimate_pos conf prompt⟩ hroll.2 hroom
      | false =>
        exact Option.some.inj hs ▸
          hroll.1.refused ⟨key, estimate conf prompt, ceiling, estimate_pos conf prompt⟩
  | settle i real rolled saved =>
    obtain ⟨j, hj, rfl⟩ := Option.map_eq_some_iff.1 hs
    have hroll := h.roll rolled
    exact hroll.1.settled hroll.2 hj real saved
  | settleLate i real rolled saved => exact absurd rfl (hok i real rolled saved)
  | newDay day =>
    simp only [Gate.step] at hs
    split at hs
    · next hlt => exact Option.some.inj hs ▸ h.newDay hlt
    · cases hs
  | crash => exact Option.some.inj hs ▸ h.crash

theorem Inv.start (h : Init g) : Inv conf g := by
  obtain ⟨today, rfl⟩ := h
  exact Idle.inv ⟨rfl, rfl, rfl, rfl, rfl⟩ (Quota.sound_fresh none) (fun _ hd => by cases hd) (fun _ hf => by cases hf)
    fun _ hf => by cases hf

/-- The jobs of the day. -/
def jobs (g : Gate) : List Job := g.live ++ g.lost ++ g.settled.map Prod.fst

theorem mem_jobs_of_live {j : Job} (h : j ∈ g.live) : j ∈ g.jobs :=
  List.mem_append_left _ (List.mem_append_left _ h)

/-- A settlement takes no job off the day. -/
theorem mem_jobs_settled {i real : Nat} {j j' : Job} (hj : g.live[i]? = some j) {rolled saved : Bool} (h : j' ∈ g.jobs) :
    j' ∈ Gate.jobs { g.afterSettle j real rolled saved with live := g.live.eraseIdx i } := by
  unfold jobs at h ⊢
  unfold afterSettle
  dsimp only
  rw [List.map_cons]
  rw [List.append_assoc, List.mem_append, List.mem_append] at h ⊢
  obtain hlive | hlost | hset := h
  · obtain ⟨hi, rfl⟩ := List.getElem?_eq_some_iff.1 hj
    have := (List.getElem_cons_eraseIdx_perm hi).mem_iff.2 hlive
    obtain rfl | hrest := List.mem_cons.1 this
    · exact .inr (.inr List.mem_cons_self)
    · exact .inl hrest
  · exact .inr (.inl hlost)
  · exact .inr (.inr (List.mem_cons_of_mem _ hset))

/-- When every estimate of the day is a ceiling, no more is admitted than the caps allow. -/
def Within (conf : Config) (g : Gate) : Prop :=
  (∀ j ∈ g.jobs, j.ceiling = true) → ∀ sc : Scope, g.used sc ≤ sc.cap conf

theorem Within.start (h : Init g) : Within conf g := by
  obtain ⟨today, rfl⟩ := h
  exact fun _ sc => Scope.cap_nonneg conf sc

theorem Within.step (h : Within conf g) (hinv : Inv conf g) (hok : SameDay g a) (hs : g.step conf a = some g') :
    Within conf g' := by
  cases a with
  | reserve key prompt ceiling rolled saved =>
    have hroll := hinv.roll rolled
    simp only [Gate.step] at hs
    obtain (hr | hr) | ⟨hroom, hkey, hr⟩ := reserve_cases conf g.today rolled saved key (estimate conf prompt) ceiling rfl
    · rw [hr] at hs
      exact Option.some.inj hs ▸ h
    · rw [hr] at hs
      exact Option.some.inj hs ▸ h
    · rw [hr] at hs
      cases saved with
      | true =>
        obtain rfl := Option.some.inj hs
        intro hall sc
        have hold := h fun j hj => hall j (List.mem_cons_of_mem _ hj)
        have := hroll.1.within_reserved ⟨key, estimate conf prompt, ceiling, estimate_pos conf prompt⟩ hroll.2 hroom hkey
          hold sc
        unfold used at this ⊢
        dsimp only at this ⊢
        rw [estimates_cons]
        omega
      | false => exact Option.some.inj hs ▸ h
  | settle i real rolled saved =>
    obtain ⟨j, hj, rfl⟩ := Option.map_eq_some_iff.1 hs
    intro hall sc
    have hjobs : ∀ j' ∈ g.jobs, j'.ceiling = true := fun j' hj' => hall j' (mem_jobs_settled hj hj')
    have hle : j.consumed real ≤ j.est := j.consumed_le (hjobs j (mem_jobs_of_live (List.mem_of_getElem? hj)))
    refine le_trans (le_of_eq (used_settled hj _ _ sc)) ?_
    have := h hjobs sc
    split <;> omega
  | settleLate i real rolled saved => exact absurd rfl (hok i real rolled saved)
  | newDay day =>
    simp only [Gate.step] at hs
    split at hs
    · obtain rfl := Option.some.inj hs
      exact fun _ sc => Scope.cap_nonneg conf sc
    · cases hs
  | crash =>
    obtain rfl := Option.some.inj hs
    intro hall sc
    have hold := h (fun j hj => hall j hj) sc
    unfold used at hold ⊢
    dsimp only
    rw [estimates_append]
    exact (congrArg (· + _) (zero_add _)).trans_le hold

end Runs

end Gate

/-! ## The result -/

/-- The two agree in what is read, and in the file. -/
structure ReadsAs (s s' : Store) : Prop where
  file : s'.file = s.file
  day : s'.mem.day = s.mem.day
  count : ∀ sc : Scope, s'.mem.count sc = s.mem.count sc
  opened : ∀ k, tokens s'.mem.opened k = tokens s.mem.opened k

/-- What holds of the gateway on the current day. -/
structure Accounted (conf : Config) (g : Gate) : Prop where
  covers : ∀ sc : Scope, (∀ j ∈ g.forgotten, sc.has j.key = false) → g.used sc ≤ g.count sc
  closed : ∀ sc : Scope, ∀ j ∈ g.forgotten, sc.has j.key = true → sc.cap conf ≤ g.count sc
  within : (∀ j ∈ g.jobs, j.ceiling = true) → ∀ sc : Scope, g.used sc ≤ sc.cap conf
  refused : ∀ rolled saved key prompt ceiling,
    (reserve conf g.today rolled saved key (estimate conf prompt) ceiling g.store).1 ≠ .ok →
    ReadsAs (roll g.today rolled g.store)
      (reserve conf g.today rolled saved key (estimate conf prompt) ceiling g.store).2

/-- While each job settles on the day of its reservation, the counters of the day cover its jobs; where a crash
lost the settlement of a job that no escrow bounds, the free tier is closed until the next day. With estimates
that are ceilings the caps are kept. A refused reservation leaves what the day's reset left. -/
theorem quota_accounted (conf : Config) {g : Gate}
    (h : Reach Gate.Init (fun g a g' => g.step conf a = some g') Gate.SameDay g) : Accounted conf g := by
  have hboth := h.invariant (P := fun g => Gate.Inv conf g ∧ Gate.Within conf g)
    (fun _ hg => ⟨.start hg, .start hg⟩) fun _ _ _ _ hi hok hs => ⟨hi.1.step hok hs, hi.2.step hi.1 hok hs⟩
  obtain ⟨hinv, hwithin⟩ := hboth
  refine ⟨fun sc hsc => ?_, fun sc j hj hsc => ?_, hwithin, fun rolled saved key prompt ceiling hno => ?_⟩
  · unfold Gate.count
    split
    · next hday => exact (hinv.memCovers hday).covers sc hsc
    · next hday => exact ((hinv.memIdle hday).used sc).le
  · unfold Gate.count
    split
    · next hday => exact (hinv.memCovers hday).closed sc j hj hsc
    · next hday =>
      rw [(hinv.memIdle hday).forgotten] at hj
      cases hj
  · have hroll := (hinv.roll rolled).1
    obtain (hr | hr) | ⟨-, -, hr⟩ :=
      Gate.reserve_cases conf g.today rolled saved key (estimate conf prompt) ceiling rfl
    · rw [hr]
      exact ⟨rfl, rfl, fun _ => rfl, fun _ => rfl⟩
    · rw [hr]
      exact ⟨rfl, rfl, fun _ => rfl, fun _ => rfl⟩
    · cases saved with
      | true =>
        rw [hr] at hno
        exact absurd rfl hno
      | false =>
        rw [hr]
        exact ⟨rfl, rfl, Quota.count_credit hroll.mem, fun _ => Quota.tokens_opened_credit hroll.mem⟩

/-- A gateway on its first day. -/
def firstDay : Gate := ⟨⟨⟨none, 0, .empty, .empty⟩, none⟩, 0, [], [], [], [], [], []⟩

/-- Ten tokens a day, five for each key, and two for each empty prompt. -/
def tenADay : Config := ⟨10, 5, 1⟩

/-- A job that is admitted and settled at one token, and a second one that is admitted. -/
theorem quota_accounted_first : ∃ g : Gate, g.used none = 3 ∧ Accounted tenADay g := by
  obtain ⟨g, hg, hused⟩ := (Option.any_eq_true _ _).1 (by decide : Option.any (fun g : Gate => g.used none = 3)
    ([Event.reserve ['k'] [] true true true, .settle 0 1 true true, .reserve ['k'] [] true true true].foldlM
      (Gate.step tenADay) firstDay) = true)
  refine ⟨_, of_decide_eq_true hused, quota_accounted tenADay (.foldlM (.init ⟨0, rfl⟩) ?_ hg)⟩
  intro a ha g i real rolled saved heq
  subst heq
  simp at ha

/-- The estimate of a job of the day before is taken off the counters of today, where another job stands. And
after a crash that loses the settlement of a job that no escrow bounds, the counters are the caps, not its use. -/
theorem counters_short :
    (∃ g, Reach Gate.Init (fun g a g' => g.step tenADay a = some g') (fun _ _ => True) g ∧
      g.forgotten = [] ∧ g.count none < g.used none) ∧
    ∃ g, Reach Gate.Init (fun g a g' => g.step tenADay a = some g') Gate.SameDay g ∧ g.count none < g.used none := by
  constructor
  · obtain ⟨g, hg, hshort⟩ := (Option.any_eq_true _ _).1 (by decide :
      Option.any (fun g : Gate => g.forgotten.isEmpty && decide (g.count none < g.used none))
        ([Event.reserve ['k'] [] true true true, .newDay 1, .reserve ['m'] [] true true true,
          .settleLate 0 0 true true].foldlM (Gate.step tenADay) firstDay) = true)
    rw [Bool.and_eq_true] at hshort
    exact ⟨_, .foldlM (.init ⟨0, rfl⟩) (fun _ _ _ => trivial) hg,
      List.isEmpty_iff.1 hshort.1, of_decide_eq_true hshort.2⟩
  · obtain ⟨g, hg, hshort⟩ := (Option.any_eq_true _ _).1 (by decide :
      Option.any (fun g : Gate => decide (g.count none < g.used none))
        ([Event.reserve ['k'] [] false true true, .settle 0 11 true false, .crash].foldlM
          (Gate.step tenADay) firstDay) = true)
    refine ⟨_, .foldlM (.init ⟨0, rfl⟩) ?_ hg, of_decide_eq_true hshort⟩
    intro a ha g i real rolled saved heq
    subst heq
    simp at ha

end Dendra.Gateway
