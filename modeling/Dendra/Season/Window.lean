import Dendra.Lib.Bisect
import Dendra.Season.Answers

/-!
# The counted window of a day

The season ends at an instant, and a day counts the blocks of its range before it. The window of a day is read
from the headers once the chain is far enough past the last counted block.

* `seasonWindow`: the window, from a node that serves the headers.
* `seasonWindow_counted`, `seasonWindow_early`, `seasonWindow_late`: its three courses.
* `seasonWindow_exact`: over every chain, the window, when it is answered, that it does not change, and the day
  that names the season's last block.
-/

namespace Dendra.Season.Window

/-! ## The code -/

inductive WindowRefusal
  | notFinal (day : Nat) (currentHeight : Int)
  | stillBefore (day : Nat) (probe nominalLast currentHeight : Int)
  | afterSeason (day : Nat) (first : Int)
  /-- `ChainUnreadable`, of a block that the node does not serve -/
  | unreadable (height : Int)
  /-- `ChainUnreadable`, of an end that is not known yet -/
  | endUnknown (height : Int)
  deriving DecidableEq

/-- `finality_blocks`, from the parameters of the chain; `plain` is the rule of the first set. -/
def finalityBlocks (plain : Bool) (unwind timeout : Nat) : Except String Nat :=
  if unwind = 0 then .error "audit_unwind_blocks is 0 on this chain: no day can be declared final"
  else if plain then .ok (unwind + 200)
  else if timeout = 0 then
    .error "audit_resolve_timeout is 0 on this chain: a drawn audit has no deadline, so no day can be declared final"
  else .ok (unwind + timeout + 200)

/-- `day_bounds`, of a whole day. -/
def dayBounds (day start : Nat) : Int × Int :=
  let first : Int := start + day * dayBlocks
  (first, first + dayBlocks - 1)

section Code

variable (blockTime : Int → Except WindowRefusal Int)

/-- `season_end_height`: the greatest height from `lo` to `hi` whose header time is before `end`. -/
def seasonEndHeight (seasonEnd lo hi : Int) : Except WindowRefusal Int :=
  match blockTime hi with
  | .error e => .error e
  | .ok t =>
    if t < seasonEnd then .error (.endUnknown hi)
    else bisect (fun m => (blockTime m).map fun t => decide (t < seasonEnd)) (lo - 1) hi

/-- `season_window`: the first and the last block of the day that count, and the season's last block if this
day holds it. -/
def seasonWindow (day start : Nat) (currentHeight finality seasonEnd : Int) :
    Except WindowRefusal (Int × Int × Option Int) := do
  let (first, nominalLast) := dayBounds day start
  let probe := min nominalLast (currentHeight - finality)
  if probe < first then
    .error (.notFinal day currentHeight)
  else
    let t ← blockTime probe
    if t < seasonEnd then
      if probe < nominalLast then
        let next ← blockTime (probe + 1)
        if next ≥ seasonEnd then .ok (first, probe, some probe)
        else .error (.stillBefore day probe nominalLast currentHeight)
      else
        let next ← blockTime (nominalLast + 1)
        .ok (first, nominalLast, if next ≥ seasonEnd then some nominalLast else none)
    else
      let t ← blockTime first
      if t ≥ seasonEnd then .error (.afterSeason day first)
      else
        let last ← seasonEndHeight blockTime seasonEnd first probe
        .ok (first, last, some last)

end Code

/-! ## Chains -/

/-- The header times of a chain, in seconds. They never decrease. -/
structure Headers where
  time : Int → Int
  mono : ∀ a b, 1 ≤ a → a ≤ b → time a ≤ time b

/-- A node serves the headers of a chain up to a height. -/
def Headers.Served (c : Headers) (blockTime : Int → Except WindowRefusal Int) (head : Int) : Prop :=
  ∀ h, 1 ≤ h → h ≤ head → blockTime h = .ok (c.time h)

/-- The greatest height of a range whose time is before the end. -/
structure Headers.LastBefore (c : Headers) (seasonEnd first nominalLast last : Int) : Prop where
  first : first ≤ last
  nominal : last ≤ nominalLast
  before : c.time last < seasonEnd
  after : ∀ h, last < h → h ≤ nominalLast → seasonEnd ≤ c.time h

section Window

variable {c : Headers} {blockTime : Int → Except WindowRefusal Int} {day start : Nat}
  {currentHeight finality seasonEnd last : Int}

/-- A finality bound is positive. -/
theorem finalityBlocks_pos {plain : Bool} {unwind timeout n : Nat}
    (h : finalityBlocks plain unwind timeout = .ok n) : 0 < n := by
  unfold finalityBlocks at h
  split_ifs at h <;> cases h <;> omega

theorem dayBounds_first (day : Nat) (hstart : 1 ≤ start) : 1 ≤ (dayBounds day start).1 := by
  unfold dayBounds dayBlocks
  dsimp only
  omega

/-- A day whose first block is before the end has a last block before it. -/
theorem Headers.exists_lastBefore (c : Headers) {first nominalLast : Int} (hle : first ≤ nominalLast)
    (h : c.time first < seasonEnd) : ∃ last, c.LastBefore seasonEnd first nominalLast last := by
  obtain ⟨last, ⟨h1, h2, h3⟩, hmax⟩ :=
    Int.exists_greatest_of_bdd (P := fun z => first ≤ z ∧ z ≤ nominalLast ∧ c.time z < seasonEnd)
      ⟨nominalLast, fun z hz => hz.2.1⟩ ⟨first, le_rfl, hle, h⟩
  refine ⟨last, h1, h2, h3, fun z hz hz' => ?_⟩
  by_contra hlt
  have := hmax z ⟨by omega, hz', not_le.1 hlt⟩
  omega

theorem Headers.LastBefore.unique {first nominalLast last' : Int}
    (h : c.LastBefore seasonEnd first nominalLast last) (h' : c.LastBefore seasonEnd first nominalLast last') :
    last = last' := by
  obtain hlt | heq | hlt := lt_trichotomy last last'
  · exact absurd h'.before (not_lt.2 (h.after _ hlt h'.nominal))
  · exact heq
  · exact absurd h.before (not_lt.2 (h'.after _ hlt h.nominal))

/-- The search of the season's last block. -/
theorem seasonEndHeight_eq {first nominalLast probe head : Int} (hs : c.Served blockTime head)
    (hfirst : 1 ≤ first) (h : c.LastBefore seasonEnd first nominalLast last) (hlt : last < probe)
    (hnominal : probe ≤ nominalLast) (hhead : probe ≤ head) :
    seasonEndHeight blockTime seasonEnd first probe = .ok last := by
  have hprobe := h.after probe hlt hnominal
  have hle := h.first
  unfold seasonEndHeight
  rw [hs probe (by omega) hhead]
  dsimp only
  rw [if_neg (not_lt.2 hprobe)]
  obtain ⟨r, hr, hlo, hhi, hbelow, habove⟩ :=
    bisect_spec (fun m => (blockTime m).map fun t => decide (t < seasonEnd))
      (fun m => decide (c.time m < seasonEnd)) (show ∀ m, first - 1 < m → m < probe → _ from
        fun m hm hm' => by rw [hs m (by omega) (by omega)]; rfl)
      (fun m m' hm hmm hm' hq => by
        rw [decide_eq_true_eq] at hq ⊢
        exact (c.mono m m' (by omega) hmm).trans_lt hq)
      (by omega)
  rw [hr]
  congr 1
  obtain hrl | heq | hlr := lt_trichotomy r last
  · have := habove last hrl hlt
    rw [decide_eq_false_iff_not] at this
    exact absurd h.before this
  · exact heq
  · have := hbelow r (by omega) le_rfl
    rw [decide_eq_true_eq] at this
    exact absurd this (not_lt.2 (h.after r hlr (by omega)))

/-- A chain far enough past the last counted block. -/
theorem seasonWindow_counted (hstart : 1 ≤ start) (hf : 0 < finality) (hs : c.Served blockTime currentHeight)
    (h : c.LastBefore seasonEnd (dayBounds day start).1 (dayBounds day start).2 last)
    (hhead : last + finality ≤ currentHeight) :
    seasonWindow blockTime day start currentHeight finality seasonEnd =
      .ok ((dayBounds day start).1, last, if c.time (last + 1) ≥ seasonEnd then some last else none) := by
  have hone := dayBounds_first day hstart
  have h1 := h.first
  have h2 := h.nominal
  have hbefore := h.before
  unfold seasonWindow
  generalize dayBounds day start = bounds at h hone h1 h2 ⊢
  obtain ⟨first, nominalLast⟩ := bounds
  dsimp only at h hone h1 h2 ⊢
  rw [if_neg (by omega), hs (min nominalLast (currentHeight - finality)) (by omega) (by omega)]
  dsimp only [bind, Except.bind]
  obtain heq | hlt := h2.eq_or_lt
  · -- the whole day is before the end
    subst heq
    rw [min_eq_left (by omega), if_pos hbefore, if_neg (lt_irrefl _), hs (last + 1) (by omega) (by omega)]
  · have hnext := h.after (last + 1) (by omega) (by omega)
    rw [if_pos hnext]
    obtain heq | hgt : currentHeight - finality = last ∨ last < currentHeight - finality := by omega
    · rw [heq, min_eq_right h2, if_pos hbefore, if_pos hlt, hs (last + 1) (by omega) (by omega)]
      dsimp only
      rw [if_pos hnext]
    · have hprobe : last < min nominalLast (currentHeight - finality) := lt_min hlt hgt
      have hfirst : c.time first < seasonEnd := (c.mono first last hone h1).trans_lt hbefore
      rw [if_neg (not_lt.2 (h.after _ hprobe (min_le_left _ _))), hs first hone (by omega)]
      dsimp only
      rw [if_neg (not_le.2 hfirst),
        seasonEndHeight_eq hs hone h hprobe (min_le_left _ _) (by omega)]

/-- A chain that is not. -/
theorem seasonWindow_early (hstart : 1 ≤ start) (hf : 0 < finality) (hs : c.Served blockTime currentHeight)
    (h : c.LastBefore seasonEnd (dayBounds day start).1 (dayBounds day start).2 last)
    (hhead : currentHeight < last + finality) :
    ∃ e, seasonWindow blockTime day start currentHeight finality seasonEnd = .error e := by
  have hone := dayBounds_first day hstart
  have h1 := h.first
  have h2 := h.nominal
  have hbefore := h.before
  unfold seasonWindow
  generalize dayBounds day start = bounds at h hone h1 h2 ⊢
  obtain ⟨first, nominalLast⟩ := bounds
  dsimp only at h hone h1 h2 ⊢
  rw [min_eq_right (by omega)]
  by_cases hprobe : currentHeight - finality < first
  · exact ⟨_, if_pos hprobe⟩
  · have htime : c.time (currentHeight - finality) < seasonEnd :=
      (c.mono _ last (by omega) (by omega)).trans_lt hbefore
    have hnext : c.time (currentHeight - finality + 1) < seasonEnd :=
      (c.mono _ last (by omega) (by omega)).trans_lt hbefore
    rw [if_neg hprobe, hs _ (by omega) (by omega)]
    dsimp only [bind, Except.bind]
    rw [if_pos htime, if_pos (by omega), hs _ (by omega) (by omega)]
    dsimp only
    rw [if_neg (not_le.2 hnext)]
    exact ⟨_, rfl⟩

/-- A day whose first block is not before the end. -/
theorem seasonWindow_late (hstart : 1 ≤ start) (hf : 0 < finality) (hs : c.Served blockTime currentHeight)
    (h : seasonEnd ≤ c.time (dayBounds day start).1) :
    ∃ e, seasonWindow blockTime day start currentHeight finality seasonEnd = .error e := by
  have hone := dayBounds_first day hstart
  unfold seasonWindow
  generalize dayBounds day start = bounds at h hone ⊢
  obtain ⟨first, nominalLast⟩ := bounds
  dsimp only at h hone ⊢
  by_cases hprobe : min nominalLast (currentHeight - finality) < first
  · exact ⟨_, if_pos hprobe⟩
  · have htime := h.trans (c.mono first _ hone (not_lt.1 hprobe))
    rw [if_neg hprobe, hs _ (by omega) (by omega)]
    dsimp only [bind, Except.bind]
    rw [if_neg (not_lt.2 htime), hs first hone (by omega)]
    dsimp only
    rw [if_pos h]
    exact ⟨_, rfl⟩

/-- The course of a window: it is answered with the last counted block, or refused. -/
theorem seasonWindow_cases (day : Nat) (seasonEnd : Int) (hstart : 1 ≤ start) (hf : 0 < finality)
    (hs : c.Served blockTime currentHeight) :
    (∃ last, c.LastBefore seasonEnd (dayBounds day start).1 (dayBounds day start).2 last ∧
        last + finality ≤ currentHeight ∧
        seasonWindow blockTime day start currentHeight finality seasonEnd =
          .ok ((dayBounds day start).1, last, if c.time (last + 1) ≥ seasonEnd then some last else none)) ∨
      ((∃ e, seasonWindow blockTime day start currentHeight finality seasonEnd = .error e) ∧
        ∀ last, c.LastBefore seasonEnd (dayBounds day start).1 (dayBounds day start).2 last →
          currentHeight < last + finality) := by
  have hle : (dayBounds day start).1 ≤ (dayBounds day start).2 := by
    unfold dayBounds dayBlocks
    dsimp only
    omega
  by_cases hfirst : c.time (dayBounds day start).1 < seasonEnd
  · obtain ⟨last, h⟩ := c.exists_lastBefore hle hfirst
    obtain hhead | hhead := le_or_gt (last + finality) currentHeight
    · exact .inl ⟨last, h, hhead, seasonWindow_counted hstart hf hs h hhead⟩
    · exact .inr ⟨seasonWindow_early hstart hf hs h hhead, fun last' h' => h.unique h' ▸ hhead⟩
  · rw [not_lt] at hfirst
    refine .inr ⟨seasonWindow_late hstart hf hs hfirst, fun last h => ?_⟩
    have := c.mono _ _ (dayBounds_first _ hstart) h.first
    exact absurd h.before (not_lt.2 (hfirst.trans this))

/-- What an answered window says. -/
theorem seasonWindow_ok {first : Int} {e : Option Int} (hstart : 1 ≤ start) (hf : 0 < finality)
    (hs : c.Served blockTime currentHeight)
    (hok : seasonWindow blockTime day start currentHeight finality seasonEnd = .ok (first, last, e)) :
    first = (dayBounds day start).1 ∧
      c.LastBefore seasonEnd (dayBounds day start).1 (dayBounds day start).2 last ∧
      last + finality ≤ currentHeight ∧
      e = if c.time (last + 1) ≥ seasonEnd then some last else none := by
  obtain ⟨last', h, hhead, heq⟩ | ⟨⟨err, herr⟩, -⟩ :=
    seasonWindow_cases day seasonEnd hstart hf hs
  · rw [hok, Except.ok.injEq, Prod.mk.injEq, Prod.mk.injEq] at heq
    obtain ⟨rfl, rfl, rfl⟩ := heq
    exact ⟨rfl, h, hhead, rfl⟩
  · rw [hok] at herr
    cases herr

/-- The day of a height is the one whose range holds it. -/
theorem dayOfHeight_iff {h : Nat} : dayOfHeight start h = some day ↔
    (dayBounds day start).1 ≤ h ∧ (h : Int) ≤ (dayBounds day start).2 := by
  unfold dayOfHeight dayBounds dayBlocks
  dsimp only
  split
  · simp only [false_iff, reduceCtorEq]
    omega
  · rw [Option.some.injEq, Nat.div_eq_iff (by decide)]
    omega

/-- The window of a day is unique and stable. It counts up to the greatest height of the day's range before the
end; it is answered exactly when the chain is `finality` blocks past that height and the day begins before the
end; no later head changes it; and the season's last block is named on its own day and on no other. -/
theorem seasonWindow_exact (c : Headers) (start : Nat) (seasonEnd : Int) (plain : Bool)
    (unwind timeout finality : Nat) (hstart : 1 ≤ start)
    (hbound : finalityBlocks plain unwind timeout = .ok finality) :
    (∀ day currentHeight blockTime, c.Served blockTime currentHeight →
      (∀ first last e, seasonWindow blockTime day start currentHeight finality seasonEnd = .ok (first, last, e) →
        first = (dayBounds day start).1 ∧
          c.LastBefore seasonEnd (dayBounds day start).1 (dayBounds day start).2 last) ∧
      ((∃ w, seasonWindow blockTime day start currentHeight finality seasonEnd = .ok w) ↔
        c.time (dayBounds day start).1 < seasonEnd ∧
          ∃ last, c.LastBefore seasonEnd (dayBounds day start).1 (dayBounds day start).2 last ∧
            last + finality ≤ currentHeight) ∧
      ∀ w, seasonWindow blockTime day start currentHeight finality seasonEnd = .ok w →
        ∀ currentHeight' blockTime', currentHeight ≤ currentHeight' → c.Served blockTime' currentHeight' →
          seasonWindow blockTime' day start currentHeight' finality seasonEnd = .ok w) ∧
    ∀ e : Nat, start ≤ e → c.time e < seasonEnd → seasonEnd ≤ c.time (e + 1) →
      (∀ day currentHeight blockTime first last e', c.Served blockTime currentHeight →
        seasonWindow blockTime day start currentHeight finality seasonEnd = .ok (first, last, some e') →
          e' = e ∧ dayOfHeight start e = some day) ∧
      ∀ currentHeight blockTime, c.Served blockTime currentHeight → e + finality ≤ currentHeight →
        ∃ day first, dayOfHeight start e = some day ∧
          seasonWindow blockTime day start currentHeight finality seasonEnd =
            .ok (first, (e : Int), some (e : Int)) := by
  have hf : (0 : Int) < finality := Int.natCast_pos.2 (finalityBlocks_pos hbound)
  refine ⟨fun day currentHeight blockTime hs => ⟨?_, ⟨?_, ?_⟩, ?_⟩,
    fun e he hbefore hafter => ⟨?_, fun currentHeight blockTime hs hhead => ?_⟩⟩
  · intro first last e hok
    obtain ⟨rfl, h, -, -⟩ := seasonWindow_ok hstart hf hs hok
    exact ⟨rfl, h⟩
  · rintro ⟨⟨first, last, e⟩, hok⟩
    obtain ⟨-, h, hhead, -⟩ := seasonWindow_ok hstart hf hs hok
    exact ⟨(c.mono _ _ (dayBounds_first _ hstart) h.first).trans_lt h.before, last, h, hhead⟩
  · rintro ⟨-, last, h, hhead⟩
    exact ⟨_, seasonWindow_counted hstart hf hs h hhead⟩
  · rintro ⟨first, last, e⟩ hok currentHeight' blockTime' hle hs'
    obtain ⟨rfl, h, hhead, rfl⟩ := seasonWindow_ok hstart hf hs hok
    exact seasonWindow_counted hstart hf hs' h (by omega)
  · intro day currentHeight blockTime first last e' hs hok
    obtain ⟨-, h, -, he'⟩ := seasonWindow_ok hstart hf hs hok
    have hone := (dayBounds_first day hstart).trans h.first
    split at he'
    · next hnext =>
      obtain rfl := Option.some.inj he'
      -- a block between the two would be before the end and not before it
      have hge : e' ≤ e := by
        by_contra hlt
        exact absurd (hafter.trans (c.mono (e + 1) e' (by omega) (by omega))) (not_le.2 h.before)
      have hle : (e : Int) ≤ e' := by
        by_contra hlt
        exact absurd (hnext.le.trans (c.mono (e' + 1) e (by omega) (by omega))) (not_le.2 hbefore)
      obtain rfl : e' = e := le_antisymm hge hle
      exact ⟨rfl, dayOfHeight_iff.2 ⟨h.first, h.nominal⟩⟩
    · cases he'
  · obtain ⟨day, hday⟩ : ∃ day, dayOfHeight start e = some day := by
      unfold dayOfHeight
      exact ⟨_, if_neg (by omega)⟩
    obtain ⟨h1, h2⟩ := dayOfHeight_iff.1 hday
    have h : c.LastBefore seasonEnd (dayBounds day start).1 (dayBounds day start).2 e :=
      ⟨h1, h2, hbefore, fun z hz _ => hafter.trans (c.mono _ _ (by omega) (by omega))⟩
    refine ⟨day, (dayBounds day start).1, hday, ?_⟩
    rw [seasonWindow_counted hstart hf hs h hhead, if_pos hafter]

/-- A chain of a block a second, from height 1, that ends at second 10. -/
theorem seasonWindow_exact_seconds : ∃ day first, dayOfHeight 1 9 = some day ∧
    seasonWindow (fun h => .ok h) day 1 300 201 10 = .ok (first, 9, some 9) :=
  ((seasonWindow_exact ⟨id, fun _ _ _ h => h⟩ 1 10 true 1 0 201 (by decide) rfl).2 9 (by decide) (by decide)
    (by decide)).2 300 (fun h => .ok h) (fun _ _ _ => rfl) (by decide)

end Window

end Dendra.Season.Window
