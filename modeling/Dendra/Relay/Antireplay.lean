import Dendra.Lib.Ordered
import Dendra.Relay.Request

/-!
# The replay guard

`Antireplay` keeps the greatest height that was accepted under each writing key, and the digests of what was accepted
within the retention, in the order in which they came. It is told the chain's head, or that the head is not known.

* `verify`: the code. `verify_guard`: of a relay that does not know the head, it is `Guard.verify`.
* `verify_cases`: a call is accepted and recorded, or refused and forgets old digests only.
* `Accepts`: what the history says of a call. `History`: what the memory says of the history; `History.run`.
* `verify_spec`: the guard does what the history says.
-/

namespace Dendra.Relay.Antireplay

/-! ## The code -/

inductive Regime
  | nominal
  | degraded
  deriving DecidableEq

inductive Refusal
  | replay | heightRegression | tooOld | tooFarAhead | malformed | unsealedHeight
  deriving DecidableEq

structure Verdict where
  accepted : Bool
  regime : Regime
  reason : Option Refusal

/-- A height: read from a signed message, or of any other type. -/
inductive Height
  | sealed (n : Int)
  | bare

/-- The chain's head: not known, known, or of another type. -/
inductive Head
  | unknown
  | known (n : Int)
  | malformed

section Guard

variable {τ : Type} [LinearOrder τ] [AddCommGroup τ]

/-- `retention` and `window`, as the constructor takes them. -/
structure Config (τ : Type) [LinearOrder τ] [AddCommGroup τ] where
  retention : τ
  window : Int
  retention_pos : 0 < retention
  window_pos : 0 < window

/-- A call: its arguments (`none` for what is no byte string) and the two readings of the clock. -/
structure Call (τ : Type) where
  key : Option (List UInt8)
  height : Height
  digest : Option (List UInt8)
  head : Head
  purged : τ
  recorded : τ

/-- `_high`, `_seen` and the counters. -/
structure Memory (τ : Type) where
  high : Ordered (List UInt8) Int
  seen : Ordered (List UInt8) τ
  acceptedNominal : Nat
  acceptedDegraded : Nat
  refusals : Ordered Refusal Nat

def Memory.empty : Memory τ := ⟨.empty, .empty, 0, 0, .empty⟩

/-- `_purge`: from the front, up to the first digest that is young. -/
def Memory.purge (cutoff : τ) (m : Memory τ) : Memory τ :=
  { m with
    seen := ⟨m.seen.items.dropWhile fun e => decide (e.2 < cutoff),
      ((List.dropWhile_sublist _).map Prod.fst).nodup m.seen.nodup⟩ }

/-- `_refuse`. -/
def Memory.refuse (regime : Regime) (reason : Refusal) (m : Memory τ) : Memory τ × Verdict :=
  ({ m with refusals := m.refusals.set reason ((m.refusals.get? reason).getD 0 + 1) }, ⟨false, regime, some reason⟩)

/-- What is recorded of a call that is accepted. -/
def Memory.record (regime : Regime) (now : τ) (key : List UInt8) (height : Int) (digest : List UInt8) (m : Memory τ) :
    Memory τ where
  high := if (m.high.get? key).all fun h => decide (h < height) then m.high.set key height else m.high
  seen := m.seen.set digest now
  acceptedNominal := if regime = .nominal then m.acceptedNominal + 1 else m.acceptedNominal
  acceptedDegraded := if regime = .nominal then m.acceptedDegraded else m.acceptedDegraded + 1
  refusals := m.refusals

/-- The check of freshness: why a height is refused for a head. -/
def stale (window : Int) (head : Head) (height : Int) : Option Refusal :=
  match head with
  | .unknown => none
  | .malformed => some .malformed
  | .known n =>
    if n < 0 then some .malformed
    else if height < n - window then some .tooOld
    else if height > n + window then some .tooFarAhead
    else none

def Head.regime : Head → Regime
  | .unknown => .degraded
  | _ => .nominal

/-- `verify`. -/
def verify (cfg : Config τ) (m : Memory τ) (c : Call τ) : Memory τ × Verdict :=
  let regime := c.head.regime
  match c.key.filter fun k => decide (k ≠ []) with
  | none => m.refuse regime .malformed
  | some key =>
    match c.digest.filter fun d => decide (d.length = 32) with
    | none => m.refuse regime .malformed
    | some digest =>
      match c.height with
      | .bare => m.refuse regime .unsealedHeight
      | .sealed height =>
        if height < 0 then m.refuse regime .malformed
        else
          let m := m.purge (c.purged - cfg.retention)
          if m.seen.has digest then m.refuse regime .replay
          else if (m.high.get? key).any fun h => decide (height < h) then m.refuse regime .heightRegression
          else
            match stale cfg.window c.head height with
            | some reason => m.refuse .nominal reason
            | none => (m.record regime c.recorded key height digest, ⟨true, regime, none⟩)

/-! ## Well-formed calls -/

/-- A call with a key, a sealed height, a digest of 32 bytes, and a head that is known or not. -/
structure Message (τ : Type) where
  key : List UInt8
  height : Nat
  digest : List UInt8
  head : Option Nat
  purged : τ
  recorded : τ
  key_ne : key ≠ []
  length_digest : digest.length = 32

def Message.call (x : Message τ) : Call τ where
  key := some x.key
  height := .sealed x.height
  digest := some x.digest
  head := x.head.elim .unknown fun n => .known n
  purged := x.purged
  recorded := x.recorded

/-- The readings of the clock do not go back. -/
def Clock (ms : List (Message τ)) : Prop := (ms.flatMap fun x => [x.purged, x.recorded]).Pairwise (· ≤ ·)

/-- The memory after some calls, and the calls that were accepted. -/
def run (cfg : Config τ) (ms : List (Message τ)) : Memory τ × List (Message τ) :=
  ms.foldl
    (fun s x => ((verify cfg s.1 x.call).1, if (verify cfg s.1 x.call).2.accepted then s.2 ++ [x] else s.2))
    (.empty, [])

/-- What the history of accepted calls says of a call: its digest was not accepted within the retention, no greater
height was accepted for its key, and it is within the window of a known head. -/
structure Accepts (cfg : Config τ) (history : List (Message τ)) (x : Message τ) : Prop where
  digest : ∀ a ∈ history, a.digest = x.digest → a.recorded < x.purged - cfg.retention
  height : ∀ a ∈ history, a.key = x.key → a.height ≤ x.height
  head : ∀ n ∈ x.head, (n : Int) - cfg.window ≤ x.height ∧ (x.height : Int) ≤ n + cfg.window

/-! ## What one call does -/

section Lemmas

variable {cfg : Config τ} {m : Memory τ} {x : Message τ} {ms : List (Message τ)} {cutoff t : τ} {d : List UInt8}

omit [AddCommGroup τ] in
theorem dropWhile_eq_filter {l : List (List UInt8 × τ)} (hl : (l.map Prod.snd).Pairwise (· ≤ ·)) :
    (l.dropWhile fun e => decide (e.2 < cutoff)) = l.filter fun e => decide (cutoff ≤ e.2) := by
  induction l with
  | nil => rfl
  | cons e l ih =>
    rw [List.map_cons, List.pairwise_cons] at hl
    by_cases he : e.2 < cutoff
    · rw [List.dropWhile_cons_of_pos (by simpa using he), ih hl.2, List.filter_cons_of_neg (by simpa using he)]
    · rw [List.dropWhile_cons_of_neg (by simpa using he), List.filter_eq_self.2]
      intro e' he'
      obtain rfl | he' := List.mem_cons.1 he'
      · exact decide_eq_true (not_lt.1 he)
      · exact decide_eq_true ((not_lt.1 he).trans (hl.1 _ (List.mem_map_of_mem he')))

omit [AddCommGroup τ] in
/-- A purge stops at the first young digest, and what it leaves are the young ones: the digests are in the order of
their times. -/
theorem get?_purge (hm : (m.seen.items.map Prod.snd).Pairwise (· ≤ ·)) :
    (m.purge cutoff).seen.get? d = some t ↔ m.seen.get? d = some t ∧ cutoff ≤ t := by
  rw [Ordered.get?_eq_some, Ordered.get?_eq_some]
  change (d, t) ∈ m.seen.items.dropWhile _ ↔ _
  rw [dropWhile_eq_filter hm, List.mem_filter, decide_eq_true_eq]

omit [AddCommGroup τ] in
theorem sorted_purge (hm : (m.seen.items.map Prod.snd).Pairwise (· ≤ ·)) :
    ((m.purge cutoff).seen.items.map Prod.snd).Pairwise (· ≤ ·) :=
  hm.sublist ((List.dropWhile_sublist _).map Prod.snd)

/-- The height is within the window of a head that is known. -/
theorem stale_eq_none : stale cfg.window x.call.head x.height = none ↔
    ∀ n ∈ x.head, (n : Int) - cfg.window ≤ x.height ∧ (x.height : Int) ≤ n + cfg.window := by
  unfold stale Message.call
  cases x.head with
  | none => exact ⟨fun _ => nofun, fun _ => rfl⟩
  | some n =>
    simp only [Option.elim_some, Option.mem_def, Option.some.injEq, forall_eq']
    rw [if_neg (by omega)]
    split
    · next h => exact ⟨nofun, fun h' => absurd h'.1 (not_le.2 h)⟩
    · next h =>
      split
      · next h' => exact ⟨nofun, fun h'' => absurd h''.2 (not_le.2 h')⟩
      · next h' => exact ⟨fun _ => ⟨not_lt.1 h, not_lt.1 h'⟩, fun _ => rfl⟩

/-- A call is accepted and recorded, or it is refused and nothing but old digests is forgotten. -/
theorem verify_cases (cfg : Config τ) (m : Memory τ) (x : Message τ) :
    ((m.purge (x.purged - cfg.retention)).seen.get? x.digest = none ∧
        (∀ n, m.high.get? x.key = some n → n ≤ x.height) ∧ stale cfg.window x.call.head x.height = none ∧
        verify cfg m x.call =
          ((m.purge (x.purged - cfg.retention)).record x.call.head.regime x.recorded x.key x.height x.digest,
            ⟨true, x.call.head.regime, none⟩)) ∨
      (¬((m.purge (x.purged - cfg.retention)).seen.get? x.digest = none ∧
          (∀ n, m.high.get? x.key = some n → n ≤ x.height) ∧ stale cfg.window x.call.head x.height = none) ∧
        ∃ regime reason, verify cfg m x.call = (m.purge (x.purged - cfg.retention)).refuse regime reason) := by
  have hkey : (x.call.key.filter fun k => decide (k ≠ [])) = some x.key := by
    change (some x.key).filter _ = _
    rw [Option.filter_some, if_pos (decide_eq_true x.key_ne)]
  have hdigest : (x.call.digest.filter fun d => decide (d.length = 32)) = some x.digest := by
    change (some x.digest).filter _ = _
    rw [Option.filter_some, if_pos (decide_eq_true x.length_digest)]
  have hheight : x.call.height = .sealed x.height := rfl
  unfold verify
  rw [hkey, hdigest, hheight]
  dsimp only
  rw [if_neg (by omega)]
  by_cases hseen : ((m.purge (x.call.purged - cfg.retention)).seen.has x.digest) = true
  · rw [if_pos hseen]
    refine .inr ⟨fun h => ?_, _, _, rfl⟩
    rw [Ordered.has_eq_isSome] at hseen
    exact absurd hseen (by rw [show x.call.purged = x.purged from rfl, h.1]; exact Bool.false_ne_true)
  · rw [if_neg hseen]
    have hnone : (m.purge (x.purged - cfg.retention)).seen.get? x.digest = none := by
      rw [Ordered.has_eq_isSome, Bool.not_eq_true, Option.isSome_eq_false_iff, Option.isNone_iff_eq_none] at hseen
      exact hseen
    have hhigh : ((m.purge (x.call.purged - cfg.retention)).high.get? x.key).any
        (fun h => decide ((x.height : Int) < h)) = true ↔ ¬ ∀ n, m.high.get? x.key = some n → n ≤ x.height := by
      change (m.high.get? x.key).any _ = true ↔ _
      cases m.high.get? x.key <;> simp
    split
    · next h => exact .inr ⟨fun h' => hhigh.1 h h'.2.1, _, _, rfl⟩
    · next h =>
      rw [hhigh, not_not] at h
      cases hstale : stale cfg.window x.call.head x.height with
      | some reason => exact .inr ⟨fun h' => Option.some_ne_none reason h'.2.2, _, _, rfl⟩
      | none => exact .inl ⟨hnone, h, rfl, rfl⟩

theorem run_concat (cfg : Config τ) (ms : List (Message τ)) (x : Message τ) :
    run cfg (ms ++ [x]) = ((verify cfg (run cfg ms).1 x.call).1,
      if (verify cfg (run cfg ms).1 x.call).2.accepted then (run cfg ms).2 ++ [x] else (run cfg ms).2) := by
  rw [run, List.foldl_append]
  rfl

end Lemmas

/-! ## What the memory says of the history -/

/-- What the memory after the calls `ms` says of those that were accepted. -/
structure History (cfg : Config τ) (ms : List (Message τ)) (m : Memory τ) (history : List (Message τ)) : Prop where
  sub : ∀ a ∈ history, a ∈ ms
  sorted : (m.seen.items.map Prod.snd).Pairwise (· ≤ ·)
  held : ∀ d t, m.seen.get? d = some t → ∃ a ∈ history, a.digest = d ∧ a.recorded = t
  /-- Whatever was accepted since a time that is after all cutoffs is held. -/
  recent : ∀ c, (∀ y ∈ ms, y.purged - cfg.retention ≤ c) →
    ∀ a ∈ history, c ≤ a.recorded → m.seen.get? a.digest = some a.recorded
  high : ∀ a ∈ history, ∃ n, m.high.get? a.key = some n ∧ (a.height : Int) ≤ n
  reached : ∀ k n, m.high.get? k = some n → ∃ a ∈ history, a.key = k ∧ (a.height : Int) = n
  heights : ∀ k, ((history.filter fun a => decide (a.key = k)).map Message.height).Pairwise (· ≤ ·)

section History

variable {cfg : Config τ} {m : Memory τ} {x : Message τ} {ms history : List (Message τ)}

omit [AddCommGroup τ] in
theorem Clock.of_concat (h : Clock (ms ++ [x])) :
    Clock ms ∧ x.purged ≤ x.recorded ∧ ∀ y ∈ ms, y.purged ≤ x.purged ∧ y.recorded ≤ x.purged := by
  unfold Clock at h
  rw [List.flatMap_append, List.pairwise_append] at h
  obtain ⟨hms, hx, hle⟩ := h
  simp only [List.flatMap_cons, List.flatMap_nil, List.append_nil, List.pairwise_cons, List.mem_singleton, forall_eq]
    at hx
  refine ⟨hms, hx.1, fun y hy => ⟨hle _ ?_ _ (by simp), hle _ ?_ _ (by simp)⟩⟩
  · exact List.mem_flatMap.2 ⟨y, hy, by simp⟩
  · exact List.mem_flatMap.2 ⟨y, hy, by simp⟩

/-- What a refused call keeps. -/
theorem History.refused (h : History cfg ms m history) (regime : Regime) (reason : Refusal) :
    History cfg (ms ++ [x]) ((m.purge (x.purged - cfg.retention)).refuse regime reason).1 history where
  sub a ha := List.mem_append_left _ (h.sub a ha)
  sorted := sorted_purge h.sorted
  held d t hget := h.held d t ((Antireplay.get?_purge h.sorted).1 hget).1
  recent c hc a ha hle := by
    have hold := h.recent c (fun y hy => hc y (List.mem_append_left _ hy)) a ha hle
    refine (Antireplay.get?_purge h.sorted).2 ⟨hold, (hc x ?_).trans hle⟩
    exact List.mem_append_right _ (List.mem_singleton_self x)
  high := h.high
  reached := h.reached
  heights := h.heights

/-- What an accepted call keeps. -/
theorem History.accepted (h : History cfg ms m history) (hclock : Clock (ms ++ [x]))
    (hseen : (m.purge (x.purged - cfg.retention)).seen.get? x.digest = none)
    (hhigh : ∀ n, m.high.get? x.key = some n → n ≤ x.height) (regime : Regime) :
    History cfg (ms ++ [x])
      ((m.purge (x.purged - cfg.retention)).record regime x.recorded x.key x.height x.digest) (history ++ [x]) := by
  have hx : x ∈ ms ++ [x] := List.mem_append_right _ (List.mem_singleton_self x)
  have hold := h.refused (x := x) regime .replay
  have hlast (d : List UInt8) (t : τ) (hget : (m.purge (x.purged - cfg.retention)).seen.get? d = some t) :
      t ≤ x.recorded := by
    obtain ⟨a, ha, -, rfl⟩ := hold.held d t hget
    exact (hclock.of_concat.2.2 a (h.sub a ha)).2.trans hclock.of_concat.2.1
  have hget (d : List UInt8) : ((m.purge (x.purged - cfg.retention)).record regime x.recorded x.key x.height
      x.digest).seen.get? d =
        if d = x.digest then some x.recorded else (m.purge (x.purged - cfg.retention)).seen.get? d :=
    Ordered.get?_set
  have hnew (k : List UInt8) : ((m.purge (x.purged - cfg.retention)).record regime x.recorded x.key x.height
      x.digest).high.get? k = if k = x.key then some (x.height : Int) else m.high.get? k := by
    change (if (m.high.get? x.key).all fun h => decide (h < (x.height : Int)) then m.high.set x.key (x.height : Int)
      else m.high).get? k = _
    cases hn : m.high.get? x.key with
    | none =>
      rw [Option.all_none, if_pos rfl, Ordered.get?_set]
    | some n =>
      by_cases hlt : n < x.height
      · rw [Option.all_some, if_pos (decide_eq_true hlt), Ordered.get?_set]
      · rw [Option.all_some, if_neg (by simpa using hlt)]
        split
        · next hk =>
          subst hk
          rw [hn, le_antisymm (hhigh n hn) (not_lt.1 hlt)]
        · rfl
  refine ⟨fun a ha => ?_, ?_, fun d t ht => ?_, fun c hc a ha hle => ?_, fun a ha => ?_, fun k n hn => ?_, fun k => ?_⟩
  · obtain ha | ha := List.mem_append.1 ha
    · exact hold.sub a ha
    · exact List.mem_singleton.1 ha ▸ hx
  · have hhas : (m.purge (x.purged - cfg.retention)).seen.has x.digest = false := by
      rw [Ordered.has_eq_isSome, hseen]
      rfl
    have hitems : ((m.purge (x.purged - cfg.retention)).seen.set x.digest x.recorded).items =
        (m.purge (x.purged - cfg.retention)).seen.items ++ [(x.digest, x.recorded)] := by
      rw [Ordered.set_of_not_has hhas]
      change ((m.purge (x.purged - cfg.retention)).seen.pop x.digest).items ++ [(x.digest, x.recorded)] = _
      rw [Ordered.pop_of_get?_none hseen]
    change (((m.purge (x.purged - cfg.retention)).seen.set x.digest x.recorded).items.map Prod.snd).Pairwise (· ≤ ·)
    rw [hitems, List.map_append, List.pairwise_append]
    refine ⟨sorted_purge h.sorted, List.pairwise_singleton _ _, fun t ht t' ht' => ?_⟩
    obtain ⟨e, he, rfl⟩ := List.mem_map.1 ht
    obtain rfl := List.mem_singleton.1 ht'
    exact hlast e.1 e.2 (Ordered.get?_eq_some.2 he)
  · rw [hget] at ht
    split at ht
    · next hd => exact ⟨x, List.mem_append_right _ (List.mem_singleton_self x), hd.symm, Option.some.inj ht⟩
    · obtain ⟨a, ha, hd, rfl⟩ := hold.held d t ht
      exact ⟨a, List.mem_append_left _ ha, hd, rfl⟩
  · rw [hget]
    split
    · next hd =>
      obtain ha | ha := List.mem_append.1 ha
      · have hheld := hold.recent c hc a ha hle
        rw [hd] at hheld
        change (m.purge (x.purged - cfg.retention)).seen.get? x.digest = _ at hheld
        rw [hseen] at hheld
        cases hheld
      · exact congrArg _ (congrArg _ (List.mem_singleton.1 ha)).symm
    · next hd =>
      obtain ha | ha := List.mem_append.1 ha
      · exact hold.recent c hc a ha hle
      · exact absurd (congrArg _ (List.mem_singleton.1 ha)) hd
  · rw [hnew]
    obtain ha | ha := List.mem_append.1 ha
    · obtain ⟨n, hn, hle⟩ := h.high a ha
      split
      · next hk =>
        rw [hk] at hn
        exact ⟨x.height, rfl, hle.trans (hhigh n hn)⟩
      · exact ⟨n, hn, hle⟩
    · obtain rfl := List.mem_singleton.1 ha
      rw [if_pos rfl]
      exact ⟨a.height, rfl, le_refl _⟩
  · rw [hnew] at hn
    split at hn
    · next hk => exact ⟨x, List.mem_append_right _ (List.mem_singleton_self x), hk.symm, Option.some.inj hn⟩
    · obtain ⟨a, ha, hk, hheight⟩ := h.reached k n hn
      exact ⟨a, List.mem_append_left _ ha, hk, hheight⟩
  · rw [List.filter_append]
    by_cases hk : x.key = k
    · rw [List.filter_cons_of_pos (by simpa using hk), List.filter_nil, List.map_append, List.pairwise_append]
      refine ⟨h.heights k, List.pairwise_singleton _ _, fun n hn n' hn' => ?_⟩
      obtain ⟨a, ha, rfl⟩ := List.mem_map.1 hn
      obtain rfl := List.mem_singleton.1 hn'
      obtain ⟨ha, hak⟩ := List.mem_filter.1 ha
      obtain ⟨n, hn, hle⟩ := h.high a ha
      rw [of_decide_eq_true hak, ← hk] at hn
      exact Int.ofNat_le.1 (hle.trans (hhigh n hn))
    · rw [List.filter_cons_of_neg (by simpa using hk), List.filter_nil, List.append_nil]
      exact h.heights k

theorem History.run (cfg : Config τ) {ms : List (Message τ)} (hclock : Clock ms) :
    History cfg ms (Antireplay.run cfg ms).1 (Antireplay.run cfg ms).2 := by
  induction ms using List.reverseRecOn with
  | nil =>
    exact ⟨fun a ha => (List.not_mem_nil ha).elim, .nil, nofun, fun c _ a ha => (List.not_mem_nil ha).elim,
      fun a ha => (List.not_mem_nil ha).elim, nofun, fun k => .nil⟩
  | append_singleton ms x ih =>
    have h := ih hclock.of_concat.1
    rw [run_concat]
    obtain ⟨hseen, hhigh, -, hv⟩ | ⟨-, regime, reason, hv⟩ := verify_cases cfg (Antireplay.run cfg ms).1 x
    · rw [hv]
      exact h.accepted hclock hseen hhigh _
    · rw [hv]
      exact h.refused regime reason

variable [IsOrderedAddMonoid τ]

/-- The digests that a purge leaves are those accepted within the retention. -/
theorem History.get?_purge (h : History cfg ms m history) (hclock : Clock (ms ++ [x])) (d : List UInt8) (t : τ) :
    (m.purge (x.purged - cfg.retention)).seen.get? d = some t ↔
      ∃ a ∈ history, a.digest = d ∧ a.recorded = t ∧ x.purged - cfg.retention ≤ t := by
  rw [Antireplay.get?_purge h.sorted]
  constructor
  · rintro ⟨hget, ht⟩
    obtain ⟨a, ha, rfl, rfl⟩ := h.held d t hget
    exact ⟨a, ha, rfl, rfl, ht⟩
  · rintro ⟨a, ha, rfl, rfl, ht⟩
    refine ⟨h.recent _ (fun y hy => ?_) a ha ht, ht⟩
    exact sub_le_sub_right (hclock.of_concat.2.2 y hy).1 _

/-- The checks of a call are what the history says of it. -/
theorem History.accepts_iff (h : History cfg ms m history) (hclock : Clock (ms ++ [x])) :
    ((m.purge (x.purged - cfg.retention)).seen.get? x.digest = none ∧
        (∀ n, m.high.get? x.key = some n → n ≤ x.height) ∧ stale cfg.window x.call.head x.height = none) ↔
      Accepts cfg history x := by
  rw [stale_eq_none]
  constructor
  · rintro ⟨hseen, hhigh, hhead⟩
    refine ⟨fun a ha hd => ?_, fun a ha hk => ?_, hhead⟩
    · by_contra hlt
      have := (h.get?_purge hclock _ _).2 ⟨a, ha, hd, rfl, not_lt.1 hlt⟩
      rw [hseen] at this
      cases this
    · obtain ⟨n, hn, hle⟩ := h.high a ha
      have := hhigh n (hk ▸ hn)
      omega
  · rintro ⟨hdigest, hheight, hhead⟩
    refine ⟨?_, fun n hn => ?_, hhead⟩
    · cases hget : (m.purge (x.purged - cfg.retention)).seen.get? x.digest with
      | none => rfl
      | some t =>
        obtain ⟨a, ha, hd, rfl, ht⟩ := (h.get?_purge hclock _ _).1 hget
        exact absurd (hdigest a ha hd) (not_lt.2 ht)
    · obtain ⟨a, ha, hk, rfl⟩ := h.reached x.key n hn
      exact Int.ofNat_le.2 (hheight a ha hk)

/-- **The replay guard is its specification.** After any well-formed calls under a clock that does not go back, a call
is accepted exactly if the history allows it; the accepted heights of a key do not decrease; the digests held are those
accepted within the retention; and a refusal changes no greatest height and no digest within the retention. -/
theorem verify_spec (cfg : Config τ) (ms : List (Message τ)) (x : Message τ) (hclock : Clock (ms ++ [x])) :
    ((verify cfg (run cfg ms).1 x.call).2.accepted = true ↔ Accepts cfg (run cfg ms).2 x) ∧
    (∀ k, (((run cfg (ms ++ [x])).2.filter fun a => decide (a.key = k)).map Message.height).Pairwise (· ≤ ·)) ∧
    (∀ d t, (run cfg (ms ++ [x])).1.seen.get? d = some t ↔
      ∃ a ∈ (run cfg (ms ++ [x])).2, a.digest = d ∧ a.recorded = t ∧ x.purged - cfg.retention ≤ t) ∧
    ((verify cfg (run cfg ms).1 x.call).2.accepted = false →
      (run cfg (ms ++ [x])).1.high = (run cfg ms).1.high ∧
      ∀ d t, x.purged - cfg.retention ≤ t →
        ((run cfg (ms ++ [x])).1.seen.get? d = some t ↔ (run cfg ms).1.seen.get? d = some t)) := by
  have h := History.run cfg hclock.of_concat.1
  have h' := History.run cfg hclock
  have hheld (d : List UInt8) (t : τ) (hget : (run cfg (ms ++ [x])).1.seen.get? d = some t) :
      x.purged - cfg.retention ≤ t := by
    rw [run_concat] at hget
    obtain ⟨-, -, -, hv⟩ | ⟨-, regime, reason, hv⟩ := verify_cases cfg (run cfg ms).1 x
    · rw [hv] at hget
      change (((run cfg ms).1.purge (x.purged - cfg.retention)).seen.set x.digest x.recorded).get? d = some t at hget
      rw [Ordered.get?_set] at hget
      split at hget
      · rw [← Option.some.inj hget]
        exact (sub_le_self _ cfg.retention_pos.le).trans hclock.of_concat.2.1
      · exact ((get?_purge h.sorted).1 hget).2
    · rw [hv] at hget
      exact ((get?_purge h.sorted).1 hget).2
  have hbound : ∀ y ∈ ms ++ [x], y.purged - cfg.retention ≤ x.purged - cfg.retention := by
    intro y hy
    obtain hy | hy := List.mem_append.1 hy
    · exact sub_le_sub_right (hclock.of_concat.2.2 y hy).1 _
    · exact (List.mem_singleton.1 hy ▸ le_refl _)
  refine ⟨?_, h'.heights, fun d t => ⟨fun hget => ?_, ?_⟩, fun hrefused => ?_⟩
  · rw [← h.accepts_iff hclock]
    obtain ⟨hseen, hhigh, hstale, hv⟩ | ⟨hno, regime, reason, hv⟩ := verify_cases cfg (run cfg ms).1 x
    · rw [hv]
      exact ⟨fun _ => ⟨hseen, hhigh, hstale⟩, fun _ => rfl⟩
    · rw [hv]
      exact ⟨(fun h => by cases h), fun hyes => absurd hyes hno⟩
  · obtain ⟨a, ha, hd, rfl⟩ := h'.held d t hget
    exact ⟨a, ha, hd, rfl, hheld d _ hget⟩
  · rintro ⟨a, ha, rfl, rfl, ht⟩
    exact h'.recent _ hbound a ha ht
  · rw [run_concat]
    obtain ⟨-, -, -, hv⟩ | ⟨-, regime, reason, hv⟩ := verify_cases cfg (run cfg ms).1 x
    · rw [hv] at hrefused
      cases hrefused
    · rw [hv]
      exact ⟨rfl, fun d t ht => (get?_purge h.sorted).trans (and_iff_left ht)⟩

end History

end Guard

/-! ## The guard of the relay -/

/-- A memory has the heights and the digests of a guard. -/
structure Models (g : Relay.Guard) (m : Memory Int) : Prop where
  seen : m.seen = g.seen
  high : ∀ k, m.high.get? k = (g.high.get? k).map Int.ofNat

/-- `Guard.verify` is `verify` where the head is not known and the two readings of the clock are one. -/
theorem verify_guard {cfg : Config Int} {g : Relay.Guard} {m : Memory Int} {x : Message Int} (h : Models g m)
    (hhead : x.head = none) (hnow : x.recorded = x.purged) :
    Models (g.verify cfg.retention x.purged x.key x.height x.digest).1 (verify cfg m x.call).1 ∧
      ((g.verify cfg.retention x.purged x.key x.height x.digest).2 = none ↔
        (verify cfg m x.call).2.accepted = true) := by
  have hpurge : Models (g.purge (x.purged - cfg.retention)) (m.purge (x.purged - cfg.retention)) := by
    refine ⟨?_, h.high⟩
    ext1
    change m.seen.items.dropWhile _ = g.seen.items.dropWhile _
    rw [h.seen]
  have hstale : stale cfg.window x.call.head x.height = none := by
    rw [stale_eq_none, hhead]
    intro n hn
    cases hn
  have hseen : (g.purge (x.purged - cfg.retention)).seen.has x.digest = true ↔
      (m.purge (x.purged - cfg.retention)).seen.get? x.digest ≠ none := by
    rw [← hpurge.seen, Ordered.has_eq_isSome, Option.isSome_iff_ne_none]
  have hhigh : (g.high.get? x.key).any (fun n => decide (x.height < n)) = true ↔
      ¬ ∀ n, m.high.get? x.key = some n → n ≤ x.height := by
    rw [h.high]
    cases g.high.get? x.key <;> simp
  unfold Relay.Guard.verify
  rw [if_neg (by rw [not_or, not_not]; exact ⟨x.key_ne, x.length_digest⟩)]
  obtain ⟨hnone, hle, -, hv⟩ | ⟨hno, regime, reason, hv⟩ := verify_cases cfg m x
  · rw [hv, if_neg fun hs => hseen.1 hs hnone, if_neg fun hs => hhigh.1 hs hle]
    refine ⟨⟨?_, fun k => ?_⟩, fun _ => rfl, fun _ => rfl⟩
    · change ((m.purge (x.purged - cfg.retention)).seen.set x.digest x.recorded) = _
      rw [hpurge.seen, hnow]
      rfl
    · change (if (m.high.get? x.key).all fun n => decide (n < (x.height : Int)) then
          m.high.set x.key (x.height : Int) else m.high).get? k =
        ((if (g.high.get? x.key).all fun n => decide (n < x.height) then
          g.high.set x.key x.height else g.high).get? k).map Int.ofNat
      have hall : (m.high.get? x.key).all (fun n => decide (n < (x.height : Int))) =
          (g.high.get? x.key).all fun n => decide (n < x.height) := by
        rw [h.high]
        cases g.high.get? x.key <;> simp
      rw [hall]
      split
      · rw [Ordered.get?_set, Ordered.get?_set, h.high]
        split <;> rfl
      · exact h.high k
  · rw [hv]
    split
    · exact ⟨⟨hpurge.seen, hpurge.high⟩, (fun h => by cases h), (fun h => by cases h)⟩
    · next hs =>
      rw [if_pos]
      · exact ⟨⟨hpurge.seen, hpurge.high⟩, (fun h => by cases h), (fun h => by cases h)⟩
      · rw [hhigh]
        exact fun hle => hno ⟨not_not.1 fun hne => hs (hseen.2 hne), hle, hstale⟩

/-! ## Two messages -/

def oneConfig : Config Int := ⟨10, 200, by decide, by decide⟩

/-- A message at a height and a time. -/
def oneMessage (height : Nat) (time : Int) : Message Int :=
  ⟨[1], height, List.replicate 32 0, some 100, time, time, by decide, by decide⟩

/-- What was accepted 10 seconds ago is refused once more, and is accepted a second later. -/
theorem verify_spec_again :
    (verify oneConfig (run oneConfig [oneMessage 7 0]).1 (oneMessage 7 10).call).2.accepted = false ∧
      (verify oneConfig (run oneConfig [oneMessage 7 0]).1 (oneMessage 7 11).call).2.accepted = true := by
  have hclock (t : Int) (ht : 0 ≤ t) : Clock ([oneMessage 7 0] ++ [oneMessage 7 t]) := by
    simp [Clock, oneMessage, ht]
  have hrun : (run oneConfig [oneMessage 7 0]).2 = [oneMessage 7 0] := rfl
  refine ⟨?_, ?_⟩
  · rw [Bool.eq_false_iff, ne_eq, (verify_spec oneConfig [oneMessage 7 0] _ (hclock 10 (by decide))).1, hrun]
    intro h
    exact absurd (h.digest _ (List.mem_singleton_self _) rfl) (by decide)
  · refine (verify_spec oneConfig [oneMessage 7 0] _ (hclock 11 (by decide))).1.2 ?_
    rw [hrun]
    refine ⟨fun a ha _ => ?_, fun a ha _ => ?_, fun n hn => ?_⟩
    · obtain rfl := List.mem_singleton.1 ha
      decide
    · obtain rfl := List.mem_singleton.1 ha
      exact le_refl _
    · obtain rfl := Option.some.inj hn
      decide

end Dendra.Relay.Antireplay
