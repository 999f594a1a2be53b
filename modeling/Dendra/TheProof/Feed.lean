import Dendra.Lib.Str

/-!
# The served payload

`services/the_proof.py`: a slow builder and a light reader of the chain replace the payload that every request is
answered with, each under the lock (`publish`, `publish_chain`), and a request strips from it what is too old
(`serve_body`).

The lock makes each replacement one event. A build may have read the chain long before it is published.

* `feed_marks`: the payload carries the facts of the last build that succeeded, and says whether a later one failed.
* `feed_verdict`: what a served verdict about now rests on.
* `feed_newest`: it comes from the newest reading.
-/

namespace Dendra.TheProof.Feed

/-- `STALE_BLOCK_S`, as `read_stale_s` accepts it. -/
structure Threshold where
  seconds : Int
  low : 60 ≤ seconds
  high : seconds ≤ 86400

/-- The `chain` section. -/
structure Chain where
  height : Option Int
  lastBlockEpoch : Option Int
  lastBlockAgeS : Option Int
  stale : Option Bool
  staleThresholdS : Int
  readAt : Int
  verdictWithdrawn : Option Str
  deriving DecidableEq

/-- The payload, `φ` its other sections. -/
structure Doc (φ : Type) where
  generatedAt : Int
  facts : φ
  chain : Chain

structure Refresh where
  current : Bool
  attemptedAt : Option Int
  failingSince : Option Int
  reason : Option Str
  snapshotGeneratedAt : Option Int

/-- What is served. Its sections are missing before the first build. -/
structure Payload (φ : Type) where
  facts : Option (Int × φ)
  chain : Option Chain
  refresh : Refresh

structure Cache (φ : Type) where
  payload : Payload φ
  doc : Option (Doc φ)
  failingSince : Option Int
  chain : Option Chain

section Code

variable (T : Threshold) {φ : Type}

/-- `_known_height`. -/
def knownHeight (h : Option Int) : Option Int := h.filter fun n => decide (0 < n)

/-- `chain_block`. -/
def chainBlock (height blockEpoch : Option Int) (readAt : Int) : Chain :=
  let age := (blockEpoch.map fun e => readAt - e).filter fun a => decide (0 < a + T.seconds)
  { height := knownHeight height
    lastBlockEpoch := blockEpoch
    lastBlockAgeS := age
    stale := age.map fun a => decide (T.seconds ≤ a)
    staleThresholdS := T.seconds
    readAt := readAt
    verdictWithdrawn := none }

/-- `kept_payload`, of its section. -/
def keptChain (reason : Option Str) (c : Chain) : Chain :=
  { c with
    lastBlockAgeS := none
    stale := none
    verdictWithdrawn :=
      match reason with
      | none => c.verdictWithdrawn
      | some why => some ((c.verdictWithdrawn.filter fun t => decide (t ≠ [])).getD why) }

/-- `withdrawal_reason`. -/
def withdrawalReason (c : Chain) (now : Int) : Option Str :=
  let gap := now - c.readAt
  if T.seconds ≤ gap then some "the chain reading is older than stale_threshold_s".toList
  else if gap ≤ -T.seconds then
    some "the clock of the feed is behind the chain reading by stale_threshold_s or more".toList
  else none

/-- `serve_body`. -/
def serveBody (body : Payload φ) (now : Int) : Payload φ :=
  match body.chain with
  | none => body
  | some c =>
    match withdrawalReason T c now with
    | none => body
    | some why => { body with chain := some (keptChain (some why) c) }

/-- `new_cache`. -/
def newCache : Cache φ :=
  ⟨⟨none, none, ⟨false, none, none, some "first refresh not completed".toList, none⟩⟩, none, none, none⟩

/-- `_with_newest_chain`. -/
def withNewestChain (cache : Cache φ) (doc : Doc φ) : Doc φ :=
  match cache.chain with
  | none => doc
  | some light => if light.readAt ≤ doc.chain.readAt then doc else { doc with chain := light }

/-- `publish`, of a build that read what it needed. -/
def publishBuilt (now : Int) (doc : Doc φ) (cache : Cache φ) : Cache φ :=
  let doc := withNewestChain cache doc
  { cache with
    payload := ⟨some (doc.generatedAt, doc.facts), some doc.chain, ⟨true, some now, none, none, some doc.generatedAt⟩⟩
    doc := some doc
    failingSince := none }

/-- The section that is served after a failure. -/
def keptOrLight (light : Option Chain) (kept : Chain) : Chain :=
  match light with
  | none => keptChain (some "the last refresh failed".toList) kept
  | some l => if kept.readAt ≤ l.readAt then l else keptChain (some "the last refresh failed".toList) kept

/-- `publish`, of a build that failed. -/
def publishFailed (now : Int) (reason : Str) (cache : Cache φ) : Cache φ :=
  let since := cache.failingSince.getD now
  { cache with
    payload :=
      ⟨cache.doc.map fun d => (d.generatedAt, d.facts), cache.doc.map fun d => keptOrLight cache.chain d.chain,
        ⟨false, some now, some since, some reason, cache.doc.map Doc.generatedAt⟩⟩
    failingSince := some since }

/-- `publish_chain`. -/
def publishChain (light : Chain) (cache : Cache φ) : Cache φ :=
  match cache.doc with
  | none => { cache with chain := some light }
  | some doc =>
    if light.readAt ≤ doc.chain.readAt then { cache with chain := some light }
    else
      { cache with
        payload := { cache.payload with chain := some light }
        doc := some { doc with chain := light }
        chain := some light }

end Code

/-! ## The runs -/

/-- The ends of the builds, in the order of their swaps, and the readings of the light reader between them. -/
inductive Event (φ : Type)
  | built (now : Int) (doc : Doc φ)
  | failed (now : Int) (reason : Str)
  | light (chain : Chain)

variable {φ : Type}

def step (cache : Cache φ) : Event φ → Cache φ
  | .built now doc => publishBuilt now doc cache
  | .failed now reason => publishFailed now reason cache
  | .light chain => publishChain chain cache

def run (events : List (Event φ)) : Cache φ := events.foldl step newCache

theorem run_append (events : List (Event φ)) (e : Event φ) : run (events ++ [e]) = step (run events) e := by
  rw [run, List.foldl_append]
  rfl

/-- A build that succeeded. -/
def Event.doc? : Event φ → Option (Doc φ)
  | .built _ doc => some doc
  | _ => none

def Event.light? : Event φ → Option Chain
  | .light chain => some chain
  | _ => none

/-- The chain that an event has read. -/
def Event.reading? (e : Event φ) : Option Chain := (e.doc?.map Doc.chain).or e.light?

/-- When an attempt failed. -/
def Event.failure? : Event φ → Option Int
  | .failed now _ => some now
  | _ => none

/-- Whether an attempt succeeded. -/
def Event.attempt? (e : Event φ) : Option Bool := (e.doc?.map fun _ => true).or (e.failure?.map fun _ => false)

def lights (events : List (Event φ)) : List Chain := events.filterMap Event.light?

def readings (events : List (Event φ)) : List Chain := events.filterMap Event.reading?

def lastDoc (events : List (Event φ)) : Option (Doc φ) := (events.filterMap Event.doc?).getLast?

def lastAttempt (events : List (Event φ)) : Option Bool := (events.filterMap Event.attempt?).getLast?

/-- What came after the last build that succeeded. -/
def sinceBuilt (events : List (Event φ)) : List (Event φ) := (events.reverse.takeWhile fun e => e.doc?.isNone).reverse

/-- The first attempt that failed since. -/
def firstFailure (events : List (Event φ)) : Option Int := ((sinceBuilt events).filterMap Event.failure?).head?

variable {events : List (Event φ)} {e : Event φ} {c l : Chain} {T : Threshold}

theorem sinceBuilt_append : sinceBuilt (events ++ [e]) = if e.doc?.isNone then sinceBuilt events ++ [e] else [] := by
  unfold sinceBuilt
  rw [List.reverse_append, List.reverse_singleton, List.singleton_append, List.takeWhile_cons]
  split
  · rw [List.reverse_cons]
  · rfl

theorem firstFailure_append : firstFailure (events ++ [e]) =
    if e.doc?.isNone then (firstFailure events).or e.failure? else none := by
  unfold firstFailure
  rw [sinceBuilt_append]
  split
  · rw [List.filterMap_append, List.head?_append]
    cases e <;> rfl
  · rfl

theorem mem_readings_append : c ∈ readings (events ++ [e]) ↔ c ∈ readings events ∨ e.reading? = some c := by
  rw [readings, List.filterMap_append, List.mem_append, ← readings, List.mem_filterMap]
  simp

theorem mem_lights_append : c ∈ lights (events ++ [e]) ↔ c ∈ lights events ∨ e.light? = some c := by
  rw [lights, List.filterMap_append, List.mem_append, ← lights, List.mem_filterMap]
  simp

/-! ## The marks -/

/-- What the payload and the cache say of the builds. -/
structure Marks (events : List (Event φ)) (cache : Cache φ) : Prop where
  doc : cache.doc.map (fun d => (d.generatedAt, d.facts)) = (lastDoc events).map fun d => (d.generatedAt, d.facts)
  since : cache.failingSince = firstFailure events
  facts : cache.payload.facts = (lastDoc events).map fun d => (d.generatedAt, d.facts)
  current : cache.payload.refresh.current = true ↔ lastAttempt events = some true
  failing : cache.payload.refresh.failingSince = firstFailure events
  snapshot : cache.payload.refresh.snapshotGeneratedAt = (lastDoc events).map Doc.generatedAt

theorem withNewestChain_facts (cache : Cache φ) (doc : Doc φ) :
    (withNewestChain cache doc).generatedAt = doc.generatedAt ∧ (withNewestChain cache doc).facts = doc.facts := by
  unfold withNewestChain
  split
  · exact ⟨rfl, rfl⟩
  · split <;> exact ⟨rfl, rfl⟩

theorem Marks.snd {cache : Cache φ} (h : Marks events cache) :
    cache.doc.map Doc.generatedAt = (lastDoc events).map Doc.generatedAt := by
  have hfst := congrArg (Option.map Prod.fst) h.doc
  rwa [Option.map_map, Option.map_map] at hfst

theorem Marks.step {cache : Cache φ} (h : Marks events cache) (e : Event φ) :
    Marks (events ++ [e]) (Feed.step cache e) := by
  cases e with
  | built now doc =>
    obtain ⟨hgen, hfacts⟩ := withNewestChain_facts cache doc
    have hlast : lastDoc (events ++ [.built now doc]) = some doc := by
      simp [lastDoc, Event.doc?]
    have hfail : firstFailure (events ++ [.built now doc]) = none := firstFailure_append
    constructor <;> simp [Feed.step, publishBuilt, hlast, hfail, hgen, hfacts, lastAttempt, Event.attempt?, Event.doc?]
  | failed now reason =>
    have hlast : lastDoc (events ++ [.failed now reason]) = lastDoc events := by
      simp [lastDoc, Event.doc?]
    have hfail : firstFailure (events ++ [.failed now reason]) = some ((firstFailure events).getD now) := by
      rw [firstFailure_append]
      show (firstFailure events).or (some now) = _
      cases firstFailure events <;> rfl
    constructor
    · rw [hlast]
      exact h.doc
    · rw [hfail, ← h.since]
      rfl
    · rw [hlast, ← h.doc]
      rfl
    · simp [Feed.step, publishFailed, lastAttempt, Event.attempt?, Event.doc?, Event.failure?]
    · rw [hfail, ← h.since]
      rfl
    · rw [hlast, ← h.snd]
      rfl
  | light chain =>
    have hlast : lastDoc (events ++ [.light chain]) = lastDoc events := by
      simp [lastDoc, Event.doc?]
    have hattempt : lastAttempt (events ++ [.light chain]) = lastAttempt events := by
      simp [lastAttempt, Event.attempt?, Event.doc?, Event.failure?]
    have hfail : firstFailure (events ++ [.light chain]) = firstFailure events := by
      rw [firstFailure_append]
      exact Option.or_none
    have hkeep : (publishChain chain cache).doc.map (fun d => (d.generatedAt, d.facts)) =
          cache.doc.map (fun d => (d.generatedAt, d.facts)) ∧
        (publishChain chain cache).failingSince = cache.failingSince ∧
        (publishChain chain cache).payload.facts = cache.payload.facts ∧
        (publishChain chain cache).payload.refresh = cache.payload.refresh := by
      unfold publishChain
      split
      · exact ⟨rfl, rfl, rfl, rfl⟩
      · next d hd =>
        split
        · exact ⟨rfl, rfl, rfl, rfl⟩
        · exact ⟨by rw [hd]; rfl, rfl, rfl, rfl⟩
    obtain ⟨hdoc, hsince, hfacts, hrefresh⟩ := hkeep
    constructor
    · rw [hlast, ← h.doc]
      exact hdoc
    · rw [hfail, ← h.since]
      exact hsince
    · rw [hlast, ← h.facts]
      exact hfacts
    · rw [hattempt, ← h.current, Feed.step, hrefresh]
    · rw [hfail, ← h.failing, Feed.step, hrefresh]
    · rw [hlast, ← h.snapshot, Feed.step, hrefresh]

theorem marks (events : List (Event φ)) : Marks events (run events) := by
  induction events using List.reverseRecOn with
  | nil => exact ⟨rfl, rfl, rfl, ⟨nofun, nofun⟩, rfl, rfl⟩
  | append_singleton events e ih =>
    rw [run_append]
    exact ih.step e

/-- After any builds and readings: the payload carries the facts of the last build that succeeded, is marked current
if the last attempt succeeded, and otherwise names the first attempt that failed since. -/
theorem feed_marks (events : List (Event φ)) (now : Int) :
    (serveBody T (run events).payload now).facts = (lastDoc events).map (fun d => (d.generatedAt, d.facts)) ∧
      ((serveBody T (run events).payload now).refresh.current = true ↔ lastAttempt events = some true) ∧
      (serveBody T (run events).payload now).refresh.failingSince = firstFailure events ∧
      (serveBody T (run events).payload now).refresh.snapshotGeneratedAt = (lastDoc events).map Doc.generatedAt := by
  have hserve : (serveBody T (run events).payload now).facts = (run events).payload.facts ∧
      (serveBody T (run events).payload now).refresh = (run events).payload.refresh := by
    unfold serveBody
    split
    · exact ⟨rfl, rfl⟩
    · split <;> exact ⟨rfl, rfl⟩
  have h := marks events
  rw [hserve.1, hserve.2]
  exact ⟨h.facts, h.current, h.failing, h.snapshot⟩

/-! ## The verdicts about now -/

/-- Where the sections of the cache come from. -/
structure Sourced (events : List (Event φ)) (cache : Cache φ) : Prop where
  doc : ∀ d, cache.doc = some d → d.chain ∈ readings events
  light : ∀ l, cache.chain = some l → l ∈ lights events
  served : ∀ c, cache.payload.chain = some c → c.stale ≠ none →
    c ∈ readings events ∧ (cache.payload.refresh.current = false → c ∈ lights events)

theorem lights_subset (h : c ∈ lights events) : c ∈ readings events := by
  obtain ⟨e, he, hc⟩ := List.mem_filterMap.1 h
  refine List.mem_filterMap.2 ⟨e, he, ?_⟩
  cases e with
  | light chain => exact hc
  | _ => cases hc

theorem Sourced.step {cache : Cache φ} (h : Sourced events cache) (e : Event φ) :
    Sourced (events ++ [e]) (Feed.step cache e) := by
  have hlight (l : Chain) (hl : cache.chain = some l) : l ∈ lights (events ++ [e]) :=
    mem_lights_append.2 (.inl (h.light l hl))
  cases e with
  | built now doc =>
    have hdoc : (withNewestChain cache doc).chain ∈ readings (events ++ [.built now doc]) := by
      unfold withNewestChain
      split
      · exact mem_readings_append.2 (.inr rfl)
      · next l hl =>
        split
        · exact mem_readings_append.2 (.inr rfl)
        · exact lights_subset (hlight l hl)
    refine ⟨fun d hd => ?_, hlight, fun c hc _ => ⟨?_, fun hcur => ?_⟩⟩
    · cases hd
      exact hdoc
    · cases hc
      exact hdoc
    · cases hcur
  | failed now reason =>
    refine ⟨fun d hd => mem_readings_append.2 (.inl (h.doc d hd)), hlight, fun c hc hstale => ?_⟩
    -- a kept section has lost its verdict, so this one is the light reading
    have hc : (cache.doc.map fun d => keptOrLight cache.chain d.chain) = some c := hc
    obtain ⟨d, -, rfl⟩ := Option.map_eq_some_iff.1 hc
    have hmem : keptOrLight cache.chain d.chain ∈ lights (events ++ [.failed now reason]) := by
      revert hstale
      unfold keptOrLight
      split
      · exact fun hstale => absurd rfl hstale
      · next l hl =>
        split
        · exact fun _ => hlight l hl
        · exact fun hstale => absurd rfl hstale
    exact ⟨lights_subset hmem, fun _ => hmem⟩
  | light chain =>
    have hnew : chain ∈ lights (events ++ [.light chain]) := mem_lights_append.2 (.inr rfl)
    have hserved (c : Chain) (hc : cache.payload.chain = some c) (hstale : c.stale ≠ none) :
        c ∈ readings (events ++ [.light chain]) ∧
          (cache.payload.refresh.current = false → c ∈ lights (events ++ [.light chain])) :=
      (h.served c hc hstale).imp (fun h => mem_readings_append.2 (.inl h)) fun h hcur =>
        mem_lights_append.2 (.inl (h hcur))
    show Sourced _ (publishChain chain cache)
    unfold publishChain
    split
    · refine ⟨fun d hd => mem_readings_append.2 (.inl (h.doc d hd)), fun l hl => ?_, hserved⟩
      cases hl
      exact hnew
    · next doc hdoc =>
      split
      · refine ⟨fun d hd => mem_readings_append.2 (.inl (h.doc d hd)), fun l hl => ?_, hserved⟩
        cases hl
        exact hnew
      · refine ⟨fun d hd => ?_, fun l hl => ?_, fun c hc _ => ?_⟩
        · cases hd
          exact lights_subset hnew
        · cases hl
          exact hnew
        · cases hc
          exact ⟨lights_subset hnew, fun _ => hnew⟩

theorem sourced (events : List (Event φ)) : Sourced events (run events) := by
  induction events using List.reverseRecOn with
  | nil => constructor <;> simp [run, newCache]
  | append_singleton events e ih =>
    rw [run_append]
    exact ih.step e

/-- What a request is answered: the section of the payload, when that was read near enough, or without its verdict. -/
theorem chain_serveBody {body : Payload φ} {now : Int} (h : (serveBody T body now).chain = some c) :
    body.chain = some c ∧ -T.seconds < now - c.readAt ∧ now - c.readAt < T.seconds ∨
      ∃ k why, body.chain = some k ∧ c = keptChain (some why) k := by
  unfold serveBody at h
  split at h
  next hnone =>
    rw [hnone] at h
    cases h
  next k hk =>
    split at h
    next hwhy =>
      rw [hk] at h
      cases h
      refine .inl ⟨hk, ?_⟩
      unfold withdrawalReason at hwhy
      dsimp only at hwhy
      split at hwhy
      · cases hwhy
      · split at hwhy
        · cases hwhy
        · omega
    next why _ =>
      cases h
      exact .inr ⟨k, why, hk, rfl⟩

theorem epoch_of_stale {height blockEpoch : Option Int} {readAt : Int} {v : Bool}
    (h : (chainBlock T height blockEpoch readAt).stale = some v) : ∃ e, blockEpoch = some e ∧
      0 < readAt - e + T.seconds ∧ v = decide (T.seconds ≤ readAt - e) := by
  unfold chainBlock at h
  obtain ⟨a, ha, rfl⟩ := Option.map_eq_some_iff.1 h
  obtain ⟨ha, hpos⟩ := Option.filter_eq_some_iff.1 ha
  obtain ⟨e, he, rfl⟩ := Option.map_eq_some_iff.1 ha
  exact ⟨e, he, of_decide_eq_true hpos, rfl⟩

/-- A verdict about now that is served comes from a reading nearer than the threshold, after a failed build from one of
the light reader; `stale` is false only when the block that was read is less than two thresholds away from now, and
true only when it is older than now. -/
theorem feed_verdict {now : Int} {v : Bool}
    (hread : ∀ r ∈ readings events, ∃ height blockEpoch readAt, r = chainBlock T height blockEpoch readAt)
    (hc : (serveBody T (run events).payload now).chain = some c) (hv : c.stale = some v) :
    c ∈ readings events ∧ -T.seconds < now - c.readAt ∧ now - c.readAt < T.seconds ∧
      ((serveBody T (run events).payload now).refresh.current = false → c ∈ lights events) ∧
      ∃ e, c.lastBlockEpoch = some e ∧ (v = false → -(2 * T.seconds) < now - e ∧ now - e < 2 * T.seconds) ∧
        (v = true → 0 < now - e) := by
  obtain ⟨hbody, hlow, hhigh⟩ | ⟨k, why, -, rfl⟩ := chain_serveBody hc
  · have hrefresh : (serveBody T (run events).payload now).refresh = (run events).payload.refresh := by
      unfold serveBody
      split
      · rfl
      · split <;> rfl
    obtain ⟨hmem, hlight⟩ := (sourced events).served c hbody (by rw [hv]; exact Option.some_ne_none v)
    rw [hrefresh]
    refine ⟨hmem, hlow, hhigh, hlight, ?_⟩
    obtain ⟨height, blockEpoch, readAt, rfl⟩ := hread c hmem
    obtain ⟨e, he, hpos, rfl⟩ := epoch_of_stale hv
    have hlow : -T.seconds < now - readAt := hlow
    have hhigh : now - readAt < T.seconds := hhigh
    refine ⟨e, he, fun hfresh => ?_, fun hstale => ?_⟩
    · have hage := of_decide_eq_false hfresh
      omega
    · have hage := of_decide_eq_true hstale
      omega
  · cases hv

/-! ## The newest reading -/

/-- The light readings are in the order of their times, and so are those of the builds. -/
structure Timely (events : List (Event φ)) : Prop where
  read : (lights events).Pairwise fun c d => c.readAt ≤ d.readAt
  built : (events.filterMap Event.doc?).Pairwise fun c d => c.chain.readAt ≤ d.chain.readAt

theorem Timely.init (h : Timely (events ++ [e])) : Timely events where
  read := by
    have hl := h.read
    rw [lights, List.filterMap_append] at hl
    exact (List.pairwise_append.1 hl).1
  built := by
    have hb := h.built
    rw [List.filterMap_append] at hb
    exact (List.pairwise_append.1 hb).1

/-- The document of the cache has the newest reading, the payload one that is no older, and the light reading that is
kept is the last one. -/
structure Newest (events : List (Event φ)) (cache : Cache φ) : Prop where
  light : cache.chain = (lights events).getLast?
  doc : ∀ d, cache.doc = some d → ∀ r ∈ readings events, r.readAt ≤ d.chain.readAt
  served : ∀ c, cache.payload.chain = some c → ∃ d, cache.doc = some d ∧ d.chain.readAt ≤ c.readAt

/-- The last light reading is no older than the others. -/
theorem Timely.le_last (h : Timely events) (hl : (lights events).getLast? = some l) (hc : c ∈ lights events) :
    c.readAt ≤ l.readAt := by
  obtain ⟨before, hsplit⟩ := List.getLast?_eq_some_iff.1 hl
  have hsorted := h.read
  rw [hsplit, List.pairwise_append] at hsorted
  rw [hsplit, List.mem_append, List.mem_singleton] at hc
  obtain hc | rfl := hc
  · exact hsorted.2.2 c hc l (List.mem_singleton_self l)
  · exact le_rfl

theorem withNewestChain_le (cache : Cache φ) (doc : Doc φ) :
    doc.chain.readAt ≤ (withNewestChain cache doc).chain.readAt ∧
      ∀ l, cache.chain = some l → l.readAt ≤ (withNewestChain cache doc).chain.readAt := by
  unfold withNewestChain
  split
  next hnone => exact ⟨le_rfl, fun l hl => by rw [hnone] at hl; cases hl⟩
  next l hl =>
    rw [hl]
    split
    next hle => exact ⟨le_rfl, fun k hk => Option.some.inj hk ▸ hle⟩
    next hgt => exact ⟨(not_le.1 hgt).le, fun k hk => (congrArg Chain.readAt (Option.some.inj hk)).ge⟩

theorem le_keptOrLight (light : Option Chain) (kept : Chain) : kept.readAt ≤ (keptOrLight light kept).readAt := by
  unfold keptOrLight
  split
  · exact le_rfl
  · split
    next hle => exact hle
    next => exact le_rfl

theorem Newest.step {cache : Cache φ} (h : Newest events cache) (e : Event φ) (ht : Timely (events ++ [e])) :
    Newest (events ++ [e]) (Feed.step cache e) := by
  have hlights : lights (events ++ [e]) = lights events ++ e.light?.toList := by
    rw [lights, List.filterMap_append]
    cases e <;> rfl
  cases e with
  | built now doc =>
    obtain ⟨hown, hlight⟩ := withNewestChain_le cache doc
    refine ⟨?_, fun d hd r hr => ?_, fun c hc => ?_⟩
    · rw [hlights]
      exact h.light.trans (congrArg List.getLast? (List.append_nil _).symm)
    · cases hd
      obtain hr | hr := mem_readings_append.1 hr
      · obtain ⟨e, he, her⟩ := List.mem_filterMap.1 hr
        cases e with
        | built now' doc' =>
          -- a build before this one
          cases her
          have hb := ht.built
          rw [List.filterMap_append, List.pairwise_append] at hb
          exact (hb.2.2 doc' (List.mem_filterMap.2 ⟨_, he, rfl⟩) doc (by simp [Event.doc?])).trans hown
        | failed now' reason => cases her
        | light chain =>
          cases her
          have hmem : r ∈ lights events := List.mem_filterMap.2 ⟨_, he, rfl⟩
          obtain ⟨l, hl⟩ := Option.isSome_iff_exists.1 (List.getLast?_isSome.2 (List.ne_nil_of_mem hmem))
          exact (ht.init.le_last hl hmem).trans (hlight l (h.light.trans hl))
      · cases hr
        exact hown
    · cases hc
      exact ⟨_, rfl, le_rfl⟩
  | failed now reason =>
    refine ⟨?_, fun d hd r hr => ?_, fun c hc => ?_⟩
    · rw [hlights]
      exact h.light.trans (congrArg List.getLast? (List.append_nil _).symm)
    · obtain hr | hr := mem_readings_append.1 hr
      · exact h.doc d hd r hr
      · cases hr
    · have hc : (cache.doc.map fun d => keptOrLight cache.chain d.chain) = some c := hc
      obtain ⟨d, hd, rfl⟩ := Option.map_eq_some_iff.1 hc
      exact ⟨d, hd, le_keptOrLight _ _⟩
  | light chain =>
    have hlast : some chain = (lights (events ++ [.light chain])).getLast? := by
      rw [hlights, Event.light?, Option.toList_some, List.getLast?_append]
      rfl
    have hold (d : Doc φ) (hd : ∀ r ∈ readings events, r.readAt ≤ d.chain.readAt) (hle : chain.readAt ≤ d.chain.readAt)
        (r : Chain) (hr : r ∈ readings (events ++ [.light chain])) : r.readAt ≤ d.chain.readAt := by
      obtain hr | hr := mem_readings_append.1 hr
      · exact hd r hr
      · cases hr
        exact hle
    show Newest _ (publishChain chain cache)
    unfold publishChain
    split
    next hnone =>
      refine ⟨hlast, fun d hd => ?_, h.served⟩
      rw [hnone] at hd
      cases hd
    next doc hdoc =>
      split
      next hle =>
        refine ⟨hlast, fun d hd => ?_, h.served⟩
        have hd : cache.doc = some d := hd
        obtain rfl := Option.some.inj (hdoc.symm.trans hd)
        exact hold doc (h.doc doc hdoc) hle
      next hgt =>
        have hlt := not_le.1 hgt
        refine ⟨hlast, fun d hd => ?_, fun c hc => ?_⟩
        · cases hd
          exact hold { doc with chain := chain } (fun r hr => (h.doc doc hdoc r hr).trans hlt.le) le_rfl
        · cases hc
          exact ⟨_, rfl, le_rfl⟩

theorem newest (ht : Timely events) : Newest events (run events) := by
  induction events using List.reverseRecOn with
  | nil => constructor <;> simp [run, newCache, lights]
  | append_singleton events e ih =>
    rw [run_append]
    exact (ih ht.init).step e ht

/-- However the light readings fall between the reading of a build and its end: no reading that was published is newer
than the one that is served. -/
theorem feed_newest {now : Int} (ht : Timely events) (hc : (serveBody T (run events).payload now).chain = some c)
    (r : Chain) (hr : r ∈ readings events) : r.readAt ≤ c.readAt := by
  have hserved : ∃ k, (run events).payload.chain = some k ∧ k.readAt = c.readAt := by
    obtain ⟨hbody, -⟩ | ⟨k, why, hk, rfl⟩ := chain_serveBody hc
    · exact ⟨c, hbody, rfl⟩
    · exact ⟨k, hk, rfl⟩
  obtain ⟨k, hk, heq⟩ := hserved
  obtain ⟨d, hd, hle⟩ := (newest ht).served k hk
  exact heq ▸ ((newest ht).doc d hd r hr).trans hle

/-! ## A build that ends late -/

def fiveMinutes : Threshold := ⟨300, by decide, by decide⟩

def lateBlock : Chain := chainBlock fiveMinutes (some 7) (some 150) 160

def earlyBlock : Chain := chainBlock fiveMinutes (some 5) (some 90) 100

/-- A build that read the chain at 100 ends after a light reading at 160; the next one fails. -/
def late : List (Event Unit) :=
  [.light lateBlock, .built 170 ⟨100, (), earlyBlock⟩, .failed 400 "node status unreadable".toList]

theorem chain_late : (serveBody fiveMinutes (run late).payload 400).chain = some lateBlock := by decide

theorem feed_verdict_late : lateBlock ∈ lights late ∧
    ∃ e, lateBlock.lastBlockEpoch = some e ∧ 400 - e < 600 := by
  have hread : ∀ r ∈ readings late, ∃ height epoch readAt, r = chainBlock fiveMinutes height epoch readAt := by
    show ∀ r ∈ [lateBlock, earlyBlock], _
    simp only [List.mem_cons, List.not_mem_nil, or_false]
    rintro r (rfl | rfl)
    · exact ⟨_, _, _, rfl⟩
    · exact ⟨_, _, _, rfl⟩
  obtain ⟨-, -, -, hlight, e, he, hfresh, -⟩ := feed_verdict (v := false) hread chain_late rfl
  exact ⟨hlight rfl, e, he, (hfresh rfl).2⟩

theorem feed_newest_late : earlyBlock.readAt ≤ lateBlock.readAt :=
  feed_newest ⟨by decide, by decide⟩ chain_late earlyBlock (by decide)

end Dendra.TheProof.Feed
