import Dendra.Jobs.Frame

/-!
# What the draw of a job is made of

The beacon of a job, the committee anchored for it, the height at which its pool was frozen, and the
reveals that are still to come.

* `Draw`, `Sows`: the four of one job, and what can happen to them.
* `step_draw`: a step of the module in these terms; `Reachable.draw`: what holds of every job.
-/

namespace Dendra.Jobs

open Word

/-! ## The draw of one job -/

/-- What the draw of one job is made of. -/
@[ext] structure Draw where
  seed : Option Str
  committee : Option Str
  freeze : Option UInt64
  reveals : Set Int

def draw (s : State) (j : Str) : Draw where
  seed := (s.beacons.get? j).map Beacon.seed
  committee := s.workCommittee.get j
  freeze := s.jobPoolFreezeHeight.get j
  reveals := s.queues.pendingReveal.heights j

theorem draw_congr {s s' : State} (h : s'.sown = s.sown) (j : Str) : draw s' j = draw s j := by
  simp only [State.sown, Prod.mk.injEq] at h
  obtain ⟨hb, hw, hf, hr⟩ := h
  rw [draw, draw, hb, hw, hf, hr]

/-- A committee is anchored. -/
def Draw.Anchored (d : Draw) : Prop := ∃ a as, d.committee = some (a :: as)

/-- Who writes seeds: a message, or a block whose seed may or may not be written. -/
inductive Sower
  | hand
  | block (seed : Option Str)

/-- What can happen to the draw of a job. -/
inductive Sow (w : Sower) : Draw → Draw → Prop
  /-- a seed is submitted by hand -/
  | submitted {d : Draw} {seed : Str} (hw : w = .hand) (hs : d.seed = none ∨ d.seed = some []) :
    Sow w d { d with seed := some seed }
  /-- a due reveal is put off -/
  | postponed {d : Draw} {h h' : Int} (hh : h ∈ d.reveals) (hs : d.seed ≠ none) :
    Sow w d { d with reveals := insert h' (d.reveals \ {h}) }
  /-- a due reveal finds no beacon -/
  | dropped {d : Draw} {h : Int} (hs : d.seed = none) : Sow w d { d with reveals := d.reveals \ {h} }
  /-- a due reveal writes the seed where there is none, and the committee is anchored -/
  | revealed {d : Draw} {h : Int} {seed : Str} {wc : Option Str} (hw : w = .block (some seed))
    (hwc : d.Anchored → wc = d.committee) (hf : d.freeze = none → wc = d.committee) :
    Sow w d
      { d with
        seed := d.seed.map fun b => if b = [] then seed else b
        committee := wc
        reveals := d.reveals \ {h} }

/-- A chain of them. -/
abbrev Sown (w : Sower) : Draw → Draw → Prop := Relation.ReflTransGen (Sow w)

section Reveal

variable [Chain] {c : Ctx} {s : State}

/-- Anchoring one committee. -/
theorem anchorWorkCommittee_get (s : State) (k j : Str) :
    ∃ wc, anchorWorkCommittee s k = { s with workCommittee := wc } ∧
      (j ≠ k → wc.get j = s.workCommittee.get j) ∧
      ((draw s j).Anchored → wc.get j = s.workCommittee.get j) ∧
      (s.jobPoolFreezeHeight.get j = none → wc.get j = s.workCommittee.get j) := by
  unfold anchorWorkCommittee
  split
  · exact ⟨_, rfl, fun _ => rfl, fun _ => rfl, fun _ => rfl⟩
  · next hanch =>
    split
    · exact ⟨_, rfl, fun _ => rfl, fun _ => rfl, fun _ => rfl⟩
    · exact ⟨_, rfl, fun _ => rfl, fun _ => rfl, fun _ => rfl⟩
    · next a as hd =>
      refine ⟨_, rfl, fun hj => Store.get_set_ne hj, ?_, fun hf => ?_⟩
      · rintro ⟨b, bs, hb⟩
        have hj : j ≠ k := by
          rintro rfl
          exact hanch b bs hb
        exact Store.get_set_ne hj
      · have hj : j ≠ k := by
          rintro rfl
          unfold deriveCommitteeOrdered jobPoolFreeze at hd
          rw [hf] at hd
          cases hseed : workSeed s j with
          | error e =>
            rw [hseed] at hd
            cases hd
          | ok seed =>
            rw [hseed] at hd
            cases hd
        exact Store.get_set_ne hj

omit [Chain] in
/-- A due reveal that is put off. -/
theorem deferReveal_sow {h : Int} {k : Str} (hk : qkey h k ∈ s.queues.pendingReveal.entries)
    (w : Sower) (j : Str) : Sown w (draw s j) (draw (deferReveal c s (qkey h k)) j) := by
  unfold deferReveal
  by_cases hj : j = k
  · subst hj
    split
    · next hb =>
      have hseed : (draw s j).seed ≠ none := by
        intro hn
        rw [Table.has_eq_isSome] at hb
        rw [draw, Option.map_eq_none_iff] at hn
        change (s.beacons.get? j).isSome = true at hb
        rw [hn] at hb
        cases hb
      refine .single ?_
      have hsow : Sow w (draw s j) { draw s j with
          reveals := insert (addInt64 c.h auditDeferStride) ((draw s j).reveals \ {h}) } :=
        .postponed hk hseed
      convert hsow using 1
      ext1
      · rfl
      · rfl
      · rfl
      · show Queue.heights ((s.queues.pendingReveal.remove (qkey h j)).insert
          (qkey (addInt64 c.h auditDeferStride) j)) j = _
        rw [Queue.heights_insert_self, Queue.heights_remove_self]
        rfl
    · next hb =>
      have hseed : (draw s j).seed = none := by
        rw [Table.has_eq_isSome, Bool.not_eq_true] at hb
        rw [draw, Option.map_eq_none_iff]
        exact Option.isSome_eq_false_iff.1 hb |> Option.isNone_iff_eq_none.1
      refine .single ?_
      convert Sow.dropped (w := w) (d := draw s j) (h := h) hseed using 1
      ext1
      · rfl
      · rfl
      · rfl
      · exact Queue.heights_remove_self
  · have hsame : draw (deferReveal c s (qkey h k)) j = draw s j := by
      unfold deferReveal
      split
      · ext1
        · rfl
        · rfl
        · rfl
        · exact (Queue.heights_insert_ne hj).trans (Queue.heights_remove_ne hj)
      · ext1
        · rfl
        · rfl
        · rfl
        · exact Queue.heights_remove_ne hj
    unfold deferReveal at hsame
    rw [hsame]

omit [Chain] in
/-- The seed that a due reveal writes. -/
theorem writeSeed_eq (s : State) (seed k j : Str) : ∃ b,
    (match s.beacons.get? k with
      | some b =>
        if b.seed = [] then { s with beacons := s.beacons.put { b with seed := seed } } else s
      | none => s) = { s with beacons := b } ∧ (j ≠ k → b.get? j = s.beacons.get? j) ∧
    (b.get? k).map Beacon.seed =
      ((s.beacons.get? k).map Beacon.seed).map fun b => if b = [] then seed else b := by
  cases hb : s.beacons.get? k with
  | none => exact ⟨_, rfl, fun _ => rfl, by rw [hb]; rfl⟩
  | some b =>
    have hk : b.jobId = k := Table.key_of_get? hb
    subst hk
    simp only
    split
    · next hseed =>
      refine ⟨_, rfl, fun hj => Table.get?_put_ne (v := { b with seed := seed }) hj, ?_⟩
      have hself := Table.get?_put_self (t := s.beacons) (v := { b with seed := seed })
      change (s.beacons.put { b with seed := seed }).get? b.jobId = _ at hself
      rw [hself, Option.map_some, Option.map_some, Option.map_some, if_pos hseed]
    · next hseed =>
      refine ⟨_, rfl, fun _ => rfl, ?_⟩
      rw [hb, Option.map_some, Option.map_some, if_neg hseed]

/-- A due reveal writes one beacon and one committee. -/
theorem revealOne_eq (s : State) (seed : Str) (h : Int) (k j : Str) : ∃ b wc,
    revealOne seed s (qkey h k) =
      removeReveal (qkey h k) { s with beacons := b, workCommittee := wc } ∧
    ((j ≠ k → b.get? j = s.beacons.get? j) ∧ (b.get? k).map Beacon.seed =
      ((s.beacons.get? k).map Beacon.seed).map fun b => if b = [] then seed else b) ∧
    (j ≠ k → wc.get j = s.workCommittee.get j) ∧
    ((draw { s with beacons := b } j).Anchored → wc.get j = s.workCommittee.get j) ∧
    (s.jobPoolFreezeHeight.get j = none → wc.get j = s.workCommittee.get j) := by
  obtain ⟨b, hb, hbeacon⟩ := writeSeed_eq s seed k j
  obtain ⟨wc, hwc, hcommittee⟩ := anchorWorkCommittee_get { s with beacons := b } k j
  refine ⟨b, wc, ?_, hbeacon, hcommittee⟩
  exact (congrArg (fun s₁ => removeReveal (qkey h k) (anchorWorkCommittee s₁ k)) hb).trans
    (congrArg (removeReveal (qkey h k)) hwc)

/-- A due reveal. -/
theorem revealOne_sow (seed : Str) (h : Int) (k j : Str) :
    Sown (.block (some seed)) (draw s j) (draw (revealOne seed s (qkey h k)) j) := by
  obtain ⟨b, wc, hone, ⟨hbj, hbk⟩, hne, hanch, hf⟩ := revealOne_eq s seed h k j
  rw [hone]
  by_cases hj : j = k
  · subst hj
    refine .single ?_
    have hsow : Sow (.block (some seed)) (draw s j) { draw s j with
        seed := (draw s j).seed.map fun b => if b = [] then seed else b
        committee := wc.get j
        reveals := (draw s j).reveals \ {h} } :=
      .revealed rfl hanch hf
    convert hsow using 1
    ext1
    · exact hbk
    · rfl
    · rfl
    · exact Queue.heights_remove_self
  · have hsame : draw (removeReveal (qkey h k) { s with beacons := b, workCommittee := wc }) j =
        draw s j := by
      ext1
      · exact congrArg (Option.map Beacon.seed) (hbj hj)
      · exact hne hj
      · rfl
      · exact Queue.heights_remove_ne hj
    rw [hsame]

theorem revealOne_reveals (seed : Str) (h : Int) (k : Str) :
    (revealOne seed s (qkey h k)).queues.pendingReveal =
      s.queues.pendingReveal.remove (qkey h k) := by
  obtain ⟨b, wc, hone, -⟩ := revealOne_eq s seed h k k
  rw [hone]
  rfl

omit [Chain] in
/-- A pass over entries that are all there, each once. -/
theorem sown_pass {g : State → QueueKey → State} {w : Sower} {j : Str}
    (hg : ∀ s h k, qkey h k ∈ s.queues.pendingReveal.entries →
      Sown w (draw s j) (draw (g s (qkey h k)) j) ∧
      ∀ key, key ≠ qkey h k → key ∈ s.queues.pendingReveal.entries →
        key ∈ (g s (qkey h k)).queues.pendingReveal.entries)
    {l : List QueueKey} (hl : l.Nodup) (hs : ∀ key ∈ l, key ∈ s.queues.pendingReveal.entries) :
    Sown w (draw s j) (draw (l.foldl g s) j) := by
  induction l generalizing s with
  | nil => exact .refl
  | cons key l ih =>
    obtain ⟨hnot, hl⟩ := List.nodup_cons.1 hl
    obtain ⟨hsow, hrest⟩ := hg s (ofLex key).1 (ofLex key).2 (hs key List.mem_cons_self)
    refine hsow.trans (ih hl fun key' hkey' => ?_)
    refine hrest key' ?_ (hs key' (List.mem_cons_of_mem _ hkey'))
    rintro rfl
    exact hnot hkey'

/-- The reveal pass: it writes the seed of the block, unless a decentralised one is asked for and
missing. -/
theorem runReveal_sown (c : Ctx) (s : State) (seed : Str) (j : Str) :
    Sown (.block (if s.params.committeeSeedSource = 1 ∧
      (committeeBaseSeedSourced c s.params seed).2 = false then none else some seed)) (draw s j) (draw (runReveal c seed s) j) := by
  have hnodup := Queue.nodup_due s.queues.pendingReveal c.h revealMaxPerBlock
  have hmem : ∀ key ∈ s.queues.pendingReveal.due c.h revealMaxPerBlock,
      key ∈ s.queues.pendingReveal.entries := fun key hkey => (Queue.mem_due hkey).1
  unfold runReveal
  simp only
  by_cases hmissing : s.params.committeeSeedSource = 1 ∧
      (committeeBaseSeedSourced c s.params seed).2 = false
  · rw [if_pos hmissing]
    by_cases hdue : s.queues.pendingReveal.due c.h revealMaxPerBlock = []
    · rw [hdue, if_neg fun h => h.2.1 rfl]
      exact .refl
    · rw [if_pos ⟨hmissing.1, hdue, hmissing.2⟩]
      refine sown_pass (fun s h k hk => ⟨deferReveal_sow hk _ j, fun key hne hkey => ?_⟩) hnodup hmem
      unfold deferReveal
      split
      · exact KeySet.mem_insert.2 (.inr (KeySet.mem_remove.2 ⟨hkey, hne⟩))
      · exact KeySet.mem_remove.2 ⟨hkey, hne⟩
  · rw [if_neg hmissing, if_neg fun h => hmissing ⟨h.1, h.2.2⟩]
    refine sown_pass (fun s h k hk => ⟨revealOne_sow seed h k j, fun key hne hkey => ?_⟩) hnodup hmem
    rw [revealOne_reveals]
    exact KeySet.mem_remove.2 ⟨hkey, hne⟩

end Reveal

/-! ## The steps -/

section Steps

variable [Chain] {c : Ctx} {s s' : State}

omit [Chain] in
/-- A seed is never empty when its fallback is not. -/
theorem committeeBaseSeed_ne_nil {p : Params} {fallback : Str} (h : fallback ≠ []) :
    committeeBaseSeed c p fallback ≠ [] := by
  unfold committeeBaseSeed committeeBaseSeedSourced
  split
  · exact h
  · split
    · exact h
    · next seed _ =>
      split
      · exact h
      · next hseed =>
        split
        · exact h
        · split
          · exact h
          · split
            · exact h
            · cases seed with
              | nil => exact absurd rfl hseed
              | cons b bs => simp [Str.hex]

omit [Chain] in
theorem blockSeed_ne_nil (c : Ctx) (p : Params) : blockSeed c p ≠ [] :=
  committeeBaseSeed_ne_nil (List.append_ne_nil_of_right_ne_nil _ (List.cons_ne_nil _ _))

omit [Chain] in
theorem scheduleExpiry_sown (j : Str) (fee : UInt64) (s : State) :
    (scheduleExpiry c j fee s).sown = s.sown := by
  unfold scheduleExpiry
  split <;> rfl

/-- The draw of a job that is opened, over what was there before. -/
structure Draw.Opened (d d' : Draw) : Prop where
  freeze : d'.freeze ≠ none
  seeded : (∃ seed, seed ≠ [] ∧ d'.seed = some seed ∧ d'.reveals = d.reveals) ∨
    ∃ h, d'.seed = some [] ∧ d'.reveals = insert h d.reveals
  anchored : d.Anchored → d'.committee = d.committee

omit [Chain] in
/-- The beacon of a new job. -/
theorem openBeacon_draw (c : Ctx) (s : State) (j k : Str) :
    (k ≠ j → draw (openBeacon c j s) k = draw s k) ∧
    (draw (openBeacon c j s) j).committee = (draw s j).committee ∧
    ((∃ seed, seed ≠ [] ∧ (draw (openBeacon c j s) j).seed = some seed ∧
        (draw (openBeacon c j s) j).reveals = (draw s j).reveals) ∨
      ∃ h, (draw (openBeacon c j s) j).seed = some [] ∧
        (draw (openBeacon c j s) j).reveals = insert h (draw s j).reveals) := by
  unfold openBeacon
  simp only
  split
  · refine ⟨fun hk => ?_, rfl, .inl ⟨committeeBaseSeed c s.params
      (Str.formatInt c.h ++ ':' :: Str.formatInt c.unixNano), committeeBaseSeed_ne_nil (by simp), ?_,
      rfl⟩⟩
    · ext1
      · exact congrArg (Option.map Beacon.seed) (Table.get?_put_ne hk)
      · rfl
      · rfl
      · rfl
    · exact congrArg (Option.map Beacon.seed) (Table.get?_put_self (t := s.beacons) (v := ⟨j, _, []⟩))
  · refine ⟨fun hk => ?_, rfl, .inr ⟨_, ?_, Queue.heights_insert_self⟩⟩
    · ext1
      · exact congrArg (Option.map Beacon.seed) (Table.get?_put_ne hk)
      · rfl
      · rfl
      · exact Queue.heights_insert_ne hk
    · exact congrArg (Option.map Beacon.seed)
        (Table.get?_put_self (t := s.beacons) (v := ⟨j, [], []⟩))

theorem openJob_draw {msg : MsgOpenJob} (h : openJob c msg s = .ok s') (k : Str) :
    (k ≠ msg.jobId → draw s' k = draw s k) ∧
      (draw s msg.jobId).Opened (draw s' msg.jobId) := by
  simp only [openJob, bind_ok, ensure_ok, pure_ok] at h
  obtain ⟨-, -, -, -, -, -, f, -, -, -, -, -, rfl⟩ := h
  obtain ⟨hne, hwc, hseed⟩ := openBeacon_draw c (s.setFunds f) msg.jobId k
  generalize openBeacon c msg.jobId (s.setFunds f) = s₁ at hne hwc hseed ⊢
  -- the pool is frozen, and the record and the appointment are written
  generalize hs₂ : State.setJob (newJob msg) (scheduleExpiry c msg.jobId msg.fee
    { s₁ with
      jobPoolFreezeHeight := s₁.jobPoolFreezeHeight.set msg.jobId (frozenPoolAnchor c) }) = s₂
  have hsown : s₂.sown = { s₁ with
      jobPoolFreezeHeight := s₁.jobPoolFreezeHeight.set msg.jobId (frozenPoolAnchor c) }.sown := by
    rw [← hs₂]
    exact scheduleExpiry_sown _ _ _
  have hother : k ≠ msg.jobId → draw s₂ k = draw s k := by
    intro hk
    rw [draw_congr hsown, ← show draw (s.setFunds f) k = draw s k from rfl, ← hne hk]
    ext1
    · rfl
    · rfl
    · exact Store.get_set_ne hk
    · rfl
  have hself : draw s₂ msg.jobId =
      { draw s₁ msg.jobId with freeze := some (frozenPoolAnchor c) } := by
    rw [draw_congr hsown]
    ext1
    · rfl
    · rfl
    · exact Store.get_set_self
    · rfl
  have hopened : (draw s msg.jobId).Opened (draw s₂ msg.jobId) := by
    rw [hself]
    exact ⟨Option.some_ne_none _, hseed, fun _ => hwc⟩
  split
  · obtain ⟨wc, hwc', hne', hanch, -⟩ := anchorWorkCommittee_get s₂ msg.jobId k
    obtain ⟨wc₂, hwc₂, -, hanch₂, -⟩ := anchorWorkCommittee_get s₂ msg.jobId msg.jobId
    refine ⟨fun hk => ?_, ?_⟩
    · rw [← hother hk, hwc']
      ext1
      · rfl
      · exact hne' hk
      · rfl
      · rfl
    · rw [hwc₂]
      refine ⟨hopened.freeze, hopened.seeded, fun ha => ?_⟩
      have hsame := hopened.anchored ha
      refine (hanch₂ ?_).trans hsame
      obtain ⟨a, as, has⟩ := ha
      exact ⟨a, as, hsame.trans has⟩
  · exact ⟨hother, hopened⟩

theorem submitVrfBeacon_draw {msg : MsgSubmitVrfBeacon} (h : submitVrfBeacon msg s = .ok s')
    (j : Str) : Sown .hand (draw s j) (draw s' j) := by
  simp only [submitVrfBeacon, bind_ok, ensure_ok, require_ok, pure_ok] at h
  obtain ⟨-, -, -, -, pk, -, pi, -, beta, -, -, hfree, rfl⟩ := h
  by_cases hj : j = msg.jobId
  · subst hj
    refine .single ?_
    have hsub : (draw s msg.jobId).seed = none ∨ (draw s msg.jobId).seed = some [] := by
      cases hb : s.beacons.get? msg.jobId with
      | none =>
        left
        rw [draw, hb]
        rfl
      | some b =>
        right
        rw [hb] at hfree
        have hseed : b.seed = [] := by simpa using hfree
        rw [draw, hb, Option.map_some, hseed]
    have hsow : Sow .hand (draw s msg.jobId)
        { draw s msg.jobId with seed := some (Str.hex beta) } := .submitted rfl hsub
    convert hsow using 1
    ext1
    · exact congrArg (Option.map Beacon.seed)
        (Table.get?_put_self (t := s.beacons) (v := ⟨msg.jobId, Str.hex beta, msg.creator⟩))
    · rfl
    · rfl
    · rfl
  · have hsame : draw { s with
        beacons := s.beacons.put ⟨msg.jobId, Str.hex beta, msg.creator⟩ } j = draw s j := by
      ext1
      · exact congrArg (Option.map Beacon.seed) (Table.get?_put_ne hj)
      · rfl
      · rfl
      · rfl
    rw [hsame]

/-- What the reveal pass of a block may write. -/
def revealSeed (c : Ctx) (s : State) : Option Str :=
  if s.params.committeeSeedSource = 1 ∧
      (committeeBaseSeedSourced c s.params (blockSeed c s.params)).2 = false then none
  else some (blockSeed c s.params)

omit [Chain] in
theorem expiry_params {g : State → QueueKey → State} (hg : ∀ s key, (g s key).params = s.params)
    (l : List QueueKey) (s : State) : (l.foldl g s).params = s.params := by
  induction l generalizing s with
  | nil => rfl
  | cons key l ih => exact (ih (g s key)).trans (hg s key)

theorem runExpiry_params (c : Ctx) (s : State) : (runExpiry c s).params = s.params := by
  refine expiry_params (fun s key => ?_) _ s
  unfold expireOne expireUnservedJob
  split
  · rfl
  · split
    · rfl
    · split
      · rfl
      · split
        · rfl
        · split
          · rfl
          · unfold refundEscrow
            simp only
            split <;> rfl

theorem endBlock_draw (h : endBlock c s = .ok s') (j : Str) :
    Sown (.block (revealSeed c s)) (draw s j) (draw s' j) := by
  have hreveal := runReveal_sown c (runExpiry c s) (blockSeed c s.params) j
  rw [draw_congr (sown_of_kept (kept_of_noted (runExpiry_noted c s))) j, runExpiry_params] at hreveal
  rw [draw_congr (endBlock_sown c s h) j]
  exact hreveal

/-- Who writes the seeds of an action. -/
def Action.sower (c : Ctx) (s : State) : Action → Sower
  | .endBlock => .block (revealSeed c s)
  | _ => .hand

/-- What a step does to the draw of a job that it does not open. -/
theorem step_draw {a : Action} {j : Str} (h : Step s (c, a) s')
    (ha : ∀ msg, a = .openJob msg → msg.jobId ≠ j) :
    Sown (a.sower c s) (draw s j) (draw s' j) := by
  have hsown : s'.sown = s.sown → Sown (a.sower c s) (draw s j) (draw s' j) := by
    intro hs
    rw [draw_congr hs j]
  cases a with
  | openJob msg => rw [(openJob_draw h j).1 (ha msg rfl).symm]
  | submitVrfBeacon msg => exact submitVrfBeacon_draw h j
  | endBlock => exact endBlock_draw h j
  | createMiner msg => exact hsown (sown_of_kept (createMiner_kept c msg s' h))
  | deleteMiner msg => exact hsown (sown_of_kept (deleteMiner_kept c msg s' h))
  | proveAvailability msg => exact hsown (proveAvailability_sown c msg s' h)
  | updateParams msg => exact hsown (updateParams_sown msg s' h)
  | _ => exact hsown (sown_of_kept (kept_of_noted (step_noted h trivial)))

end Steps

/-! ## Reachable states -/

/-- The draw of a job that exists has its pool and its beacon, and one reveal to come for a beacon
without a seed; nothing is drawn for a job that does not exist. -/
structure Draw.Sound (opened : Prop) (d : Draw) : Prop where
  absent : ¬ opened → d.committee = none ∧ d.freeze = none ∧ d.reveals = ∅
  freeze : opened → d.freeze ≠ none
  seeded : opened → ∃ seed, d.seed = some seed ∧ d.reveals.Subsingleton ∧
    (seed = [] → d.reveals.Nonempty)

section Sound

variable {w : Sower} {d d' : Draw} {e : Prop}

theorem Sow.sound (hw : w ≠ .block (some [])) (h : d.Sound e) (hs : Sow w d d') : d'.Sound e := by
  cases hs with
  | submitted hhand hseed =>
    refine ⟨h.absent, h.freeze, fun he => ?_⟩
    obtain ⟨seed, hd, hsub, hne⟩ := h.seeded he
    refine ⟨_, rfl, hsub, fun _ => hne ?_⟩
    rcases hseed with hn | hn
    · rw [hd] at hn
      cases hn
    · rw [hd] at hn
      exact Option.some.inj hn
  | @postponed k k' hh hseed =>
    refine ⟨fun he => ?_, h.freeze, fun he => ?_⟩
    · have hempty := (h.absent he).2.2
      rw [hempty] at hh
      cases hh
    · obtain ⟨seed, hd, hsub, -⟩ := h.seeded he
      refine ⟨seed, hd, ?_, fun _ => Set.insert_nonempty _ _⟩
      have hone : d.reveals \ {k} = ∅ := by
        rw [Set.sdiff_eq_empty]
        intro x hx
        exact hsub hx hh
      simp only [hone]
      rw [insert_empty_eq]
      exact Set.subsingleton_singleton
  | dropped hseed =>
    refine ⟨fun he => ?_, h.freeze, fun he => ?_⟩
    · obtain ⟨hc, hf, hr⟩ := h.absent he
      refine ⟨hc, hf, ?_⟩
      simp only [hr, Set.empty_sdiff]
    · obtain ⟨seed, hd, -⟩ := h.seeded he
      rw [hseed] at hd
      cases hd
  | revealed hseed hwc hf =>
    refine ⟨fun he => ?_, h.freeze, fun he => ?_⟩
    · obtain ⟨hc, hfz, hr⟩ := h.absent he
      refine ⟨(hf hfz).trans hc, hfz, ?_⟩
      simp only [hr, Set.empty_sdiff]
    · obtain ⟨seed, hd, hsub, -⟩ := h.seeded he
      refine ⟨_, congrArg (Option.map _) hd, hsub.anti Set.sdiff_subset, fun hempty => ?_⟩
      simp only at hempty
      split at hempty
      · subst hempty
        exact absurd hseed hw
      · next hne => exact absurd hempty hne

theorem Sown.sound (hw : w ≠ .block (some [])) (h : d.Sound e) (hs : Sown w d d') : d'.Sound e := by
  induction hs with
  | refl => exact h
  | tail _ hs ih => exact hs.sound hw ih

/-- The draw of a job at its opening. -/
theorem Draw.Opened.sound (h : d.Sound False) (ho : d.Opened d') : d'.Sound True := by
  obtain ⟨-, -, hr⟩ := h.absent id
  refine ⟨fun hn => absurd trivial hn, fun _ => ho.freeze, fun _ => ?_⟩
  rcases ho.seeded with ⟨seed, hne, hseed, hrev⟩ | ⟨k, hseed, hrev⟩
  · refine ⟨seed, hseed, ?_, fun he => absurd he hne⟩
    rw [hrev, hr]
    exact Set.subsingleton_empty
  · refine ⟨[], hseed, ?_, fun _ => ?_⟩
    · rw [hrev, hr, insert_empty_eq]
      exact Set.subsingleton_singleton
    · rw [hrev]
      exact Set.insert_nonempty _ _

/-- A seed that is there stays. -/
theorem Sow.seed_kept {seed : Str} (hs : Sow w d d') (hseed : d.seed = some seed) (hne : seed ≠ []) :
    d'.seed = some seed := by
  cases hs with
  | submitted hhand hfree =>
    rcases hfree with hn | hn
    · rw [hseed] at hn
      cases hn
    · rw [hseed] at hn
      exact absurd (Option.some.inj hn) hne
  | postponed hh hs => exact hseed
  | dropped hs => exact hseed
  | revealed hw hwc hf => simp only [hseed, Option.map_some, if_neg hne]

theorem Sown.seed_kept {seed : Str} (hs : Sown w d d') (hseed : d.seed = some seed)
    (hne : seed ≠ []) : d'.seed = some seed := by
  induction hs with
  | refl => exact hseed
  | tail _ hs ih => exact hs.seed_kept ih hne

/-- A block writes its own seed, or none. -/
theorem Sown.seed_block {o : Option Str} (hs : Sown (.block o) d d') :
    d'.seed = d.seed ∨ (∃ seed, o = some seed ∧ d'.seed = some seed) := by
  induction hs with
  | refl => exact .inl rfl
  | @tail d₁ d₂ _ hs ih =>
    cases hs with
    | submitted hhand => cases hhand
    | postponed hh hs => exact ih
    | dropped hs => exact ih
    | @revealed k seed wc hw hwc hf =>
      have ho : o = some seed := Sower.block.inj hw
      cases hd : d₁.seed with
      | none =>
        rw [hd] at ih
        exact ih
      | some b =>
        by_cases hb : b = []
        · refine .inr ⟨seed, ho, ?_⟩
          simp only [Option.map_some, if_pos hb]
        · rw [hd] at ih
          simp only [Option.map_some, if_neg hb]
          exact ih

/-- A committee that is anchored stays. -/
theorem Sow.anchored (hs : Sow w d d') (ha : d.Anchored) : d'.committee = d.committee := by
  cases hs with
  | submitted => rfl
  | postponed => rfl
  | dropped => rfl
  | revealed hw hwc hf => exact hwc ha

theorem Sown.anchored (hs : Sown w d d') (ha : d.Anchored) : d'.committee = d.committee := by
  induction hs with
  | refl => rfl
  | tail _ hs ih =>
    obtain ⟨a, as, hd⟩ := ha
    exact (hs.anchored ⟨a, as, ih.trans hd⟩).trans ih

end Sound

/-- A job is never forgotten, and only opening makes one. -/
theorem Life.job_ne_none {e : Label} {v v' : View} (h : Life e v v')
    (he : ∀ client, e ≠ .opening client) : v'.job ≠ none ↔ v.job ≠ none := by
  cases h with
  | opened => exact absurd rfl (he _)
  | marked hj => simp [hj]
  | settled hj => simp [hj]
  | expired hj => simp [hj]
  | disputed hj => simp [hj]
  | passed hh hj => simp [hj]
  | summoned hh hj => simp [hj]
  | closed hj => simp [hj]
  | quiet | dropped | retried | undrawn | deferred | rereleased | unqueued => rfl

section Reachable

variable [Chain] {ok : State → Ctx × Action → Prop} {c : Ctx} {s s' : State} {a : Action} {j : Str}

theorem State.Wf.job_eq_none (hw : s.Wf) (hj : ¬ WfJobId j) : s.job j = none := by
  cases hs : s.job j with
  | none => rfl
  | some job => exact absurd (hw.jobs j (Table.has_of_get? hs)) hj

/-- A message that opens a job. -/
theorem step_opened {msg : MsgOpenJob} (h : Step s (c, .openJob msg) s') :
    s.job msg.jobId = none ∧ s'.job msg.jobId ≠ none ∧
      (draw s msg.jobId).Opened (draw s' msg.jobId) := by
  obtain ⟨-, hopened⟩ := openJob_draw h msg.jobId
  obtain ⟨f, -, -, hnone, b, q, frz, wc, -, rfl⟩ := openJob_spec h
  have hself : (s.jobs.put (newJob msg)).get? msg.jobId = some (newJob msg) :=
    Table.get?_put_self (v := newJob msg)
  refine ⟨hnone, fun hn => ?_, hopened⟩
  cases hself.symm.trans hn

/-- No other step makes a job, and none forgets one. -/
theorem step_job (hw : s.Wf) (h : Step s (c, a) s') (ha : ∀ msg, a = .openJob msg → msg.jobId ≠ j) :
    s'.job j ≠ none ↔ s.job j ≠ none := by
  by_cases hopen : ∃ msg, a = .openJob msg
  · obtain ⟨msg, rfl⟩ := hopen
    obtain ⟨f, -, -, -, b, q, frz, wc, -, rfl⟩ := openJob_spec h
    have hne : (s.jobs.put (newJob msg)).get? j = s.jobs.get? j :=
      Table.get?_put_ne (v := newJob msg) (ha msg rfl).symm
    exact not_congr (Eq.congr_left hne)
  · obtain ⟨hw', hl⟩ := step_lives hw h
    by_cases hj : WfJobId j
    · refine Lives.invariant (P := fun v => v.job ≠ none ↔ s.job j ≠ none)
        (fun e v v' he hv hl => (hl.job_ne_none ?_).trans hv) (hl j hj) Iff.rfl
      rintro client rfl
      obtain ⟨msg, rfl, -⟩ := he
      exact hopen ⟨msg, rfl⟩
    · rw [hw.job_eq_none hj, hw'.job_eq_none hj]

omit [Chain] in
theorem Action.sower_ne (a : Action) : a.sower c s ≠ .block (some []) := by
  cases a with
  | endBlock =>
    unfold Action.sower revealSeed
    simp only
    split
    · exact fun h => nomatch h
    · exact fun h => blockSeed_ne_nil c s.params (Option.some.inj (Sower.block.inj h))
  | _ => exact fun h => nomatch h

omit [Chain] in
theorem Draw.Sound.congr {p q : Prop} {d : Draw} (hpq : p ↔ q) (h : d.Sound p) : d.Sound q :=
  propext hpq ▸ h

/-- The draw of every job is sound in every reachable state. -/
theorem Reachable.draw (h : Reachable ok s) (j : Str) : (draw s j).Sound (s.job j ≠ none) := by
  refine Reach.invariant (P := fun s => (Jobs.draw s j).Sound (s.job j ≠ none)) ?_
    (fun s a s' hr hd _ hs => ?_) h
  · rintro s ⟨p, balance, outside, -, rfl⟩
    refine ⟨fun _ => ⟨rfl, rfl, ?_⟩, fun hj => absurd rfl hj, fun hj => absurd rfl hj⟩
    exact Set.eq_empty_of_forall_notMem fun x hx => nomatch hx
  · obtain ⟨c, a⟩ := a
    by_cases ha : ∃ msg, a = .openJob msg ∧ msg.jobId = j
    · obtain ⟨msg, rfl, rfl⟩ := ha
      obtain ⟨hnone, hsome, hopened⟩ := step_opened hs
      exact (hopened.sound (hd.congr (by simp [hnone]))).congr (by simp [hsome])
    · have ha : ∀ msg, a = .openJob msg → msg.jobId ≠ j := fun msg h e => ha ⟨msg, h, e⟩
      exact ((step_draw hs ha).sound a.sower_ne hd).congr
        (step_job (Reachable.wf hr) hs ha).symm

end Reachable

end Dendra.Jobs
