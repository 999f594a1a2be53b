import Dendra.Season.Answers

/-!
# An answer is sealed once

A forward that was answered 200 waits in the private file of its day and then appears in one record of the
evidence, that of its day; each job of a sample is written once. What carries it: a job that was filed is in
memory until its day is sealed, and a day takes no answer once it is over.

The memory forgets a job that was sealed and not drawn, so its forward is filed again: `sealed_twice`.

* `Inv`: the invariant. `Inv.next`: every step keeps it.
* `sealed_once`: what holds in every state of a run whose forwards are `Fresh`.
-/

namespace Dendra.Season

/-! ## The draw -/

section Draw

variable {workOrder : Str → Nat} {recs : List Line} {r : Line} {jid : Str} {l : List Str}

theorem mem_sortedSet : jid ∈ sortedSet l ↔ jid ∈ l := by
  unfold sortedSet
  rw [List.mem_insertionSort, List.mem_dedup]

/-- A seal records the answers that arrived, and no others. -/
theorem mem_answeredOf : jid ∈ (answeredOf recs).flatMap Prod.snd ↔ jid ∈ recs.map Line.jobId := by
  unfold answeredOf minersOf
  simp only [List.mem_flatMap, List.mem_map]
  constructor
  · rintro ⟨_, ⟨m, -, rfl⟩, h⟩
    obtain ⟨r, hr, rfl⟩ := List.mem_map.1 (mem_sortedSet.1 h)
    exact ⟨r, (List.mem_filter.1 hr).1, rfl⟩
  · rintro ⟨r, hr, rfl⟩
    refine ⟨_, ⟨r.minerId, mem_sortedSet.2 (List.mem_map_of_mem hr), rfl⟩, mem_sortedSet.2 ?_⟩
    exact List.mem_map_of_mem (List.mem_filter.2 ⟨hr, decide_eq_true rfl⟩)

/-- A sample is drawn from the answers that arrived. -/
theorem mem_of_drawn (h : r ∈ drawn workOrder recs) : r ∈ recs := by
  unfold drawn at h
  obtain ⟨m, -, h⟩ := List.mem_flatMap.1 h
  have h := List.mem_of_mem_take h
  rw [List.mem_insertionSort] at h
  exact (List.mem_filter.1 (List.mem_filter.1 h).1).1

end Draw

/-! ## What a restart reads -/

section Restart

variable {d : Disk} {jid : Str} {day : Nat} {m : Memory} {evidence : List Entry}

theorem has_set {α : Type} {o : Ordered Str α} {k k' : Str} {v : α} :
    (o.set k' v).has k = true ↔ k = k' ∨ o.has k = true := by
  rw [Ordered.has_eq_isSome, Ordered.has_eq_isSome, Ordered.get?_set]
  split <;> simp [*]

theorem has_pop {α : Type} {o : Ordered Str α} {k k' : Str} :
    (o.pop k').has k = true ↔ k ≠ k' ∧ o.has k = true := by
  rw [Ordered.has_eq_isSome, Ordered.has_eq_isSome, Ordered.get?_pop]
  split <;> simp [*]

theorem answerIds_answer {r : Line} : answerIds (.workAnswer day r :: evidence) = r.jobId :: answerIds evidence := rfl

theorem sealedDays_sealed {n k : Nat} {l : List (Str × List Str)} :
    sealedDays (.workSealed day n k l :: evidence) = day :: sealedDays evidence := rfl

variable (jid day evidence m) in
/-- The replay of the evidence restores the jobs that were drawn and the days that were sealed. -/
theorem foldl_replay : (((evidence.foldl replay m).work.has jid = true ↔
      m.work.has jid = true ∨ jid ∈ answerIds evidence) ∧
    (day ∈ (evidence.foldl replay m).workSealed ↔ day ∈ m.workSealed ∨ day ∈ sealedDays evidence)) ∧
    (evidence.foldl replay m).height = m.height ∧ (evidence.foldl replay m).ended = m.ended ∧
      (evidence.foldl replay m).endHeight = m.endHeight ∧
        (evidence.foldl replay m).sealing = m.sealing := by
  induction evidence generalizing m with
  | nil => simp [answerIds, sealedDays]
  | cons e evidence ih =>
    rw [List.foldl_cons]
    obtain ⟨⟨h1, h2⟩, h3, h4, h5, h6⟩ := ih (replay m e)
    cases e with
    | workAnswer day' r =>
      refine ⟨⟨?_, h2⟩, h3, h4, h5, h6⟩
      rw [h1]
      unfold replay
      dsimp only
      rw [has_set, answerIds_answer, List.mem_cons]
      exact or_assoc.trans or_left_comm
    | workSealed day' answers n answered =>
      refine ⟨⟨h1, ?_⟩, h3, h4, h5, h6⟩
      rw [h2]
      unfold replay
      dsimp only
      rw [sealedDays_sealed, List.mem_cons, List.mem_cons]
      exact or_assoc.trans or_left_comm

theorem restart_height : (restart d).height = 0 := (foldl_replay [] 0 _ _).2.1

theorem restart_ended : (restart d).ended = none := (foldl_replay [] 0 _ _).2.2.1

theorem restart_endHeight : (restart d).endHeight = none := (foldl_replay [] 0 _ _).2.2.2.1

theorem restart_sealing : (restart d).sealing = none := (foldl_replay [] 0 _ _).2.2.2.2

theorem restart_work : (restart d).work.has jid = true ↔ jid ∈ answerIds d.evidence := by
  have h := (foldl_replay jid 0 ⟨0, none, none, .empty, .empty, [], none⟩ d.evidence).1.1
  refine h.trans ⟨fun h => h.resolve_left ?_, .inr⟩
  simp [Ordered.has, Ordered.empty]

theorem restart_workSealed : day ∈ (restart d).workSealed ↔ day ∈ sealedDays d.evidence := by
  have h := (foldl_replay [] day ⟨0, none, none, .empty, .empty, [], none⟩ d.evidence).1.2
  exact h.trans ⟨fun h => h.resolve_left List.not_mem_nil, .inr⟩

theorem has_foldl_addPending {p : Ordered Str (Nat × Str)} {recs : List Line} :
    (recs.foldl (addPending day) p).has jid = true ↔ p.has jid = true ∨ jid ∈ recs.map Line.jobId := by
  induction recs generalizing p with
  | nil => simp
  | cons r recs ih =>
    rw [List.foldl_cons, ih, List.map_cons, List.mem_cons]
    unfold addPending
    rw [has_set]
    exact or_assoc.trans or_left_comm

/-- A restart takes back every job of a file whose day is not sealed. -/
theorem restart_pending {recs : List Line} (hf : d.files.get? day = some recs)
    (hday : day ∉ sealedDays d.evidence) (hj : jid ∈ recs.map Line.jobId) :
    (restart d).pending.has jid = true := by
  have hfold : ∀ (l : List (Nat × List Line)) (p : Ordered Str (Nat × Str)),
      (p.has jid = true ∨ (day, recs) ∈ l) →
        (l.foldl (fun p e => e.2.foldl (addPending e.1) p) p).has jid = true := by
    intro l
    induction l with
    | nil => exact fun p h => h.resolve_right List.not_mem_nil
    | cons e l ih =>
      intro p h
      rw [List.foldl_cons]
      refine ih _ ?_
      rcases h with h | h
      · exact .inl (has_foldl_addPending.2 (.inl h))
      · rcases List.mem_cons.1 h with rfl | h
        · exact .inl (has_foldl_addPending.2 (.inr hj))
        · exact .inr h
  unfold restart
  refine hfold _ _ (.inr (List.mem_filter.2 ⟨?_, ?_⟩))
  · rw [List.mem_insertionSort]
    exact Ordered.get?_eq_some.1 hf
  · exact decide_eq_true fun h => hday (restart_workSealed.1 h)

end Restart

/-! ## The invariant -/

/-- The chain has shown that the day is over. -/
def Server.Over (start : Nat) (s : Server) (day : Nat) : Prop :=
  s.endSeen = true ∨ ∃ d, dayOfHeight start s.chain = some d ∧ day < d

/-- Until its record is filed, a seal works on the file as it stands; from then on its jobs are recorded. -/
def Server.SealingOk (start : Nat) (workOrder : Str → Nat) (s : Server) (q : Sealing) : Prop :=
  match q.stage with
  | .read => q.day ∉ sealedDays s.disk.evidence ∧ s.disk.files.get? q.day = some q.recs ∧ s.Over start q.day
  | .filing todo =>
    (q.day ∉ sealedDays s.disk.evidence ∧ s.disk.files.get? q.day = some q.recs ∧ s.Over start q.day) ∧
      ∀ r ∈ drawn workOrder q.recs, r ∈ todo ∨ r.jobId ∈ answerIds s.disk.evidence
  | .recorded => q.day ∈ sealedDays s.disk.evidence ∧ ∀ r ∈ q.recs, (r.jobId, q.day) ∈ s.filed
  | .marked => q.day ∈ sealedDays s.disk.evidence ∧ ∀ r ∈ q.recs, (r.jobId, q.day) ∈ s.filed
  | .dropped => q.day ∈ sealedDays s.disk.evidence ∧ ∀ r ∈ q.recs, (r.jobId, q.day) ∈ s.filed

/-- What the memory has read of the chain is what the chain showed last, and the season's last block is known
after its end only. -/
structure Clock (s : Server) : Prop where
  height : s.mem.height = 0 ∨ s.mem.height = s.chain
  ended : ∀ b, s.mem.ended = some b → s.endSeen = b
  endHeight : s.mem.endHeight ≠ none → s.endSeen = true

variable (start : Nat) (workOrder : Str → Nat)

structure Inv (s : Server) : Prop extends Clock s where
  filed : (s.filed.map Prod.fst).Nodup
  accepted : s.accepted.Sublist s.filed
  /-- A day that is not sealed has its lines in its file. -/
  files : ∀ day ∉ sealedDays s.disk.evidence, s.filed.filter (fun e => decide (e.2 = day)) =
    ((s.disk.files.get? day).getD []).map fun r => (r.jobId, day)
  seals : (sealedDays s.disk.evidence).Nodup
  /-- A day that is sealed has its lines in its record. -/
  jobs : ∀ e ∈ s.disk.evidence, ∀ day, e.sealedDay = some day → ∀ jid, jid ∈ e.jobs ↔ (jid, day) ∈ s.filed
  closed : ∀ day ∈ sealedDays s.disk.evidence, s.Over start day
  ranked : ∀ day ∈ s.disk.ranked, s.Over start day ∧
    (s.disk.files.get? day = none ∨ day ∈ sealedDays s.disk.evidence)
  pending : ∀ e ∈ s.filed, e.2 ∉ sealedDays s.disk.evidence → s.mem.pending.has e.1 = true
  workSealed : ∀ day ∈ s.mem.workSealed, day ∈ sealedDays s.disk.evidence
  known : ∀ day ∈ sealedDays s.disk.evidence, day ∈ s.mem.workSealed ∨
    ∃ q, s.mem.sealing = some q ∧ q.day = day ∧ q.stage = .recorded
  work : ∀ jid, s.mem.work.has jid = true ↔ jid ∈ answerIds s.disk.evidence
  answers : (answerIds s.disk.evidence).Nodup
  sampled : ∀ jid ∈ s.sampled, jid ∈ answerIds s.disk.evidence
  sealing : ∀ q, s.mem.sealing = some q → s.SealingOk start workOrder q

section Steps

variable {start workOrder} {s s' : Server} {q : Sealing}

theorem Server.Over.mono {day : Nat} (h : s.Over start day) (hc : s.chain ≤ s'.chain)
    (he : s.endSeen = true → s'.endSeen = true) : s'.Over start day := by
  rcases h with h | ⟨d, hd, hlt⟩
  · exact .inl (he h)
  · right
    unfold dayOfHeight at hd ⊢
    split at hd
    · cases hd
    · next hge =>
      obtain rfl := Option.some.inj hd
      rw [if_neg (by omega)]
      exact ⟨_, rfl, lt_of_lt_of_le hlt (Nat.div_le_div_right (by omega))⟩

/-- A day that is over by the memory is over by the chain. -/
theorem Clock.over_of_dayOver (h : Clock s) {day : Nat} (hh : s.mem.height ≠ 0)
    (hd : s.mem.dayOver start day = true) : s.Over start day := by
  have hchain := h.height.resolve_left hh
  unfold Memory.dayOver at hd
  rw [Bool.or_eq_true] at hd
  rcases hd with hd | hd
  · right
    rw [hchain] at hd
    obtain ⟨d, hd, hlt⟩ := (Option.any_eq_true _ _).1 hd
    exact ⟨d, hd, of_decide_eq_true hlt⟩
  · left
    obtain ⟨e, he, -⟩ := (Option.any_eq_true _ _).1 hd
    exact h.endHeight (by rw [he]; exact Option.some_ne_none e)

/-- A forward that is taken is not known, and its day is not over. -/
theorem Clock.not_over_of_ok (h : Clock s) {jid : Str} {day : Nat}
    (hok : workAnswer start s.mem jid = .ok) (hday : dayOfHeight start s.mem.height = some day) :
    s.mem.work.has jid = false ∧ s.mem.pending.has jid = false ∧ ¬ s.Over start day := by
  unfold workAnswer at hok
  split at hok
  · cases hok
  · next hopen =>
    rw [not_or] at hopen
    split at hok
    · cases hok
    · cases hok
    · next hend =>
      split at hok
      · cases hok
      · next hnew =>
        rw [not_or, Bool.not_eq_true, Bool.not_eq_true] at hnew
        refine ⟨hnew.1, hnew.2, ?_⟩
        rintro (he | ⟨d, hd, hlt⟩)
        · have := h.ended false hend
          rw [he] at this
          cases this
        · rw [← h.height.resolve_left hopen.1, hday] at hd
          obtain rfl := Option.some.inj hd
          exact lt_irrefl _ hlt

/-- Time passes: what is over stays over. -/
theorem Inv.advance (h : Inv start workOrder s) (hd : s'.disk = s.disk) (hf : s'.filed = s.filed)
    (hac : s'.accepted = s.accepted) (hsa : s'.sampled = s.sampled) (hw : s'.mem.work = s.mem.work)
    (hp : s'.mem.pending = s.mem.pending) (hws : s'.mem.workSealed = s.mem.workSealed)
    (hse : s'.mem.sealing = s.mem.sealing) (hc : s.chain ≤ s'.chain)
    (he : s.endSeen = true → s'.endSeen = true)
    (h1 : s'.mem.height = 0 ∨ s'.mem.height = s'.chain) (h2 : ∀ b, s'.mem.ended = some b → s'.endSeen = b)
    (h3 : s'.mem.endHeight ≠ none → s'.endSeen = true) : Inv start workOrder s' where
  height := h1
  ended := h2
  endHeight := h3
  filed := by rw [hf]; exact h.filed
  accepted := by rw [hf, hac]; exact h.accepted
  files := by rw [hf, hd]; exact h.files
  seals := by rw [hd]; exact h.seals
  jobs := by rw [hf, hd]; exact h.jobs
  closed := by rw [hd]; exact fun day hday => (h.closed day hday).mono hc he
  ranked := by rw [hd]; exact fun day hday => ⟨(h.ranked day hday).1.mono hc he, (h.ranked day hday).2⟩
  pending := by rw [hf, hd, hp]; exact h.pending
  workSealed := by rw [hd, hws]; exact h.workSealed
  known := by rw [hd, hws, hse]; exact h.known
  work := by rw [hd, hw]; exact h.work
  answers := by rw [hd]; exact h.answers
  sampled := by rw [hd, hsa]; exact h.sampled
  sealing := by
    rw [hse]
    intro q hq
    have hok := h.sealing q hq
    unfold Server.SealingOk at hok ⊢
    rw [hd, hf]
    split at hok
    · exact ⟨hok.1, hok.2.1, hok.2.2.mono hc he⟩
    · exact ⟨⟨hok.1.1, hok.1.2.1, hok.1.2.2.mono hc he⟩, hok.2⟩
    · exact hok
    · exact hok
    · exact hok

theorem sealedDays_append {evidence : List Entry} {e : Entry} :
    sealedDays (evidence ++ [e]) = sealedDays evidence ++ e.sealedDay.toList := by
  unfold sealedDays
  rw [List.filterMap_append]
  cases e <;> rfl

theorem answerIds_append {evidence : List Entry} {e : Entry} :
    answerIds (evidence ++ [e]) = answerIds evidence ++ e.answerId.toList := by
  unfold answerIds
  rw [List.filterMap_append]
  cases e <;> rfl

/-- A line is written, or only noted in memory. -/
theorem Inv.write (h : Inv start workOrder s) {day : Nat} {jid mid prompt answer : Str} {fate : Fate}
    (hok : workAnswer start s.mem jid = .ok) (hday : dayOfHeight start s.mem.height = some day)
    (hnew : jid ∈ answeredJobs s.disk.evidence → s.mem.work.has jid = true) :
    Inv start workOrder (s.write day jid mid prompt answer fate) := by
  obtain ⟨hwork, hpend, hover⟩ := h.toClock.not_over_of_ok hok hday
  have hseal : day ∉ sealedDays s.disk.evidence := fun hs => hover (h.closed day hs)
  have hpending : ∀ e ∈ s.filed, e.2 ∉ sealedDays s.disk.evidence →
      (s.mem.pending.set jid (day, mid)).has e.1 = true :=
    fun e he hs => has_set.2 (.inr (h.pending e he hs))
  -- the job is on no line: neither of a file, nor of a record
  have hfresh : jid ∉ s.filed.map Prod.fst := by
    intro hj
    obtain ⟨⟨j, d⟩, hjd, rfl⟩ := List.mem_map.1 hj
    by_cases hd : d ∈ sealedDays s.disk.evidence
    · obtain ⟨e, he, hed⟩ := List.mem_filterMap.1 hd
      have hje := (h.jobs e he d hed j).2 hjd
      have := hnew (List.mem_flatMap.2 ⟨e, he, hje⟩)
      rw [hwork] at this
      cases this
    · have := h.pending (j, d) hjd hd
      rw [hpend] at this
      cases this
  have hfiled : Inv start workOrder
      { s with
        mem := { s.mem with pending := s.mem.pending.set jid (day, mid) }
        disk := { s.disk with files := s.disk.files.set day (((s.disk.files.get? day).getD []) ++
          [⟨jid, mid, s.mem.height, if decide (keptCount s.mem day mid < workPendingMax) then
            some (prompt, answer) else none⟩]) }
        filed := s.filed ++ [(jid, day)] } := by
    refine { h with filed := ?_, accepted := ?_, files := ?_, jobs := ?_, ranked := ?_, pending := ?_, sealing := ?_ }
    · rw [List.map_append, List.map_cons, List.map_nil]
      exact List.nodup_append.2 ⟨h.filed, List.nodup_singleton _, by
        rintro a ha b hb rfl
        obtain rfl := List.mem_singleton.1 hb
        exact hfresh ha⟩
    · exact h.accepted.trans (List.sublist_append_left _ _)
    · intro d hd
      dsimp only
      rw [List.filter_append, h.files d hd, Ordered.get?_set]
      by_cases hdd : d = day
      · subst hdd
        simp
      · have hne : day ≠ d := fun heq => hdd heq.symm
        simp [hdd, hne]
    · intro e he d hed j
      rw [h.jobs e he d hed j, List.mem_append]
      refine ⟨.inl, fun hj => hj.resolve_right fun hj => hseal ?_⟩
      obtain ⟨rfl, rfl⟩ := Prod.mk.inj (List.mem_singleton.1 hj)
      exact List.mem_filterMap.2 ⟨e, he, hed⟩
    · intro d hd
      refine ⟨(h.ranked d hd).1, ?_⟩
      dsimp only
      rw [Ordered.get?_set, if_neg (by rintro rfl; exact hover (h.ranked d hd).1)]
      exact (h.ranked d hd).2
    · intro e he hs
      rcases List.mem_append.1 he with he | he
      · exact hpending e he hs
      · obtain rfl := List.mem_singleton.1 he
        exact has_set.2 (.inl rfl)
    · intro q hq
      have hqok := h.sealing q hq
      unfold Server.SealingOk at hqok ⊢
      split at hqok
      · refine ⟨hqok.1, ?_, hqok.2.2⟩
        dsimp only
        rw [Ordered.get?_set, if_neg (by rintro rfl; exact hover hqok.2.2)]
        exact hqok.2.1
      · refine ⟨⟨hqok.1.1, ?_, hqok.1.2.2⟩, hqok.2⟩
        dsimp only
        rw [Ordered.get?_set, if_neg (by rintro rfl; exact hover hqok.1.2.2)]
        exact hqok.1.2.1
      all_goals exact ⟨hqok.1, fun r hr => List.mem_append_left _ (hqok.2 r hr)⟩
  cases fate with
  | answered => exact { hfiled with accepted := h.accepted.append (List.Sublist.refl _) }
  | unanswered => exact hfiled
  | failed => exact { h with pending := hpending }

/-- A job is filed on one day. -/
theorem Inv.day_eq (h : Inv start workOrder s) {jid : Str} {d d' : Nat} (hd : (jid, d) ∈ s.filed)
    (hd' : (jid, d') ∈ s.filed) : d = d' :=
  (Prod.mk.inj (List.inj_on_of_nodup_map h.filed hd hd' rfl)).2

/-- Unless a record was just filed, the memory knows every day that is sealed. -/
theorem Inv.marked_of_stage (h : Inv start workOrder s) (hq : ∀ q, s.mem.sealing = some q → q.stage ≠ .recorded)
    {day : Nat} (hd : day ∈ sealedDays s.disk.evidence) : day ∈ s.mem.workSealed := by
  refine (h.known day hd).resolve_right ?_
  rintro ⟨q, hs, -, hstage⟩
  exact hq q hs hstage

theorem Inv.known_of_stage (h : Inv start workOrder s) (hq : s.mem.sealing = some q) (hstage : q.stage ≠ .recorded) :
    ∀ day ∈ sealedDays s.disk.evidence, day ∈ s.mem.workSealed := by
  refine fun day hd => h.marked_of_stage (fun q' hq' => ?_) hd
  rw [hq] at hq'
  obtain rfl := Option.some.inj hq'
  exact hstage

theorem Inv.setSealing (h : Inv start workOrder s) {q' : Option Sealing}
    (hknown : ∀ day ∈ sealedDays s.disk.evidence, day ∈ s.mem.workSealed)
    (hok : ∀ q, q' = some q → s.SealingOk start workOrder q) : Inv start workOrder (s.setSealing q') :=
  { h with known := fun day hd => .inl (hknown day hd), sealing := hok }

/-- The jobs of a file whose day is not sealed are those filed on that day. -/
theorem Inv.mem_recs (h : Inv start workOrder s) {day : Nat} {recs : List Line} {jid : Str}
    (hday : day ∉ sealedDays s.disk.evidence) (hf : s.disk.files.get? day = some recs) :
    jid ∈ recs.map Line.jobId ↔ (jid, day) ∈ s.filed := by
  have hfiles := h.files day hday
  rw [hf, Option.getD_some] at hfiles
  have hmem : (jid, day) ∈ s.filed ↔ (jid, day) ∈ s.filed.filter fun e => decide (e.2 = day) := by
    simp
  rw [hmem, hfiles]
  simp

/-- An answer of the sample is filed. -/
theorem Inv.answer (h : Inv start workOrder s) {r : Line} {todo : List Line}
    (hq : s.mem.sealing = some q) (hstage : q.stage = .filing (r :: todo)) :
    Inv start workOrder (s.sealStep workOrder q) := by
  have hok := h.sealing q hq
  unfold Server.SealingOk at hok
  rw [hstage] at hok
  obtain ⟨hun, hdrawn⟩ := hok
  have hknown := h.known_of_stage hq (by rw [hstage]; exact Stage.noConfusion)
  unfold Server.sealStep Server.setSealing
  rw [hstage]
  dsimp only
  by_cases hw : s.mem.work.has r.jobId = true
  · rw [if_pos hw]
    refine h.setSealing hknown ?_
    rintro q' hq'
    obtain rfl := Option.some.inj hq'
    refine ⟨hun, fun r' hr' => ?_⟩
    rcases hdrawn r' hr' with hr' | hr'
    · rcases List.mem_cons.1 hr' with rfl | hr'
      · exact .inr ((h.work _).1 hw)
      · exact .inl hr'
    · exact .inr hr'
  · rw [if_neg hw]
    have hno : r.jobId ∉ answerIds s.disk.evidence := fun hm => hw ((h.work _).2 hm)
    have hdays : sealedDays (s.disk.evidence ++ [.workAnswer q.day r]) = sealedDays s.disk.evidence := by
      rw [sealedDays_append]
      exact List.append_nil _
    have hids : answerIds (s.disk.evidence ++ [.workAnswer q.day r]) =
        answerIds s.disk.evidence ++ [r.jobId] := answerIds_append
    refine ⟨⟨h.height, h.ended, h.endHeight⟩, h.filed, h.accepted, ?_, ?_, ?_, ?_, ?_, ?_, ?_, ?_, ?_, ?_, ?_, ?_⟩
    all_goals dsimp only
    · rw [hdays]
      exact h.files
    · rw [hdays]
      exact h.seals
    · intro e he day hed
      rcases List.mem_append.1 he with he | he
      · exact h.jobs e he day hed
      · obtain rfl := List.mem_singleton.1 he
        cases hed
    · rw [hdays]
      exact h.closed
    · rw [hdays]
      exact h.ranked
    · rw [hdays]
      exact h.pending
    · rw [hdays]
      exact h.workSealed
    · rw [hdays]
      exact fun day hd => .inl (hknown day hd)
    · intro jid
      rw [hids, List.mem_append, List.mem_singleton, ← h.work jid, has_set]
      exact or_comm
    · rw [hids]
      exact List.nodup_append.2 ⟨h.answers, List.nodup_singleton _, by
        rintro a ha b hb rfl
        obtain rfl := List.mem_singleton.1 hb
        exact hno ha⟩
    · rw [hids]
      exact fun jid hj => List.mem_append_left _ (h.sampled jid hj)
    · rintro q' hq'
      obtain rfl := Option.some.inj hq'
      unfold Server.SealingOk
      dsimp only
      rw [hdays, hids]
      refine ⟨hun, fun r' hr' => ?_⟩
      rcases hdrawn r' hr' with hr' | hr'
      · rcases List.mem_cons.1 hr' with rfl | hr'
        · exact .inr (List.mem_append_right _ (List.mem_singleton.2 rfl))
        · exact .inl hr'
      · exact .inr (List.mem_append_left _ hr')

/-- The record of a seal is filed. -/
theorem Inv.record (h : Inv start workOrder s) (hq : s.mem.sealing = some q) (hstage : q.stage = .filing []) :
    Inv start workOrder (s.sealStep workOrder q) := by
  have hok := h.sealing q hq
  unfold Server.SealingOk at hok
  rw [hstage] at hok
  obtain ⟨⟨hno, hfile, hover⟩, hdrawn⟩ := hok
  have hknown := h.known_of_stage hq (by rw [hstage]; exact Stage.noConfusion)
  unfold Server.sealStep Server.setSealing
  rw [hstage]
  dsimp only
  have hdays : sealedDays (s.disk.evidence ++ [.workSealed q.day q.recs.length (drawn workOrder q.recs).length
      (answeredOf q.recs)]) = sealedDays s.disk.evidence ++ [q.day] := sealedDays_append
  have hids : answerIds (s.disk.evidence ++ [.workSealed q.day q.recs.length (drawn workOrder q.recs).length
      (answeredOf q.recs)]) = answerIds s.disk.evidence := by
    rw [answerIds_append]
    exact List.append_nil _
  have hleft : ∀ day ∈ sealedDays s.disk.evidence, day ∈ sealedDays s.disk.evidence ++ [q.day] :=
    fun day hd => List.mem_append_left _ hd
  refine ⟨⟨h.height, h.ended, h.endHeight⟩, h.filed, h.accepted, ?_, ?_, ?_, ?_, ?_, ?_, ?_, ?_, ?_, ?_, ?_, ?_⟩
  all_goals dsimp only
  · rw [hdays]
    exact fun day hd => h.files day fun hs => hd (hleft day hs)
  · rw [hdays]
    exact List.nodup_append.2 ⟨h.seals, List.nodup_singleton _, by
      rintro a ha b hb rfl
      obtain rfl := List.mem_singleton.1 hb
      exact hno ha⟩
  · intro e he day hed
    rcases List.mem_append.1 he with he | he
    · exact h.jobs e he day hed
    · obtain rfl := List.mem_singleton.1 he
      obtain rfl := Option.some.inj hed
      intro jid
      exact mem_answeredOf.trans (h.mem_recs hno hfile)
  · rw [hdays]
    intro day hd
    rcases List.mem_append.1 hd with hd | hd
    · exact h.closed day hd
    · obtain rfl := List.mem_singleton.1 hd
      exact hover
  · rw [hdays]
    exact fun day hd => ⟨(h.ranked day hd).1, (h.ranked day hd).2.imp_right (hleft day)⟩
  · rw [hdays]
    exact fun e he hs => h.pending e he fun hd => hs (hleft _ hd)
  · rw [hdays]
    exact fun day hd => hleft day (h.workSealed day hd)
  · rw [hdays]
    intro day hd
    rcases List.mem_append.1 hd with hd | hd
    · exact .inl (hknown day hd)
    · obtain rfl := List.mem_singleton.1 hd
      exact .inr ⟨_, rfl, rfl, rfl⟩
  · rw [hids]
    exact h.work
  · rw [hids]
    exact h.answers
  · rw [hids]
    intro jid hj
    rcases List.mem_append.1 hj with hj | hj
    · exact h.sampled jid hj
    · obtain ⟨r, hr, rfl⟩ := List.mem_map.1 hj
      exact (hdrawn r hr).resolve_left List.not_mem_nil
  · rintro q' hq'
    obtain rfl := Option.some.inj hq'
    unfold Server.SealingOk
    dsimp only
    rw [hdays]
    refine ⟨List.mem_append_right _ (List.mem_singleton.2 rfl), fun r hr => ?_⟩
    exact (h.mem_recs hno hfile).1 (List.mem_map_of_mem hr)

theorem has_foldl_pop {recs : List Line} {p : Ordered Str (Nat × Str)} {jid : Str}
    (h : p.has jid = true) (hj : jid ∉ recs.map Line.jobId) :
    (recs.foldl (fun p r => p.pop r.jobId) p).has jid = true := by
  induction recs generalizing p with
  | nil => exact h
  | cons r recs ih =>
    rw [List.map_cons, List.mem_cons, not_or] at hj
    exact ih (has_pop.2 ⟨hj.1, h⟩) hj.2

/-- The file of a sealed day is removed. -/
theorem Inv.removed (h : Inv start workOrder s) {day : Nat} (hs : day ∈ sealedDays s.disk.evidence)
    (hq : s.mem.sealing = none) :
    Inv start workOrder { s with disk := { s.disk with files := s.disk.files.pop day } } := by
  refine { h with files := ?_, ranked := ?_, sealing := ?_ }
  · intro d hd
    have hne : d ≠ day := by
      rintro rfl
      exact hd hs
    dsimp only
    rw [Ordered.get?_pop, if_neg hne]
    exact h.files d hd
  · intro d hd
    refine ⟨(h.ranked d hd).1, ?_⟩
    dsimp only
    rw [Ordered.get?_pop]
    split
    · exact .inl rfl
    · exact (h.ranked d hd).2
  · intro q hq'
    rw [show s.mem.sealing = _ from hq] at hq'
    cases hq'

/-- Every write of a seal keeps the invariant. -/
theorem Inv.sealStep (h : Inv start workOrder s) (hq : s.mem.sealing = some q) :
    Inv start workOrder (s.sealStep workOrder q) := by
  have hok := h.sealing q hq
  cases hstage : q.stage with
  | read =>
    unfold Server.SealingOk at hok
    rw [hstage] at hok
    obtain ⟨hno, hfile, hover⟩ := hok
    have hknown := h.known_of_stage hq (by rw [hstage]; exact Stage.noConfusion)
    unfold Server.sealStep
    rw [hstage]
    dsimp only
    split
    · next hr =>
      rcases (h.ranked q.day hr).2 with hnone | hs
      · rw [hfile] at hnone
        cases hnone
      · exact absurd hs hno
    · refine h.setSealing hknown ?_
      rintro q' hq'
      obtain rfl := Option.some.inj hq'
      exact ⟨⟨hno, hfile, hover⟩, fun r hr => .inl hr⟩
  | filing todo =>
    cases todo with
    | nil => exact h.record hq hstage
    | cons r todo => exact h.answer hq hstage
  | recorded =>
    unfold Server.SealingOk at hok
    rw [hstage] at hok
    unfold Server.sealStep
    rw [hstage]
    refine { h with workSealed := ?_, known := ?_, sealing := ?_ }
    · intro day hd
      rcases List.mem_cons.1 hd with rfl | hd
      · exact hok.1
      · exact h.workSealed day hd
    · intro day hd
      left
      rcases h.known day hd with hd | ⟨q', hq', rfl, -⟩
      · exact List.mem_cons_of_mem _ hd
      · rw [hq] at hq'
        obtain rfl := Option.some.inj hq'
        exact List.mem_cons_self
    · rintro q' hq'
      obtain rfl := Option.some.inj hq'
      exact hok
  | marked =>
    unfold Server.SealingOk at hok
    rw [hstage] at hok
    have hknown := h.known_of_stage hq (by rw [hstage]; exact Stage.noConfusion)
    unfold Server.sealStep
    rw [hstage]
    refine { h with pending := ?_, known := fun day hd => .inl (hknown day hd), sealing := ?_ }
    · rintro ⟨jid, day⟩ he hs
      refine has_foldl_pop (h.pending _ he hs) fun hj => ?_
      obtain ⟨r, hr, rfl⟩ := List.mem_map.1 hj
      exact hs (h.day_eq he (hok.2 r hr) ▸ hok.1)
    · rintro q' hq'
      obtain rfl := Option.some.inj hq'
      exact hok
  | dropped =>
    unfold Server.SealingOk at hok
    rw [hstage] at hok
    have hknown := h.known_of_stage hq (by rw [hstage]; exact Stage.noConfusion)
    unfold Server.sealStep
    rw [hstage]
    exact (h.setSealing hknown fun q' hq' => (Option.some_ne_none q' hq'.symm).elim).removed hok.1 rfl

/-- A restart rebuilds the memory that the invariant asks for. -/
theorem Inv.crash (h : Inv start workOrder s) : Inv start workOrder { s with mem := restart s.disk } := by
  refine { h with
    height := .inl restart_height
    ended := ?_
    endHeight := fun hne => absurd restart_endHeight hne
    pending := ?_
    workSealed := fun day hd => restart_workSealed.1 hd
    known := fun day hd => .inl (restart_workSealed.2 hd)
    work := fun jid => restart_work
    sealing := ?_ }
  · intro b hb
    rw [show (restart s.disk).ended = _ from restart_ended] at hb
    cases hb
  · rintro ⟨jid, day⟩ he hs
    have hfiles := h.files day hs
    have hmem : (jid, day) ∈ s.filed.filter fun e => decide (e.2 = day) :=
      List.mem_filter.2 ⟨he, decide_eq_true rfl⟩
    rw [hfiles] at hmem
    obtain ⟨r, hr, heq⟩ := List.mem_map.1 hmem
    obtain ⟨rfl, -⟩ := Prod.mk.inj heq
    cases hf : s.disk.files.get? day with
    | none =>
      rw [hf] at hr
      cases hr
    | some recs =>
      rw [hf] at hr
      exact restart_pending hf hs (List.mem_map_of_mem hr)
  · intro q hq
    rw [show (restart s.disk).sealing = _ from restart_sealing] at hq
    cases hq

/-- Every step keeps the invariant. -/
theorem Inv.next {a : ServeAction} (h : Inv start workOrder s) (hf : Fresh s a)
    (hs : Step start workOrder s a s') : Inv start workOrder s' := by
  unfold Step at hs
  cases a with
  | watchHeight height =>
    simp only [Season.next] at hs
    split at hs
    · next hle =>
      obtain rfl := Option.some.inj hs
      exact h.advance rfl rfl rfl rfl rfl rfl rfl rfl hle id (.inr rfl) h.ended h.endHeight
    · cases hs
  | watchTime past =>
    simp only [Season.next] at hs
    split at hs
    · next hle =>
      obtain rfl := Option.some.inj hs
      exact h.advance rfl rfl rfl rfl rfl rfl rfl rfl (le_refl _) hle h.height
        (fun b hb => Option.some.inj hb) fun hne => hle (h.endHeight hne)
    · cases hs
  | watchEnd e =>
    simp only [Season.next] at hs
    split at hs
    · next hend =>
      obtain rfl := Option.some.inj hs
      exact h.advance rfl rfl rfl rfl rfl rfl rfl rfl (le_refl _) id h.height h.ended
        fun _ => h.ended true hend.1
    · cases hs
  | forward jid mid prompt answer fate =>
    simp only [Season.next] at hs
    split at hs
    · next day hok hday =>
      obtain rfl := Option.some.inj hs
      exact h.write hok hday (hf jid mid prompt answer fate rfl)
    · obtain rfl := Option.some.inj hs
      exact h
  | sealDay day =>
    simp only [Season.next] at hs
    split at hs
    · next recs hnone hfile =>
      split at hs
      · next hcan =>
        obtain rfl := Option.some.inj hs
        have hknown : ∀ d ∈ sealedDays s.disk.evidence, d ∈ s.mem.workSealed :=
          fun d hd => h.marked_of_stage (fun q hq => by rw [hnone] at hq; cases hq) hd
        refine h.setSealing hknown ?_
        rintro q hq
        obtain rfl := Option.some.inj hq
        exact ⟨fun hd => hcan.2.1 (hknown day hd), hfile, h.toClock.over_of_dayOver hcan.1 hcan.2.2⟩
      · cases hs
    · cases hs
  | sealNext =>
    obtain ⟨q, hq, rfl⟩ := Option.map_eq_some_iff.1 hs
    exact h.sealStep hq
  | sealStops =>
    simp only [Season.next] at hs
    split at hs
    · next q hq =>
      split at hs
      · next hmay =>
        obtain rfl := Option.some.inj hs
        refine h.setSealing (fun d hd => h.marked_of_stage (fun q' hq' hst => ?_) hd) fun q' hq' => by cases hq'
        rw [hq] at hq'
        obtain rfl := Option.some.inj hq'
        rw [hst] at hmay
        cases hmay
      · cases hs
    · cases hs
  | removeSealed day =>
    simp only [Season.next] at hs
    split at hs
    · next hcan =>
      obtain rfl := Option.some.inj hs
      exact h.removed (h.workSealed day hcan.2) (Option.isNone_iff_eq_none.1 hcan.1)
    · cases hs
  | rank day =>
    simp only [Season.next] at hs
    split at hs
    · next hcan =>
      obtain rfl := Option.some.inj hs
      refine { h with ranked := ?_ }
      intro d hd
      rcases List.mem_cons.1 hd with rfl | hd
      · exact ⟨h.toClock.over_of_dayOver hcan.1 hcan.2.1, hcan.2.2.imp_right (h.workSealed d)⟩
      · exact h.ranked d hd
    · cases hs
  | crash =>
    obtain rfl := Option.some.inj hs
    exact h.crash

theorem Inv.init : Inv start workOrder Server.init where
  height := .inl rfl
  ended := by
    rintro b ⟨⟩
  endHeight := fun h => absurd rfl h
  filed := List.nodup_nil
  accepted := List.Sublist.refl _
  files _ _ := rfl
  seals := List.nodup_nil
  jobs _ he := absurd he List.not_mem_nil
  closed _ hd := absurd hd List.not_mem_nil
  ranked _ hd := absurd hd List.not_mem_nil
  pending _ he := absurd he List.not_mem_nil
  workSealed _ hd := absurd hd List.not_mem_nil
  known _ hd := absurd hd List.not_mem_nil
  work jid := by simp [Server.init, restart, answerIds, Ordered.has, Ordered.empty]
  answers := List.nodup_nil
  sampled _ hj := absurd hj List.not_mem_nil
  sealing := by
    rintro q ⟨⟩

/-! ## The guarantee -/

/-- The records of the evidence that carry a job, by their days. -/
def sealsOf (evidence : List Entry) (jid : Str) : List Nat :=
  (evidence.filter fun e => e.jobs.contains jid).filterMap Entry.sealedDay

/-- A job that was answered 200 waits in the file of its day, in no record yet, or is in one record, that of its
day; no job is answered 200 twice, and its forward is refused as already filed. A job of a sample has one
record. -/
structure SealedOnce (start : Nat) (s : Server) : Prop where
  once : (s.accepted.map Prod.fst).Nodup
  placed : ∀ jid day, (jid, day) ∈ s.accepted →
    (sealsOf s.disk.evidence jid = [] ∧ day ∉ sealedDays s.disk.evidence ∧
        ∃ recs, s.disk.files.get? day = some recs ∧ jid ∈ recs.map Line.jobId) ∨
      sealsOf s.disk.evidence jid = [day]
  refused : ∀ jid ∈ s.accepted.map Prod.fst, s.mem.isOpen start = true →
    (jid ∈ answeredJobs s.disk.evidence → s.mem.work.has jid = true) →
      workAnswer start s.mem jid = .alreadyFiled
  sampled : ∀ jid ∈ s.sampled, (answerIds s.disk.evidence).count jid = 1

/-- A list without repeats keeps one of its elements by a property that holds of that one alone. -/
theorem filterMap_filter_eq {evidence : List Entry} {p : Entry → Bool} {day : Nat}
    (hn : (sealedDays evidence).Nodup) (hp : ∀ e ∈ evidence, p e = true → e.sealedDay = some day)
    (h : ∃ e ∈ evidence, p e = true) : (evidence.filter p).filterMap Entry.sealedDay = [day] := by
  have hall : ∀ d ∈ (evidence.filter p).filterMap Entry.sealedDay, d = day := by
    intro d hd
    obtain ⟨e, he, hed⟩ := List.mem_filterMap.1 hd
    obtain ⟨he, hpe⟩ := List.mem_filter.1 he
    rw [hp e he hpe] at hed
    exact (Option.some.inj hed).symm
  have hnodup : ((evidence.filter p).filterMap Entry.sealedDay).Nodup :=
    hn.sublist (List.filter_sublist.filterMap _)
  obtain ⟨e, he, hpe⟩ := h
  have hmem : day ∈ (evidence.filter p).filterMap Entry.sealedDay :=
    List.mem_filterMap.2 ⟨e, List.mem_filter.2 ⟨he, hpe⟩, hp e he hpe⟩
  cases hl : (evidence.filter p).filterMap Entry.sealedDay with
  | nil =>
    rw [hl] at hmem
    cases hmem
  | cons a l =>
    rw [hl] at hall hnodup
    obtain rfl := hall a List.mem_cons_self
    cases l with
    | nil => rfl
    | cons b l =>
      obtain rfl := hall b (List.mem_cons_of_mem _ List.mem_cons_self)
      exact absurd List.mem_cons_self (List.nodup_cons.1 hnodup).1

/-- A record that carries a job is that of the day on which the job was filed. -/
theorem Inv.sealedDay_of_mem (h : Inv start workOrder s) {e : Entry} {jid : Str} {day : Nat}
    (hd : (jid, day) ∈ s.filed) (he : e ∈ s.disk.evidence) (hj : jid ∈ e.jobs) : e.sealedDay = some day := by
  cases hed : e.sealedDay with
  | none =>
    cases e with
    | workAnswer d r => cases hj
    | workSealed d n k l => cases hed
  | some d => rw [h.day_eq hd ((h.jobs e he d hed jid).1 hj)]

theorem Inv.placed (h : Inv start workOrder s) {jid : Str} {day : Nat} (hd : (jid, day) ∈ s.filed) :
    (sealsOf s.disk.evidence jid = [] ∧ day ∉ sealedDays s.disk.evidence ∧
        ∃ recs, s.disk.files.get? day = some recs ∧ jid ∈ recs.map Line.jobId) ∨
      sealsOf s.disk.evidence jid = [day] := by
  by_cases hs : day ∈ sealedDays s.disk.evidence
  · right
    obtain ⟨e, he, hed⟩ := List.mem_filterMap.1 hs
    refine filterMap_filter_eq h.seals (fun e' he' hp => ?_) ⟨e, he, ?_⟩
    · exact h.sealedDay_of_mem hd he' (List.contains_iff_mem.1 hp)
    · exact List.contains_iff_mem.2 ((h.jobs e he day hed jid).2 hd)
  · refine .inl ⟨?_, hs, ?_⟩
    · unfold sealsOf
      rw [List.filter_eq_nil_iff.2 fun e he hj => ?_]
      · rfl
      · exact hs (List.mem_filterMap.2 ⟨e, he, h.sealedDay_of_mem hd he (List.contains_iff_mem.1 hj)⟩)
    · have hmem : (jid, day) ∈ s.filed.filter fun e => decide (e.2 = day) :=
        List.mem_filter.2 ⟨hd, decide_eq_true rfl⟩
      rw [h.files day hs] at hmem
      obtain ⟨r, hr, heq⟩ := List.mem_map.1 hmem
      obtain ⟨rfl, -⟩ := Prod.mk.inj heq
      cases hf : s.disk.files.get? day with
      | none =>
        rw [hf] at hr
        cases hr
      | some recs =>
        rw [hf] at hr
        exact ⟨recs, rfl, List.mem_map_of_mem hr⟩

theorem Inv.sealedOnce (h : Inv start workOrder s) : SealedOnce start s where
  once := h.filed.sublist (h.accepted.map _)
  placed jid day hd := h.placed (h.accepted.subset hd)
  refused := by
    intro jid hj hopen hfresh
    obtain ⟨⟨jid, day⟩, hd, rfl⟩ := List.mem_map.1 hj
    have hd := h.accepted.subset hd
    have hknown : s.mem.work.has jid = true ∨ s.mem.pending.has jid = true := by
      by_cases hs : day ∈ sealedDays s.disk.evidence
      · obtain ⟨e, he, hed⟩ := List.mem_filterMap.1 hs
        exact .inl (hfresh (List.mem_flatMap.2 ⟨e, he, (h.jobs e he day hed jid).2 hd⟩))
      · exact .inr (h.pending _ hd hs)
    unfold Memory.isOpen at hopen
    simp only [Bool.and_eq_true, decide_eq_true_eq, Option.isSome_iff_ne_none, beq_iff_eq] at hopen
    obtain ⟨⟨h1, h2⟩, h3⟩ := hopen
    unfold workAnswer
    rw [if_neg (not_or.2 ⟨h1, h2⟩), h3]
    exact if_pos hknown
  sampled jid hj := List.count_eq_one_of_mem h.answers (h.sampled jid hj)

end Steps

/-- In a run that forwards no job again after it was sealed and not drawn, every answer is sealed once. -/
theorem sealed_once (start : Nat) (workOrder : Str → Nat) {s : Server}
    (h : Reach (· = Server.init) (Step start workOrder) Fresh s) : SealedOnce start s := by
  have hinv : Inv start workOrder s := h.invariant (fun _ hs => hs ▸ Inv.init)
    fun _ _ _ _ hinv hok hstep => hinv.next hok hstep
  exact hinv.sealedOnce

theorem step_forward {start day : Nat} {workOrder : Str → Nat} {s : Server} {jid mid prompt answer : Str}
    {fate : Fate} (hok : workAnswer start s.mem jid = .ok) (hday : dayOfHeight start s.mem.height = some day) :
    Step start workOrder s (.forward jid mid prompt answer fate) (s.write day jid mid prompt answer fate) := by
  unfold Step
  simp only [Season.next, hok, hday]

/-- The service on its first block. -/
def firstBlock : Server :=
  ⟨⟨1, some false, none, .empty, .empty, [], none⟩, ⟨[], .empty, []⟩, 1, false, [], [], []⟩

/-- A job is forwarded on the first day. -/
theorem sealed_once_first :
    SealedOnce 1 (firstBlock.write 0 ['1'] ['m'] [] [] .answered) := by
  have h1 : Fresh Server.init (.watchHeight 1) := by
    rintro _ _ _ _ _ ⟨⟩
  have h2 : ∀ s, Fresh s (.watchTime false) := by
    rintro _ _ _ _ _ _ ⟨⟩
  have h3 : Fresh firstBlock (.forward ['1'] ['m'] [] [] .answered) :=
    fun _ _ _ _ _ _ hj => absurd hj List.not_mem_nil
  have hs : Step 1 (fun _ => 0)
      ⟨⟨1, none, none, .empty, .empty, [], none⟩, ⟨[], .empty, []⟩, 1, false, [], [], []⟩ (.watchTime false)
      firstBlock := rfl
  exact sealed_once 1 (fun _ => 0)
    (.step (.step (.step (.init rfl) h1 rfl) (h2 _) hs) h3 (step_forward (by decide) (by decide)))

section Twice

variable {start : Nat} {workOrder : Str → Nat} {s s' : Server}

variable (start workOrder) in
def runs (s : Server) (l : List ServeAction) : Option Server := l.foldlM (next start workOrder) s

theorem reach_runs {l : List ServeAction}
    (h : Reach (· = Server.init) (Step start workOrder) (fun _ _ => True) s)
    (hs : runs start workOrder s l = some s') :
    Reach (· = Server.init) (Step start workOrder) (fun _ _ => True) s' := by
  induction l generalizing s with
  | nil =>
    obtain rfl := Option.some.inj hs
    exact h
  | cons a l ih =>
    obtain ⟨s₁, h₁, hs⟩ := Option.bind_eq_some_iff.1 hs
    exact ih (.step h trivial h₁) hs

/-- Four jobs of one identity are answered on the first day and sealed, of which three are drawn; the fourth is
forwarded again on the second day, which is then sealed. -/
def twiceRun : List ServeAction :=
  [.watchHeight 1, .watchTime false, .forward ['1'] ['m'] [] [] .answered, .forward ['2'] ['m'] [] [] .answered,
    .forward ['3'] ['m'] [] [] .answered, .forward ['4'] ['m'] [] [] .answered, .watchHeight 17281, .sealDay 0,
    .sealNext, .sealNext, .sealNext, .sealNext, .sealNext, .sealNext, .sealNext, .sealNext,
    .forward ['4'] ['m'] [] [] .answered, .watchHeight 34561, .sealDay 1,
    .sealNext, .sealNext, .sealNext, .sealNext, .sealNext, .sealNext]

/-- The fourth job is answered 200 twice, and is in two records. -/
theorem sealed_twice : ∃ s, Reach (· = Server.init) (Step 1 fun _ => 0) (fun _ _ => True) s ∧
    (['4'], 0) ∈ s.accepted ∧ (['4'], 1) ∈ s.accepted ∧ sealsOf s.disk.evidence ['4'] = [0, 1] := by
  have hrun : ((runs 1 (fun _ => 0) Server.init twiceRun).map fun s =>
      (decide ((['4'], 0) ∈ s.accepted ∧ (['4'], 1) ∈ s.accepted), sealsOf s.disk.evidence ['4'])) =
      some (true, [0, 1]) := by decide
  obtain ⟨s, hs, heq⟩ := Option.map_eq_some_iff.1 hrun
  obtain ⟨hacc, hseals⟩ := Prod.mk.inj heq
  obtain ⟨h0, h1⟩ := of_decide_eq_true hacc
  exact ⟨s, reach_runs (.init rfl) hs, h0, h1, hseals⟩

end Twice

end Dendra.Season
