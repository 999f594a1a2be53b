import Dendra.Season.Closing
import Dendra.Season.Sealed

/-!
# What a ranking read is what its days hold

Once a ranking has read its records, its day and the days before are closed: a grade is refused, and no seal is
left to file anything. That needs the days to be over when the ranking looks for their answers, and holds until
the next restart; from the publication on the file of the ranking closes them.

* `Closing`: no seal is left for a settled day; `Closing.next`.
* `ServiceInv`: the invariant of the service; `ServiceInv.advance`.
* `closed_for_good`: the guarantee, in every state of a run whose steps respect `Closes`.
-/

namespace Dendra.Season

/-! ## Seals -/

/-- Where a seal stands: it still has to file its record, or its day has it. -/
def Server.SealStands (s : Server) (q : Sealing) : Prop :=
  match q.stage with
  | .read => q.day ∉ sealedDays s.disk.evidence ∧ s.disk.files.get? q.day ≠ none
  | .filing _ => q.day ∉ sealedDays s.disk.evidence ∧ s.disk.files.get? q.day ≠ none
  | .recorded => q.day ∈ sealedDays s.disk.evidence
  | .marked => q.day ∈ sealedDays s.disk.evidence
  | .dropped => q.day ∈ sealedDays s.disk.evidence

/-- A settled day is over, and has no answers or has sealed them. -/
def Server.Settled (start : Nat) (s : Server) (d : Nat) : Prop :=
  s.Over start d ∧ (s.disk.files.get? d = none ∨ d ∈ sealedDays s.disk.evidence)

variable (start seasonEnd : Nat) (workOrder : Str → Nat)

/-- The days of `D` are settled. -/
structure Closing (D : Nat → Prop) (s : Server) : Prop extends Clock s where
  workSealed : ∀ day ∈ s.mem.workSealed, day ∈ sealedDays s.disk.evidence
  known : ∀ day ∈ sealedDays s.disk.evidence, day ∈ s.mem.workSealed ∨
    ∃ q, s.mem.sealing = some q ∧ q.day = day ∧ q.stage = .recorded
  settled : ∀ d, D d → s.Settled start d
  ranked : ∀ d ∈ s.disk.ranked, D d
  sealing : ∀ q, s.mem.sealing = some q → s.SealStands q

section Seals

variable {start workOrder} {D : Nat → Prop} {s s' : Server} {q : Sealing}

/-- Unless a record was just filed, the memory knows every day that is sealed. -/
theorem Closing.marked_of_stage (h : Closing start D s)
    (hq : ∀ q, s.mem.sealing = some q → q.stage ≠ .recorded) {day : Nat}
    (hd : day ∈ sealedDays s.disk.evidence) : day ∈ s.mem.workSealed := by
  refine (h.known day hd).resolve_right ?_
  rintro ⟨q, hs, -, hstage⟩
  exact hq q hs hstage

/-- The day of a seal that still has to file its record is not settled. -/
theorem Closing.not_settled (h : Closing start D s) {day : Nat} (hno : day ∉ sealedDays s.disk.evidence)
    (hfile : s.disk.files.get? day ≠ none) : ¬ D day :=
  fun hd => (h.settled day hd).2.elim hfile hno

/-- What an event of the server leaves: the days of `D` settled, and no new record on any of them. -/
def Closing.Kept (start : Nat) (D : Nat → Prop) (s s' : Server) : Prop :=
  Closing start D s' ∧ s'.disk.ranked = s.disk.ranked ∧ s.chain ≤ s'.chain ∧
    ∃ l, s'.disk.evidence = s.disk.evidence ++ l ∧ ∀ e ∈ l, ¬ D e.day

theorem Closing.kept (h' : Closing start D s') (hd : s'.disk.ranked = s.disk.ranked) (hc : s.chain ≤ s'.chain)
    (he : s'.disk.evidence = s.disk.evidence) : Closing.Kept start D s s' :=
  ⟨h', hd, hc, [], by rw [he, List.append_nil], fun _ he => absurd he List.not_mem_nil⟩

/-- Time passes. -/
theorem Closing.advance (h : Closing start D s) (hd : s'.disk = s.disk)
    (hws : s'.mem.workSealed = s.mem.workSealed) (hse : s'.mem.sealing = s.mem.sealing) (hc : s.chain ≤ s'.chain)
    (he : s.endSeen = true → s'.endSeen = true) (hclock : Clock s') : Closing.Kept start D s s' := by
  refine Closing.kept ⟨hclock, ?_, ?_, ?_, ?_, ?_⟩ (by rw [hd]) hc (by rw [hd])
  · rw [hd, hws]
    exact h.workSealed
  · rw [hd, hws, hse]
    exact h.known
  · unfold Server.Settled
    rw [hd]
    exact fun d hD => ⟨(h.settled d hD).1.mono hc he, (h.settled d hD).2⟩
  · rw [hd]
    exact h.ranked
  · unfold Server.SealStands
    rw [hd, hse]
    exact h.sealing

/-- A line is written to the file of a day that is not over, or only noted in memory. -/
theorem Closing.write (h : Closing start D s) {day : Nat} {jid mid prompt answer : Str} {fate : Fate}
    (hok : workAnswer start s.mem jid = .ok) (hday : dayOfHeight start s.mem.height = some day) :
    Closing.Kept start D s (s.write day jid mid prompt answer fate) := by
  obtain ⟨-, -, hover⟩ := h.toClock.not_over_of_ok hok hday
  have hfiled : ∀ lines, Closing start D { s with
      mem := { s.mem with pending := s.mem.pending.set jid (day, mid) }
      disk := { s.disk with files := s.disk.files.set day lines } } := by
    intro lines
    have hset : ∀ d, (s.disk.files.set day lines).get? d = none → s.disk.files.get? d = none := by
      intro d hd
      rw [Ordered.get?_set] at hd
      split at hd
      · cases hd
      · exact hd
    refine { h with settled := fun d hD => ⟨(h.settled d hD).1, ?_⟩, sealing := fun q hq => ?_ }
    · dsimp only
      rw [Ordered.get?_set, if_neg (by rintro rfl; exact hover (h.settled d hD).1)]
      exact (h.settled d hD).2
    · have hqok := h.sealing q hq
      unfold Server.SealStands at hqok ⊢
      split at hqok
      · exact ⟨hqok.1, fun hnone => hqok.2 (hset _ hnone)⟩
      · exact ⟨hqok.1, fun hnone => hqok.2 (hset _ hnone)⟩
      all_goals exact hqok
  cases fate with
  | answered => exact Closing.kept { hfiled _ with } rfl (le_refl _) rfl
  | unanswered => exact Closing.kept { hfiled _ with } rfl (le_refl _) rfl
  | failed => exact Closing.kept { h with } rfl (le_refl _) rfl

/-- The file of a sealed day is removed. -/
theorem Closing.removed (h : Closing start D s) (day : Nat) (hq : s.mem.sealing = none) :
    Closing start D { s with disk := { s.disk with files := s.disk.files.pop day } } := by
  refine { h with settled := fun d hD => ⟨(h.settled d hD).1, ?_⟩, sealing := fun q hq' => ?_ }
  · dsimp only
    rw [Ordered.get?_pop]
    split
    · exact .inl rfl
    · exact (h.settled d hD).2
  · rw [show s.mem.sealing = _ from hq] at hq'
    cases hq'

/-- Every write of a seal keeps the settled days as they are. -/
theorem Closing.sealStep (h : Closing start D s) (hq : s.mem.sealing = some q) :
    Closing.Kept start D s (s.sealStep workOrder q) := by
  have hok := h.sealing q hq
  have hknown : q.stage ≠ .recorded → ∀ day ∈ sealedDays s.disk.evidence, day ∈ s.mem.workSealed :=
    fun hst day hd => h.marked_of_stage (fun q' hq' => by
      rw [hq] at hq'
      obtain rfl := Option.some.inj hq'
      exact hst) hd
  cases hstage : q.stage with
  | read =>
    unfold Server.SealStands at hok
    rw [hstage] at hok hknown
    unfold Server.sealStep Server.setSealing
    rw [hstage]
    dsimp only
    rw [if_neg fun hr => h.not_settled hok.1 hok.2 (h.ranked _ hr)]
    refine Closing.kept { h with known := fun d hd => .inl (hknown (by rintro ⟨⟩) d hd), sealing := ?_ }
      rfl (le_refl _) rfl
    rintro q' hq'
    obtain rfl := Option.some.inj hq'
    exact hok
  | filing todo =>
    unfold Server.SealStands at hok
    rw [hstage] at hok hknown
    have hD := h.not_settled hok.1 hok.2
    have hmarked := hknown (by rintro ⟨⟩)
    unfold Server.sealStep Server.setSealing
    rw [hstage]
    cases todo with
    | cons r todo =>
      dsimp only
      split
      · refine Closing.kept { h with known := fun d hd => .inl (hmarked d hd), sealing := ?_ } rfl (le_refl _) rfl
        rintro q' hq'
        obtain rfl := Option.some.inj hq'
        exact hok
      · have hdays : sealedDays (s.disk.evidence ++ [.workAnswer q.day r]) = sealedDays s.disk.evidence := by
          rw [sealedDays_append]
          exact List.append_nil _
        refine ⟨⟨⟨h.height, h.ended, h.endHeight⟩, ?_, ?_, ?_, h.ranked, ?_⟩, rfl, le_refl _, _, rfl, ?_⟩
        · dsimp only
          rw [hdays]
          exact h.workSealed
        · dsimp only
          rw [hdays]
          exact fun d hd => .inl (hmarked d hd)
        · unfold Server.Settled
          dsimp only
          rw [hdays]
          exact h.settled
        · rintro q' hq'
          obtain rfl := Option.some.inj hq'
          unfold Server.SealStands
          dsimp only
          rw [hdays]
          exact hok
        · rintro e he
          obtain rfl := List.mem_singleton.1 he
          exact hD
    | nil =>
      have hdays : sealedDays (s.disk.evidence ++ [.workSealed q.day q.recs.length
          (drawn workOrder q.recs).length (answeredOf q.recs)]) = sealedDays s.disk.evidence ++ [q.day] :=
        sealedDays_append
      dsimp only
      refine ⟨⟨⟨h.height, h.ended, h.endHeight⟩, ?_, ?_, ?_, h.ranked, ?_⟩, rfl, le_refl _, _, rfl, ?_⟩
      · dsimp only
        rw [hdays]
        exact fun d hd => List.mem_append_left _ (h.workSealed d hd)
      · dsimp only
        rw [hdays]
        intro d hd
        rcases List.mem_append.1 hd with hd | hd
        · exact .inl (hmarked d hd)
        · obtain rfl := List.mem_singleton.1 hd
          exact .inr ⟨_, rfl, rfl, rfl⟩
      · unfold Server.Settled
        dsimp only
        rw [hdays]
        exact fun d hD => ⟨(h.settled d hD).1, (h.settled d hD).2.imp_right (List.mem_append_left _)⟩
      · rintro q' hq'
        obtain rfl := Option.some.inj hq'
        unfold Server.SealStands
        dsimp only
        rw [hdays]
        exact List.mem_append_right _ (List.mem_singleton.2 rfl)
      · rintro e he
        obtain rfl := List.mem_singleton.1 he
        exact hD
  | recorded =>
    unfold Server.SealStands at hok
    rw [hstage] at hok
    unfold Server.sealStep Server.setSealing
    rw [hstage]
    refine Closing.kept { h with workSealed := ?_, known := ?_, sealing := ?_ } rfl (le_refl _) rfl
    · intro day hd
      rcases List.mem_cons.1 hd with rfl | hd
      · exact hok
      · exact h.workSealed day hd
    · intro day hd
      left
      rcases h.known day hd with hd | ⟨q', hq', rfl, -⟩
      · exact List.mem_cons_of_mem _ hd
      · rw [hq] at hq'
        obtain rfl := Option.some.inj hq'
        exact List.mem_cons_self
    · rintro q' hq'
      obtain rfl := Option.some.inj hq'
      exact hok
  | marked =>
    unfold Server.SealStands at hok
    rw [hstage] at hok hknown
    unfold Server.sealStep Server.setSealing
    rw [hstage]
    refine Closing.kept { h with known := fun d hd => .inl (hknown (by rintro ⟨⟩) d hd), sealing := ?_ }
      rfl (le_refl _) rfl
    rintro q' hq'
    obtain rfl := Option.some.inj hq'
    exact hok
  | dropped =>
    rw [hstage] at hknown
    unfold Server.sealStep Server.setSealing
    rw [hstage]
    have hnone : Closing start D { s with mem := { s.mem with sealing := none } } :=
      { h with known := fun d hd => .inl (hknown (by rintro ⟨⟩) d hd), sealing := by rintro q' ⟨⟩ }
    exact Closing.kept (hnone.removed q.day rfl) rfl (le_refl _) rfl

/-- A restart knows the sealed days from the evidence. -/
theorem Closing.crash (h : Closing start D s) : Closing start D { s with mem := restart s.disk } where
  height := .inl restart_height
  ended := by
    intro b hb
    rw [show (restart s.disk).ended = _ from restart_ended] at hb
    cases hb
  endHeight := fun hne => absurd restart_endHeight hne
  workSealed := fun _ hd => restart_workSealed.1 hd
  known := fun _ hd => .inl (restart_workSealed.2 hd)
  settled := h.settled
  ranked := h.ranked
  sealing := by
    intro q hq
    rw [show (restart s.disk).sealing = _ from restart_sealing] at hq
    cases hq

/-- No step of the server but a ranking's touches a settled day. -/
theorem Closing.next {a : ServeAction} (h : Closing start D s) (ha : ∀ day, a ≠ .rank day)
    (hs : Step start workOrder s a s') : Closing.Kept start D s s' := by
  unfold Step at hs
  cases a with
  | watchHeight height =>
    simp only [Season.next] at hs
    split at hs
    · next hle =>
      obtain rfl := Option.some.inj hs
      exact h.advance rfl rfl rfl hle id ⟨.inr rfl, h.ended, h.endHeight⟩
    · cases hs
  | watchTime past =>
    simp only [Season.next] at hs
    split at hs
    · next hle =>
      obtain rfl := Option.some.inj hs
      exact h.advance rfl rfl rfl (le_refl _) hle
        ⟨h.height, fun b hb => Option.some.inj hb, fun hne => hle (h.endHeight hne)⟩
    · cases hs
  | watchEnd e =>
    simp only [Season.next] at hs
    split at hs
    · next hend =>
      obtain rfl := Option.some.inj hs
      exact h.advance rfl rfl rfl (le_refl _) id ⟨h.height, h.ended, fun _ => h.ended true hend.1⟩
    · cases hs
  | forward jid mid prompt answer fate =>
    simp only [Season.next] at hs
    split at hs
    · next day hok hday =>
      obtain rfl := Option.some.inj hs
      exact h.write hok hday
    · obtain rfl := Option.some.inj hs
      exact Closing.kept h rfl (le_refl _) rfl
  | sealDay day =>
    simp only [Season.next] at hs
    split at hs
    · next recs hnone hfile =>
      split at hs
      · next hcan =>
        obtain rfl := Option.some.inj hs
        have hknown : ∀ d ∈ sealedDays s.disk.evidence, d ∈ s.mem.workSealed :=
          fun d hd => h.marked_of_stage (fun q hq => by rw [hnone] at hq; cases hq) hd
        refine Closing.kept { h with known := fun d hd => .inl (hknown d hd), sealing := ?_ } rfl (le_refl _) rfl
        rintro q hq
        obtain rfl := Option.some.inj hq
        have hne : s.disk.files.get? day ≠ none := by
          rw [hfile]
          exact Option.some_ne_none recs
        exact ⟨fun hd => hcan.2.1 (hknown day hd), hne⟩
      · cases hs
    · cases hs
  | sealNext =>
    obtain ⟨q, hq, rfl⟩ := Option.map_eq_some_iff.1 hs
    exact h.sealStep hq
  | sealStops =>
    simp only [Season.next] at hs
    split at hs
    · next q hq =>
      split at hs
      · next hmay =>
        obtain rfl := Option.some.inj hs
        refine Closing.kept { h with
          known := fun d hd => .inl (h.marked_of_stage (fun q' hq' hst => ?_) hd)
          sealing := by rintro q' ⟨⟩ } rfl (le_refl _) rfl
        rw [hq] at hq'
        obtain rfl := Option.some.inj hq'
        rw [hst] at hmay
        cases hmay
      · cases hs
    · cases hs
  | removeSealed day =>
    simp only [Season.next] at hs
    split at hs
    · next hcan =>
      obtain rfl := Option.some.inj hs
      exact Closing.kept (h.removed day (Option.isNone_iff_eq_none.1 hcan.1)) rfl (le_refl _) rfl
    · cases hs
  | rank day => exact absurd rfl (ha day)
  | crash =>
    obtain rfl := Option.some.inj hs
    exact Closing.kept h.crash rfl (le_refl _) rfl

/-- The height that the memory has read does not decrease between restarts, and the season's last block stays
known. -/
theorem Clock.times {a : ServeAction} (h : Clock s) (ha : a ≠ .crash) (hs : Step start workOrder s a s') :
    s.mem.height ≤ s'.mem.height ∧ (s'.mem.endHeight = s.mem.endHeight ∨
      s.mem.endHeight = none ∧ ∃ e, a = .watchEnd e ∧ s'.mem.endHeight = some e) := by
  unfold Step at hs
  cases a with
  | watchHeight height =>
    simp only [Season.next] at hs
    split at hs
    · next hle =>
      obtain rfl := Option.some.inj hs
      have hheight := h.height
      exact ⟨by dsimp only; omega, .inl rfl⟩
    · cases hs
  | watchTime past =>
    simp only [Season.next] at hs
    split at hs
    · obtain rfl := Option.some.inj hs
      exact ⟨le_refl _, .inl rfl⟩
    · cases hs
  | watchEnd e =>
    simp only [Season.next] at hs
    split at hs
    · next hend =>
      obtain rfl := Option.some.inj hs
      exact ⟨le_refl _, .inr ⟨hend.2, e, rfl, rfl⟩⟩
    · cases hs
  | forward jid mid prompt answer fate =>
    simp only [Season.next] at hs
    split at hs
    · obtain rfl := Option.some.inj hs
      cases fate <;> exact ⟨le_refl _, .inl rfl⟩
    · obtain rfl := Option.some.inj hs
      exact ⟨le_refl _, .inl rfl⟩
  | sealDay day =>
    simp only [Season.next] at hs
    split at hs
    · split at hs
      · obtain rfl := Option.some.inj hs
        exact ⟨le_refl _, .inl rfl⟩
      · cases hs
    · cases hs
  | sealNext =>
    obtain ⟨q, -, rfl⟩ := Option.map_eq_some_iff.1 hs
    unfold Server.sealStep Server.setSealing
    split
    · split <;> exact ⟨le_refl _, .inl rfl⟩
    · dsimp only
      split <;> exact ⟨le_refl _, .inl rfl⟩
    all_goals exact ⟨le_refl _, .inl rfl⟩
  | sealStops =>
    simp only [Season.next] at hs
    split at hs
    · split at hs
      · obtain rfl := Option.some.inj hs
        exact ⟨le_refl _, .inl rfl⟩
      · cases hs
    · cases hs
  | removeSealed day =>
    simp only [Season.next] at hs
    split at hs
    · obtain rfl := Option.some.inj hs
      exact ⟨le_refl _, .inl rfl⟩
    · cases hs
  | rank day =>
    simp only [Season.next] at hs
    split at hs
    · obtain rfl := Option.some.inj hs
      exact ⟨le_refl _, .inl rfl⟩
    · cases hs
  | crash => exact absurd rfl ha

end Seals

/-! ## The service -/

def Ranking.day : Ranking → Nat
  | .looked day => day
  | .read day _ => day

/-- The days that are published, and the one being ranked. -/
def Service.Watched (s : Service) (d : Nat) : Prop :=
  d < s.published.length ∨ ∃ r, s.ranking = some r ∧ r.day = d

/-- The days whose records were read: those published, and the one that is about to be. -/
def Service.WasRead (s : Service) (d : Nat) : Prop :=
  d < s.published.length ∨ ∃ records, s.ranking = some (.read d records)

structure ServiceInv (s : Service) : Prop where
  closing : Closing start s.Watched s.server
  ranked : ∀ d, d ∈ s.server.disk.ranked ↔ d < s.published.length
  days : ∀ p ∈ s.published, p.1 < s.published.length
  endHeight : ∀ e, s.server.mem.endHeight = some e → e = seasonEnd
  ranking : ∀ r, s.ranking = some r → r.day = s.published.length
  read : ∀ day records, s.ranking = some (.read day records) →
    dayClosed start s day = true ∧ upTo s.log day = records
  unchanged : ∀ p ∈ s.published, upTo s.log p.1 = p.2
  graded : ∀ g ∈ s.graded, g ∈ s.log

section Service

variable {start seasonEnd workOrder} {s s' : Service}

/-- A final day is final by the service's own count, once it knows the season's last block. -/
theorem seasonWindow_isSome {day height finality : Nat} {w : Int × Int × Option Int}
    (h : seasonWindow start seasonEnd day height finality = some w) :
    min (dayNominalLast start day) seasonEnd + finality ≤ height := by
  unfold seasonWindow at h
  dsimp only at h
  split at h
  · cases h
  · split at h
    · split at h
      · split at h
        · omega
        · cases h
      · omega
    · split at h
      · cases h
      · omega

/-- A day stays closed while time passes. -/
theorem dayClosed_mono {day : Nat} (h : dayClosed start s day = true)
    (hr : ∀ d ∈ s.server.disk.ranked, d ∈ s'.server.disk.ranked) (hf : s'.finality = s.finality)
    (hh : s.server.mem.height ≤ s'.server.mem.height)
    (he : s'.server.mem.endHeight = s.server.mem.endHeight ∨ s.server.mem.endHeight = none) :
    dayClosed start s' day = true := by
  unfold dayClosed at h ⊢
  simp only [Bool.or_eq_true, decide_eq_true_eq, Option.any_eq_true] at h ⊢
  rw [hf]
  rcases h with (h | h) | ⟨f, hfin, hle⟩
  · exact .inl (.inl (hr day h))
  · obtain ⟨e, hend, hlast⟩ := h
    rcases he with he | he
    · exact .inl (.inr ⟨e, by rw [he, hend], hlast⟩)
    · rw [hend] at he
      cases he
  · refine .inr ⟨f, hfin, ?_⟩
    rcases he with he | he
    · rw [he]
      omega
    · rw [he, Option.elim_none] at hle
      cases hend : s'.server.mem.endHeight with
      | none =>
        rw [Option.elim_none]
        omega
      | some e =>
        rw [Option.elim_some]
        omega

theorem upTo_append {log l : List (Nat × Record)} {day : Nat} (h : ∀ e ∈ l, day < e.1) :
    upTo (log ++ l) day = upTo log day := by
  have hnil : l.filter (fun e => decide (e.1 ≤ day)) = [] :=
    List.filter_eq_nil_iff.2 fun e he hle => absurd (of_decide_eq_true hle) (not_le.2 (h e he))
  unfold upTo
  rw [List.filter_append, hnil, List.append_nil]

/-- Records of later days leave what was read as it is. -/
theorem ServiceInv.append (h : ServiceInv start seasonEnd s) {l graded : List (Nat × Record)}
    (hl : ∀ e ∈ l, ∀ d, s.WasRead d → d < e.1) (hg : ∀ g ∈ graded, g ∈ l) :
    ServiceInv start seasonEnd { s with log := s.log ++ l, graded := s.graded ++ graded } := by
  refine { h with read := fun day records hr => ?_, unchanged := fun p hp => ?_, graded := fun g hg' => ?_ }
  · refine ⟨(h.read day records hr).1, ?_⟩
    rw [← (h.read day records hr).2]
    exact upTo_append fun e he => hl e he day (.inr ⟨_, hr⟩)
  · rw [← h.unchanged p hp]
    exact upTo_append fun e he => hl e he p.1 (.inl (h.days p hp))
  · rcases List.mem_append.1 hg' with hg' | hg'
    · exact List.mem_append_left _ (h.graded g hg')
    · exact List.mem_append_right _ (hg g hg')

/-- A day that is not closed comes after the published days and the one whose records were read. -/
theorem ServiceInv.lt_of_open (h : ServiceInv start seasonEnd s) {day d : Nat}
    (ho : dayClosed start s day = false) (hd : s.WasRead d) : d < day := by
  by_contra hle
  have hclosed : dayClosed start s day = true := by
    by_cases hday : day < s.published.length
    · unfold dayClosed
      simp only [Bool.or_eq_true, decide_eq_true_eq]
      exact .inl (.inl ((h.ranked day).2 hday))
    · rcases hd with hd | ⟨records, hr⟩
      · omega
      · have hlast : d = s.published.length := h.ranking _ hr
        obtain rfl : day = d := by omega
        exact (h.read day records hr).1
  rw [ho] at hclosed
  cases hclosed

/-- What a step of the server is, seen from the service. -/
theorem advance_server {a : ServeAction} (hs : Advance start seasonEnd workOrder s (.server a) s') :
    (∀ day, a ≠ .rank day) ∧ a ≠ .crash ∧ (∀ e, a = .watchEnd e → e = seasonEnd) ∧
      ∃ server, Step start workOrder s.server a server ∧
        s' = { s with server := server, log := s.log ++ appended s.server server } := by
  unfold Advance at hs
  cases a with
  | rank day => cases hs
  | crash => cases hs
  | watchEnd e =>
    simp only [Season.advance] at hs
    split at hs
    · next he =>
      obtain ⟨server, hstep, rfl⟩ := Option.map_eq_some_iff.1 hs
      refine ⟨by rintro _ ⟨⟩, by rintro ⟨⟩, fun e' he' => ?_, server, hstep, ?_⟩
      · obtain rfl := ServeAction.watchEnd.inj he'
        exact he
      · have hsame : server.disk = s.server.disk := by
          simp only [Season.next] at hstep
          split at hstep
          · obtain rfl := Option.some.inj hstep
            rfl
          · cases hstep
        unfold appended
        rw [hsame, List.drop_length, List.map_nil, List.append_nil]
    · cases hs
  | _ =>
    obtain ⟨server, hstep, rfl⟩ := Option.map_eq_some_iff.1 hs
    exact ⟨by rintro _ ⟨⟩, by rintro ⟨⟩, by rintro _ ⟨⟩, server, hstep, rfl⟩

/-- A step of the server files nothing on a day that was read. -/
theorem ServiceInv.server (h : ServiceInv start seasonEnd s) {a : ServeAction}
    (hs : Advance start seasonEnd workOrder s (.server a) s') : ServiceInv start seasonEnd s' := by
  obtain ⟨hrank, hcrash, hend, server, hstep, rfl⟩ := advance_server hs
  obtain ⟨hclosing, hranked, -, l, hl, hday⟩ := h.closing.next hrank hstep
  obtain ⟨hheight, hknown⟩ := h.closing.toClock.times hcrash hstep
  have happ : appended s.server server = l.map fun e => (e.day, .seal e) := by
    unfold appended
    rw [hl, List.drop_left]
  have hread : ∀ e ∈ appended s.server server, ∀ d, s.WasRead d → d < e.1 := by
    intro e he d hd
    rw [happ] at he
    obtain ⟨e', he', rfl⟩ := List.mem_map.1 he
    have hno := hday e' he'
    have hge : s.published.length ≤ e'.day := not_lt.1 fun hlt => hno (.inl hlt)
    rcases hd with hd | ⟨records, hr⟩
    · exact lt_of_lt_of_le hd hge
    · have hlast : d = s.published.length := h.ranking _ hr
      refine lt_of_le_of_ne (hlast ▸ hge) fun heq => hno (.inr ⟨_, hr, heq⟩)
  have hinv : ServiceInv start seasonEnd { s with server := server } := by
    refine { h with closing := hclosing, ranked := ?_, endHeight := ?_, read := ?_ }
    · dsimp only
      rw [hranked]
      exact h.ranked
    · intro e he
      rcases hknown with hsame | ⟨-, e', ha, hsome⟩
      · exact h.endHeight e (by rw [← hsame]; exact he)
      · obtain rfl := Option.some.inj (hsome.symm.trans he)
        exact hend e' ha
    · intro day records hr
      refine ⟨dayClosed_mono (h.read day records hr).1 ?_ rfl hheight (hknown.imp_right And.left), (h.read day records hr).2⟩
      dsimp only
      rw [hranked]
      exact fun d hd => hd
  have := hinv.append hread (fun g hg => absurd hg (List.not_mem_nil (a := g)))
  rwa [List.append_nil] at this

/-- The day being ranked is settled as long as it is watched; another set of watched days has to be too. -/
theorem Closing.watch {D D' : Nat → Prop} {s s' : Server} (h : Closing start D s) (hm : s'.mem = s.mem)
    (hf : s'.disk.files = s.disk.files) (he : s'.disk.evidence = s.disk.evidence) (hc : s'.chain = s.chain)
    (hseen : s'.endSeen = s.endSeen) (hset : ∀ d, D' d → s.Settled start d)
    (hr : ∀ d ∈ s'.disk.ranked, D' d) : Closing start D' s' where
  height := by rw [hm, hc]; exact h.height
  ended := by rw [hm, hseen]; exact h.ended
  endHeight := by rw [hm, hseen]; exact h.endHeight
  workSealed := by rw [hm, he]; exact h.workSealed
  known := by rw [hm, he]; exact h.known
  settled := by
    unfold Server.Settled Server.Over at hset ⊢
    rw [hf, he, hc, hseen]
    exact hset
  ranked := hr
  sealing := by
    unfold Server.SealStands
    rw [hm, hf, he]
    exact h.sealing

/-- A ranking looks for the answers of its day. -/
theorem ServiceInv.look (h : ServiceInv start seasonEnd s) (hc : Closes start seasonEnd s .look)
    (hs : Advance start seasonEnd workOrder s .look s') : ServiceInv start seasonEnd s' := by
  unfold Advance at hs
  simp only [Season.advance] at hs
  split at hs
  · next hcan =>
    obtain rfl := Option.some.inj hs
    obtain ⟨hheight, hover⟩ := hc.look rfl
    have hset : s.server.Settled start s.published.length :=
      ⟨h.closing.toClock.over_of_dayOver hheight hover, hcan.2.imp_right (h.closing.workSealed _)⟩
    refine { h with
      closing := h.closing.watch rfl rfl rfl rfl rfl ?_ fun d hd => .inl ((h.ranked d).1 hd)
      ranking := ?_
      read := by rintro day records ⟨⟩ }
    · rintro d (hd | ⟨r, hr, rfl⟩)
      · exact h.closing.settled d (.inl hd)
      · obtain rfl := Option.some.inj hr
        exact hset
    · rintro r hr
      obtain rfl := Option.some.inj hr
      rfl
  · cases hs

/-- A ranking reads the records: from then on its day is closed. -/
theorem ServiceInv.reads (h : ServiceInv start seasonEnd s) {finality : Nat}
    (hc : Closes start seasonEnd s (.read finality))
    (hs : Advance start seasonEnd workOrder s (.read finality) s') : ServiceInv start seasonEnd s' := by
  unfold Advance at hs
  simp only [Season.advance] at hs
  split at hs
  · next day hlook =>
    split at hs
    · next hpos =>
      obtain rfl := Option.some.inj hs
      refine { h with closing := ?_, ranking := ?_, read := ?_ }
      · refine h.closing.watch rfl rfl rfl rfl rfl ?_ fun d hd => .inl ((h.ranked d).1 hd)
        rintro d (hd | ⟨r, hr, rfl⟩)
        · exact h.closing.settled d (.inl hd)
        · obtain ⟨w, -, rfl⟩ := Option.map_eq_some_iff.1 hr
          exact h.closing.settled _ (.inr ⟨_, hlook, rfl⟩)
      · intro r hr
        obtain ⟨w, -, rfl⟩ := Option.map_eq_some_iff.1 hr
        exact h.ranking (.looked day) hlook
      · intro day' records hr
        obtain ⟨w, hw, heq⟩ := Option.map_eq_some_iff.1 hr
        obtain ⟨rfl, rfl⟩ := Ranking.read.inj heq
        have hfinal := seasonWindow_isSome hw
        refine ⟨?_, rfl⟩
        unfold dayClosed
        simp only [Bool.or_eq_true, decide_eq_true_eq, Option.any_eq_true]
        refine .inr ⟨finality, rfl, ?_⟩
        cases hend : s.server.mem.endHeight with
        | some e =>
          obtain rfl := h.endHeight e hend
          exact hfinal
        | none =>
          -- the season's end is not passed, so the day runs to its full length
          have hnot : ¬ seasonEnd < s.server.mem.height := fun hlt => hc.read finality rfl hlt hend
          rw [Option.elim_none]
          omega
    · cases hs
  · cases hs

/-- The ranking is published: its file closes the day. -/
theorem ServiceInv.publish (h : ServiceInv start seasonEnd s)
    (hs : Advance start seasonEnd workOrder s .publish s') : ServiceInv start seasonEnd s' := by
  unfold Advance at hs
  simp only [Season.advance] at hs
  split at hs
  · next day records hread =>
    obtain rfl := Option.some.inj hs
    have hday : day = s.published.length := h.ranking _ hread
    have hlen : (s.published ++ [(day, records)]).length = s.published.length + 1 := by simp
    have hranked : ∀ d, d ∈ day :: s.server.disk.ranked ↔ d < s.published.length + 1 := by
      intro d
      rw [List.mem_cons, h.ranked d]
      omega
    refine ⟨?_, ?_, ?_, h.endHeight, ?_, ?_, ?_, h.graded⟩
    · refine h.closing.watch rfl rfl rfl rfl rfl ?_ fun d hd => .inl (hlen ▸ (hranked d).1 hd)
      rintro d (hd | ⟨r, hr, -⟩)
      · rw [show (s.published ++ [(day, records)]).length = _ from hlen] at hd
        by_cases hlt : d < s.published.length
        · exact h.closing.settled d (.inl hlt)
        · exact h.closing.settled d (.inr ⟨_, hread, show day = d by omega⟩)
      · cases hr
    · dsimp only
      rw [hlen]
      exact hranked
    · intro p hp
      dsimp only at hp ⊢
      rw [hlen]
      rcases List.mem_append.1 hp with hp | hp
      · exact lt_trans (h.days p hp) (Nat.lt_succ_self _)
      · obtain rfl := List.mem_singleton.1 hp
        exact hday ▸ Nat.lt_succ_self _
    · rintro r ⟨⟩
    · rintro d records' ⟨⟩
    · intro p hp
      rcases List.mem_append.1 hp with hp | hp
      · exact h.unchanged p hp
      · obtain rfl := List.mem_singleton.1 hp
        exact (h.read day records hread).2
  · cases hs

/-- A ranking is given up. -/
theorem ServiceInv.fails (h : ServiceInv start seasonEnd s) :
    ServiceInv start seasonEnd { s with ranking := none } := by
  refine { h with
    closing := h.closing.watch rfl rfl rfl rfl rfl ?_ fun d hd => .inl ((h.ranked d).1 hd)
    ranking := by rintro r ⟨⟩
    read := by rintro day records ⟨⟩ }
  rintro d (hd | ⟨r, hr, -⟩)
  · exact h.closing.settled d (.inl hd)
  · cases hr

theorem ServiceInv.advance {a : ServiceAction} (h : ServiceInv start seasonEnd s)
    (hc : Closes start seasonEnd s a) (hs : Advance start seasonEnd workOrder s a s') :
    ServiceInv start seasonEnd s' := by
  cases a with
  | server a => exact h.server hs
  | grade jid mid coherent model grader =>
    unfold Advance at hs
    simp only [Season.advance] at hs
    split at hs
    · obtain rfl := Option.some.inj hs
      exact h
    · next day mid' hwork =>
      split at hs
      · obtain rfl := Option.some.inj hs
        exact h
      · next hopen =>
        obtain rfl := Option.some.inj hs
        rw [not_or, Bool.not_eq_true] at hopen
        refine h.append (fun e he d hd => ?_) fun g hg => hg
        obtain rfl := List.mem_singleton.1 he
        exact h.lt_of_open hopen.2 hd
  | file height r =>
    unfold Advance at hs
    simp only [Season.advance] at hs
    split at hs
    · obtain rfl := Option.some.inj hs
      have hopen := hc.file height r rfl
      have happ := h.append (l := [((dayOfHeight start height).getD 0, r)]) (fun e he d hd => by
        obtain rfl := List.mem_singleton.1 he
        exact h.lt_of_open hopen hd) (fun g hg => absurd hg (List.not_mem_nil (a := g)))
      rwa [List.append_nil] at happ
    · cases hs
  | look => exact h.look hc hs
  | read finality => exact h.reads hc hs
  | publish => exact h.publish hs
  | fails =>
    obtain rfl := Option.some.inj hs
    exact h.fails
  | crash =>
    obtain rfl := Option.some.inj hs
    have hf := h.fails
    exact { hf with
      closing := hf.closing.crash
      endHeight := fun e he => by
        rw [show (restart s.server.disk).endHeight = _ from restart_endHeight] at he
        cases he
      read := by rintro day records ⟨⟩ }

theorem ServiceInv.init : ServiceInv start seasonEnd Service.init where
  closing := by
    have h : Inv start (fun _ => 0) Server.init := Inv.init
    refine ⟨h.toClock, h.workSealed, h.known, ?_, fun _ hd => absurd hd List.not_mem_nil, by rintro q ⟨⟩⟩
    rintro d (hd | ⟨r, hr, -⟩)
    · exact absurd hd (Nat.not_lt_zero d)
    · cases hr
  ranked d := ⟨fun hd => absurd hd List.not_mem_nil, fun hd => absurd hd (Nat.not_lt_zero d)⟩
  days _ hp := absurd hp List.not_mem_nil
  endHeight := by rintro e ⟨⟩
  ranking := by rintro r ⟨⟩
  read := by rintro day records ⟨⟩
  unchanged _ hp := absurd hp List.not_mem_nil
  graded _ hg := absurd hg List.not_mem_nil

end Service

/-! ## The guarantee -/

/-- What a ranking read is what its days hold, and every grade that was accepted for these days is in it. -/
structure ClosedForGood (s : Service) : Prop where
  unchanged : ∀ p ∈ s.published, upTo s.log p.1 = p.2
  graded : ∀ g ∈ s.graded, ∀ p ∈ s.published, g.1 ≤ p.1 → g ∈ p.2

/-- In a run whose steps respect `Closes`, a published day stays closed. -/
theorem closed_for_good (start seasonEnd : Nat) (workOrder : Str → Nat) {s : Service}
    (h : Reach (· = Service.init) (Advance start seasonEnd workOrder) (Closes start seasonEnd) s) :
    ClosedForGood s := by
  have hinv : ServiceInv start seasonEnd s := h.invariant (fun _ hs => hs ▸ ServiceInv.init)
    fun _ _ _ _ hinv hok hstep => hinv.advance hok hstep
  refine ⟨hinv.unchanged, fun g hg p hp hle => ?_⟩
  rw [← hinv.unchanged p hp]
  exact List.mem_filter.2 ⟨hinv.graded g hg, decide_eq_true hle⟩

section Late

variable {start seasonEnd : Nat} {workOrder : Str → Nat} {s s' : Service}

theorem closes_server (a : ServeAction) : Closes start seasonEnd s (.server a) :=
  ⟨by rintro _ _ ⟨⟩, by rintro ⟨⟩, by rintro _ ⟨⟩⟩

theorem advance_read {day finality : Nat} {w : Int × Int × Option Int} (hr : s.ranking = some (.looked day))
    (hf : 0 < finality) (hw : seasonWindow start seasonEnd day s.server.mem.height finality = some w) :
    Advance start seasonEnd workOrder s (.read finality)
      { s with finality := some finality, ranking := some (.read day (upTo s.log day)) } := by
  unfold Advance
  simp only [Season.advance, hr]
  rw [if_pos hf, hw]
  rfl

/-- The first day holds the season's last block, and is ranked without answers. -/
theorem closed_for_good_first : ∃ s, ClosedForGood s ∧ s.published = [(0, [])] := by
  have hlook : ∀ s : Service, s.server.mem.height = 111 → s.server.mem.endHeight = some 100 →
      Closes 1 100 s .look := by
    refine fun s hh he => ⟨by rintro _ _ ⟨⟩, fun _ => ⟨by rw [hh]; decide, ?_⟩, by rintro _ ⟨⟩⟩
    unfold Memory.dayOver
    rw [he, hh, Bool.or_eq_true]
    exact .inr (by decide)
  have hread : ∀ s : Service, s.server.mem.endHeight = some 100 → Closes 1 100 s (.read 10) :=
    fun s he => ⟨by rintro _ _ ⟨⟩, by rintro ⟨⟩, fun _ _ _ => by rw [he]; exact Option.some_ne_none 100⟩
  have hpublish : ∀ s : Service, Closes 1 100 s .publish :=
    fun s => ⟨by rintro _ _ ⟨⟩, by rintro ⟨⟩, by rintro _ ⟨⟩⟩
  have hwindow : seasonWindow 1 100 0 111 10 = some (1, 100, some 100) := by decide
  exact ⟨_, closed_for_good 1 100 (fun _ => 0)
    (.step (.step (.step (.step (.step (.step (.init rfl)
      (closes_server (.watchHeight 111)) rfl)
      (closes_server (.watchTime true)) rfl)
      (closes_server (.watchEnd 100)) rfl)
      (hlook _ rfl rfl) rfl)
      (hread _ rfl) (advance_read rfl (by decide) hwindow))
      (hpublish _) rfl), rfl⟩

variable (start seasonEnd workOrder) in
def serves (s : Service) (l : List ServiceAction) : Option Service :=
  l.foldlM (advance start seasonEnd workOrder) s

theorem reach_serves {l : List ServiceAction}
    (h : Reach (· = Service.init) (Advance start seasonEnd workOrder) (fun _ _ => True) s)
    (hs : serves start seasonEnd workOrder s l = some s') :
    Reach (· = Service.init) (Advance start seasonEnd workOrder) (fun _ _ => True) s' := by
  induction l generalizing s with
  | nil =>
    obtain rfl := Option.some.inj hs
    exact h
  | cons a l ih =>
    obtain ⟨s₁, h₁, hs⟩ := Option.bind_eq_some_iff.1 hs
    exact ih (.step h trivial h₁) hs

/-- The season ends at block 100, in the first day; the day is ranked, and a capacity report follows. -/
def lateReport : List ServiceAction :=
  [.server (.watchHeight 111), .server (.watchTime true), .server (.watchEnd 100), .look, .read 10, .publish,
    .file 111 (.capacity ['m'] (some 3) [] 111 none)]

/-- The file of the ranked day has a record that its ranking did not read. -/
theorem changed_after_ranking :
    ∃ s, Reach (· = Service.init) (Advance 1 100 fun _ => 0) (fun _ _ => True) s ∧
      (0, []) ∈ s.published ∧ upTo s.log 0 = [(0, .capacity ['m'] (some 3) [] 111 none)] := by
  have hrun : ((serves 1 100 (fun _ => 0) Service.init lateReport).map fun s =>
      (decide ((0, []) ∈ s.published), upTo s.log 0)) =
      some (true, [(0, .capacity ['m'] (some 3) [] 111 none)]) := by decide
  obtain ⟨s, hs, heq⟩ := Option.map_eq_some_iff.1 hrun
  obtain ⟨hpub, hlog⟩ := Prod.mk.inj heq
  exact ⟨s, reach_serves (.init rfl) hs, of_decide_eq_true hpub, hlog⟩

end Late

end Dendra.Season
