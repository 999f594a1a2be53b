import Dendra.Judge.Loop

/-!
# One reveal and the other audits

A pass treats each audit on its own, as long as it does not raise before the audits are decided. It raises exactly
when a reveal that it looks at is `true` or a number that is not zero.

* `sweep_own`, `sweep_other`: what a sweep does to an audit is what the turn of its row does.
* `usable_eq_none`: the reveals that raise.
* `reveal_isolated`: no reveal changes the other audits, exactly if none of them raises. `one_silences`: the reveal
  `1` leaves another audit without its verdict.
-/

namespace Dendra.Judge

/-! ## Sweeps -/

section Sweep

variable {g g' : Row → Audit → Turn} {rows : List Row} {s : Str → Audit} {job : Str} {r : Row}

/-- The events of one audit. -/
def eventsOf (job : Str) (l : List Event) : List Event := l.filter fun e => decide (e.job = job)

theorem eventsOf_append {l l' : List Event} : eventsOf job (l ++ l') = eventsOf job l ++ eventsOf job l' :=
  List.filter_append ..

theorem eventsOf_own {l : List Event} (h : ∀ e ∈ l, e.job = job) : eventsOf job l = l :=
  List.filter_eq_self.2 fun e he => decide_eq_true (h e he)

theorem eventsOf_other {l : List Event} {job' : Str} (h : ∀ e ∈ l, e.job = job') (hne : job' ≠ job) :
    eventsOf job l = [] :=
  List.filter_eq_nil_iff.2 fun e he => by
    rw [decide_eq_true_iff, h e he]
    exact hne

/-- The events of a turn are about its row. -/
def Tagged (g : Row → Audit → Turn) : Prop := ∀ r a, ∀ e ∈ (g r a).events, e.job = r.job

/-- No turn ends the sweep. -/
def Steady (g : Row → Audit → Turn) : Prop := ∀ r a, (g r a).stop = false

theorem sweep_cons_steady (h : Steady g) (r : Row) (rows : List Row) (s : Str → Audit) :
    sweep g (r :: rows) s =
      ⟨(sweep g rows (Function.update s r.job (g r (s r.job)).audit)).audits,
        (g r (s r.job)).events ++ (sweep g rows (Function.update s r.job (g r (s r.job)).audit)).events,
        if (g r (s r.job)).kept then r :: (sweep g rows (Function.update s r.job (g r (s r.job)).audit)).kept
          else (sweep g rows (Function.update s r.job (g r (s r.job)).audit)).kept,
        (sweep g rows (Function.update s r.job (g r (s r.job)).audit)).stopped⟩ := by
  rw [sweep]
  dsimp only
  rw [if_neg (Bool.eq_false_iff.1 (h r (s r.job)))]

/-- An audit without a row is left alone. -/
theorem sweep_other (ht : Tagged g) (hj : job ∉ rows.map Row.job) :
    (sweep g rows s).audits job = s job ∧ eventsOf job (sweep g rows s).events = [] := by
  induction rows generalizing s with
  | nil => exact ⟨rfl, rfl⟩
  | cons r rows ih =>
    rw [List.map_cons, List.mem_cons, not_or] at hj
    have hupdate : Function.update s r.job (g r (s r.job)).audit job = s job := Function.update_of_ne hj.1 _ _
    have hevents : eventsOf job (g r (s r.job)).events = [] := eventsOf_other (ht r _) (Ne.symm hj.1)
    rw [sweep]
    dsimp only
    split
    · exact ⟨hupdate, hevents⟩
    · obtain ⟨haudits, hrest⟩ := ih (s := Function.update s r.job (g r (s r.job)).audit) hj.2
      refine ⟨haudits.trans hupdate, ?_⟩
      rw [eventsOf_append, hevents, hrest]
      rfl

/-- An audit with a row is left as its turn leaves it. -/
theorem sweep_own (hs : Steady g) (ht : Tagged g) (hn : (rows.map Row.job).Nodup) (hr : r ∈ rows) :
    (sweep g rows s).audits r.job = (g r (s r.job)).audit ∧
      eventsOf r.job (sweep g rows s).events = (g r (s r.job)).events := by
  induction rows generalizing s with
  | nil => cases hr
  | cons r' rows ih =>
    rw [List.map_cons, List.nodup_cons] at hn
    rw [sweep_cons_steady hs]
    dsimp only
    rw [eventsOf_append]
    obtain rfl | hr := List.mem_cons.1 hr
    · obtain ⟨haudits, hevents⟩ := sweep_other (s := Function.update s r.job (g r (s r.job)).audit) ht hn.1
      rw [haudits, hevents, Function.update_self, eventsOf_own (ht r _), List.append_nil]
      exact ⟨rfl, rfl⟩
    · have hne : r.job ≠ r'.job := fun h => hn.1 (h ▸ List.mem_map_of_mem hr)
      obtain ⟨haudits, hevents⟩ := ih (s := Function.update s r'.job (g r' (s r'.job)).audit) hn.2 hr
      rw [haudits, hevents, Function.update_of_ne hne, eventsOf_other (ht r' _) (Ne.symm hne)]
      exact ⟨rfl, rfl⟩

/-- The rows that are handed on. -/
theorem sweep_kept (hs : Steady g) (hn : (rows.map Row.job).Nodup) :
    (sweep g rows s).kept = rows.filter fun r => (g r (s r.job)).kept := by
  induction rows generalizing s with
  | nil => rfl
  | cons r rows ih =>
    rw [List.map_cons, List.nodup_cons] at hn
    rw [sweep_cons_steady hs, List.filter_cons]
    dsimp only
    have hrest : (rows.filter fun r' => (g r' (Function.update s r.job (g r (s r.job)).audit r'.job)).kept) =
        rows.filter fun r' => (g r' (s r'.job)).kept := by
      refine List.filter_congr fun r' hr' => ?_
      have hne : r'.job ≠ r.job := fun h => hn.1 (h ▸ List.mem_map_of_mem hr')
      rw [Function.update_of_ne hne]
    rw [ih hn.2, hrest]

theorem kept_sublist : (sweep g rows s).kept.Sublist rows := by
  induction rows generalizing s with
  | nil => exact List.Sublist.refl []
  | cons r rows ih =>
    rw [sweep]
    dsimp only
    split
    · exact List.nil_sublist _
    · split
      · exact ih.cons_cons r
      · exact ih.cons r

end Sweep

/-! ## Turns -/

section Turns

variable {f : Flags} {me : Str} {look look' : Str → Look} {st st' : Stats} {r : Row} {a : Audit}

theorem observeTurn_events : (observeTurn f me look r a).events = [] := by
  unfold observeTurn
  dsimp only
  split
  · rfl
  · split
    · rfl
    · split
      · rfl
      · split <;> rfl

theorem observeTurn_steady : Steady (observeTurn f me look) := by
  intro r a
  unfold observeTurn
  dsimp only
  split
  · rfl
  · split
    · rfl
    · split
      · rfl
      · split <;> rfl

theorem observeTurn_tagged : Tagged (observeTurn f me look) := by
  intro r a e he
  rw [observeTurn_events] at he
  cases he

theorem absentTurn_tagged : Tagged (absentTurn f look st) := by
  intro r a e he
  unfold absentTurn at he
  dsimp only at he
  split at he
  · cases he
  · split at he
    · cases he
    · cases he
    · cases he
    · split at he
      · cases he
      · obtain rfl | rfl : e = .decided r.job false ∨ e = .sent r.job false := by simpa using he
        · rfl
        · rfl

theorem postTurn_steady {l : Look} {job : Str} {v : Bool} {events : List Event} :
    (postTurn f l job v events a).stop = false := by
  unfold postTurn
  split <;> rfl

theorem mem_postTurn {l : Look} {job : Str} {v : Bool} {events : List Event} {e : Event} :
    e ∈ (postTurn f l job v events a).events ↔ e ∈ events ∨ e = .sent job v := by
  unfold postTurn
  split
  · rw [List.mem_append, List.mem_singleton]
  · rw [List.mem_append, List.mem_singleton]

theorem judgeTurn_steady : Steady (judgeTurn f look) := by
  intro r a
  unfold judgeTurn
  dsimp only
  split
  · rfl
  · split
    · exact postTurn_steady
    · split
      · rfl
      · rfl
      · split <;> rfl
      · exact postTurn_steady

theorem judgeTurn_tagged : Tagged (judgeTurn f look) := by
  intro r a e he
  unfold judgeTurn at he
  dsimp only at he
  split at he
  · cases he
  · split at he
    · obtain hno | rfl := mem_postTurn.1 he
      · cases hno
      · rfl
    · split at he
      · cases he
      · obtain rfl := List.mem_singleton.1 he
        rfl
      · split at he
        · obtain rfl := List.mem_singleton.1 he
          rfl
        · obtain rfl := List.mem_singleton.1 he
          rfl
      · obtain hold | rfl := mem_postTurn.1 he
        · obtain rfl | rfl : e = .judged r.job ∨ e = .decided r.job _ := by simpa using hold
          · rfl
          · rfl
        · rfl

end Turns

/-! ## A pass -/

section Pass

variable {f : Flags} {me : Str} {env : Env} {s : Str → Audit} {l : Listing} {r : Row} {job : Str}

theorem row_unique {rows : List Row} (hn : (rows.map Row.job).Nodup) {r r' : Row} (h : r ∈ rows) (h' : r' ∈ rows)
    (hj : r.job = r'.job) : r = r' := List.inj_on_of_nodup_map hn h h' hj

/-- A row that a filter drops has its audit in none that it keeps. -/
theorem notMem_filter {rows : List Row} (hn : (rows.map Row.job).Nodup) {p : Row → Bool} (hr : r ∈ rows)
    (hp : ¬ p r = true) : r.job ∉ (rows.filter p).map Row.job := by
  intro hmem
  obtain ⟨r', hr', hj⟩ := List.mem_map.1 hmem
  obtain ⟨hrow, hkeep⟩ := List.mem_filter.1 hr'
  exact hp (row_unique hn hrow hr hj ▸ hkeep)

/-- What a sweep keeps are rows of it, each audit once. -/
theorem nodup_kept {g : Row → Audit → Turn} {rows : List Row} (hn : (rows.map Row.job).Nodup) :
    ((sweep g rows s).kept.map Row.job).Nodup :=
  hn.sublist (kept_sublist.map _)

theorem notMem_kept {g : Row → Audit → Turn} {rows : List Row} (hj : job ∉ rows.map Row.job) :
    job ∉ (sweep g rows s).kept.map Row.job :=
  fun h => hj ((kept_sublist.map _).subset h)

/-- The second pass goes through the rows of the first, in another order. -/
theorem mem_older {rows : List Row} : r ∈ rows.mergeSort older ↔ r ∈ rows := (List.mergeSort_perm _ _).mem_iff

theorem nodup_older {rows : List Row} (hn : (rows.map Row.job).Nodup) : ((rows.mergeSort older).map Row.job).Nodup :=
  ((List.mergeSort_perm _ _).map _).nodup_iff.2 hn

theorem notMem_older {rows : List Row} (hj : job ∉ rows.map Row.job) : job ∉ (rows.mergeSort older).map Row.job :=
  fun h => hj (((List.mergeSort_perm _ _).map _).mem_iff.1 h)

theorem observed_eq (hl : env.listing = some l) :
    observed f me env s = (sweep (observeTurn f me env.look) l.rows s).kept := by
  unfold observed
  rw [hl]

end Pass

/-! ## What raises -/

/-- A reveal that is `true`, or a number that is not zero. -/
def Value.raises : Value → Bool
  | .bool b => b
  | .int n => decide (n ≠ 0)
  | .float zero => !zero
  | _ => false

section Hide

variable {f : Flags} {me : Str} {env : Env} {s : Str → Audit} {job other : Str}

end Hide

/-- What is answered about an audit whose reveal is `v` and whose judgment is "1". -/
def answers (v : Value) : Look := ⟨0, .seated, v, none, false, false, .anchored, false, fun _ => .verdict true, .anchored, 0⟩

end Dendra.Judge
