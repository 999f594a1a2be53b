import Dendra.Season.Evidence

/-!
# Capacity reports

The service reads the registry of signed capacity reports again and again and files what changed; it knows what
it filed last from its memory, which a restart rebuilds from the evidence. A ranking reads the latest report of
an identity at or before a height.

* `fileCapacityChanges`, `kitReport`: the code. `CapacityAction`: snapshots, other records, restarts.
* `fileCapacityChanges_spec`: what one snapshot files.
* `kitReport_eq`: of records in the order of their heights, the last one counts.
* `kitReport_snapshots`: the filtered log answers like the snapshots.
-/

namespace Dendra.Season

/-! ## The code -/

/-- What the registry has of an identity. -/
structure Report where
  kitVersion : Option Nat
  judgeRole : Str
  ts : Option Nat
  deriving DecidableEq

/-- What the memory keeps of a report, and a record carries of it. -/
abbrev Filed : Type := Option Int × Option Str

def Report.filed (r : Report) : Filed := (r.kitVersion.map Int.ofNat, some r.judgeRole)

/-- `_replay`, of a capacity record. -/
def replayCapacity (capacity : Ordered Str Filed) : Rec → Ordered Str Filed
  | .capacity _ mid kv role _ => capacity.set mid (kv, role)
  | _ => capacity

structure CapacityState where
  /-- the records in the order in which they were filed -/
  log : List Rec
  capacity : Ordered Str Filed

/-- One identity of `file_capacity_changes`. -/
def fileChange (registry : Ordered Str Report) (height day : Nat) (s : CapacityState) (mid : Str) :
    CapacityState :=
  match registry.get? mid with
  | none => s
  | some r =>
    if s.capacity.get? mid = some r.filed then s
    else ⟨s.log ++ [.capacity day mid r.filed.1 r.filed.2 height], s.capacity.set mid r.filed⟩

/-- `file_capacity_changes`. -/
def fileCapacityChanges (registry : Ordered Str Report) (height day : Nat) (s : CapacityState) : CapacityState :=
  (registry.keys.insertionSort (· ≤ ·)).foldl (fileChange registry height day) s

/-- What `kit_report` answers. -/
structure KitReport where
  kitVersion : Option Int
  judgeRole : Option Str
  height : Int
  deriving DecidableEq

def bestReport (mid : Str) (lastHeight : Int) (best : Option KitReport) : Rec → Option KitReport
  | .capacity _ m kv role h =>
    if m ≠ mid then best
    else if h < 0 ∨ h > lastHeight then best
    else
      let this : KitReport := ⟨kv.filter fun kv => decide (0 ≤ kv), role, h⟩
      match best with
      | none => some this
      | some b => if h ≥ b.height then some this else best
  | _ => best

/-- `kit_report`. -/
def kitReport (records : List Rec) (mid : Str) (lastHeight : Int) : Option KitReport :=
  records.foldl (bestReport mid lastHeight) none

def Rec.isCapacity : Rec → Bool
  | capacity .. => true
  | _ => false

/-- What happens to the log: a snapshot of the registry is read at a height, another record is filed, the
service restarts. -/
inductive CapacityAction
  | snapshot (registry : Ordered Str Report) (height : Nat)
  | file (r : Rec) (other : r.isCapacity = false)
  | restart

section Runs

variable (start : Nat)

def CapacityState.step (s : CapacityState) : CapacityAction → CapacityState
  | .snapshot registry height => fileCapacityChanges registry height (filedDay start height) s
  | .file r _ => { s with log := s.log ++ [r] }
  | .restart => { s with capacity := (allRecords s.log).foldl replayCapacity .empty }

def CapacityState.run (actions : List CapacityAction) : CapacityState :=
  actions.foldl (CapacityState.step start) ⟨[], .empty⟩

end Runs

def CapacityAction.height? : CapacityAction → Option Nat
  | snapshot _ h => some h
  | _ => none

/-- What an identity had in a snapshot that was read at or before a height. -/
def CapacityAction.report? (mid : Str) (lastHeight : Int) : CapacityAction → Option Report
  | snapshot registry h => if (h : Int) ≤ lastHeight then registry.get? mid else none
  | _ => none

/-- What an identity had in the last snapshot at or before a height that contained it. -/
def lastReport (actions : List CapacityAction) (mid : Str) (lastHeight : Int) : Option Report :=
  (actions.filterMap (CapacityAction.report? mid lastHeight)).getLast?

/-! ## The records of an identity -/

section Records

variable {records log : List Rec} {mid : Str} {r : Rec}

/-- A capacity record of an identity. -/
def Rec.capacityOf (mid : Str) : Rec → Bool
  | capacity _ m .. => decide (m = mid)
  | _ => false

def Rec.height : Rec → Int
  | capacity _ _ _ _ h => h
  | _ => 0

def Rec.filed : Rec → Filed
  | capacity _ _ kv role _ => (kv, role)
  | _ => (none, none)

/-- The capacity records of an identity. -/
def capacityRecords (mid : Str) (log : List Rec) : List Rec := log.filter (Rec.capacityOf mid)

theorem capacityRecords_append (log log' : List Rec) :
    capacityRecords mid (log ++ log') = capacityRecords mid log ++ capacityRecords mid log' :=
  List.filter_append ..

/-- Only the records of the identity are read. -/
theorem kitReport_capacityRecords (records : List Rec) (lastHeight : Int) :
    kitReport (capacityRecords mid records) mid lastHeight = kitReport records mid lastHeight := by
  unfold kitReport capacityRecords
  rw [List.foldl_filter]
  congr 1
  funext best r
  unfold bestReport Rec.capacityOf
  split <;> simp_all

/-- Of an identity's records in the order of their heights, the last one within the bound counts. -/
theorem kitReport_eq (hof : ∀ r ∈ records, r.capacityOf mid = true)
    (hs : (records.map Rec.height).Pairwise (· ≤ ·)) (h0 : ∀ r ∈ records, 0 ≤ r.height) (lastHeight : Int) :
    kitReport records mid lastHeight =
      ((records.filter fun r => decide (r.height ≤ lastHeight)).getLast?).map fun r =>
        ⟨r.filed.1.filter fun kv => decide (0 ≤ kv), r.filed.2, r.height⟩ := by
  induction records using List.reverseRecOn with
  | nil => rfl
  | append_singleton l r ih =>
    rw [List.map_append, List.pairwise_append] at hs
    have hmem {r' : Rec} (h : r' ∈ l) : r' ∈ l ++ [r] := List.mem_append_left _ h
    have hl := ih (fun r' h => hof r' (hmem h)) hs.1 fun r' h => h0 r' (hmem h)
    have hr := hof r (by simp)
    have hr0 := h0 r (by simp)
    unfold kitReport at hl ⊢
    rw [List.foldl_append, hl, List.foldl_cons, List.foldl_nil, List.filter_append]
    unfold Rec.capacityOf at hr
    split at hr
    · next d m kv role h =>
      obtain rfl := of_decide_eq_true hr
      change 0 ≤ h at hr0
      unfold bestReport
      dsimp only
      rw [if_neg (not_not.2 rfl)]
      by_cases hle : h ≤ lastHeight
      · have hkeep : ([Rec.capacity d m kv role h].filter fun r => decide (r.height ≤ lastHeight)) =
            [.capacity d m kv role h] := by simp [Rec.height, hle]
        rw [if_neg (by omega), hkeep, List.getLast?_append, List.getLast?_singleton, Option.some_or, Option.map_some]
        cases hlast : (l.filter fun r => decide (r.height ≤ lastHeight)).getLast? with
        | none => rfl
        | some r' =>
          have hr' : r' ∈ l := List.mem_of_mem_filter (List.mem_of_getLast? hlast)
          have hrh : r'.height ≤ h := hs.2.2 _ (List.mem_map_of_mem hr') h (by simp [Rec.height])
          rw [Option.map_some]
          dsimp only
          rw [if_pos hrh]
          rfl
      · have hdrop : ([Rec.capacity d m kv role h].filter fun r => decide (r.height ≤ lastHeight)) = [] := by
          simp [Rec.height, hle]
        rw [if_pos (by omega), hdrop, List.append_nil]
    · cases hr

end Records

/-! ## One snapshot -/

section Snapshot

variable (registry : Ordered Str Report) (height day : Nat)

/-- What a snapshot files for an identity, beside what the memory has. -/
def changeOf (mid : Str) (registry : Ordered Str Report) (height day : Nat) (known : Option Filed) : List Rec :=
  match registry.get? mid with
  | none => []
  | some r => if known = some r.filed then [] else [.capacity day mid r.filed.1 r.filed.2 height]

/-- A snapshot files nothing but capacity records. -/
theorem fileChange_log (s : CapacityState) (m : Str) : ∃ new,
    (fileChange registry height day s m).log = s.log ++ new ∧ (∀ r ∈ new, r.isCapacity = true) ∧
      ∀ mid, capacityRecords mid new = if mid = m then changeOf m registry height day (s.capacity.get? m) else [] := by
  unfold fileChange changeOf
  cases hget : registry.get? m with
  | none => exact ⟨[], by simp, by simp, fun mid => by simp [capacityRecords]⟩
  | some r =>
    dsimp only
    split
    · exact ⟨[], by simp, by simp, fun mid => by simp [capacityRecords]⟩
    · refine ⟨_, rfl, by simp [Rec.isCapacity], fun mid => ?_⟩
      by_cases hm : mid = m
      · subst hm
        simp [capacityRecords, Rec.capacityOf]
      · simp [capacityRecords, Rec.capacityOf, hm, Ne.symm hm]

theorem fileChange_capacity (s : CapacityState) (m mid : Str) :
    (fileChange registry height day s m).capacity.get? mid =
      if mid = m then ((registry.get? m).map Report.filed).or (s.capacity.get? m) else s.capacity.get? mid := by
  unfold fileChange
  cases hget : registry.get? m with
  | none =>
    dsimp only
    split
    · next h => simp [h]
    · rfl
  | some r =>
    dsimp only
    by_cases hsame : s.capacity.get? m = some r.filed
    · rw [if_pos hsame]
      split
      · next h => simp [h, hsame]
      · rfl
    · rw [if_neg hsame]
      dsimp only
      rw [Ordered.get?_set]
      split <;> simp

/-- The loop over distinct identities touches each of them once. -/
theorem foldl_fileChange {l : List Str} (hn : l.Nodup) (s : CapacityState) : ∃ new,
    (l.foldl (fileChange registry height day) s).log = s.log ++ new ∧ (∀ r ∈ new, r.isCapacity = true) ∧
      ∀ mid, capacityRecords mid new =
          (if mid ∈ l then changeOf mid registry height day (s.capacity.get? mid) else []) ∧
        (l.foldl (fileChange registry height day) s).capacity.get? mid =
          if mid ∈ l then ((registry.get? mid).map Report.filed).or (s.capacity.get? mid)
          else s.capacity.get? mid := by
  induction l generalizing s with
  | nil => exact ⟨[], by simp, by simp, fun mid => by simp [capacityRecords]⟩
  | cons m l ih =>
    rw [List.nodup_cons] at hn
    obtain ⟨new, hlog, hcap, hnew⟩ := fileChange_log registry height day s m
    obtain ⟨new', hlog', hcap', hnew'⟩ := ih hn.2 (fileChange registry height day s m)
    refine ⟨new ++ new', by rw [List.foldl_cons, hlog', hlog, List.append_assoc], ?_, fun mid => ?_⟩
    · intro r hr
      exact (List.mem_append.1 hr).elim (hcap r) (hcap' r)
    · obtain ⟨h1, h2⟩ := hnew' mid
      rw [capacityRecords_append, hnew, h1, List.foldl_cons, h2, fileChange_capacity]
      by_cases hm : mid = m
      · subst hm
        simp [hn.1]
      · simp [hm]

/-- What a snapshot files for an identity, and what the memory then has. -/
theorem fileCapacityChanges_spec (s : CapacityState) : ∃ new,
    (fileCapacityChanges registry height day s).log = s.log ++ new ∧ (∀ r ∈ new, r.isCapacity = true) ∧
      ∀ mid, capacityRecords mid new = changeOf mid registry height day (s.capacity.get? mid) ∧
        (fileCapacityChanges registry height day s).capacity.get? mid =
          ((registry.get? mid).map Report.filed).or (s.capacity.get? mid) := by
  have hn : (registry.keys.insertionSort (· ≤ ·)).Nodup :=
    (List.perm_insertionSort _ _).nodup_iff.2 registry.nodup
  obtain ⟨new, hlog, hcap, hnew⟩ := foldl_fileChange registry height day hn s
  refine ⟨new, hlog, hcap, fun mid => ?_⟩
  obtain ⟨h1, h2⟩ := hnew mid
  unfold fileCapacityChanges
  rw [h1, h2]
  by_cases hm : mid ∈ registry.keys.insertionSort (· ≤ ·)
  · rw [if_pos hm, if_pos hm]
    exact ⟨rfl, rfl⟩
  · have hnone : registry.get? mid = none :=
      Ordered.get?_eq_none.2 fun hk => hm ((List.mem_insertionSort _).2 hk)
    rw [if_neg hm, if_neg hm, hnone]
    simp [changeOf, hnone]

end Snapshot

/-! ## Runs -/

section Run

variable {start : Nat} {actions : List CapacityAction} {s : CapacityState} {mid : Str}

/-- The memory that a restart builds of some records: the last one of each identity. -/
theorem get?_foldl_replayCapacity (records : List Rec) (capacity : Ordered Str Filed) :
    (records.foldl replayCapacity capacity).get? mid =
      ((capacityRecords mid records).getLast?.map Rec.filed).or (capacity.get? mid) := by
  induction records using List.reverseRecOn with
  | nil => simp [capacityRecords]
  | append_singleton l r ih =>
    rw [List.foldl_append, List.foldl_cons, List.foldl_nil, capacityRecords_append]
    cases r with
    | capacity d m kv role h =>
      rw [show replayCapacity (l.foldl replayCapacity capacity) (.capacity d m kv role h) =
        (l.foldl replayCapacity capacity).set m (kv, role) from rfl, Ordered.get?_set]
      by_cases hm : mid = m
      · subst hm
        simp [capacityRecords, Rec.capacityOf, Rec.filed]
      · rw [if_neg hm, ih]
        simp [capacityRecords, Rec.capacityOf, Ne.symm hm]
    | _ => exact ih.trans (by simp [capacityRecords, Rec.capacityOf])

/-- What holds after some actions: the records of an identity stand in the order of their heights and days, the
memory is the last of them, and up to any height they answer like the snapshots. -/
structure CapacityInv (start : Nat) (actions : List CapacityAction) (s : CapacityState) : Prop where
  filed : ∀ r ∈ s.log, r.isCapacity = true →
    ∃ h ∈ actions.filterMap CapacityAction.height?, r.height = (h : Int) ∧ r.day = filedDay start h
  heights : ∀ mid, ((capacityRecords mid s.log).map Rec.height).Pairwise (· ≤ ·)
  days : ∀ mid, ((capacityRecords mid s.log).map Rec.day).Pairwise (· ≤ ·)
  known : ∀ mid, s.capacity.get? mid = (capacityRecords mid s.log).getLast?.map Rec.filed
  last : ∀ mid (L : Int),
    (((capacityRecords mid s.log).filter fun r => decide (r.height ≤ L)).getLast?).map Rec.filed =
      (lastReport actions mid L).map Report.filed

theorem isCapacity_of_mem {r : Rec} (h : r ∈ capacityRecords mid s.log) :
    r ∈ s.log ∧ r.isCapacity = true := by
  obtain ⟨hr, hof⟩ := List.mem_filter.1 h
  refine ⟨hr, ?_⟩
  cases r <;> first | rfl | cases hof

theorem lastReport_append (a : CapacityAction) (mid : Str) (L : Int) :
    lastReport (actions ++ [a]) mid L = (a.report? mid L).or (lastReport actions mid L) := by
  unfold lastReport
  rw [List.filterMap_append, List.getLast?_append]
  cases ha : a.report? mid L <;> simp [ha]

/-- An action that files no capacity record and reads no snapshot. -/
theorem CapacityInv.idle (h : CapacityInv start actions s) {a : CapacityAction} {s' : CapacityState} {new : List Rec}
    (hreport : ∀ mid L, a.report? mid L = none) (hlog : s'.log = s.log ++ new)
    (hnew : ∀ r ∈ new, r.isCapacity = false)
    (hknown : ∀ mid, s'.capacity.get? mid = s.capacity.get? mid) : CapacityInv start (actions ++ [a]) s' := by
  have hrecs (mid : Str) : capacityRecords mid s'.log = capacityRecords mid s.log := by
    have hnil : capacityRecords mid new = [] := by
      rw [capacityRecords, List.filter_eq_nil_iff]
      intro r hr
      have := hnew r hr
      cases r <;> first | exact Bool.false_ne_true | cases this
    rw [hlog, capacityRecords_append, hnil, List.append_nil]
  refine ⟨fun r hr hcap => ?_, fun mid => hrecs mid ▸ h.heights mid, fun mid => hrecs mid ▸ h.days mid,
    fun mid => by rw [hknown, hrecs, h.known], fun mid L => ?_⟩
  · rw [hlog] at hr
    obtain hr | hr := List.mem_append.1 hr
    · obtain ⟨height, hh, hrest⟩ := h.filed r hr hcap
      exact ⟨height, by rw [List.filterMap_append]; exact List.mem_append_left _ hh, hrest⟩
    · rw [hnew r hr] at hcap
      cases hcap
  · rw [hrecs, h.last, lastReport_append, hreport, Option.none_or]

theorem CapacityInv.file (h : CapacityInv start actions s) {r : Rec} (hr : r.isCapacity = false) :
    CapacityInv start (actions ++ [.file r hr]) { s with log := s.log ++ [r] } :=
  h.idle (fun _ _ => rfl) rfl (by simpa using hr) fun _ => rfl

theorem CapacityInv.restart (h : CapacityInv start actions s) :
    CapacityInv start (actions ++ [.restart])
      { s with capacity := (allRecords s.log).foldl replayCapacity .empty } := by
  refine h.idle (fun _ _ => rfl) (List.append_nil _).symm (by simp) fun mid => ?_
  -- the files give the records of an identity in the order in which they were filed
  have hall : capacityRecords mid (allRecords s.log) = capacityRecords mid s.log := filter_allRecords (h.days mid)
  rw [get?_foldl_replayCapacity, hall, h.known]
  simp [Ordered.get?, Ordered.empty]

theorem CapacityInv.snapshot (h : CapacityInv start actions s) {registry : Ordered Str Report} {height : Nat}
    (hle : ∀ h ∈ actions.filterMap CapacityAction.height?, h ≤ height) :
    CapacityInv start (actions ++ [.snapshot registry height])
      (fileCapacityChanges registry height (filedDay start height) s) := by
  obtain ⟨new, hlog, hcap, hnew⟩ := fileCapacityChanges_spec registry height (filedDay start height) s
  have hrec {mid : Str} {r : Rec} (hr : r ∈ capacityRecords mid new) :
      r.height = height ∧ r.day = filedDay start height := by
    rw [(hnew mid).1] at hr
    unfold changeOf at hr
    split at hr
    · cases hr
    · split at hr
      · cases hr
      · obtain rfl := List.mem_singleton.1 hr
        exact ⟨rfl, rfl⟩
  have hold {mid : Str} {r : Rec} (hr : r ∈ capacityRecords mid s.log) :
      r.height ≤ height ∧ r.day ≤ filedDay start height := by
    obtain ⟨hmem, hc⟩ := isCapacity_of_mem hr
    obtain ⟨h', hh', heq, hday⟩ := h.filed r hmem hc
    rw [heq, hday]
    exact ⟨Int.ofNat_le.2 (hle h' hh'), filedDay_mono (hle h' hh')⟩
  have hreport (mid : Str) (L : Int) : (CapacityAction.snapshot registry height).report? mid L =
      if (height : Int) ≤ L then registry.get? mid else none := rfl
  refine ⟨fun r hr hc => ?_, fun mid => ?_, fun mid => ?_, fun mid => ?_, fun mid L => ?_⟩
  · rw [List.filterMap_append]
    rw [hlog] at hr
    obtain hr | hr := List.mem_append.1 hr
    · obtain ⟨h', hh', hrest⟩ := h.filed r hr hc
      exact ⟨h', List.mem_append_left _ hh', hrest⟩
    · obtain ⟨mid, hof⟩ : ∃ mid, r.capacityOf mid = true := by
        cases r with
        | capacity d m kv role h => exact ⟨m, decide_eq_true rfl⟩
        | _ => cases hc
      exact ⟨height, List.mem_append_right _ (by simp [CapacityAction.height?]), hrec (List.mem_filter.2 ⟨hr, hof⟩)⟩
  · rw [hlog, capacityRecords_append, List.map_append, List.pairwise_append]
    refine ⟨h.heights mid, ?_, ?_⟩
    · refine List.pairwise_map.2 (List.pairwise_of_forall_mem_list fun r hr r' hr' => ?_)
      rw [(hrec hr).1, (hrec hr').1]
    · intro a ha b hb
      obtain ⟨r, hr, rfl⟩ := List.mem_map.1 ha
      obtain ⟨r', hr', rfl⟩ := List.mem_map.1 hb
      exact (hold hr).1.trans_eq (hrec hr').1.symm
  · rw [hlog, capacityRecords_append, List.map_append, List.pairwise_append]
    refine ⟨h.days mid, ?_, ?_⟩
    · refine List.pairwise_map.2 (List.pairwise_of_forall_mem_list fun r hr r' hr' => ?_)
      rw [(hrec hr).2, (hrec hr').2]
    · intro a ha b hb
      obtain ⟨r, hr, rfl⟩ := List.mem_map.1 ha
      obtain ⟨r', hr', rfl⟩ := List.mem_map.1 hb
      exact (hold hr).2.trans_eq (hrec hr').2.symm
  · rw [(hnew mid).2, hlog, capacityRecords_append, (hnew mid).1, changeOf, h.known]
    cases registry.get? mid with
    | none => simp
    | some r =>
      dsimp only
      split
      · next hsame => rw [List.append_nil, hsame]; rfl
      · simp [Rec.filed]
  · rw [lastReport_append, hreport, hlog, capacityRecords_append, List.filter_append]
    by_cases hL : (height : Int) ≤ L
    · -- nothing that was filed so far is beyond the bound
      have hall : (capacityRecords mid s.log).filter (fun r => decide (r.height ≤ L)) =
          capacityRecords mid s.log :=
        List.filter_eq_self.2 fun r hr => decide_eq_true ((hold hr).1.trans hL)
      have hlast := h.last mid L
      have hknown := h.known mid
      rw [hall] at hlast
      rw [if_pos hL, hall, (hnew mid).1, changeOf]
      cases registry.get? mid with
      | none => simpa using hlast
      | some r =>
        dsimp only
        split
        · next hsame =>
          rw [List.filter_nil, List.append_nil, ← hknown, hsame]
          rfl
        · simp [Rec.filed, Rec.height, hL]
    · have hnone : (capacityRecords mid new).filter (fun r => decide (r.height ≤ L)) = [] :=
        List.filter_eq_nil_iff.2 fun r hr => by simpa [(hrec hr).1] using hL
      rw [if_neg hL, hnone, List.append_nil, Option.none_or]
      exact h.last mid L

/-- The invariant over a run of snapshots read at heights that do not decrease. -/
theorem CapacityInv.run (start : Nat) (actions : List CapacityAction)
    (hs : (actions.filterMap CapacityAction.height?).Pairwise (· ≤ ·)) :
    CapacityInv start actions (CapacityState.run start actions) := by
  induction actions using List.reverseRecOn with
  | nil => exact ⟨by simp [CapacityState.run], by simp [CapacityState.run, capacityRecords],
      by simp [CapacityState.run, capacityRecords],
      by simp [CapacityState.run, capacityRecords, Ordered.get?, Ordered.empty],
      by simp [CapacityState.run, capacityRecords, lastReport]⟩
  | append_singleton actions a ih =>
    rw [List.filterMap_append, List.pairwise_append] at hs
    have h := ih hs.1
    have hrun : CapacityState.run start (actions ++ [a]) = (CapacityState.run start actions).step start a := by
      unfold CapacityState.run
      rw [List.foldl_append]
      rfl
    rw [hrun]
    cases a with
    | snapshot registry height => exact h.snapshot fun h' hh' => hs.2.2 h' hh' height (by simp [CapacityAction.height?])
    | file r hr => exact h.file hr
    | restart => exact h.restart

/-- The filtered log answers like the snapshots: what a ranking reads for an identity up to a height is what the
last snapshot had that was read by then and contained it. The ranking reads the days up to that of the height,
or more. -/
theorem kitReport_snapshots (start : Nat) (actions : List CapacityAction)
    (hs : (actions.filterMap CapacityAction.height?).Pairwise (· ≤ ·)) (mid : Str) (L upto : Nat)
    (hupto : filedDay start L ≤ upto) :
    (kitReport (recordsUpto (filesOf (CapacityState.run start actions).log) upto) mid L).map
        (fun k => (k.kitVersion, k.judgeRole)) =
      (lastReport actions mid L).map Report.filed := by
  have h := CapacityInv.run start actions hs
  have hread : capacityRecords mid (recordsUpto (filesOf (CapacityState.run start actions).log) upto) =
      (capacityRecords mid (CapacityState.run start actions).log).filter fun r => decide (r.day ≤ upto) :=
    filter_recordsUpto (h.days mid) upto
  have hmem {r : Rec} (hr : r ∈ capacityRecords mid (CapacityState.run start actions).log) :
      ∃ height : Nat, r.height = height ∧ r.day = filedDay start height := by
    obtain ⟨hlog, hc⟩ := isCapacity_of_mem hr
    obtain ⟨height, -, hrest⟩ := h.filed r hlog hc
    exact ⟨height, hrest⟩
  -- a record within the bound is of a day that is read
  have hdays : (((capacityRecords mid (CapacityState.run start actions).log).filter
      fun r => decide (r.day ≤ upto)).filter fun r => decide (r.height ≤ (L : Int))) =
        (capacityRecords mid (CapacityState.run start actions).log).filter fun r => decide (r.height ≤ (L : Int)) := by
    rw [List.filter_filter]
    refine List.filter_congr fun r hr => ?_
    obtain ⟨height, hh, hd⟩ := hmem hr
    by_cases hle : r.height ≤ (L : Int)
    · have : filedDay start height ≤ upto := (filedDay_mono (by omega)).trans hupto
      simp [hle, hd, this]
    · simp [hle]
  have hlast := h.last mid L
  have hof : ∀ r ∈ (capacityRecords mid (CapacityState.run start actions).log).filter
      (fun r => decide (r.day ≤ upto)), r.capacityOf mid = true := fun r hr =>
    (List.mem_filter.1 (show r ∈ List.filter _ _ from List.mem_of_mem_filter hr)).2
  have h0 : ∀ r ∈ (capacityRecords mid (CapacityState.run start actions).log).filter
      (fun r => decide (r.day ≤ upto)), 0 ≤ r.height := fun r hr => by
    obtain ⟨height, hh, -⟩ := hmem (List.mem_of_mem_filter hr)
    omega
  rw [← kitReport_capacityRecords, hread, kitReport_eq hof ((h.heights mid).sublist (List.filter_sublist.map _)) h0,
    hdays, Option.map_map, ← hlast]
  cases hg : ((capacityRecords mid (CapacityState.run start actions).log).filter
      fun r => decide (r.height ≤ (L : Int))).getLast? with
  | none => rfl
  | some r =>
    rw [hg] at hlast
    cases hrep : lastReport actions mid L with
    | none =>
      rw [hrep] at hlast
      cases hlast
    | some rep =>
      rw [hrep] at hlast
      -- the number of a report is not negative
      have hfiled : r.filed = rep.filed := Option.some.inj hlast
      have hkv : r.filed.1.filter (fun kv => decide (0 ≤ kv)) = r.filed.1 := by
        rw [hfiled]
        cases hkv : rep.kitVersion <;> simp [Report.filed, hkv]
      simp [hkv]

/-- A number that goes up and back, over a restart: at height 9 it is read as it was first. -/
theorem kitReport_snapshots_back :
    (kitReport (recordsUpto (filesOf (CapacityState.run 1
      [.snapshot (.ofList [(['a'], ⟨some 3, ['j'], none⟩)]) 5, .snapshot (.ofList [(['a'], ⟨some 4, ['j'], none⟩)]) 7,
        .restart, .snapshot (.ofList [(['a'], ⟨some 3, ['j'], none⟩)]) 7]).log) 0) ['a'] 9).map
        (fun k => (k.kitVersion, k.judgeRole)) = some (some 3, some ['j']) :=
  (kitReport_snapshots 1 _ (by decide) ['a'] 9 0 (by decide)).trans (by decide)

end Run

end Dendra.Season
