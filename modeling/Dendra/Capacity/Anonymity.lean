import Dendra.Capacity.Signed

/-!
# What the miner route tells

`services/capacity_server.py`: `declared_folded_keys`, `miner_classes` and `miner_view`. The answer about an
identity shows a class (kit number, judge role, stale flag) only when enough registered rows share it.

* `Class`: what an answer shares with a public row. `sizes`: how many registered rows have each.
* `coarsen`: classes join the withheld ones, the smallest first, until these are enough too.
* `miner_view_anonymous`: nobody's report is told, or everybody's answer is shared by enough registered rows.
-/

namespace Dendra.Capacity

/-! ## Declared twins -/

/-- `declared_folded_keys`: the keys of the declared reports that a signed report of the same machine and
identity supersedes. -/
def declaredFoldedKeys (d : Store) : List Str :=
  let signed := (d.items.map Prod.snd).filter fun r => decide (r.proven ≠ [] ∧ r.machine ≠ [])
  (d.items.filter fun e =>
    decide (e.2.proven = [] ∧ e.2.machine ≠ []) && signed.any fun r =>
      decide (r.machine = e.2.machine) && (decide (r.nodeId = e.2.nodeId) || e.2.minerIds.contains r.proven)).map
    Prod.fst

/-! ## Classes -/

/-- `_report_class`. -/
structure Class where
  kitVersion : Nat
  judgeRole : JudgeRole
  stale : Bool
  deriving DecidableEq

def reportClass (c : Config) (now : Rat) (r : Report) : Class := ⟨r.kitVersion, r.judgeRole, isStale c r now⟩

/-- The names of the roles are in this order. -/
def JudgeRole.rank : JudgeRole → Nat
  | .active => 0
  | .mute => 1
  | .off => 2
  | .unknown => 3

/-- The order of the pairs `(n, cls)`. -/
def smaller (a b : Nat × Class) : Prop :=
  toLex (a.1, toLex (a.2.kitVersion, toLex (a.2.judgeRole.rank, a.2.stale))) ≤
    toLex (b.1, toLex (b.2.kitVersion, toLex (b.2.judgeRole.rank, b.2.stale)))

instance : DecidableRel smaller := fun _ _ => inferInstanceAs (Decidable (_ ≤ _))

def minerAnonymityMin : Nat := 5

/-- The reports of the rows that the registry holds. -/
def registeredRows (d : Store) (registry : Str → Bool) : List Report :=
  ((d.items.filter fun e => !(declaredFoldedKeys d).contains e.1).map Prod.snd).filter fun r =>
    decide (r.proven ≠ []) && registry r.proven

/-- How many rows have a class. -/
def size (classes : List Class) (cls : Class) : Nat := classes.count cls

/-- The classes to publish and the number of rows withheld, once the smallest have joined them. -/
def coarsen (published : List Class) (withheld : Nat) : List (Nat × Class) → List Class
  | [] => published
  | (n, cls) :: rest =>
    if withheld = 0 ∨ minerAnonymityMin ≤ withheld then published
    else coarsen (published.filter (· ≠ cls)) (withheld + n) rest

/-- `miner_classes`. -/
def minerClasses (c : Config) (d : Store) (registry : Str → Bool) (now : Rat) : Option (List Class) :=
  let classes := (registeredRows d registry).map (reportClass c now)
  if 0 < classes.length ∧ classes.length < minerAnonymityMin then none
  else
    let published := classes.dedup.filter fun cls => decide (minerAnonymityMin ≤ size classes cls)
    let withheld := classes.length - (published.map (size classes)).sum
    some (coarsen published withheld ((published.map fun cls => (size classes cls, cls)).insertionSort smaller))

/-- `signed_report` of an answer: null, `withheld`, or what is told of the report. -/
inductive Told
  | null | withheld
  | report (cls : Class) (ageMin : Option Int)
  deriving DecidableEq

/-- `MINER_AGE_STEP_MIN`. -/
def minerAgeStepMin : Int := 15

/-- `_report_age_min`. -/
def reportAgeMin (r : Report) (now : Rat) : Option Int :=
  if 0 < r.ts ∧ (r.ts : Rat) ≤ now then
    let minutes := ⌊(now - r.ts) / 60⌋
    some (minutes - minutes % minerAgeStepMin)
  else none

/-- `miner_view`, with a registry that was read, on the store as `_load_strict` gives it. -/
def minerView (c : Config) (d : Store) (registry : Str → Bool) (now : Rat) (mid : Str) : Told :=
  let d := migrateProvenPrefix d
  if registry mid = false then .null
  else
    match minerClasses c d registry now, (d.get? (keyProven ++ mid)).filter fun r => decide (r.proven = mid) with
    | none, _ => .withheld
    | some _, none => .null
    | some published, some r =>
      if reportClass c now r ∈ published then .report (reportClass c now r) (reportAgeMin r now) else .withheld

/-- What an answer shares with the public rows. -/
def Told.cls : Told → Option Class
  | .report cls _ => some cls
  | _ => none

/-! ## Coarsening -/

section Coarsen

variable {classes published : List Class}

theorem sum_size (hn : published.Nodup) (hp : ∀ cls ∈ published, cls ∈ classes) :
    (published.map (size classes)).sum = classes.countP fun cls => decide (cls ∈ published) := by
  rw [← List.sum_map_count_dedup_filter_eq_countP]
  refine List.Perm.sum_eq (List.Perm.map _ ((List.perm_ext_iff_of_nodup hn (classes.nodup_dedup.filter _)).2 ?_))
  intro cls
  rw [List.mem_filter, List.mem_dedup, decide_eq_true_eq]
  exact ⟨fun h => ⟨hp cls h, h⟩, And.right⟩

theorem coarsen_subset {withheld : Nat} {rest : List (Nat × Class)} : coarsen published withheld rest ⊆ published := by
  induction rest generalizing published withheld with
  | nil => exact List.Subset.refl _
  | cons e rest ih =>
    unfold coarsen
    split
    · exact List.Subset.refl _
    · exact fun cls hcls => (List.mem_filter.1 (ih hcls)).1

/-- The withheld rows are none or enough, when the rows are. -/
theorem coarsen_enough {withheld : Nat} {rest : List (Nat × Class)} (hn : published.Nodup)
    (hperm : (rest.map Prod.snd).Perm published) (hsize : ∀ e ∈ rest, e.1 = size classes e.2)
    (htotal : withheld + (published.map (size classes)).sum = classes.length)
    (hrows : classes.length = 0 ∨ minerAnonymityMin ≤ classes.length) :
    (coarsen published withheld rest).Nodup ∧
      ∃ w, w + ((coarsen published withheld rest).map (size classes)).sum = classes.length ∧
        (w = 0 ∨ minerAnonymityMin ≤ w) := by
  induction rest generalizing published withheld with
  | nil =>
    obtain rfl := List.nil_perm.1 hperm
    refine ⟨hn, withheld, htotal, ?_⟩
    rw [List.map_nil, List.sum_nil, Nat.add_zero] at htotal
    rwa [htotal]
  | cons e rest ih =>
    obtain ⟨n, cls⟩ := e
    unfold coarsen
    split
    next hstop => exact ⟨hn, withheld, htotal, hstop⟩
    next =>
      obtain rfl : n = size classes cls := hsize (n, cls) List.mem_cons_self
      have hnodup : (cls :: rest.map Prod.snd).Nodup := hperm.nodup_iff.2 hn
      have hfilter : (published.filter (· ≠ cls)).Perm (rest.map Prod.snd) := by
        refine (hperm.symm.filter _).trans ?_
        rw [List.map_cons, List.filter_cons_of_neg (by simp), List.filter_eq_self.2]
        exact fun x hx => decide_eq_true fun heq => (List.nodup_cons.1 hnodup).1 (heq ▸ hx)
      have hsum : (published.map (size classes)).sum =
          size classes cls + ((published.filter (· ≠ cls)).map (size classes)).sum := by
        rw [((hperm.symm.map (size classes)).sum_eq), (hfilter.map (size classes)).sum_eq]
        rfl
      refine ih (hn.filter _) hfilter.symm (fun e he => hsize e (List.mem_cons_of_mem _ he)) ?_
      rw [← htotal, hsum, Nat.add_assoc]

end Coarsen

/-- The classes that are published are large, and so are the rows of the other classes together. -/
theorem minerClasses_large {c : Config} {d : Store} {registry : Str → Bool} {now : Rat} {published : List Class}
    (h : minerClasses c d registry now = some published) {classes : List Class}
    (hclasses : classes = (registeredRows d registry).map (reportClass c now)) :
    (∀ cls ∈ published, minerAnonymityMin ≤ classes.count cls) ∧
      (classes.countP (fun cls => decide (cls ∉ published)) = 0 ∨
        minerAnonymityMin ≤ classes.countP fun cls => decide (cls ∉ published)) := by
  unfold minerClasses at h
  rw [← hclasses] at h
  dsimp only at h
  split at h
  · cases h
  next hrows =>
    obtain ⟨large, hlarge⟩ : ∃ l, l = classes.dedup.filter fun cls => decide (minerAnonymityMin ≤ size classes cls) :=
      ⟨_, rfl⟩
    rw [← hlarge] at h
    obtain rfl := Option.some.inj h
    have hn : large.Nodup := hlarge ▸ classes.nodup_dedup.filter _
    have hmem : ∀ cls ∈ large, cls ∈ classes ∧ minerAnonymityMin ≤ size classes cls := by
      intro cls hcls
      rw [hlarge, List.mem_filter, List.mem_dedup, decide_eq_true_eq] at hcls
      exact hcls
    have hsum := sum_size hn fun cls hcls => (hmem cls hcls).1
    have hle : (large.map (size classes)).sum ≤ classes.length := hsum ▸ List.countP_le_length
    have hperm : (((large.map fun cls => (size classes cls, cls)).insertionSort smaller).map Prod.snd).Perm large := by
      refine ((List.perm_insertionSort _ _).map _).trans ?_
      rw [List.map_map]
      exact List.Perm.of_eq (List.map_id _)
    have hsize : ∀ e ∈ (large.map fun cls => (size classes cls, cls)).insertionSort smaller,
        e.1 = size classes e.2 := by
      intro e he
      obtain ⟨cls, -, rfl⟩ := List.mem_map.1 ((List.mem_insertionSort _).1 he)
      rfl
    obtain ⟨hnodup, w, hw, henough⟩ := coarsen_enough hn hperm hsize (Nat.sub_add_cancel hle) (by omega)
    refine ⟨fun cls hcls => (hmem cls (coarsen_subset hcls)).2, ?_⟩
    rw [sum_size hnodup fun cls hcls => (hmem cls (coarsen_subset hcls)).1] at hw
    generalize coarsen large _ _ = published at hw ⊢
    have hsplit : classes.length = classes.countP (fun cls => decide (cls ∈ published)) +
        classes.countP fun cls => decide (cls ∉ published) := by
      simpa using List.length_eq_countP_add_countP (l := classes) fun cls => decide (cls ∈ published)
    have hw' : classes.countP (fun cls => decide (cls ∉ published)) = w := by omega
    rwa [hw']

/-! ## Answers -/

section Answers

variable {c : Config} {d : Store} {registry : Str → Bool} {now : Rat} {m : Str} {r : Report}

theorem notMem_folded {e : Str × Report} (he : e ∈ d.items) (hproven : e.2.proven ≠ []) :
    e.1 ∉ declaredFoldedKeys d := by
  intro hmem
  obtain ⟨f, hf, hfe⟩ := List.mem_map.1 hmem
  obtain ⟨hf, hfolded⟩ := List.mem_filter.1 hf
  obtain rfl : f = e := List.inj_on_of_nodup_map d.nodup hf he hfe
  rw [Bool.and_eq_true, decide_eq_true_eq] at hfolded
  exact hproven hfolded.1.1

/-- The rows of the registry are the signed reports of its identities. -/
theorem mem_registeredRows (hd : Bounded d) :
    r ∈ registeredRows d registry ↔
      registry r.proven = true ∧ d.get? (keyProven ++ r.proven) = some r ∧ r.proven ≠ [] := by
  unfold registeredRows
  rw [List.mem_filter, Bool.and_eq_true, decide_eq_true_eq, List.mem_map]
  constructor
  · rintro ⟨⟨e, he, rfl⟩, hproven, hregistry⟩
    have he := (List.mem_filter.1 he).1
    refine ⟨hregistry, ?_, hproven⟩
    cases hdeclared : isDeclared e.1 with
    | false =>
      rw [← (hd.others e he hdeclared).2]
      exact Ordered.get?_eq_some.2 he
    | true => exact absurd (hd.unsigned e he hdeclared) hproven
  · rintro ⟨hregistry, hget, hproven⟩
    have he := Ordered.get?_eq_some.1 hget
    refine ⟨⟨_, List.mem_filter.2 ⟨he, ?_⟩, rfl⟩, hproven, hregistry⟩
    rw [Bool.not_eq_true', ← Bool.not_eq_true, List.contains_iff_mem]
    exact notMem_folded he hproven

/-- No two rows are of one identity. -/
theorem nodup_registeredRows (hd : Bounded d) : ((registeredRows d registry).map Report.proven).Nodup := by
  have hrows : registeredRows d registry = (d.items.filter fun e => (decide (e.2.proven ≠ []) && registry e.2.proven) &&
      !(declaredFoldedKeys d).contains e.1).map Prod.snd := by
    rw [registeredRows, List.filter_map, List.filter_filter]
    rfl
  refine List.Nodup.of_map (keyProven ++ ·) ?_
  have hkeys : ((registeredRows d registry).map Report.proven).map (keyProven ++ ·) = (d.items.filter fun e =>
      (decide (e.2.proven ≠ []) && registry e.2.proven) && !(declaredFoldedKeys d).contains e.1).map Prod.fst := by
    rw [hrows, List.map_map, List.map_map]
    refine List.map_congr_left fun e he => ?_
    obtain ⟨he, hp⟩ := List.mem_filter.1 he
    rw [Bool.and_eq_true, Bool.and_eq_true, decide_eq_true_eq] at hp
    cases hdeclared : isDeclared e.1 with
    | true => exact absurd (hd.unsigned e he hdeclared) hp.1.1
    | false => exact (hd.others e he hdeclared).2.symm
  rw [hkeys]
  exact d.nodup.sublist (List.filter_sublist.map _)

/-- The answer about a row of the registry. -/
theorem minerView_row (hd : Bounded d) (hr : r ∈ registeredRows d registry) {published : List Class}
    (h : minerClasses c d registry now = some published) : minerView c d registry now r.proven =
      if reportClass c now r ∈ published then .report (reportClass c now r) (reportAgeMin r now) else .withheld := by
  obtain ⟨hregistry, hget, hproven⟩ := (mem_registeredRows hd).1 hr
  unfold minerView
  dsimp only
  have hfilter : (some r).filter (fun r' => decide (r'.proven = r.proven)) = some r :=
    Option.filter_eq_some_iff.2 ⟨rfl, decide_eq_true rfl⟩
  rw [migrateProvenPrefix_of_migrated hd.migrated, hregistry, h, hget, hfilter]
  rfl

theorem minerView_cls (hd : Bounded d) (hr : r ∈ registeredRows d registry) {published : List Class}
    (h : minerClasses c d registry now = some published) : (minerView c d registry now r.proven).cls =
      if reportClass c now r ∈ published then some (reportClass c now r) else none := by
  rw [minerView_row hd hr h]
  split <;> rfl

/-- An identity whose answer is not null has a row, when anything is published. -/
theorem exists_row (hd : Bounded d) {published : List Class} (h : minerClasses c d registry now = some published)
    (hm : minerView c d registry now m ≠ .null) : ∃ r ∈ registeredRows d registry, r.proven = m := by
  unfold minerView at hm
  dsimp only at hm
  rw [migrateProvenPrefix_of_migrated hd.migrated, h] at hm
  split at hm
  · exact absurd rfl hm
  next hregistry =>
    cases hget : (d.get? (keyProven ++ m)).filter fun r => decide (r.proven = m) with
    | none =>
      rw [hget] at hm
      exact absurd rfl hm
    | some r =>
      obtain ⟨hget, hproven⟩ := Option.filter_eq_some_iff.1 hget
      obtain rfl := of_decide_eq_true hproven
      have hmem := Ordered.get?_eq_some.1 hget
      refine ⟨r, (mem_registeredRows hd).2 ⟨by simpa using hregistry, hget, ?_⟩, rfl⟩
      exact (hd.others _ hmem (not_declared_keyProven _)).1

/-- Of a registry that was filled by deposits, and whatever identities the chain holds: either every identity of the
chain is answered `withheld`, or the answer about each report, but for its age, is that about enough reports, all of
different identities. -/
theorem miner_view_anonymous (registry : Str → Bool) (now : Rat) {s : State}
    (hs : Reach Blank (Step c) (fun _ _ => True) s) :
    (∀ m, registry m = true → minerView c s.store registry now m = .withheld) ∨
      ((registeredRows s.store registry).map Report.proven).Nodup ∧ ∀ m,
        minerView c s.store registry now m ≠ .null →
          minerAnonymityMin ≤ ((registeredRows s.store registry).map Report.proven).countP fun m' =>
            decide ((minerView c s.store registry now m').cls = (minerView c s.store registry now m).cls) := by
  have hd := (registry_bounded hs).1
  cases h : minerClasses c s.store registry now with
  | none =>
    refine .inl fun m hm => ?_
    unfold minerView
    dsimp only
    rw [migrateProvenPrefix_of_migrated hd.migrated, hm, h]
    rfl
  | some published =>
    refine .inr ⟨?_, fun m hm => ?_⟩
    · exact nodup_registeredRows hd
    · obtain ⟨r, hr, rfl⟩ := exists_row hd h hm
      obtain ⟨hlarge, hrest⟩ := minerClasses_large h rfl
      rw [List.countP_map, minerView_cls hd hr h]
      have hcount : (registeredRows s.store registry).countP
          ((fun m' => decide ((minerView c s.store registry now m').cls =
          if reportClass c now r ∈ published then some (reportClass c now r) else none)) ∘ Report.proven) =
          ((registeredRows s.store registry).map (reportClass c now)).countP fun cls =>
            decide ((if cls ∈ published then some cls else none) =
              if reportClass c now r ∈ published then some (reportClass c now r) else none) := by
        rw [List.countP_map]
        refine List.countP_congr fun r' hr' => ?_
        simp only [Function.comp_apply, minerView_cls hd hr' h]
      rw [hcount]
      by_cases hp : reportClass c now r ∈ published
      · refine (hlarge _ hp).trans ?_
        rw [List.count]
        refine List.countP_mono_left fun cls _ hcls => ?_
        obtain rfl := eq_of_beq hcls
        simp [hp]
      · have hcount : ((registeredRows s.store registry).map (reportClass c now)).countP (fun cls =>
            decide ((if cls ∈ published then some cls else none) =
              if reportClass c now r ∈ published then some (reportClass c now r) else none)) =
            ((registeredRows s.store registry).map (reportClass c now)).countP fun cls => decide (cls ∉ published) := by
          refine List.countP_congr fun cls _ => ?_
          by_cases hcls : cls ∈ published <;> simp [hp, hcls]
        rw [hcount]
        refine hrest.resolve_left fun hzero => ?_
        exact List.countP_eq_zero.1 hzero _ (List.mem_map_of_mem hr) (decide_eq_true hp)

end Answers

/-- Of one registered row nothing is told. -/
theorem miner_view_anonymous_one :
    minerView .default oneReport.store (fun m => decide (m = ['m'])) 2000 ['m'] = .withheld := by
  rcases miner_view_anonymous (c := .default) (fun m => decide (m = ['m'])) 2000
    (.step (.init (s := noReport) rfl) trivial (rfl : _ = oneReport)) with h | ⟨-, h⟩
  · exact h _ rfl
  · exact absurd (h ['m'] (by decide +kernel)) (by decide +kernel)

end Dendra.Capacity
