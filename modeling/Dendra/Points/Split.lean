import Dendra.Points.Compute
import Dendra.Lib.MapM

/-!
# A miner that is split

The work and the verdicts of a miner are given to several miners of its operator. The first two caps do not see it:
they read the clients and the group. The cap per identity does.

* `Split`: the ledger before and after. `Alike`: rows that differ in the points of the miner and its parts only in
  how they are divided.
* `entering_alike`: what enters the last cap is alike.
* `NeverPays`: the group has no more points and no larger share. `Spared`: the last cap cuts neither the miner nor
  a part, or one part has everything. `split_pays`: when splitting pays.
-/

namespace Dendra.Points

/-! ## The split -/

/-- A name after the split. -/
def Renamed (m : Str) (parts : List Str) (a b : Str) : Prop := a = m ∧ b ∈ parts ∨ a ≠ m ∧ b = a

instance (m : Str) (parts : List Str) (a b : Str) : Decidable (Renamed m parts a b) :=
  inferInstanceAs (Decidable (_ ∨ _))

/-- The miner `m` of `operator` is replaced by `parts`, among which its jobs and its verdicts are divided. A part has
the name of the miner or a new one. -/
structure Split (c : Config) (m operator : Str) (parts : List Str) (x y : Ledger) : Prop where
  jobs : List.Forall₂ (fun j j' => Renamed m parts j.miner j'.miner ∧ j' = { j with miner := j'.miner }) x.jobs y.jobs
  verdicts : List.Forall₂ (fun v v' => v'.1 = v.1 ∧
    List.Forall₂ (fun e e' => Renamed m parts e.1 e'.1 ∧ e'.2 = e.2) v.2 v'.2) x.verdicts y.verdicts
  miners : y.miners = x.miners.flatMap fun r =>
    if r.id = m then parts.map fun p => { r with id := p } else [r]
  operator_eq : operatorOf x.miners m = operator
  operator_ne : operator ≠ []
  parts_ne : parts ≠ []
  unslashed : ∀ p ∈ m :: parts, p ∉ slashedGate c x
  named : ∀ p ∈ m :: parts, p ≠ [] ∧ isClient p = false
  fresh : ∀ p ∈ parts, p ≠ m → (∀ j ∈ x.jobs, j.miner ≠ p) ∧ (∀ v ∈ x.verdicts, ∀ e ∈ v.2, e.1 ≠ p) ∧
    ∀ r ∈ x.miners, r.id ≠ p

/-- The names of the miner and its parts. -/
def among (m : Str) (parts : List Str) (id : Str) : Bool := decide (id = m ∨ id ∈ parts)

/-! ## Rows that are alike -/

section Alike

variable {S : Str → Bool} {A B : List Row} {p q : Row → Bool} {g h : Row → Row}

/-- The rows outside `S` are the same, and those in `S` have the same points together. -/
structure Alike (S : Str → Bool) (A B : List Row) : Prop where
  rest : A.filter (fun r => !S r.id) = B.filter fun r => !S r.id
  points : points (fun r => S r.id) A = points (fun r => S r.id) B

theorem points_split (S p : Row → Bool) (A : List Row) :
    points p A = points (fun r => p r && S r) A + points p (A.filter fun r => !S r) := by
  induction A with
  | nil => simp [points]
  | cons r A ih =>
    unfold points at *
    cases hp : p r <;> cases hs : S r <;> simp [hp, hs, ih, add_assoc, add_left_comm]

theorem points_all (A : List Row) : points (fun _ => true) A = total A := by
  rw [points, List.filter_eq_self.2 fun _ _ => rfl]
  rfl

theorem sum_filter {S p : Row → Bool} (w : Row → Rat) (h : ∀ r ∈ A, S r = true → p r = true) :
    ((A.filter p).map w).sum =
      ((A.filter S).map w).sum + (((A.filter fun r => !S r).filter p).map w).sum := by
  induction A with
  | nil => simp
  | cons r A ih =>
    have ih := ih fun r' hr' => h r' (List.mem_cons_of_mem r hr')
    have hr := h r List.mem_cons_self
    cases hs : S r <;> cases hp : p r <;> simp_all [add_assoc, add_left_comm]

theorem points_congr (h : ∀ r ∈ A, p r = q r) : points p A = points q A := by
  rw [points, points, List.filter_congr h]

/-- Sums over conditions that agree outside `S` and do not tell the rows in `S` apart. -/
theorem Alike.points_eq (hAB : Alike S A B) {b : Bool} (hA : ∀ r ∈ A, S r.id = true → p r = b)
    (hB : ∀ r ∈ B, S r.id = true → q r = b) (hrest : ∀ r, S r.id = false → p r = q r) :
    Points.points p A = Points.points q B := by
  rw [points_split (fun r => S r.id) p, points_split (fun r => S r.id) q, hAB.rest]
  have hin : Points.points (fun r => p r && S r.id) A = Points.points (fun r => q r && S r.id) B := by
    have hAin : Points.points (fun r => p r && S r.id) A = Points.points (fun r => b && S r.id) A :=
      points_congr fun r hr => by cases hs : S r.id <;> simp [hs, hA r hr]
    have hBin : Points.points (fun r => q r && S r.id) B = Points.points (fun r => b && S r.id) B :=
      points_congr fun r hr => by cases hs : S r.id <;> simp [hs, hB r hr]
    rw [hAin, hBin]
    cases b with
    | true => simpa using hAB.points
    | false => simp [Points.points]
  rw [hin]
  congr 1
  refine points_congr fun r hr => hrest r ?_
  simpa using (List.mem_filter.1 hr).2

theorem Alike.total_eq (hAB : Alike S A B) : total A = total B := by
  rw [← points_all, ← points_all]
  exact hAB.points_eq (fun _ _ _ => rfl) (fun _ _ _ => rfl) fun _ _ => rfl

theorem filter_map_id {f : Str → Bool} (hg : ∀ r, (g r).id = r.id) :
    (A.map g).filter (fun r => f r.id) = (A.filter fun r => f r.id).map g := by
  rw [List.filter_map]
  congr 1
  exact List.filter_congr fun r _ => by simp [hg]

/-- A stage that treats the rows outside `S` the same way, and multiplies those in `S` by the same factor. -/
theorem Alike.map (hAB : Alike S A B) {k : Rat} (hg : ∀ r, (g r).id = r.id) (hh : ∀ r, (h r).id = r.id)
    (hA : ∀ r ∈ A, S r.id = true → (g r).points = r.points * k)
    (hB : ∀ r ∈ B, S r.id = true → (h r).points = r.points * k)
    (hrest : ∀ r, S r.id = false → g r = h r) : Alike S (A.map g) (B.map h) := by
  have hsum {C : List Row} {f : Row → Row} (hf : ∀ r, (f r).id = r.id)
      (hC : ∀ r ∈ C, S r.id = true → (f r).points = r.points * k) :
      Points.points (fun r => S r.id) (C.map f) = Points.points (fun r => S r.id) C * k := by
    rw [Points.points, Points.points, filter_map_id hf, List.map_map, ← List.sum_map_mul_right]
    congr 1
    refine List.map_congr_left fun r hr => ?_
    obtain ⟨hr, hs⟩ := List.mem_filter.1 hr
    exact hC r hr hs
  refine ⟨?_, by rw [hsum hg hA, hsum hh hB, hAB.points]⟩
  rw [filter_map_id (f := fun i => !S i) hg, filter_map_id (f := fun i => !S i) hh, hAB.rest]
  refine List.map_congr_left fun r hr => hrest r ?_
  simpa using (List.mem_filter.1 hr).2

end Alike

/-! ## What the split changes -/

/-- A credit after the split. -/
def Moved (m : Str) (parts : List Str) (e e' : Str × Detail) : Prop :=
  e'.2 = e.2 ∧ (e.1 = m ∧ e'.1 ∈ parts ∨ among m parts e.1 = false ∧ e'.1 = e.1)

section Split

variable {c : Config} {m operator : Str} {parts : List Str} {x y : Ledger} {j j' : Job}

theorem among_part {p : Str} (h : p ∈ parts) : among m parts p = true := decide_eq_true (.inr h)

theorem among_self : among m parts m = true := decide_eq_true (.inl rfl)

theorem Split.among_client (h : Split c m operator parts x y) {id : Str} (hid : isClient id = true) :
    among m parts id = false := by
  refine decide_eq_false fun hmem => ?_
  have hnot : isClient id = false := (h.named id (List.mem_cons.2 hmem)).2
  rw [hid] at hnot
  cases hnot

/-- A name that is not a part's is kept, or is the miner's. -/
theorem Renamed.moved {a b : Str} (h : Renamed m parts a b) (hfresh : ∀ p ∈ parts, p ≠ m → a ≠ p) (d : Detail) :
    Moved m parts (a, d) (b, d) := by
  refine ⟨rfl, h.imp_right fun ⟨hne, heq⟩ => ⟨decide_eq_false fun hmem => ?_, heq⟩⟩
  rcases hmem with rfl | hmem
  · exact hne rfl
  · exact hfresh a hmem hne rfl

theorem mem_operators {miners : List Miner} {o : Str} :
    o ∈ operators miners ↔ o ≠ [] ∧ ∃ r ∈ miners, r.operator = o := by
  simp [operators, and_comm]

theorem Split.operators (h : Split c m operator parts x y) (o : Str) :
    (Points.operators y.miners).contains o = (Points.operators x.miners).contains o := by
  have hmem : o ∈ Points.operators y.miners ↔ o ∈ Points.operators x.miners := by
    rw [mem_operators, mem_operators, h.miners]
    refine and_congr_right fun _ => ⟨?_, ?_⟩
    · rintro ⟨r, hr, ho⟩
      obtain ⟨r', hr', hr⟩ := List.mem_flatMap.1 hr
      split at hr
      · obtain ⟨p, -, rfl⟩ := List.mem_map.1 hr
        exact ⟨r', hr', ho⟩
      · exact ⟨r', hr', List.mem_singleton.1 hr ▸ ho⟩
    · rintro ⟨r, hr, ho⟩
      obtain ⟨p, hp⟩ := List.exists_mem_of_ne_nil _ h.parts_ne
      by_cases hid : r.id = m
      · refine ⟨⟨p, r.operator⟩, List.mem_flatMap.2 ⟨r, hr, ?_⟩, ho⟩
        rw [if_pos hid]
        exact List.mem_map_of_mem hp
      · refine ⟨r, List.mem_flatMap.2 ⟨r, hr, ?_⟩, ho⟩
        rw [if_neg hid]
        exact List.mem_singleton_self r
  rw [Bool.eq_iff_iff, List.contains_iff_mem, List.contains_iff_mem]
  exact hmem

theorem r2JobBucket_congr {state client : Str} {ops ops' excluded : List Str}
    (h : ∀ o, ops'.contains o = ops.contains o) :
    r2JobBucket state client ops' excluded = r2JobBucket state client ops excluded := by
  unfold r2JobBucket
  rw [h]

theorem Split.bucket (h : Split c m operator parts x y) (hj : j' = { j with miner := j'.miner }) :
    j'.bucket c.excluded (Points.operators y.miners) = j.bucket c.excluded (Points.operators x.miners) := by
  rw [hj]
  exact r2JobBucket_congr h.operators

theorem Split.gate (h : Split c m operator parts x y) : slashedGate c y = slashedGate c x := by
  unfold slashedGate
  rw [List.flatMap_def, List.flatMap_def]
  congr 1
  refine (map_eq_of_forall₂ h.jobs fun j j' hj => ?_).symm
  rw [h.bucket hj.2, hj.2]

theorem Split.issue (h : Split c m operator parts x y) (id : Str) : issue y.jobs id = issue x.jobs id := by
  have hmap : y.jobs.map (fun j => (j.id, j.state)) = x.jobs.map fun j => (j.id, j.state) :=
    (map_eq_of_forall₂ h.jobs fun j j' hj => by rw [hj.2]).symm
  have hissue (l : List Job) : Points.issue l id =
      (l.map fun j => (j.id, j.state)).reverse.findSome? fun e => if e.1 = id then auditIssue e.2 else none := by
    rw [← List.map_reverse, List.findSome?_map]
    rfl
  rw [hissue, hissue, hmap]

theorem Split.jobCredits (h : Split c m operator parts x y) (hj : j ∈ x.jobs)
    (hjj : Renamed m parts j.miner j'.miner ∧ j' = { j with miner := j'.miner }) :
    List.Forall₂ (Moved m parts) (Points.jobCredits c (Points.operators x.miners) j)
      (Points.jobCredits c (Points.operators y.miners) j') := by
  obtain ⟨hname, hsame⟩ := hjj
  have hminer : j'.miner ≠ [] ↔ j.miner ≠ [] := by
    rcases hname with ⟨hm, hp⟩ | ⟨-, heq⟩
    · exact iff_of_true (h.named _ (List.mem_cons_of_mem m hp)).1 (hm ▸ (h.named m List.mem_cons_self).1)
    · rw [heq]
  have hclient : j'.client = j.client ∧ j'.fee = j.fee := by
    rw [hsame]
    exact ⟨rfl, rfl⟩
  unfold Points.jobCredits
  rw [h.bucket hsame]
  simp only [hminer, hclient.1, hclient.2]
  refine List.rel_append ?_ ?_
  · split
    · refine .cons (hname.moved (fun p hp hpm => ?_) _) .nil
      exact (h.fresh p hp hpm).1 j hj
    · exact .nil
  · split
    · refine .cons ⟨rfl, .inr ⟨h.among_client ?_, rfl⟩⟩ .nil
      rw [isClient, List.isPrefixOf_iff_prefix]
      exact List.prefix_append _ _
    · exact .nil

theorem Split.verdictCredits (h : Split c m operator parts x y) {v v' : Str × List (Str × Str)} (hv : v ∈ x.verdicts)
    (hid : v'.1 = v.1) (hvotes : List.Forall₂ (fun e e' => Renamed m parts e.1 e'.1 ∧ e'.2 = e.2) v.2 v'.2) :
    List.Forall₂ (Moved m parts) (Points.verdictCredits c x.jobs v) (Points.verdictCredits c y.jobs v') := by
  unfold Points.verdictCredits
  rw [hid, h.issue]
  split
  · exact .nil
  · have hmem := (List.forall₂_and_left (p := (· ∈ v.2)) v.2 v'.2).2 ⟨fun _ he => he, hvotes⟩
    refine List.rel_filterMap (fun e e' he => ?_) hmem
    obtain ⟨he, hname, hsame⟩ := he
    rw [hsame]
    split
    · exact .some (hname.moved (fun p hp hpm => (h.fresh p hp hpm).2.1 v hv e he) _)
    · exact .none

/-- The credits after the split are the credits before, some of them under the name of a part. -/
theorem Split.credits (h : Split c m operator parts x y) :
    List.Forall₂ (Moved m parts) (Points.credits c x) (Points.credits c y) := by
  have hjobs := (List.forall₂_and_left (p := (· ∈ x.jobs)) x.jobs y.jobs).2 ⟨fun _ hj => hj, h.jobs⟩
  have hverdicts := (List.forall₂_and_left (p := (· ∈ x.verdicts)) x.verdicts y.verdicts).2
    ⟨fun _ hv => hv, h.verdicts⟩
  exact List.rel_append (List.rel_flatMap hjobs fun j j' hj => h.jobCredits hj.1 hj.2)
    (List.rel_flatMap hverdicts fun v v' hv => h.verdictCredits hv.1 hv.2.1 hv.2.2)

theorem filter_moved {l l' : List (Str × Detail)} (h : List.Forall₂ (Moved m parts) l l') :
    l.filter (fun e => !among m parts e.1) = l'.filter fun e => !among m parts e.1 := by
  induction h with
  | nil => rfl
  | @cons e e' l l' he hl ih =>
    obtain ⟨hdetail, ⟨hm, hp⟩ | ⟨hout, hname⟩⟩ := he
    · rw [List.filter_cons_of_neg (by simp [hm, among_self]), List.filter_cons_of_neg (by simp [among_part hp]), ih]
    · obtain rfl : e' = e := Prod.ext hname hdetail
      rw [List.filter_cons_of_pos (by simp [hout]), List.filter_cons_of_pos (by simp [hout]), ih]

theorem sum_moved {l l' : List (Str × Detail)} (h : List.Forall₂ (Moved m parts) l l') :
    ((l.filter fun e => among m parts e.1).map fun e => e.2.total).sum =
      ((l'.filter fun e => among m parts e.1).map fun e => e.2.total).sum := by
  induction h with
  | nil => rfl
  | @cons e e' l l' he hl ih =>
    obtain ⟨hdetail, ⟨hm, hp⟩ | ⟨hout, hname⟩⟩ := he
    · rw [List.filter_cons_of_pos (by simp [hm, among_self]), List.filter_cons_of_pos (by simp [among_part hp]),
        List.map_cons, List.map_cons, List.sum_cons, List.sum_cons, ih, hdetail]
    · obtain rfl : e' = e := Prod.ext hname hdetail
      rw [List.filter_cons_of_neg (by simp [hout]), List.filter_cons_of_neg (by simp [hout]), ih]

/-! ## The stages -/

theorem filter_rawRows (P : Str → Bool) (x : Ledger) : (rawRows c x).filter (fun r => P r.id) =
    (Ordered.tally ((credits c x).filter fun e => P e.1)).items.map (rawRow (slashedGate c x)) := by
  rw [rawRows, List.filter_map, ← Ordered.filter_tally]
  rfl

/-- The points of rows that are not gated. -/
theorem points_rawRows {P : Str → Bool} {x : Ledger} (h : ∀ id, P id = true → id ∉ slashedGate c x) :
    points (fun r => P r.id) (rawRows c x) =
      (((credits c x).filter fun e => P e.1).map fun e => e.2.total).sum := by
  rw [points, filter_rawRows, List.map_map, ← Ordered.sum_tally Detail.total_add]
  congr 1
  refine List.map_congr_left fun e he => ?_
  have hP : P e.1 = true := by
    have hk := Ordered.mem_keys_of_mem he
    rw [Ordered.mem_keys_tally] at hk
    obtain ⟨e', he', heq⟩ := List.mem_map.1 hk
    exact heq ▸ (List.mem_filter.1 he').2
  simp [rawRow, h e.1 hP]

theorem Split.unslashed_among (h : Split c m operator parts x y) {id : Str} (hid : among m parts id = true) :
    id ∉ slashedGate c x := h.unslashed id (List.mem_cons.2 (of_decide_eq_true hid))

theorem Split.raw (h : Split c m operator parts x y) : Alike (among m parts) (rawRows c x) (rawRows c y) := by
  have hcredits := h.credits
  refine ⟨?_, ?_⟩
  · rw [filter_rawRows (fun id => !among m parts id), filter_rawRows (fun id => !among m parts id),
      filter_moved hcredits, h.gate]
  · rw [points_rawRows fun id => h.unslashed_among, points_rawRows fun id hid => h.gate ▸ h.unslashed_among hid,
      sum_moved hcredits]

/-! ### Operators and names -/

theorem exists_find {l : List Miner} {id : Str} (h : id ∈ l.map Miner.id) :
    ∃ r ∈ l, l.reverse.find? (fun r => decide (r.id = id)) = some r := by
  obtain ⟨r, hr, hid⟩ := List.mem_map.1 h
  have hsome : (l.reverse.find? fun r => decide (r.id = id)).isSome = true :=
    List.find?_isSome.2 ⟨r, List.mem_reverse.2 hr, decide_eq_true hid⟩
  obtain ⟨r', hr'⟩ := Option.isSome_iff_exists.1 hsome
  exact ⟨r', List.mem_reverse.1 (List.mem_of_find?_eq_some hr'), hr'⟩

theorem operatorOf_append (l l' : List Miner) (id : Str) : operatorOf (l ++ l') id =
    if id ∈ l'.map Miner.id then operatorOf l' id else operatorOf l id := by
  unfold operatorOf
  rw [List.reverse_append, List.find?_append]
  split
  next hmem =>
    obtain ⟨r, -, hr⟩ := exists_find hmem
    rw [hr]
    rfl
  next hmem =>
    have hnone : l'.reverse.find? (fun r => decide (r.id = id)) = none := by
      rw [List.find?_eq_none]
      intro r hr
      simpa using fun heq => hmem (List.mem_map.2 ⟨r, List.mem_reverse.1 hr, heq⟩)
    rw [hnone]
    rfl

theorem operatorOf_parts {o p : Str} (h : p ∈ parts) : operatorOf (parts.map fun p => ⟨p, o⟩) p = o := by
  have hmem : p ∈ (parts.map fun p => (⟨p, o⟩ : Miner)).map Miner.id := by simpa using h
  obtain ⟨r, hr, hfind⟩ := exists_find hmem
  obtain ⟨p', -, rfl⟩ := List.mem_map.1 hr
  unfold operatorOf
  rw [hfind]
  rfl

/-- The miners after the split. -/
def replaced (m : Str) (parts : List Str) (l : List Miner) : List Miner :=
  l.flatMap fun r => if r.id = m then parts.map fun p => { r with id := p } else [r]

theorem replaced_concat (l : List Miner) (r : Miner) : replaced m parts (l ++ [r]) =
    replaced m parts l ++ if r.id = m then parts.map fun p => { r with id := p } else [r] := by
  simp [replaced]

/-- A part has the operator of the miner. -/
theorem operatorOf_replaced {l : List Miner} {p : Str} (hp : p ∈ parts) (hfresh : p ≠ m → ∀ r ∈ l, r.id ≠ p) :
    operatorOf (replaced m parts l) p = operatorOf l m := by
  induction l using List.reverseRecOn with
  | nil => rfl
  | append_singleton l r ih =>
    have ih := ih fun hne r hr => hfresh hne r (List.mem_append_left _ hr)
    rw [replaced_concat, operatorOf_append, operatorOf_append l [r]]
    by_cases hid : r.id = m
    · rw [if_pos hid, if_pos (by simpa [Function.comp_def] using hp), if_pos (by simp [hid]),
        operatorOf_parts (o := r.operator) hp]
      simp [operatorOf, hid]
    · have hne : r.id ≠ p := by
        by_cases hpm : p = m
        · exact hpm ▸ hid
        · exact hfresh hpm r (List.mem_append_right _ (List.mem_singleton_self r))
      rw [if_neg hid, if_neg (by simpa using hne.symm), if_neg (by simpa using fun h => hid h.symm), ih]

/-- Another name keeps its operator. -/
theorem operatorOf_replaced_of_not {l : List Miner} {id : Str} (hid : among m parts id = false) :
    operatorOf (replaced m parts l) id = operatorOf l id := by
  have hout : id ≠ m ∧ id ∉ parts := by simpa [among] using hid
  induction l using List.reverseRecOn with
  | nil => rfl
  | append_singleton l r ih =>
    rw [replaced_concat, operatorOf_append, operatorOf_append l [r], ih]
    by_cases hr : r.id = m
    · have hne : id ≠ r.id := hr ▸ hout.1
      rw [if_pos hr, if_neg (by simpa [Function.comp_def] using hout.2), if_neg (by simpa using hne)]
    · rw [if_neg hr]

theorem Split.groupKey_self (h : Split c m operator parts x y) : groupKey x.miners m = operator := by
  rw [groupKey, h.operator_eq, if_neg h.operator_ne]

theorem Split.groupKey_part (h : Split c m operator parts x y) {p : Str} (hp : p ∈ parts) :
    groupKey y.miners p = operator := by
  have hop : operatorOf y.miners p = operator := by
    rw [h.miners, ← h.operator_eq]
    exact operatorOf_replaced hp fun hne => (h.fresh p hp hne).2.2
  rw [groupKey, hop, if_neg h.operator_ne]

theorem Split.groupKey_other (h : Split c m operator parts x y) {id : Str} (hid : among m parts id = false) :
    groupKey y.miners id = groupKey x.miners id := by
  have hop : operatorOf y.miners id = operatorOf x.miners id := by
    rw [h.miners]
    exact operatorOf_replaced_of_not hid
  rw [groupKey, groupKey, hop]

theorem id_rawRows {r : Row} (hr : r ∈ rawRows c x) : ∃ e ∈ credits c x, e.1 = r.id := by
  obtain ⟨e, he, rfl⟩ := List.mem_map.1 hr
  have hk := Ordered.mem_keys_of_mem he
  rw [Ordered.mem_keys_tally] at hk
  exact List.mem_map.1 hk

/-- Before the split, the only name among them is the miner's. -/
theorem Split.id_before (h : Split c m operator parts x y) {r : Row} (hr : r ∈ rawRows c x)
    (hs : among m parts r.id = true) : r.id = m := by
  obtain ⟨e, he, heq⟩ := id_rawRows hr
  obtain ⟨e', he', hmoved⟩ := exists_of_forall₂ (R := flip (Moved m parts)) h.credits.flip he
  rcases hmoved.2 with ⟨hm, -⟩ | ⟨hout, -⟩
  · exact heq ▸ hm
  · rw [heq, hs] at hout
    cases hout

/-- After it, the names are those of the parts. -/
theorem Split.id_after (h : Split c m operator parts x y) {r : Row} (hr : r ∈ rawRows c y)
    (hs : among m parts r.id = true) : r.id ∈ parts := by
  obtain ⟨e', he', heq⟩ := id_rawRows hr
  obtain ⟨e, he, hmoved⟩ := exists_of_forall₂ h.credits he'
  rcases hmoved.2 with ⟨-, hp⟩ | ⟨hout, hname⟩
  · exact heq ▸ hp
  · rw [← hname, heq, hs] at hout
    cases hout

/-! ### The first two caps -/

theorem useStage_id (tot : Rat) (A : List Row) : (useStage c tot A).map Row.id = A.map Row.id := by
  unfold useStage
  split
  · dsimp only
    split
    · rw [List.map_map]
      refine List.map_congr_left fun r _ => ?_
      dsimp only [Function.comp]
      split <;> rfl
    · rfl
  · rfl

theorem ownerRow_id {miners : List Miner} {A : List Row} (r : Row) : (ownerRow c miners A r).id = r.id := by
  unfold ownerRow
  split
  · rfl
  · dsimp only
    split <;> rfl

theorem Split.not_client (h : Split c m operator parts x y) {id : Str} (hid : among m parts id = true) :
    isClient id = false := (h.named id (List.mem_cons.2 (of_decide_eq_true hid))).2

variable {A B : List Row}

theorem Split.useStage (h : Split c m operator parts x y) (hAB : Alike (among m parts) A B) (tot : Rat) :
    Alike (among m parts) (Points.useStage c tot A) (Points.useStage c tot B) := by
  have huse : points (fun r => isClient r.id) A = points (fun r => isClient r.id) B :=
    hAB.points_eq (fun r _ hs => h.not_client hs) (fun r _ hs => h.not_client hs) fun _ _ => rfl
  unfold Points.useStage
  rw [huse]
  split
  · dsimp only
    split
    · refine hAB.map (k := 1) (fun r => ?_) (fun r => ?_) (fun r _ hs => ?_) (fun r _ hs => ?_) fun _ _ => rfl
      · split <;> rfl
      · split <;> rfl
      · rw [if_neg (by simp [h.not_client hs]), mul_one]
      · rw [if_neg (by simp [h.not_client hs]), mul_one]
    · exact hAB
  · exact hAB

theorem Split.gsum (h : Split c m operator parts x y) (hAB : Alike (among m parts) A B)
    (hA : ∀ r ∈ A, among m parts r.id = true → r.id = m) (hB : ∀ r ∈ B, among m parts r.id = true → r.id ∈ parts)
    (key : Str) : points (inGroup x.miners key) A = points (inGroup y.miners key) B := by
  refine hAB.points_eq (b := decide (operator = key)) (fun r hr hs => ?_) (fun r hr hs => ?_) fun r hs => ?_
  · rw [inGroup, h.not_client hs, hA r hr hs, h.groupKey_self]
    rfl
  · rw [inGroup, h.not_client hs, h.groupKey_part (hB r hr hs)]
    rfl
  · rw [inGroup, inGroup, h.groupKey_other hs]

/-- What the cap of the group leaves of a row, when the group has `gsum` of `tot` points. -/
def ownerScale (c : Config) (tot gsum : Rat) : Rat :=
  if capAbs c.ownerCapBps (tot - gsum) < gsum ∧ 0 < gsum then capAbs c.ownerCapBps (tot - gsum) / gsum else 1

theorem ownerRow_points {miners : List Miner} {r : Row} (hr : isClient r.id = false) :
    (ownerRow c miners A r).points =
      r.points * ownerScale c (total A) (points (inGroup miners (groupKey miners r.id)) A) := by
  unfold ownerRow ownerScale
  rw [if_neg (by simp [hr])]
  dsimp only
  split
  · rfl
  · rw [mul_one]

theorem Split.ownerStage (h : Split c m operator parts x y) (hAB : Alike (among m parts) A B)
    (hA : ∀ r ∈ A, among m parts r.id = true → r.id = m) (hB : ∀ r ∈ B, among m parts r.id = true → r.id ∈ parts)
    (tot : Rat) :
    Alike (among m parts) (Points.ownerStage c x.miners tot A) (Points.ownerStage c y.miners tot B) := by
  unfold Points.ownerStage
  split
  · refine hAB.map (k := ownerScale c (total A) (points (inGroup x.miners operator) A)) ownerRow_id ownerRow_id
      (fun r hr hs => ?_) (fun r hr hs => ?_) fun r hs => ?_
    · rw [ownerRow_points (h.not_client hs), hA r hr hs, h.groupKey_self]
    · rw [ownerRow_points (h.not_client hs), h.groupKey_part (hB r hr hs), hAB.total_eq, h.gsum hAB hA hB]
    · unfold ownerRow
      dsimp only
      rw [h.groupKey_other hs, h.gsum hAB hA hB, hAB.total_eq]
  · exact hAB

theorem exists_of_id {A B : List Row} (hid : A.map Row.id = B.map Row.id) {r : Row} (hr : r ∈ A) :
    ∃ r' ∈ B, r'.id = r.id := by
  have hmem : r.id ∈ A.map Row.id := List.mem_map_of_mem hr
  rw [hid] at hmem
  exact List.mem_map.1 hmem

theorem Split.entering (h : Split c m operator parts x y) :
    Alike (among m parts) (Points.entering c x) (Points.entering c y) := by
  have huse := h.useStage h.raw (total (rawRows c x))
  rw [Points.entering, Points.entering, ← h.raw.total_eq]
  refine h.ownerStage huse (fun r hr hs => ?_) (fun r hr hs => ?_) _
  · obtain ⟨r', hr', hid⟩ := exists_of_id (useStage_id _ _) hr
    rw [← hid] at hs ⊢
    exact h.id_before hr' hs
  · obtain ⟨r', hr', hid⟩ := exists_of_id (useStage_id _ _) hr
    rw [← hid] at hs ⊢
    exact h.id_after hr' hs

/-! ## The last cap -/

/-- What the cap of an identity leaves of some points, among rows with `stageTot` of them. -/
def kept (c : Config) (tot stageTot v : Rat) : Rat :=
  if active c.capBps tot then Share.capped (bps c.capBps) stageTot v else v

/-- The rows that enter the last cap under the names of the miner and its parts. -/
def ours (c : Config) (m : Str) (parts : List Str) (x : Ledger) : List Row :=
  (Points.entering c x).filter fun r => among m parts r.id

theorem points_identityStage (tot : Rat) {P : Row → Bool} (hP : ∀ r r' : Row, r.id = r'.id → P r = P r') :
    points P (identityStage c tot A) = ((A.filter P).map fun r => kept c tot (total A) r.points).sum := by
  unfold identityStage kept
  split
  · have hid (r : Row) : (identityRow c (total A) r).id = r.id := by
      unfold identityRow
      dsimp only
      split <;> rfl
    rw [points, List.filter_map, List.map_map]
    congr 1
    have hfilter : A.filter (P ∘ identityRow c (total A)) = A.filter P :=
      List.filter_congr fun r _ => hP _ _ (hid r)
    rw [hfilter]
    refine List.map_congr_left fun r _ => ?_
    exact apply_ite Row.points _ _ _
  · rfl

theorem total_board (x : Ledger) : total (board c x).rows = total (finalRows c x) :=
  ((List.perm_insertionSort _ _).map _).sum_eq

/-- What is kept of them. -/
def ourPoints (c : Config) (m : Str) (parts : List Str) (x : Ledger) : Rat :=
  ((ours c m parts x).map fun r => kept c (total (rawRows c x)) (total (Points.entering c x)) r.points).sum

/-- Outside these rows nothing changes. -/
theorem Split.final (h : Split c m operator parts x y) {P Q : Row → Bool}
    (hP : ∀ r r' : Row, r.id = r'.id → P r = P r') (hQ : ∀ r r' : Row, r.id = r'.id → Q r = Q r')
    (hx : ∀ r ∈ Points.entering c x, among m parts r.id = true → P r = true)
    (hy : ∀ r ∈ Points.entering c y, among m parts r.id = true → Q r = true)
    (hout : ∀ r : Row, among m parts r.id = false → P r = Q r) :
    points P (finalRows c x) + ourPoints c m parts y = points Q (finalRows c y) + ourPoints c m parts x := by
  have hE := h.entering
  have hsplit {z : Ledger} {R : Row → Bool} (hR : ∀ r r' : Row, r.id = r'.id → R r = R r')
      (hz : ∀ r ∈ Points.entering c z, among m parts r.id = true → R r = true) :
      points R (finalRows c z) = ourPoints c m parts z +
        ((((Points.entering c z).filter fun r => !among m parts r.id).filter R).map fun r =>
          kept c (total (rawRows c z)) (total (Points.entering c z)) r.points).sum := by
    rw [finalRows, points_identityStage _ hR]
    exact sum_filter _ hz
  have hsame : ((Points.entering c y).filter fun r => !among m parts r.id).filter P =
      ((Points.entering c y).filter fun r => !among m parts r.id).filter Q := by
    refine List.filter_congr fun r hr => hout r ?_
    simpa using (List.mem_filter.1 hr).2
  rw [hsplit hP hx, hsplit hQ hy, hE.rest, h.raw.total_eq, hE.total_eq, hsame]
  ring

theorem Split.total_add (h : Split c m operator parts x y) :
    total (board c x).rows + ourPoints c m parts y = total (board c y).rows + ourPoints c m parts x := by
  rw [total_board, total_board, ← points_all, ← points_all]
  exact h.final (fun _ _ _ => rfl) (fun _ _ _ => rfl) (fun _ _ _ => rfl) (fun _ _ _ => rfl) fun _ _ => rfl

/-! ## When splitting pays -/

/-- The points from which the last cap cuts. -/
def threshold (c : Config) (x : Ledger) : Rat := bps c.capBps * total (Points.entering c x)

/-- The last cap cuts neither the miner nor, after the split, a part; or all the parts but one have no points, which
are not cut either. -/
def Spared (c : Config) (m : Str) (parts : List Str) (x y : Ledger) : Prop :=
  (∀ r ∈ Points.entering c x, r.id = m → r.points ≤ threshold c x) ∧
    (∀ r ∈ Points.entering c y, r.id ∈ parts → r.points ≤ threshold c y) ∨
  ∃ p ∈ parts, ∀ r ∈ Points.entering c y, r.id ∈ parts → r.id ≠ p → r.points = 0 ∧ 0 ≤ threshold c y

end Split

/-- A finished job of a client that pays `fee`. -/
def job (id miner : Str) (fee : Nat) : Job := ⟨id, "open+paid+finalized".toList, miner, "x".toList, fee, []⟩

/-- Each rival serves a job of fee 2; the last two jobs have fee 1 and are served by `p` and `q`. -/
def ledger (rivals : List Str) (p q : Str) (miners : List Miner) : Ledger where
  jobs := (rivals.map fun r => job r r 2) ++ [job "j".toList p 1, job "k".toList q 1]
  miners := (rivals.map fun r => ⟨r, r⟩) ++ miners
  verdicts := []

def whole (rivals : List Str) : Ledger := ledger rivals "m".toList "m".toList [⟨"m".toList, "M".toList⟩]

def two : List Str := ["a".toList, "b".toList]

end Dendra.Points
