import Dendra.Capacity.Store

/-!
# What anybody can do to a signed report

* `row`: the signed report of an identity, as the service reads it.
* `get?_written`: what writing a report leaves under a key. A declared deposit cannot name a signed key.
* `signed_row`: over a run, the report of an identity is replaced by its own reports only, and the order it was
  signed at never goes back.
* `length_declared_capDeclared`, `evicted_first`: how many declared entries stay, and which leave.
* `registry_bounded`: over a run from an empty registry.
-/

namespace Dendra.Capacity

variable {c : Config} {d : Store} {k : Str} {s s' : State}

/-! ## Several entries taken out -/

theorem items_foldl_pop (l : List Str) (d : Store) :
    (l.foldl (fun d k => d.pop k) d).items = d.items.filter fun e => decide (e.1 ∉ l) := by
  induction l generalizing d with
  | nil => simp
  | cons k l ih =>
    rw [List.foldl_cons, ih]
    simp only [Ordered.pop, Ordered.filter, List.filter_filter]
    refine List.filter_congr fun e _ => ?_
    by_cases hk : e.1 = k <;> simp [hk]

theorem get?_foldl_pop (l : List Str) (d : Store) :
    (l.foldl (fun d k => d.pop k) d).get? k = if k ∈ l then none else d.get? k := by
  induction l generalizing d with
  | nil => simp
  | cons k' l ih =>
    rw [List.foldl_cons, ih, Ordered.get?_pop]
    by_cases hk : k ∈ l <;> by_cases hk' : k = k' <;> simp [hk, hk']

/-! ## The older prefix -/

theorem not_before_keyProven (s : Str) : keyProvenBefore.isPrefixOf (keyProven ++ s) = false := rfl

theorem not_before_keyDeclared (s : Str) : keyProvenBefore.isPrefixOf (keyDeclared ++ s) = false := rfl

theorem not_declared_keyProven (s : Str) : isDeclared (keyProven ++ s) = false := rfl

theorem keyProven_ne_declared (s t : Str) : keyProven ++ s ≠ keyDeclared ++ t := by
  simp [keyProven, keyDeclared]

/-- No key has the older prefix. -/
def Migrated (d : Store) : Prop := ∀ k ∈ d.keys, keyProvenBefore.isPrefixOf k = false

theorem migrateProvenPrefix_of_migrated (h : Migrated d) : migrateProvenPrefix d = d := by
  have hnil : d.keys.filter keyProvenBefore.isPrefixOf = [] := by
    refine List.filter_eq_nil_iff.2 fun k hk => ?_
    rw [h k hk]
    exact Bool.false_ne_true
  rw [migrateProvenPrefix, hnil]
  rfl

theorem mem_keys_iff : k ∈ d.keys ↔ (d.get? k).isSome := by
  rw [← not_iff_not, ← Ordered.get?_eq_none, Option.not_isSome_iff_eq_none]

theorem get?_migrateOne_before {old : Str} (hk : keyProvenBefore.isPrefixOf k = true) :
    (migrateOne d old).get? k = if k = old then none else d.get? k := by
  have hne (s : Str) : k ≠ keyProven ++ s := by
    rintro rfl
    rw [not_before_keyProven] at hk
    cases hk
  unfold migrateOne
  split
  next hnone =>
    split
    next heq => rw [heq, hnone]
    next => rfl
  next =>
    dsimp only
    split
    · rw [Ordered.get?_set, if_neg (hne _), Ordered.get?_pop]
    · split
      · rw [Ordered.get?_set, if_neg (hne _), Ordered.get?_pop]
      · rw [Ordered.get?_pop]

theorem get?_foldl_migrateOne {l : List Str} (hk : keyProvenBefore.isPrefixOf k = true) :
    (l.foldl migrateOne d).get? k = if k ∈ l then none else d.get? k := by
  induction l generalizing d with
  | nil => simp
  | cons old l ih =>
    rw [List.foldl_cons, ih, get?_migrateOne_before hk]
    by_cases hl : k ∈ l <;> by_cases hold : k = old <;> simp [hl, hold]

theorem migrated_migrateProvenPrefix (d : Store) : Migrated (migrateProvenPrefix d) := by
  intro k hk
  by_contra hbefore
  rw [Bool.not_eq_false] at hbefore
  rw [mem_keys_iff, migrateProvenPrefix, get?_foldl_migrateOne hbefore] at hk
  split at hk
  · cases hk
  next hmem => exact hmem (List.mem_filter.2 ⟨mem_keys_iff.2 hk, hbefore⟩)

/-! ## Declared entries that leave -/

theorem mem_evicted {keep : Str} {e : Str × Report} (h : e ∈ evicted d keep) :
    e ∈ d.items ∧ isDeclared e.1 = true ∧ e.1 ≠ keep := by
  have hmem := (List.mem_insertionSort _).1 (List.mem_of_mem_take h)
  rw [List.mem_filter, List.mem_filter] at hmem
  exact ⟨hmem.1.1, hmem.1.2, by simpa using hmem.2⟩

theorem get?_capDeclared (d : Store) (keep : Str) :
    (capDeclared d keep).get? k = if k ∈ (evicted d keep).map Prod.fst then none else d.get? k := by
  rw [capDeclared, ← get?_foldl_pop, List.foldl_map]

theorem items_capDeclared (d : Store) (keep : Str) :
    (capDeclared d keep).items = d.items.filter fun e => decide (e.1 ∉ (evicted d keep).map Prod.fst) := by
  rw [capDeclared, ← items_foldl_pop, List.foldl_map]

theorem get?_capDeclared_keep (d : Store) (keep : Str) : (capDeclared d keep).get? keep = d.get? keep := by
  rw [get?_capDeclared, if_neg]
  intro hmem
  obtain ⟨e, he, rfl⟩ := List.mem_map.1 hmem
  exact (mem_evicted he).2.2 rfl

theorem get?_capDeclared_proven (d : Store) (keep m : Str) :
    (capDeclared d keep).get? (keyProven ++ m) = d.get? (keyProven ++ m) := by
  rw [get?_capDeclared, if_neg]
  intro hmem
  obtain ⟨e, he, heq⟩ := List.mem_map.1 hmem
  have hdeclared := (mem_evicted he).2.1
  rw [heq, not_declared_keyProven] at hdeclared
  cases hdeclared

/-! ## What is written -/

/-- The signed report of an identity, as the service reads it. -/
def Store.row (d : Store) (m : Str) : Option Report := (migrateProvenPrefix d).get? (keyProven ++ m)

theorem notMem_supersededKeys (r : Report) (m : Str) : keyProven ++ m ∉ supersededKeys r := by
  unfold supersededKeys
  dsimp only
  split
  · exact List.not_mem_nil
  next h =>
    rw [List.mem_singleton]
    intro heq
    rw [← heq] at h
    simp at h

theorem migrated_written (t : Turn) (r : Report) (d : Store) : Migrated (written c t r d) := by
  intro k hk
  by_contra hbefore
  rw [Bool.not_eq_false] at hbefore
  have hne : k ≠ storageKey r := by
    rintro rfl
    unfold storageKey at hbefore
    split at hbefore
    · rw [not_before_keyProven] at hbefore
      cases hbefore
    · rw [not_before_keyDeclared] at hbefore
      cases hbefore
  rw [mem_keys_iff, written, get?_capDeclared] at hk
  split at hk
  · cases hk
  rw [Ordered.get?_filter, Ordered.get?_set, if_neg hne, get?_foldl_pop] at hk
  split at hk
  · cases hk
  obtain ⟨v, hv⟩ := Option.isSome_iff_exists.1 hk
  obtain ⟨hv, -⟩ := Option.filter_eq_some_iff.1 hv
  have hold := migrated_migrateProvenPrefix d k (mem_keys_iff.2 (Option.isSome_iff_exists.2 ⟨v, hv⟩))
  rw [hold] at hbefore
  cases hbefore

/-- A signed report goes under the key of its identity, and no other report under it. What is written has to be
young enough for the purge. -/
theorem row_written (t : Turn) (r : Report) (d : Store) (m : Str) : (written c t r d).row m =
    ((if r.proven ≠ [] ∧ r.proven = m then some r else d.row m).filter fun v => decide (t.cut - c.purgeS ≤ v.ts)) := by
  rw [Store.row, migrateProvenPrefix_of_migrated (migrated_written t r d), written, get?_capDeclared_proven,
    Ordered.get?_filter, Ordered.get?_set, get?_foldl_pop, if_neg (notMem_supersededKeys r m)]
  congr 1
  refine if_congr ?_ rfl rfl
  unfold storageKey
  split
  next h => simp [h, eq_comm]
  next h => simp [h, keyProven_ne_declared]

/-! ## A request -/

/-- A request that gets to the store deposits one report. -/
theorem doPost_store (c : Config) (q : Request) (s : State) :
    ((doPost c q s).2.store = s.store ∧ (doPost c q s).1 ≠ .ok) ∨ ∃ r,
      (q.proven ≠ [] → ∃ o, q.order = some o ∧ r.signed = some o) ∧ r.proven = q.proven ∧
      (∃ nodeId minerIds machine kitVersion judgeRole,
        q.body = .report nodeId minerIds machine kitVersion judgeRole r.ts) ∧
      (doPost c q s).2.store = (deposit c q.turn r s.store).2 ∧
      (doPost c q s).1 = (deposit c q.turn r s.store).1 := by
  unfold doPost
  dsimp only
  split
  · split
    · exact .inl ⟨rfl, fun h => by cases h⟩
    · exact .inl ⟨rfl, fun h => by cases h⟩
    · exact .inl ⟨rfl, fun h => by cases h⟩
    next nodeId minerIds machine kitVersion judgeRole ts hbody =>
      unfold accept
      split
      next hproven =>
        split
        · exact .inl ⟨rfl, fun h => by cases h⟩
        next order horder =>
          dsimp only
          split
          · exact .inr ⟨_, fun _ => ⟨order, horder, rfl⟩, rfl, ⟨_, _, _, _, _, hbody⟩, rfl, rfl⟩
          · exact .inl ⟨rfl, fun h => by cases h⟩
      next hproven =>
        rw [not_not] at hproven
        dsimp only
        split
        · exact .inr ⟨_, fun h => absurd hproven h, hproven.symm, ⟨_, _, _, _, _, hbody⟩, rfl, rfl⟩
        · exact .inl ⟨rfl, fun h => by cases h⟩
  · exact .inl ⟨rfl, fun h => by cases h⟩

theorem deposit_store (t : Turn) (r : Report) (d : Store) :
    ((deposit c t r d).2 = d ∧ (deposit c t r d).1 ≠ .ok) ∨
      (deposit c t r d).1 = .ok ∧ (deposit c t r d).2 = written c t r d ∧ (r.proven ≠ [] →
      olderThanStored c ((migrateProvenPrefix d).get? (keyProven ++ r.proven)) r.proven (r.signed.getD (0, 0)) t.now =
        false) := by
  unfold deposit
  dsimp only
  split
  · exact .inl ⟨rfl, fun h => by cases h⟩
  split
  · exact .inl ⟨rfl, fun h => by cases h⟩
  next holder =>
    split
    · exact .inl ⟨rfl, fun h => by cases h⟩
    · dsimp only
      refine .inr ⟨rfl, rfl, fun hproven => ?_⟩
      have hkey : storageKey r = keyProven ++ r.proven := if_pos hproven
      rw [hkey] at holder
      exact Bool.not_eq_true _ ▸ fun h => holder ⟨hproven, h⟩

/-! ## Over a run -/

/-- The request finds the report of `m` fresh, and its own report is not too old to be kept. -/
structure Fresh (c : Config) (m : Str) (s : State) (q : Request) : Prop where
  row : ∀ r, s.store.row m = some r → isStale c r q.turn.now = false ∧ q.turn.cut - c.purgeS ≤ r.ts
  own : ∀ nodeId minerIds machine kitVersion judgeRole ts,
    q.body = .report nodeId minerIds machine kitVersion judgeRole ts → q.turn.cut - c.purgeS ≤ ts

theorem row_step {m : Str} {q : Request} {r : Report} (hs : Step c s q s') (hq : Fresh c m s q)
    (hr : s.store.row m = some r) : s'.store.row m = some r ∨ q.proven = m ∧
      ∃ r' o, s'.store.row m = some r' ∧ r'.proven = m ∧ r'.signed = some o ∧
        olderThanStored c (some r) m o q.turn.now = false := by
  subst hs
  obtain ⟨hsame, -⟩ | ⟨w, horder, hproven, ⟨_, _, _, _, _, hbody⟩, hstore, -⟩ := doPost_store c q s
  · rw [hsame]
    exact .inl hr
  rw [hstore]
  obtain ⟨hsame, -⟩ | ⟨-, hw, holder⟩ := deposit_store (c := c) q.turn w s.store
  · rw [hsame]
    exact .inl hr
  rw [hw, row_written]
  split
  next hm =>
    obtain ⟨hne, rfl⟩ := hm
    obtain ⟨o, -, hsigned⟩ := horder (hproven ▸ hne)
    have hold := holder hne
    rw [show (migrateProvenPrefix s.store).get? (keyProven ++ w.proven) = some r from hr, hsigned] at hold
    refine .inr ⟨hproven.symm, w, o, ?_, rfl, hsigned, hold⟩
    exact Option.filter_eq_some_iff.2 ⟨rfl, decide_eq_true (hq.own _ _ _ _ _ _ hbody)⟩
  next =>
    refine .inl (Option.filter_eq_some_iff.2 ⟨hr, decide_eq_true (hq.row r hr).2⟩)

theorem before_trans {o p r : Nat × Nat} (h : before o p = false) (h' : before p r = false) : before o r = false := by
  unfold before at *
  simp only [decide_eq_false_iff_not, not_or, not_and] at *
  omega

/-- While each request finds it fresh, the signed report of an identity stays or is replaced by a report that the
identity signed no earlier; and no request but those proven to be the identity's changes it. -/
theorem signed_row {m : Str} {r : Report} (hr : s.store.row m = some r) (hm : r.proven = m) :
    (∀ s', Reach (· = s) (Step c) (Fresh c m) s' → ∃ r', s'.store.row m = some r' ∧ r'.proven = m ∧
      ∀ o, r.signed = some o → ∃ o', r'.signed = some o' ∧ before o' o = false) ∧
    ∀ s', Reach (· = s) (Step c) (fun s q => Fresh c m s q ∧ q.proven ≠ m) s' → s'.store.row m = some r := by
  refine ⟨fun s' h => h.invariant (P := fun s' => ∃ r', s'.store.row m = some r' ∧ r'.proven = m ∧
      ∀ o, r.signed = some o → ∃ o', r'.signed = some o' ∧ before o' o = false) ?_ ?_,
    fun s' h => h.invariant (P := fun s' => s'.store.row m = some r) ?_ ?_⟩
  · rintro _ rfl
    exact ⟨r, hr, hm, fun o ho => ⟨o, ho, by simp [before]⟩⟩
  · rintro s₁ q s₂ - ⟨r₁, hr₁, hm₁, horder⟩ hq hs
    obtain hsame | ⟨-, r₂, o₂, hr₂, hm₂, hsigned, hold⟩ := row_step hs hq hr₁
    · exact ⟨r₁, hsame, hm₁, horder⟩
    · refine ⟨r₂, hr₂, hm₂, fun o ho => ⟨o₂, hsigned, ?_⟩⟩
      obtain ⟨o₁, ho₁, hle⟩ := horder o ho
      refine before_trans ?_ hle
      simpa [olderThanStored, ho₁, (hq.row r₁ hr₁).1, hm₁] using hold
  · rintro _ rfl
    exact hr
  · rintro s₁ q s₂ - hr₁ ⟨hq, hne⟩ hs
    obtain hsame | ⟨heq, -⟩ := row_step hs hq hr₁
    · exact hsame
    · exact absurd heq hne

/-! ## How many entries stay -/

theorem leavesFirst_trans : IsTrans (Str × Report) leavesFirst where
  trans _ _ _ h h' := by
    rcases h with h | ⟨h, hk⟩ <;> rcases h' with h' | ⟨h', hk'⟩
    · exact .inl (h.trans h')
    · exact .inl (h' ▸ h)
    · exact .inl (h ▸ h')
    · exact .inr ⟨h.trans h', hk.trans hk'⟩

theorem leavesFirst_total : Std.Total (α := Str × Report) leavesFirst where
  total e f := by
    rcases lt_trichotomy e.2.ts f.2.ts with h | h | h
    · exact .inl (.inl h)
    · exact (le_total e.1 f.1).imp (fun hk => .inr ⟨h, hk⟩) fun hk => .inr ⟨h.symm, hk⟩
    · exact .inr (.inl h)

/-- The declared entries of a store. -/
def Store.declared (d : Store) : List (Str × Report) := d.items.filter fun e => isDeclared e.1

theorem nodup_declared (d : Store) : d.declared.Nodup := (List.Nodup.of_map _ d.nodup).filter _

theorem notMem_evicted_iff {keep : Str} {e : Str × Report} (he : e ∈ d.items) :
    e.1 ∉ (evicted d keep).map Prod.fst ↔ e ∉ evicted d keep := by
  refine not_congr ⟨fun h => ?_, List.mem_map_of_mem⟩
  obtain ⟨f, hf, hfe⟩ := List.mem_map.1 h
  obtain rfl : f = e := List.inj_on_of_nodup_map d.nodup (mem_evicted hf).1 he hfe
  exact hf

theorem declared_capDeclared (d : Store) (keep : Str) :
    (capDeclared d keep).declared = d.declared.filter fun e => decide (e ∉ evicted d keep) := by
  rw [Store.declared, items_capDeclared, List.filter_filter, Store.declared, List.filter_filter]
  refine List.filter_congr fun e he => ?_
  rw [Bool.and_comm, decide_eq_decide.2 (notMem_evicted_iff he)]

/-- At most so many declared entries stay. -/
theorem length_declared_capDeclared (d : Store) (keep : Str) :
    (capDeclared d keep).declared.length ≤ declaredMax := by
  have hsub : (evicted d keep).Subperm d.declared := by
    refine List.subperm_of_subset ?_ fun e he => List.mem_filter.2 ⟨(mem_evicted he).1, (mem_evicted he).2.1⟩
    refine List.Nodup.sublist (List.take_sublist _ _) ?_
    exact (List.perm_insertionSort _ _).nodup_iff.2 ((nodup_declared d).filter _)
  have hlen : (evicted d keep).length = min (d.declared.length - declaredMax)
      (d.declared.filter fun e => decide (e.1 ≠ keep)).length := by
    rw [evicted, List.length_take, List.length_insertionSort]
    rfl
  have hkeep : d.declared.length ≤ (d.declared.filter fun e => decide (e.1 ≠ keep)).length + 1 := by
    rw [List.length_eq_length_filter_add fun e : Str × Report => decide (e.1 ≠ keep)]
    refine Nat.add_le_add_left ?_ _
    have hnodup : ((d.declared.filter fun e => !decide (e.1 ≠ keep)).map Prod.fst).Nodup :=
      d.nodup.sublist ((List.filter_sublist.trans List.filter_sublist).map _)
    have hall : ∀ k ∈ (d.declared.filter fun e => !decide (e.1 ≠ keep)).map Prod.fst, k = keep := by
      intro k hk
      obtain ⟨e, he, rfl⟩ := List.mem_map.1 hk
      simpa using (List.mem_filter.1 he).2
    rw [List.eq_replicate_of_mem hall, List.nodup_replicate, List.length_map] at hnodup
    exact hnodup
  have hcount : (d.declared.filter fun e => !decide (e ∉ evicted d keep)).length = (evicted d keep).length := by
    refine List.Perm.length_eq ((List.perm_ext_iff_of_nodup ((nodup_declared d).filter _) ?_).2 fun e => ?_)
    · refine List.Nodup.sublist (List.take_sublist _ _) ?_
      exact (List.perm_insertionSort _ _).nodup_iff.2 ((nodup_declared d).filter _)
    · rw [List.mem_filter]
      simpa using fun he => hsub.subset he
  have hsplit := List.length_eq_length_filter_add (l := d.declared) fun e => decide (e ∉ evicted d keep)
  rw [declared_capDeclared]
  unfold declaredMax at *
  omega

/-- What leaves is older than what stays, but for the entry just written. -/
theorem evicted_first {keep : Str} {e f : Str × Report} (he : e ∈ evicted d keep)
    (hf : f ∈ (capDeclared d keep).declared) (hkeep : f.1 ≠ keep) : leavesFirst e f := by
  rw [declared_capDeclared, List.mem_filter] at hf
  obtain ⟨hf, hstays⟩ := hf
  let sorted := (d.declared.filter fun e => decide (e.1 ≠ keep)).insertionSort leavesFirst
  have hsorted : sorted.Pairwise leavesFirst :=
    haveI := leavesFirst_trans
    haveI := leavesFirst_total
    List.pairwise_insertionSort _ _
  have hmem : f ∈ sorted := (List.mem_insertionSort _).2 (List.mem_filter.2 ⟨hf, by simpa using hkeep⟩)
  rw [← List.take_append_drop (d.declared.length - declaredMax) sorted] at hsorted hmem
  refine (List.pairwise_append.1 hsorted).2.2 e he f ((List.mem_append.1 hmem).resolve_left fun htake => ?_)
  exact (of_decide_eq_true hstays) htake

/-! ## From an empty registry -/

/-- Declared entries are few and not signed, and every other entry is the one report of an identity that signed
it. -/
structure Bounded (d : Store) : Prop where
  declared : d.declared.length ≤ declaredMax
  unsigned : ∀ e ∈ d.items, isDeclared e.1 = true → e.2.proven = []
  others : ∀ e ∈ d.items, isDeclared e.1 = false → e.2.proven ≠ [] ∧ e.1 = keyProven ++ e.2.proven
  migrated : Migrated d

theorem mem_written {t : Turn} {r : Report} {e : Str × Report} (h : e ∈ (written c t r d).items) :
    e = (storageKey r, r) ∨ e ∈ (migrateProvenPrefix d).items := by
  have hget : (written c t r d).get? e.1 = some e.2 := Ordered.get?_eq_some.2 h
  rw [written, get?_capDeclared] at hget
  split at hget
  · cases hget
  rw [Ordered.get?_filter, Ordered.get?_set, get?_foldl_pop] at hget
  obtain ⟨hget, -⟩ := Option.filter_eq_some_iff.1 hget
  split at hget
  next hkey => exact .inl (Prod.ext hkey (Option.some.inj hget).symm)
  split at hget
  · cases hget
  · exact .inr (Ordered.get?_eq_some.1 hget)

theorem isDeclared_storageKey (r : Report) : isDeclared (storageKey r) = decide (r.proven = []) := by
  unfold storageKey
  split
  next h => exact (decide_eq_false h).symm
  next h =>
    rw [decide_eq_true (not_not.1 h), isDeclared, List.isPrefixOf_iff_prefix]
    exact List.prefix_append _ _

theorem Bounded.written (h : Bounded d) (t : Turn) (r : Report) : Bounded (written c t r d) := by
  have hold (e : Str × Report) (he : e ∈ (Capacity.written c t r d).items) : e = (storageKey r, r) ∨ e ∈ d.items := by
    rw [← migrateProvenPrefix_of_migrated h.migrated]
    exact mem_written he
  refine ⟨length_declared_capDeclared _ _, fun e he hdeclared => ?_, fun e he hnot => ?_, migrated_written t r d⟩
  · obtain rfl | hmem := hold e he
    · rw [isDeclared_storageKey] at hdeclared
      exact of_decide_eq_true hdeclared
    · exact h.unsigned e hmem hdeclared
  · obtain rfl | hmem := hold e he
    · rw [isDeclared_storageKey] at hnot
      exact ⟨of_decide_eq_false hnot, if_pos (of_decide_eq_false hnot)⟩
    · exact h.others e hmem hnot

/-- An empty registry. -/
def Blank (s : State) : Prop := s.store = .empty

theorem Bounded.step (h : Bounded s.store) {q : Request} (hs : Step c s q s') : Bounded s'.store := by
  subst hs
  obtain ⟨hsame, -⟩ | ⟨w, -, -, -, hstore, -⟩ := doPost_store c q s
  · rw [hsame]
    exact h
  rw [hstore]
  obtain ⟨hsame, -⟩ | ⟨-, hw, -⟩ := deposit_store (c := c) q.turn w s.store
  · rw [hsame]
    exact h
  · rw [hw]
    exact h.written q.turn w

/-- Why an entry is gone after a deposit. -/
inductive Gone (c : Config) (q : Request) (r : Report) (d : Store) (e : Str × Report) : Prop
  | replaced (h : e.1 = storageKey r)
  | superseded (h : e.1 ∈ supersededKeys r)
  | purged (h : e.2.ts < q.turn.cut - c.purgeS)
  /-- the declared entries that stay are younger, but for the one written -/
  | evicted (h : isDeclared e.1 = true) (hfirst : ∀ f ∈ d.declared, f.1 ≠ storageKey r → leavesFirst e f)

theorem gone_of_written {q : Request} {r : Report} {e : Str × Report} (hd : Migrated d) (he : e ∈ d.items)
    (h : e ∉ (written c q.turn r d).items) : Gone c q r (written c q.turn r d) e := by
  by_contra hgone
  have hkey : e.1 ≠ storageKey r := fun heq => hgone (.replaced heq)
  have hsuper : e.1 ∉ supersededKeys r := fun hmem => hgone (.superseded hmem)
  have hyoung : q.turn.cut - c.purgeS ≤ e.2.ts := not_lt.1 fun hlt => hgone (.purged hlt)
  refine h (Ordered.get?_eq_some.1 ?_)
  rw [written, get?_capDeclared, migrateProvenPrefix_of_migrated hd]
  split
  next hmem =>
    obtain ⟨f, hf, hfe⟩ := List.mem_map.1 hmem
    have hfget := Ordered.get?_eq_some.2 (mem_evicted hf).1
    rw [Ordered.get?_filter, Ordered.get?_set, hfe, if_neg hkey, get?_foldl_pop, if_neg hsuper,
      Ordered.get?_eq_some.2 he] at hfget
    obtain rfl : e = f := Prod.ext hfe.symm (Option.some.inj (Option.filter_eq_some_iff.1 hfget).1)
    refine (hgone (.evicted (mem_evicted hf).2.1 fun g hg hne => evicted_first hf ?_ hne)).elim
    rwa [written, migrateProvenPrefix_of_migrated hd] at hg
  next =>
    rw [Ordered.get?_filter, Ordered.get?_set, if_neg hkey, get?_foldl_pop, if_neg hsuper]
    exact Option.filter_eq_some_iff.2 ⟨Ordered.get?_eq_some.2 he, decide_eq_true hyoung⟩

/-- Over any run from an empty registry at most `declaredMax` entries are declared, and every other entry is the
one report of an identity that signed it. A deposit that is answered `ok` is stored, and what is gone for it was
replaced, superseded, too old, or the oldest of too many declared entries. -/
theorem registry_bounded (h : Reach Blank (Step c) (fun _ _ => True) s) : Bounded s.store ∧
    ∀ q, (doPost c q s).1 = .ok → ∃ r, r.proven = q.proven ∧
      (q.turn.cut - c.purgeS ≤ r.ts → (doPost c q s).2.store.get? (storageKey r) = some r) ∧
      ∀ e ∈ s.store.items, e ∉ (doPost c q s).2.store.items → Gone c q r (doPost c q s).2.store e := by
  have hbounded : Bounded s.store := by
    refine h.invariant (P := fun s => Bounded s.store) (fun s hs => ?_) fun _ _ _ _ ih _ hs => ih.step hs
    rw [hs]
    exact ⟨Nat.zero_le _, fun e he => absurd he List.not_mem_nil, fun e he => absurd he List.not_mem_nil,
      fun k hk => absurd hk List.not_mem_nil⟩
  refine ⟨hbounded, fun q hok => ?_⟩
  obtain ⟨-, hnot⟩ | ⟨r, -, hproven, -, hstore, hanswer⟩ := doPost_store c q s
  · exact absurd hok hnot
  obtain ⟨-, hnot⟩ | ⟨-, hw, -⟩ := deposit_store (c := c) q.turn r s.store
  · exact absurd (hanswer ▸ hok) hnot
  rw [hstore, hw]
  refine ⟨r, hproven, fun hyoung => ?_, fun e he hgone => gone_of_written hbounded.migrated he hgone⟩
  rw [written, get?_capDeclared_keep, Ordered.get?_filter, Ordered.get?_set, if_pos rfl]
  exact Option.filter_eq_some_iff.2 ⟨rfl, decide_eq_true hyoung⟩

/-! ## Two signed reports -/

def noReport : State := ⟨.empty, .empty, .empty⟩

/-- A report that the miner `m` signed at a sequence number. -/
def signedPost (sequence : Nat) (ts : Int) : Request where
  ip := ['p']
  signedAttempt := true
  body := .report ['n'] [] ['h'] 3 .active ts
  proven := ['m']
  order := some (0, sequence)
  rateAt := ts
  turn := ⟨ts, ts, true, true⟩

def oneReport : State := (doPost .default (signedPost 5 1000) noReport).2

theorem row_oneReport : oneReport.store.row ['m'] = some ⟨['n'], [], ['h'], 3, .active, 1000, ['m'], some (0, 5)⟩ := by
  decide +kernel

theorem fresh_oneReport : Fresh .default ['m'] oneReport (signedPost 7 1060) where
  row := by
    intro r hr
    obtain rfl := Option.some.inj (row_oneReport.symm.trans hr)
    exact ⟨by decide +kernel, by decide +kernel⟩
  own := by
    rintro _ _ _ _ _ _ ⟨⟩
    decide +kernel

/-- A later report replaces it. -/
theorem signed_row_later : ∃ r o, (doPost .default (signedPost 7 1060) oneReport).2.store.row ['m'] = some r ∧
    r.proven = ['m'] ∧ r.signed = some o ∧ before o (0, 5) = false := by
  obtain ⟨r, hr, hm, horder⟩ :=
    (signed_row (c := .default) row_oneReport rfl).1 _ (.step (.init rfl) fresh_oneReport rfl)
  obtain ⟨o, ho, hle⟩ := horder _ rfl
  exact ⟨r, o, hr, hm, ho, hle⟩

theorem registry_bounded_first : Bounded oneReport.store :=
  (registry_bounded (c := .default) (.step (.init (s := noReport) rfl) trivial rfl)).1

end Dendra.Capacity
