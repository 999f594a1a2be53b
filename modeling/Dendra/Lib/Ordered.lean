import Mathlib

/-!
# Ordered dictionaries

An `Ordered κ α` maps keys to values and keeps its entries in the order in which they were put in, as an
insertion-ordered dictionary does. A key stands in it once; that is a field.

* `set`: an entry that is there keeps its place, a new one goes to the end.
* `pop`, `moveToEnd`, `push`: what removes and reorders. `set_moveToEnd` and `set_of_not_has` say that both
  ways to put an entry last are `push`.
* `get?_push`, `get?_pop`: what is read after them; `sum_push`, `sum_pop`: what a total becomes.
* `ofList`: from a list with repeats, the last one wins.
-/

namespace Dendra

variable {κ α β : Type} [DecidableEq κ]

/-- A dictionary, first entry first. -/
structure Ordered (κ α : Type) where
  items : List (κ × α)
  nodup : (items.map Prod.fst).Nodup

namespace Ordered

omit [DecidableEq κ] in
@[ext] theorem ext {d e : Ordered κ α} (h : d.items = e.items) : d = e := by
  cases d
  cases e
  cases h
  rfl

def empty : Ordered κ α := ⟨[], List.nodup_nil⟩

def keys (d : Ordered κ α) : List κ := d.items.map Prod.fst

def get? (k : κ) (d : Ordered κ α) : Option α := (d.items.find? fun p => decide (p.1 = k)).map Prod.snd

def has (k : κ) (d : Ordered κ α) : Bool := d.items.any fun p => decide (p.1 = k)

/-- The total of a weight over the entries. -/
def sum (w : κ → α → Nat) (d : Ordered κ α) : Nat := (d.items.map fun p => w p.1 p.2).sum

/-- The entries that `p` accepts. -/
def filter (p : κ → α → Bool) (d : Ordered κ α) : Ordered κ α :=
  ⟨d.items.filter fun e => p e.1 e.2, d.nodup.sublist (List.filter_sublist.map _)⟩

def pop (k : κ) (d : Ordered κ α) : Ordered κ α := d.filter fun k' _ => !decide (k' = k)

omit [DecidableEq κ] in
theorem mem_keys_of_mem {d : Ordered κ α} {e : κ × α} (h : e ∈ d.items) : e.1 ∈ d.keys :=
  List.mem_map_of_mem h

theorem notMem_keys_pop (k : κ) (d : Ordered κ α) : k ∉ (d.pop k).keys := by
  simp [keys, pop, filter]

/-- `v` under `k`, as the last entry. -/
def push (k : κ) (v : α) (d : Ordered κ α) : Ordered κ α :=
  ⟨(d.pop k).items ++ [(k, v)], by
    rw [List.map_append, List.nodup_append]
    refine ⟨(d.pop k).nodup, List.nodup_singleton _, ?_⟩
    intro a ha b hb
    obtain rfl : b = k := List.mem_singleton.1 hb
    exact fun hab => notMem_keys_pop b d (hab ▸ ha)⟩

/-- `d[k] = v`. -/
def set (k : κ) (v : α) (d : Ordered κ α) : Ordered κ α :=
  if d.has k then
    ⟨d.items.map fun p => if p.1 = k then (k, v) else p, by
      have h : (d.items.map fun p => if p.1 = k then (k, v) else p).map Prod.fst =
          d.items.map Prod.fst := by
        rw [List.map_map]
        refine List.map_congr_left fun p _ => ?_
        by_cases hp : p.1 = k <;> simp [hp]
      rw [h]
      exact d.nodup⟩
  else d.push k v

def moveToEnd (k : κ) (d : Ordered κ α) : Ordered κ α :=
  match d.get? k with
  | none => d
  | some v => d.push k v

/-- The entries of a list put in one after the other. -/
def ofList (l : List (κ × α)) : Ordered κ α := l.foldl (fun d p => d.set p.1 p.2) empty

variable {d : Ordered κ α} {k k' : κ} {v : α}

/-! ## Entries -/

omit [DecidableEq κ] in
theorem eq_of_mem (h : (k, v) ∈ d.items) {v' : α} (h' : (k, v') ∈ d.items) : v = v' := by
  have := List.inj_on_of_nodup_map d.nodup h h' rfl
  exact (Prod.mk.inj this).2

theorem get?_eq_some : d.get? k = some v ↔ (k, v) ∈ d.items := by
  unfold get?
  constructor
  · intro h
    obtain ⟨p, hp, rfl⟩ := Option.map_eq_some_iff.1 h
    obtain rfl : p.1 = k := by simpa using List.find?_some hp
    exact List.mem_of_find?_eq_some hp
  · intro h
    cases hf : d.items.find? fun p => decide (p.1 = k) with
    | none =>
      have := List.find?_eq_none.1 hf _ h
      simp at this
    | some p =>
      obtain ⟨k₁, v₁⟩ := p
      obtain rfl : k₁ = k := by simpa using List.find?_some hf
      rw [Option.map_some, eq_of_mem (List.mem_of_find?_eq_some hf) h]

theorem get?_eq_none : d.get? k = none ↔ k ∉ d.keys := by
  unfold get? keys
  rw [Option.map_eq_none_iff, List.find?_eq_none, List.mem_map]
  constructor
  · rintro h ⟨p, hp, rfl⟩
    simpa using h p hp
  · intro h p hp
    have hne : p.1 ≠ k := fun hk => h ⟨p, hp, hk⟩
    simpa using hne

theorem has_eq_isSome : d.has k = (d.get? k).isSome := by
  rw [Bool.eq_iff_iff, Option.isSome_iff_exists]
  unfold has
  rw [List.any_eq_true]
  constructor
  · rintro ⟨⟨k₁, v⟩, hp, hk⟩
    obtain rfl : k₁ = k := by simpa using hk
    exact ⟨v, get?_eq_some.2 hp⟩
  · rintro ⟨v, hv⟩
    exact ⟨(k, v), get?_eq_some.1 hv, by simp⟩

omit [DecidableEq κ] in
theorem mem_filter {p : κ → α → Bool} {e : κ × α} :
    e ∈ (d.filter p).items ↔ e ∈ d.items ∧ p e.1 e.2 = true := List.mem_filter

theorem get?_filter {p : κ → α → Bool} : (d.filter p).get? k = (d.get? k).filter (p k) := by
  refine Option.ext fun v => ?_
  rw [get?_eq_some, mem_filter, Option.filter_eq_some_iff, get?_eq_some]

@[simp] theorem get?_pop : (d.pop k').get? k = if k = k' then none else d.get? k := by
  unfold pop
  rw [get?_filter]
  by_cases h : k = k'
  · subst h
    cases d.get? k <;> simp [Option.filter]
  · rw [if_neg h]
    cases d.get? k <;> simp [h, Option.filter]

theorem mem_push {e : κ × α} :
    e ∈ (d.push k v).items ↔ (e ∈ d.items ∧ e.1 ≠ k) ∨ e = (k, v) := by
  unfold push
  rw [List.mem_append, List.mem_singleton, pop, mem_filter]
  simp

@[simp] theorem get?_push : (d.push k' v).get? k = if k = k' then some v else d.get? k := by
  refine Option.ext fun w => ?_
  rw [get?_eq_some, mem_push]
  by_cases h : k = k'
  · rw [if_pos h]
    subst h
    simp [eq_comm]
  · rw [if_neg h, get?_eq_some]
    simp [h]

theorem get?_set : (d.set k' v).get? k = if k = k' then some v else d.get? k := by
  unfold set
  split
  · next h =>
    rw [has_eq_isSome] at h
    obtain ⟨u, hu⟩ := Option.isSome_iff_exists.1 h
    refine Option.ext fun w => ?_
    rw [get?_eq_some]
    dsimp only
    rw [List.mem_map]
    by_cases hk : k = k'
    · rw [if_pos hk]
      subst hk
      constructor
      · rintro ⟨p, -, hpw⟩
        by_cases hp : p.1 = k
        · rw [if_pos hp] at hpw
          rw [(Prod.mk.inj hpw).2]
        · rw [if_neg hp] at hpw
          exact absurd (congrArg Prod.fst hpw) hp
      · intro hw
        obtain rfl := Option.some.inj hw
        exact ⟨(k, u), get?_eq_some.1 hu, by simp⟩
    · rw [if_neg hk, get?_eq_some]
      constructor
      · rintro ⟨p, hp, hpw⟩
        by_cases hpk : p.1 = k'
        · rw [if_pos hpk] at hpw
          exact absurd (Prod.mk.inj hpw).1.symm hk
        · rw [if_neg hpk] at hpw
          exact hpw ▸ hp
      · intro hw
        exact ⟨(k, w), hw, by simp [hk]⟩
  · exact get?_push

/-! ## To the end -/

theorem pop_of_get?_none (h : d.get? k = none) : d.pop k = d := by
  refine ext (List.filter_eq_self.2 fun e he => ?_)
  have hne : e.1 ≠ k := fun hk => get?_eq_none.1 h (hk ▸ mem_keys_of_mem he)
  simpa using hne

theorem set_of_not_has (h : d.has k = false) : d.set k v = d.push k v := by
  unfold set
  rw [h]
  rfl

theorem pop_push : (d.push k v).pop k = d.pop k := by
  refine ext ?_
  simp only [push, pop, filter, List.filter_append, List.filter_filter]
  simp

theorem set_push {u : α} : (d.push k u).set k v = d.push k v := by
  have hhas : (d.push k u).has k = true := by rw [has_eq_isSome, get?_push, if_pos rfl]; rfl
  unfold set
  rw [if_pos hhas]
  refine ext ?_
  simp only [push, List.map_append, List.map_cons, List.map_nil, if_true]
  congr 1
  conv_rhs => rw [← List.map_id (d.pop k).items]
  refine List.map_congr_left fun p hp => ?_
  have hne : p.1 ≠ k := by
    have := (mem_filter.1 hp).2
    simpa using this
  rw [if_neg hne]
  rfl

/-- An entry that is moved to the end and then written is the last one. -/
theorem set_moveToEnd (h : d.has k = true) : (d.moveToEnd k).set k v = d.push k v := by
  rw [has_eq_isSome] at h
  obtain ⟨u, hu⟩ := Option.isSome_iff_exists.1 h
  unfold moveToEnd
  rw [hu]
  exact set_push

/-- An entry that is taken out and then written is the last one. -/
theorem set_pop : (d.pop k).set k v = d.push k v := by
  have h : (d.pop k).has k = false := by rw [has_eq_isSome, get?_pop, if_pos rfl]; rfl
  rw [set_of_not_has h]
  refine ext ?_
  have hpop : (d.pop k).pop k = d.pop k := pop_of_get?_none (by simp)
  simp only [push, hpop]

theorem keys_push : (d.push k v).keys = (d.pop k).keys ++ [k] := by
  simp [keys, push]

theorem keys_pop : (d.pop k).keys = d.keys.filter fun k' => !decide (k' = k) := by
  simp only [keys, pop, filter, List.filter_map]
  rfl

/-! ## The first entry -/

/-- Taking out the first entry leaves the others. -/
theorem pop_cons {l : List (κ × α)} (h : d.items = (k, v) :: l) : (d.pop k).items = l := by
  have hn := d.nodup
  rw [h, List.map_cons, List.nodup_cons] at hn
  simp only [pop, filter, h, List.filter_cons, decide_true, Bool.not_true, Bool.false_eq_true, if_false]
  refine List.filter_eq_self.2 fun e he => ?_
  have hne : e.1 ≠ k := fun hk => hn.1 (hk ▸ List.mem_map.2 ⟨e, he, rfl⟩)
  simpa using hne

/-! ## Totals -/

variable (w : κ → α → Nat)

/-- The entry of a key, between the others. -/
theorem exists_split (h : d.get? k = some v) :
    ∃ p q, d.items = p ++ (k, v) :: q ∧ (∀ e ∈ p, e.1 ≠ k) ∧ ∀ e ∈ q, e.1 ≠ k := by
  obtain ⟨p, q, hpq⟩ := List.append_of_mem (get?_eq_some.1 h)
  have hn := d.nodup
  rw [hpq, List.map_append, List.map_cons, List.nodup_append, List.nodup_cons] at hn
  obtain ⟨-, ⟨hkq, -⟩, hdis⟩ := hn
  refine ⟨p, q, hpq, ?_, ?_⟩
  · intro e he hk
    exact hdis e.1 (List.mem_map.2 ⟨e, he, rfl⟩) k List.mem_cons_self hk
  · intro e he hk
    exact hkq (List.mem_map.2 ⟨e, he, hk⟩)

theorem sum_pop_of_some (h : d.get? k = some v) : (d.pop k).sum w + w k v = d.sum w := by
  obtain ⟨p, q, hpq, hp, hq⟩ := exists_split h
  have hfp : p.filter (fun e => !decide (e.1 = k)) = p :=
    List.filter_eq_self.2 fun e he => by simpa using hp e he
  have hfq : q.filter (fun e => !decide (e.1 = k)) = q :=
    List.filter_eq_self.2 fun e he => by simpa using hq e he
  unfold sum pop filter
  simp only [hpq, List.filter_append, List.filter_cons, hfp, hfq, decide_true, Bool.not_true,
    Bool.false_eq_true, if_false, List.map_append, List.map_cons, List.sum_append, List.sum_cons]
  omega

theorem sum_push : (d.push k v).sum w = (d.pop k).sum w + w k v := by
  simp [sum, push]

theorem sum_push_of_none (h : d.get? k = none) : (d.push k v).sum w = d.sum w + w k v := by
  rw [sum_push, pop_of_get?_none h]

theorem sum_push_of_some {u : α} (h : d.get? k = some u) :
    (d.push k v).sum w + w k u = d.sum w + w k v := by
  have := sum_pop_of_some w h
  rw [sum_push]
  omega

/-- A write over an entry keeps its place. -/
theorem items_set_of_some {u : α} (h : d.get? k = some u) :
    ∃ p q, d.items = p ++ (k, u) :: q ∧ (d.set k v).items = p ++ (k, v) :: q := by
  obtain ⟨p, q, hpq, hp, hq⟩ := exists_split h
  have hhas : d.has k = true := by rw [has_eq_isSome, h]; rfl
  have hkeep : ∀ l : List (κ × α), (∀ e ∈ l, e.1 ≠ k) →
      l.map (fun e => if e.1 = k then (k, v) else e) = l := by
    intro l hl
    conv_rhs => rw [← List.map_id l]
    refine List.map_congr_left fun e he => ?_
    rw [if_neg (hl e he)]
    rfl
  refine ⟨p, q, hpq, ?_⟩
  unfold set
  rw [if_pos hhas]
  dsimp only
  rw [hpq, List.map_append, List.map_cons, hkeep p hp, hkeep q hq, if_pos rfl]

theorem sum_set_of_some {u : α} (h : d.get? k = some u) :
    (d.set k v).sum w + w k u = d.sum w + w k v := by
  obtain ⟨p, q, hpq, hset⟩ := items_set_of_some (v := v) h
  unfold sum
  rw [hset, hpq]
  simp only [List.map_append, List.map_cons, List.sum_append, List.sum_cons]
  omega

theorem sum_set_of_none (h : d.get? k = none) : (d.set k v).sum w = d.sum w + w k v := by
  rw [set_of_not_has (by rw [has_eq_isSome, h]; rfl), sum_push_of_none w h]

theorem get?_moveToEnd : (d.moveToEnd k').get? k = d.get? k := by
  unfold moveToEnd
  split
  · rfl
  next v hv =>
    rw [get?_push]
    split
    next hk => rw [hk, hv]
    · rfl

theorem sum_moveToEnd : (d.moveToEnd k).sum w = d.sum w := by
  unfold moveToEnd
  split
  · rfl
  next v hv =>
    have := sum_push_of_some w (v := v) hv
    omega

omit [DecidableEq κ] in
theorem length_eq_sum (d : Ordered κ α) : d.items.length = d.sum fun _ _ => 1 := by
  simp [sum]

/-! ## From a list -/

theorem items_foldl_set {l : List (κ × α)} (h : (d.items ++ l |>.map Prod.fst).Nodup) :
    (l.foldl (fun d p => d.set p.1 p.2) d).items = d.items ++ l := by
  induction l generalizing d with
  | nil => simp
  | cons e l ih =>
    rw [List.map_append, List.map_cons, List.nodup_append] at h
    have hnew : d.get? e.1 = none :=
      get?_eq_none.2 fun he => h.2.2 _ he _ List.mem_cons_self rfl
    have hset : (d.set e.1 e.2).items = d.items ++ [e] := by
      rw [set_of_not_has (by rw [has_eq_isSome, hnew]; rfl), push]
      dsimp only
      rw [pop_of_get?_none hnew]
    have hn : ((d.set e.1 e.2).items ++ l |>.map Prod.fst).Nodup := by
      rw [hset, List.append_assoc, List.singleton_append, List.map_append, List.map_cons,
        List.nodup_append]
      exact h
    rw [List.foldl_cons, ih hn, hset, List.append_assoc, List.singleton_append]

/-- A list without repeats is its own dictionary. -/
theorem items_ofList {l : List (κ × α)} (h : (l.map Prod.fst).Nodup) : (ofList l).items = l :=
  items_foldl_set h

theorem get?_foldl_set {l : List (κ × α)} : (l.foldl (fun d p => d.set p.1 p.2) d).get? k =
    ((l.reverse.find? fun p => decide (p.1 = k)).map Prod.snd).or (d.get? k) := by
  induction l generalizing d with
  | nil => rfl
  | cons p l ih =>
    rw [List.foldl_cons, ih, get?_set, List.reverse_cons, List.find?_append, Option.map_or, Option.or_assoc]
    congr 1
    by_cases hk : k = p.1
    · rw [if_pos hk]
      simp [hk]
    · rw [if_neg hk]
      simp [Ne.symm hk]

/-- The last entry of a key is the one that is read. -/
theorem get?_ofList {l : List (κ × α)} :
    (ofList l).get? k = (l.reverse.find? fun p => decide (p.1 = k)).map Prod.snd := by
  unfold ofList
  rw [get?_foldl_set]
  exact Option.or_none

end Ordered

end Dendra
