import Dendra.Lib.Ordered

/-!
# Tallies

`Ordered.tally l` adds the amounts of `l` up by key, in the order in which the keys first occur.

* `filter_tally`: the tally of some keys.
* `sum_tally`: what additive weights of the amounts come to.
* `mem_keys_tally`, `forall_tally`: the keys, and what holds of every entry. `get?_tally`: the amount of a key.
-/

namespace Dendra.Ordered

variable {κ α β : Type} [DecidableEq κ] [AddZeroClass α] {d : Ordered κ α} {k : κ} {v : α} {l : List (κ × α)}

/-- `v` is added to what stands under `k`. -/
def add (k : κ) (v : α) (d : Ordered κ α) : Ordered κ α := d.set k ((d.get? k).getD 0 + v)

def tally (l : List (κ × α)) : Ordered κ α := l.foldl (fun d e => d.add e.1 e.2) empty

theorem tally_concat (l : List (κ × α)) (e : κ × α) : tally (l ++ [e]) = (tally l).add e.1 e.2 := by
  rw [tally, List.foldl_append]
  rfl

omit [AddZeroClass α] in
theorem filter_set (P : κ → Bool) :
    (d.set k v).filter (fun k _ => P k) =
      if P k then (d.filter fun k _ => P k).set k v else d.filter fun k _ => P k := by
  have hhas : (d.filter fun k _ => P k).has k = (P k && d.has k) := by
    rw [has_eq_isSome, has_eq_isSome, get?_filter]
    cases d.get? k <;> cases P k <;> simp [Option.filter]
  -- A write keeps the keys, so what is filtered by key is filtered before it as after it.
  have hmap : (d.items.map fun e => if e.1 = k then (k, v) else e).filter (fun e => P e.1) =
      (d.items.filter fun e => P e.1).map fun e => if e.1 = k then (k, v) else e := by
    rw [List.filter_map]
    congr 1
    refine List.filter_congr fun e _ => ?_
    by_cases he : e.1 = k <;> simp [he]
  refine ext ?_
  cases hk : P k with
  | true =>
    unfold set
    rw [hhas, hk, Bool.true_and, if_pos rfl]
    split
    · exact hmap
    · simp [push, pop, filter, List.filter_append, hk, List.filter_filter, Bool.and_comm]
  | false =>
    rw [if_neg (by simp)]
    unfold set
    split
    · refine hmap.trans ?_
      change _ = d.items.filter fun e => P e.1
      conv_rhs => rw [← List.map_id (d.items.filter fun e => P e.1)]
      refine List.map_congr_left fun e he => ?_
      have hne : e.1 ≠ k := fun heq => by simp [heq, hk] at he
      rw [if_neg hne]
      rfl
    · simp only [push, pop, filter, List.filter_append, List.filter_filter]
      rw [List.filter_cons_of_neg (by simp [hk]), List.filter_nil, List.append_nil]
      refine List.filter_congr fun e _ => ?_
      by_cases he : e.1 = k <;> simp [he, hk]

theorem filter_add (P : κ → Bool) :
    (d.add k v).filter (fun k _ => P k) =
      if P k then (d.filter fun k _ => P k).add k v else d.filter fun k _ => P k := by
  unfold add
  rw [filter_set]
  split
  next hk =>
    rw [get?_filter]
    cases d.get? k <;> simp [Option.filter, hk]
  · rfl

theorem items_add : (d.get? k = none ∧ (d.add k v).items = d.items ++ [(k, v)]) ∨
    ∃ p u q, d.items = p ++ (k, u) :: q ∧ (d.add k v).items = p ++ (k, u + v) :: q := by
  unfold add
  cases h : d.get? k with
  | none =>
    refine .inl ⟨rfl, ?_⟩
    rw [set_of_not_has (by rw [has_eq_isSome, h]; rfl)]
    change (d.pop k).items ++ [(k, 0 + v)] = _
    rw [pop_of_get?_none h, zero_add]
  | some u =>
    obtain ⟨p, q, hd, hset⟩ := items_set_of_some (v := u + v) h
    exact .inr ⟨p, u, q, hd, hset⟩

theorem filter_tally (P : κ → Bool) :
    (tally l).filter (fun k _ => P k) = tally (l.filter fun e => P e.1) := by
  induction l using List.reverseRecOn with
  | nil => rfl
  | append_singleton l e ih =>
    rw [tally_concat, filter_add, ih, List.filter_append]
    split
    next hk =>
      have he : [e].filter (fun e => P e.1) = [e] := by simp [hk]
      rw [he, tally_concat]
    next hk =>
      have he : [e].filter (fun e => P e.1) = [] := by simp [hk]
      rw [he, List.append_nil]

theorem mem_keys_tally : k ∈ (tally l).keys ↔ k ∈ l.map Prod.fst := by
  induction l using List.reverseRecOn with
  | nil => exact Iff.rfl
  | append_singleton l e ih =>
    rw [tally_concat, List.map_append, List.mem_append, ← ih]
    rcases items_add (d := tally l) (k := e.1) (v := e.2) with ⟨-, hadd⟩ | ⟨p, u, q, htally, hadd⟩
    · simp [keys, hadd]
    · simp only [keys, hadd, htally, List.map_append, List.map_cons, List.map_nil, List.mem_append, List.mem_cons,
        List.not_mem_nil]
      tauto

theorem forall_tally {P : α → Prop} (hadd : ∀ v w, P v → P w → P (v + w)) (h : ∀ e ∈ l, P e.2) :
    ∀ e ∈ (tally l).items, P e.2 := by
  induction l using List.reverseRecOn with
  | nil => exact fun e he => (List.not_mem_nil he).elim
  | append_singleton l e ih =>
    have hl := ih fun e' he' => h e' (List.mem_append_left _ he')
    have he := h e (List.mem_append_right _ (List.mem_singleton_self e))
    rw [tally_concat]
    rcases items_add (d := tally l) (k := e.1) (v := e.2) with ⟨-, hitems⟩ | ⟨p, u, q, htally, hitems⟩
    · rw [hitems]
      intro e' he'
      rcases List.mem_append.1 he' with he' | he'
      · exact hl e' he'
      · rw [List.mem_singleton.1 he']
        exact he
    · rw [hitems]
      rw [htally] at hl
      intro e' he'
      rcases List.mem_append.1 he' with he' | he'
      · exact hl e' (List.mem_append_left _ he')
      rcases List.mem_cons.1 he' with rfl | he'
      · exact hadd u e.2 (hl (e.1, u) (by simp)) he
      · exact hl e' (by simp [he'])

/-- An additive weight of the amounts. -/
theorem sum_tally {M : Type} [AddCommMonoid M] {w : α → M} (hadd : ∀ a b, w (a + b) = w a + w b) :
    ((tally l).items.map fun e => w e.2).sum = (l.map fun e => w e.2).sum := by
  induction l using List.reverseRecOn with
  | nil => rfl
  | append_singleton l e ih =>
    rw [tally_concat, List.map_append, List.sum_append, ← ih]
    rcases items_add (d := tally l) (k := e.1) (v := e.2) with ⟨-, hitems⟩ | ⟨p, u, q, htally, hitems⟩
    · rw [hitems]
      simp
    · rw [hitems, htally]
      simp only [List.map_append, List.map_cons, List.map_nil, List.sum_append, List.sum_cons, List.sum_nil, hadd]
      abel

theorem get?_tally {M : Type} [AddMonoid M] {l : List (κ × M)} :
    ((tally l).get? k).getD 0 = ((l.filter fun e => decide (e.1 = k)).map Prod.snd).sum := by
  induction l using List.reverseRecOn with
  | nil => rfl
  | append_singleton l e ih =>
    rw [tally_concat, add, get?_set, List.filter_append]
    by_cases he : e.1 = k
    · subst he
      simp [ih]
    · have hne : ¬ k = e.1 := fun h => he h.symm
      simp [he, hne, ih]

end Dendra.Ordered
