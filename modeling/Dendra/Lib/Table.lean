import Mathlib

/-!
# Keyed tables

A `Table key` holds values that carry their own key (`key : α → κ`), at most one for each key, in
increasing key order: the order in which an ordered key-value store iterates. The order is a field,
so no proof about a program has to carry it.

* `put v` writes `v` under `key v`, `erase k` removes the entry of `k`, `get? k` reads it.
* `get?_put`, `get?_erase`: what a write changes; `mem_put`, `mem_erase`: the same for the entries.
* `sum w` adds a weight over the entries; `sum_put` and `sum_erase` say how a write moves it.
* `filter_put`: a scan that rejects both the old and the new value of a key does not see the write.

`Store κ α` is a table of pairs and `KeySet κ` a table of bare keys.
-/

namespace Dendra

variable {κ α : Type} [LinearOrder κ]

/-- The values of a keyed collection, one for each key, in key order. -/
structure Table (key : α → κ) where
  entries : List α
  sorted : entries.Pairwise fun a b => key a < key b

namespace Table

/-- `v` written into a sorted list of entries, over the entry of the same key if there is one. -/
def insertEntry (key : α → κ) (v : α) : List α → List α
  | [] => [v]
  | a :: as =>
    if key v < key a then v :: a :: as
    else if key v = key a then v :: as
    else a :: insertEntry key v as

variable {key : α → κ}

theorem mem_insertEntry {v x : α} {l : List α} (hl : l.Pairwise fun a b => key a < key b) :
    x ∈ insertEntry key v l ↔ x = v ∨ (x ∈ l ∧ key x ≠ key v) := by
  induction l with
  | nil => simp [insertEntry]
  | cons a as ih =>
    obtain ⟨ha, has⟩ := List.pairwise_cons.1 hl
    unfold insertEntry
    split
    · next hlt =>
      have hne : ∀ y ∈ a :: as, key y ≠ key v := by
        intro y hy
        rcases List.mem_cons.1 hy with rfl | hy
        · exact ne_of_gt hlt
        · exact ne_of_gt (lt_trans hlt (ha y hy))
      constructor
      · rintro (_ | ⟨_, hx⟩)
        · exact .inl rfl
        · exact .inr ⟨hx, hne x hx⟩
      · rintro (rfl | ⟨hx, -⟩)
        · exact List.mem_cons_self
        · exact List.mem_cons_of_mem _ hx
    · split
      · next heq =>
        have hne : ∀ y ∈ as, key y ≠ key v := fun y hy => heq ▸ ne_of_gt (ha y hy)
        constructor
        · rintro (_ | ⟨_, hx⟩)
          · exact .inl rfl
          · exact .inr ⟨List.mem_cons_of_mem _ hx, hne x hx⟩
        · rintro (rfl | ⟨hx, hxv⟩)
          · exact List.mem_cons_self
          · rcases List.mem_cons.1 hx with rfl | hx
            · exact absurd heq.symm hxv
            · exact List.mem_cons_of_mem _ hx
      · next hlt hne =>
        rw [List.mem_cons, ih has, List.mem_cons]
        constructor
        · rintro (rfl | rfl | ⟨hx, hxv⟩)
          · exact .inr ⟨.inl rfl, Ne.symm hne⟩
          · exact .inl rfl
          · exact .inr ⟨.inr hx, hxv⟩
        · rintro (rfl | ⟨rfl | hx, hxv⟩)
          · exact .inr (.inl rfl)
          · exact .inl rfl
          · exact .inr (.inr ⟨hx, hxv⟩)

theorem sorted_insertEntry {v : α} {l : List α} (hl : l.Pairwise fun a b => key a < key b) :
    (insertEntry key v l).Pairwise fun a b => key a < key b := by
  induction l with
  | nil => simp [insertEntry]
  | cons a as ih =>
    obtain ⟨ha, has⟩ := List.pairwise_cons.1 hl
    unfold insertEntry
    split
    · next hlt =>
      refine List.pairwise_cons.2 ⟨fun y hy => ?_, hl⟩
      rcases List.mem_cons.1 hy with rfl | hy
      · exact hlt
      · exact lt_trans hlt (ha y hy)
    · split
      · next heq => exact List.pairwise_cons.2 ⟨fun y hy => heq ▸ ha y hy, has⟩
      · next hlt hne =>
        refine List.pairwise_cons.2 ⟨fun y hy => ?_, ih has⟩
        rcases (mem_insertEntry has).1 hy with rfl | ⟨hy, -⟩
        · exact lt_of_le_of_ne (not_lt.1 hlt) (Ne.symm hne)
        · exact ha y hy

/-- The table without entries. -/
def empty : Table key := ⟨[], .nil⟩

/-- Write `v` under its own key. -/
def put (v : α) (t : Table key) : Table key :=
  ⟨insertEntry key v t.entries, sorted_insertEntry t.sorted⟩

/-- Remove the entry of `k`. -/
def erase (k : κ) (t : Table key) : Table key :=
  ⟨t.entries.filter fun a => key a ≠ k, t.sorted.filter _⟩

/-- Read the entry of `k`. -/
def get? (k : κ) (t : Table key) : Option α := t.entries.find? fun a => key a = k

/-- Is there an entry of `k`? -/
def has (k : κ) (t : Table key) : Bool := t.entries.any fun a => key a = k

/-- The sum of a weight over the entries. -/
def sum (w : α → Nat) (t : Table key) : Nat := (t.entries.map w).sum

variable {t : Table key} {k k' : κ} {v x : α}

instance : Inhabited (Table key) := ⟨empty⟩

/-! ## Entries -/

/-- Two entries with the same key are the same entry. -/
theorem eq_of_mem_of_key_eq {a b : α} (ha : a ∈ t.entries) (hb : b ∈ t.entries)
    (h : key a = key b) : a = b := by
  obtain ⟨l, hl⟩ := t
  simp only at ha hb
  induction l with
  | nil => cases ha
  | cons c cs ih =>
    obtain ⟨hc, hcs⟩ := List.pairwise_cons.1 hl
    rcases List.mem_cons.1 ha with ea | ha <;> rcases List.mem_cons.1 hb with eb | hb
    · rw [ea, eb]
    · exact absurd h (ea ▸ ne_of_lt (hc b hb))
    · exact absurd h.symm (eb ▸ ne_of_lt (hc a ha))
    · exact ih hcs ha hb

theorem nodup_entries (t : Table key) : t.entries.Nodup :=
  t.sorted.imp fun h => fun e => absurd h (e ▸ lt_irrefl _)

theorem nodup_map_key (t : Table key) : (t.entries.map key).Nodup :=
  List.pairwise_map.2 (t.sorted.imp ne_of_lt)

@[simp] theorem mem_put : x ∈ (t.put v).entries ↔ x = v ∨ (x ∈ t.entries ∧ key x ≠ key v) :=
  mem_insertEntry t.sorted

@[simp] theorem mem_erase : x ∈ (t.erase k).entries ↔ x ∈ t.entries ∧ key x ≠ k := by
  simp [erase]

@[simp] theorem entries_empty : (empty : Table key).entries = [] := rfl

/-! ## Reads -/

theorem get?_eq_some_iff : t.get? k = some v ↔ v ∈ t.entries ∧ key v = k := by
  constructor
  · intro h
    exact ⟨List.mem_of_find?_eq_some h, by simpa using List.find?_some h⟩
  · rintro ⟨hv, rfl⟩
    cases hf : t.get? (key v) with
    | none => simpa using List.find?_eq_none.1 hf v hv
    | some a =>
      have ha : key a = key v := by simpa using List.find?_some hf
      rw [eq_of_mem_of_key_eq (List.mem_of_find?_eq_some hf) hv ha]

theorem get?_eq_none_iff : t.get? k = none ↔ ∀ a ∈ t.entries, key a ≠ k := by
  simp [get?, List.find?_eq_none]

/-- An entry is stored under its own key. -/
theorem key_of_get? (h : t.get? k = some v) : key v = k := (get?_eq_some_iff.1 h).2

theorem mem_of_get? (h : t.get? k = some v) : v ∈ t.entries := (get?_eq_some_iff.1 h).1

@[simp] theorem get?_empty : (empty : Table key).get? k = none := rfl

@[simp] theorem get?_put_self : (t.put v).get? (key v) = some v :=
  get?_eq_some_iff.2 ⟨by simp, rfl⟩

theorem get?_put_ne (h : k ≠ key v) : (t.put v).get? k = t.get? k := by
  cases hg : t.get? k with
  | none =>
    rw [get?_eq_none_iff] at hg ⊢
    intro a ha
    rcases mem_put.1 ha with rfl | ⟨ha, -⟩
    · exact h.symm
    · exact hg a ha
  | some a =>
    obtain ⟨ha, rfl⟩ := get?_eq_some_iff.1 hg
    exact get?_eq_some_iff.2 ⟨mem_put.2 (.inr ⟨ha, h⟩), rfl⟩

theorem get?_put : (t.put v).get? k = if k = key v then some v else t.get? k := by
  split
  · next h => rw [h, get?_put_self]
  · next h => exact get?_put_ne h

@[simp] theorem get?_erase_self : (t.erase k).get? k = none :=
  get?_eq_none_iff.2 fun _ ha => (mem_erase.1 ha).2

theorem get?_erase_ne (h : k ≠ k') : (t.erase k').get? k = t.get? k := by
  cases hg : t.get? k with
  | none =>
    rw [get?_eq_none_iff] at hg ⊢
    exact fun a ha => hg a (mem_erase.1 ha).1
  | some a =>
    obtain ⟨ha, rfl⟩ := get?_eq_some_iff.1 hg
    exact get?_eq_some_iff.2 ⟨mem_erase.2 ⟨ha, h⟩, rfl⟩

theorem get?_erase : (t.erase k').get? k = if k = k' then none else t.get? k := by
  split
  · next h => rw [h, get?_erase_self]
  · next h => exact get?_erase_ne h

theorem has_iff : t.has k = true ↔ ∃ v, t.get? k = some v := by
  simp only [has, List.any_eq_true, decide_eq_true_eq]
  exact ⟨fun ⟨a, ha, h⟩ => ⟨a, get?_eq_some_iff.2 ⟨ha, h⟩⟩,
    fun ⟨a, h⟩ => ⟨a, mem_of_get? h, key_of_get? h⟩⟩

theorem has_eq_isSome : t.has k = (t.get? k).isSome := by
  rw [Bool.eq_iff_iff, has_iff, Option.isSome_iff_exists]

theorem insertEntry_insertEntry {u : α} (h : key u = key v) (l : List α) :
    insertEntry key v (insertEntry key u l) = insertEntry key v l := by
  induction l with
  | nil => simp [insertEntry, h]
  | cons a as ih =>
    by_cases hlt : key v < key a
    · simp [insertEntry, h, hlt]
    · by_cases heq : key v = key a
      · simp [insertEntry, h, heq]
      · simp [insertEntry, h, hlt, heq, ih]

/-- A second write of one key. -/
theorem put_put {u : α} (h : key u = key v) : (t.put u).put v = t.put v := by
  simp only [put, insertEntry_insertEntry h]

theorem has_put_self : (t.put v).has (key v) = true := by rw [has_eq_isSome, get?_put_self]; rfl

theorem has_put_ne (h : k ≠ key v) : (t.put v).has k = t.has k := by
  rw [has_eq_isSome, has_eq_isSome, get?_put_ne h]

/-- Replacing an entry adds no key. -/
theorem has_put_of_has (h : t.has (key v) = true) : (t.put v).has k = t.has k := by
  by_cases hk : k = key v
  · rw [hk, has_put_self, h]
  · exact has_put_ne hk

theorem has_erase_self : (t.erase k).has k = false := by rw [has_eq_isSome, get?_erase_self]; rfl

theorem has_erase_ne (h : k ≠ k') : (t.erase k').has k = t.has k := by
  rw [has_eq_isSome, has_eq_isSome, get?_erase_ne h]

theorem has_of_get? (h : t.get? k = some v) : t.has k = true := has_iff.2 ⟨v, h⟩

theorem has_of_get?_none (h : t.get? k = none) : t.has k = false := by rw [has_eq_isSome, h]; rfl

theorem erase_of_get?_none (h : t.get? k = none) : t.erase k = t := by
  have hf : t.entries.filter (fun a => decide (key a ≠ k)) = t.entries :=
    List.filter_eq_self.2 fun a ha => by simpa using get?_eq_none_iff.1 h a ha
  cases t
  simp only [erase, mk.injEq] at hf ⊢
  exact hf

/-! ## Many writes -/

/-- Write these values, in this order. -/
def putAll (t : Table key) (l : List α) : Table key := l.foldl (fun t v => t.put v) t

/-- A value behind all the others. -/
theorem insertEntry_of_lt {l : List α} (h : ∀ a ∈ l, key a < key v) :
    insertEntry key v l = l ++ [v] := by
  induction l with
  | nil => rfl
  | cons a as ih =>
    have ha := h a (.head _)
    rw [insertEntry, if_neg (not_lt.2 ha.le), if_neg ha.ne', ih fun b hb => h b (.tail _ hb)]
    rfl

theorem entries_putAll {l : List α}
    (h : (t.entries ++ l).Pairwise fun a b => key a < key b) : (t.putAll l).entries = t.entries ++ l := by
  induction l generalizing t with
  | nil => exact (List.append_nil _).symm
  | cons a as ih =>
    have hput : (t.put a).entries = t.entries ++ [a] :=
      insertEntry_of_lt fun b hb => (List.pairwise_append.1 h).2.2 b hb a (.head _)
    have hassoc : (t.put a).entries ++ as = t.entries ++ a :: as := by
      rw [hput, List.append_assoc]
      rfl
    exact (ih (hassoc ▸ h)).trans hassoc

/-- The entries of a table, written in their order, are the table. -/
theorem putAll_entries (t : Table key) : (empty : Table key).putAll t.entries = t := by
  have h := entries_putAll (t := (empty : Table key)) (l := t.entries) t.sorted
  cases ht : (empty : Table key).putAll t.entries with
  | mk l hl =>
    rw [ht] at h
    cases t
    cases h
    rfl

/-! ## Weights -/

@[simp] theorem sum_empty (w : α → Nat) : (empty : Table key).sum w = 0 := rfl

theorem sum_insertEntry (w : α → Nat) {l : List α} (hl : l.Pairwise fun a b => key a < key b) :
    ((insertEntry key v l).map w).sum + ((l.find? fun a => key a = key v).map w).getD 0 =
      (l.map w).sum + w v := by
  induction l with
  | nil => simp [insertEntry]
  | cons a as ih =>
    obtain ⟨ha, has⟩ := List.pairwise_cons.1 hl
    unfold insertEntry
    split
    · next hlt =>
      have hnone : (a :: as).find? (fun b => decide (key b = key v)) = none := by
        refine List.find?_eq_none.2 fun y hy => ?_
        rcases List.mem_cons.1 hy with rfl | hy
        · simpa using ne_of_gt hlt
        · simpa using ne_of_gt (lt_trans hlt (ha y hy))
      rw [hnone]
      simp only [List.map_cons, List.sum_cons, Option.map_none, Option.getD_none]
      omega
    · split
      · next heq =>
        rw [List.find?_cons_of_pos (by simpa using heq.symm)]
        simp only [List.map_cons, List.sum_cons, Option.map_some, Option.getD_some]
        omega
      · next hlt hne =>
        rw [List.find?_cons_of_neg (by simpa using Ne.symm hne)]
        have := ih has
        simp only [List.map_cons, List.sum_cons]
        omega

/-- A write replaces the weight of the entry under its key. -/
theorem sum_put (w : α → Nat) (t : Table key) (v : α) :
    (t.put v).sum w + ((t.get? (key v)).map w).getD 0 = t.sum w + w v :=
  sum_insertEntry w t.sorted

theorem sum_put_of_none (w : α → Nat) (h : t.get? (key v) = none) :
    (t.put v).sum w = t.sum w + w v := by
  have := sum_put w t v
  simpa [h] using this

theorem sum_put_of_some (w : α → Nat) {a : α} (h : t.get? (key v) = some a) :
    (t.put v).sum w + w a = t.sum w + w v := by
  have := sum_put w t v
  simpa [h] using this

/-- A removal takes the weight of the removed entry. -/
theorem sum_erase (w : α → Nat) (t : Table key) (k : κ) :
    (t.erase k).sum w + ((t.get? k).map w).getD 0 = t.sum w := by
  obtain ⟨l, hl⟩ := t
  simp only [sum, erase, get?]
  induction l with
  | nil => simp
  | cons a as ih =>
    obtain ⟨ha, has⟩ := List.pairwise_cons.1 hl
    have ih := ih has
    by_cases h : key a = k
    · have hnone : as.find? (fun b => decide (key b = k)) = none :=
        List.find?_eq_none.2 fun y hy => by simpa using h ▸ ne_of_gt (ha y hy)
      rw [hnone] at ih
      rw [List.filter_cons_of_neg (by simpa using h), List.find?_cons_of_pos (by simpa using h)]
      simp only [List.map_cons, List.sum_cons, Option.map_some, Option.getD_some,
        Option.map_none, Option.getD_none] at ih ⊢
      omega
    · rw [List.filter_cons_of_pos (by simpa using h), List.find?_cons_of_neg (by simpa using h)]
      simp only [List.map_cons, List.sum_cons]
      omega

theorem sum_erase_of_some (w : α → Nat) (h : t.get? k = some v) :
    (t.erase k).sum w + w v = t.sum w := by
  have := sum_erase w t k
  simpa [h] using this

theorem le_sum_of_get? (w : α → Nat) (h : t.get? k = some v) : w v ≤ t.sum w := by
  have := sum_erase_of_some w h
  omega

/-! ## Scans -/

/-- A scan that rejects the written value and the value it replaces does not see the write. -/
theorem filter_put {p : α → Bool} (hv : p v = false)
    (hold : ∀ a, t.get? (key v) = some a → p a = false) :
    (t.put v).entries.filter p = t.entries.filter p := by
  obtain ⟨l, hl⟩ := t
  simp only [put, get?] at hold ⊢
  induction l with
  | nil => simp [insertEntry, hv]
  | cons a as ih =>
    obtain ⟨ha, has⟩ := List.pairwise_cons.1 hl
    unfold insertEntry
    split
    · rw [List.filter_cons_of_neg (by simp [hv])]
    · split
      · next heq =>
        have hpa := hold a (by rw [List.find?_cons_of_pos (by simpa using heq.symm)])
        rw [List.filter_cons_of_neg (by simp [hv]), List.filter_cons_of_neg (by simp [hpa])]
      · next hlt hne =>
        have ih := ih has fun b hb =>
          hold b (by rw [List.find?_cons_of_neg (by simpa using Ne.symm hne)]; exact hb)
        rw [List.filter_cons, List.filter_cons, ih]

end Table

/-! ## Stores and key sets -/

/-- A key-value store: a table of pairs. -/
abbrev Store (κ α : Type) [LinearOrder κ] : Type := Table (Prod.fst : κ × α → κ)

namespace Store

/-- Write `a` under `k`. -/
def set (k : κ) (a : α) (s : Store κ α) : Store κ α := s.put (k, a)

/-- The value under `k`. -/
def get (k : κ) (s : Store κ α) : Option α := (s.get? k).map Prod.snd

/-- Remove the value under `k`. -/
def remove (k : κ) (s : Store κ α) : Store κ α := s.erase k

variable {s : Store κ α} {k k' : κ} {a : α}

theorem get_eq_some_iff : s.get k = some a ↔ (k, a) ∈ s.entries := by
  simp only [get, Option.map_eq_some_iff, Prod.exists, Table.get?_eq_some_iff]
  constructor
  · rintro ⟨_, _, ⟨h, rfl⟩, rfl⟩
    exact h
  · exact fun h => ⟨k, a, ⟨h, rfl⟩, rfl⟩

theorem get_eq_none_iff : s.get k = none ↔ s.get? k = none := by simp [get]

theorem get?_of_get (h : s.get k = some a) : s.get? k = some (k, a) :=
  Table.get?_eq_some_iff.2 ⟨get_eq_some_iff.1 h, rfl⟩

@[simp] theorem get_empty : Store.get k (Table.empty : Store κ α) = none := rfl

@[simp] theorem get_set_self : (s.set k a).get k = some a := by
  simp [get, set, show (s.put (k, a)).get? k = _ from Table.get?_put_self (v := (k, a))]

theorem get_set_ne (h : k' ≠ k) : (s.set k a).get k' = s.get k' := by
  rw [get, get, set, Table.get?_put_ne (v := (k, a)) h]

theorem get_set : (s.set k a).get k' = if k' = k then some a else s.get k' := by
  split
  · next h => rw [h, get_set_self]
  · next h => exact get_set_ne h

@[simp] theorem get_remove_self : (s.remove k).get k = none := by simp [get, remove]

theorem get_remove_ne (h : k' ≠ k) : (s.remove k).get k' = s.get k' := by
  rw [get, get, remove, Table.get?_erase_ne h]

theorem get_remove : (s.remove k).get k' = if k' = k then none else s.get k' := by
  split
  · next h => rw [h, get_remove_self]
  · next h => exact get_remove_ne h

/-- The sum of a weight over the values. -/
def total (w : α → Nat) (s : Store κ α) : Nat := s.sum fun e => w e.2

theorem total_set (w : α → Nat) (s : Store κ α) (k : κ) (a : α) :
    (s.set k a).total w + ((s.get k).map w).getD 0 = s.total w + w a := by
  have := Table.sum_put (fun e => w e.2) s (k, a)
  simpa [total, set, get, Option.map_map, Function.comp_def] using this

theorem total_remove (w : α → Nat) (s : Store κ α) (k : κ) :
    (s.remove k).total w + ((s.get k).map w).getD 0 = s.total w := by
  have := Table.sum_erase (fun e => w e.2) s k
  simpa [total, get, remove, Option.map_map, Function.comp_def] using this

theorem total_remove_of_some (w : α → Nat) (h : s.get k = some a) :
    (s.remove k).total w + w a = s.total w := by
  have := total_remove w s k
  simpa [h] using this

theorem le_total_of_get (w : α → Nat) (h : s.get k = some a) : w a ≤ s.total w :=
  Table.le_sum_of_get? (fun e => w e.2) (get?_of_get h)

end Store

/-- A set of keys, in key order. -/
abbrev KeySet (κ : Type) [LinearOrder κ] : Type := Table (id : κ → κ)

namespace KeySet

/-- Add the key `k`. -/
def insert (k : κ) (s : KeySet κ) : KeySet κ := Table.put k s

/-- Remove the key `k`. -/
def remove (k : κ) (s : KeySet κ) : KeySet κ := Table.erase k s

variable {s : KeySet κ} {k k' : κ}

theorem has_iff_mem : s.has k = true ↔ k ∈ s.entries := by
  simp [Table.has_iff, Table.get?_eq_some_iff]

@[simp] theorem mem_insert : k ∈ (s.insert k').entries ↔ k = k' ∨ k ∈ s.entries := by
  simp only [insert, Table.mem_put, id]
  exact ⟨fun h => h.imp_right And.left, fun h => by by_cases hk : k = k' <;> simp_all⟩

@[simp] theorem mem_remove : k ∈ (s.remove k').entries ↔ k ∈ s.entries ∧ k ≠ k' := by
  simp [remove]

theorem has_insert_self : (s.insert k).has k = true := has_iff_mem.2 (mem_insert.2 (.inl rfl))

theorem has_insert_ne (h : k ≠ k') : (s.insert k').has k = s.has k := by
  rw [Bool.eq_iff_iff, has_iff_mem, has_iff_mem, mem_insert]
  exact ⟨fun hk => hk.resolve_left h, .inr⟩

theorem has_remove_self : (s.remove k).has k = false := by
  rw [Bool.eq_false_iff, ne_eq, has_iff_mem, mem_remove]
  exact fun hk => hk.2 rfl

theorem has_remove_ne (h : k ≠ k') : (s.remove k').has k = s.has k := by
  rw [Bool.eq_iff_iff, has_iff_mem, has_iff_mem, mem_remove]
  exact and_iff_left h

end KeySet

end Dendra
