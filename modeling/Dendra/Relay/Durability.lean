import Dendra.Relay.Accounting

/-!
# Deposits that interleave

A deposit takes the lock twice: to evict, and to check and write. Between the two it removes the records of
what it evicted, without the lock. The steps of several deposits interleave, and a restart drops them all.
The clock does not go back, and a write takes at least a nanosecond.

* `SysStep`: the steps. `Durable`: what was answered 200 is in memory and on disk while it is young, and a
  restart brings the young entries back in their order.
* `Sync`: the invariant, by kind; `Sync.evict`, `Sync.remove`, `Sync.write`, `Sync.load`: each step keeps it.
* `not_durable_of_removal`: a late removal takes the record of an entry that was deposited again.
* `durable`: without such a removal every run is durable.
-/

namespace Dendra.Relay

variable (cfg : Config)

/-! ## The system -/

/-- A deposit on its way: `now` is the clock that it read, `pending` the keys that it has evicted and not
yet removed, `none` before its eviction. -/
structure Deposit where
  kind : Kind
  key : Str
  data : Body
  now : Int
  pending : Option (List Str)

structure System where
  shelf : Kind → Shelf
  disk : Kind → Directory
  clock : Int
  threads : Nat → Option Deposit
  /-- what was last answered 200 under a key: the bytes, and the date of the entry that holds them -/
  answered : Kind → Str → Option (Body × Int)

inductive Action
  | tick (dt : Nat)
  | arrive (tid : Nat) (kind : Kind) (key : Str) (data : Body)
  | evict (tid : Nat)
  | remove (tid : Nat) (removed : Bool)
  | write (tid : Nat) (diskOk : Bool) (tie : Fin 1000)
  | restart (removed : Str → Bool) (listing : Kind → List (Str × Record))

/-- `_next_seq`: the time of the write, and a counter that breaks ties. -/
def nextSeq (clock : Int) (tie : Fin 1000) : Nat := clock.toNat * 1000 + tie

def System.afterWrite (p : Deposit) (tid : Nat) (s : System) (w : Shelf × Directory × Outcome) : System where
  shelf := Function.update s.shelf p.kind w.1
  disk := Function.update s.disk p.kind w.2.1
  clock := s.clock + 1
  threads := Function.update s.threads tid none
  answered :=
    if w.2.2 = .ok then
      Function.update s.answered p.kind
        (Function.update (s.answered p.kind) p.key ((w.1.t.get? p.key).map fun ts => (p.data, ts)))
    else s.answered

inductive SysStep : System → Action → System → Prop
  | tick {s : System} (dt : Nat) : SysStep s (.tick dt) { s with clock := s.clock + dt }
  | arrive {s : System} {tid : Nat} (kind : Kind) (key : Str) (data : Body) (h : s.threads tid = none) :
      SysStep s (.arrive tid kind key data)
        { s with threads := Function.update s.threads tid (some ⟨kind, key, data, s.clock, none⟩) }
  | evict {s : System} {tid : Nat} {p : Deposit} (h : s.threads tid = some p) (hp : p.pending = none) :
      SysStep s (.evict tid)
        { s with
          shelf := Function.update s.shelf p.kind (evict cfg p.now (s.shelf p.kind)).1
          threads := Function.update s.threads tid
            (some { p with pending := some (evict cfg p.now (s.shelf p.kind)).2 }) }
  | remove {s : System} {tid : Nat} {p : Deposit} {k : Str} {ks : List Str} (removed : Bool)
      (h : s.threads tid = some p) (hp : p.pending = some (k :: ks)) :
      SysStep s (.remove tid removed)
        { s with
          disk := Function.update s.disk p.kind (removeAll (fun _ => removed) [k] (s.disk p.kind))
          threads := Function.update s.threads tid (some { p with pending := some ks }) }
  | write {s : System} {tid : Nat} {p : Deposit} (diskOk : Bool) (tie : Fin 1000)
      (h : s.threads tid = some p) (hp : p.pending = some []) :
      SysStep s (.write tid diskOk tie)
        (s.afterWrite p tid (checkAndWrite cfg p.kind p.key p.data p.now (nextSeq s.clock tie) diskOk
          (s.shelf p.kind) (s.disk p.kind)))
  | restart {s : System} (removed : Str → Bool) {listing : Kind → List (Str × Record)}
      (hl : ∀ kind, (listing kind).Perm (s.disk kind).items) :
      SysStep s (.restart removed listing)
        { s with
          shelf := (boot cfg s.clock removed listing s.disk).shelf
          disk := (boot cfg s.clock removed listing s.disk).disk
          threads := fun _ => none }

/-- The first start, with empty directories. -/
def Init (s : System) : Prop :=
  (∀ kind, s.shelf kind = bootShelf []) ∧ (∀ kind, s.disk kind = .empty) ∧ 0 < s.clock ∧
    (∀ tid, s.threads tid = none) ∧ ∀ kind key, s.answered kind key = none

/-- The entry of a key is within the window. -/
def Shelf.young (clock : Int) (d : Shelf) (key : Str) : Bool :=
  (d.t.get? key).any fun ts => decide (clock - ts ≤ cfg.retention)

/-- What was answered 200 is held, in memory and on disk, while it is within the window; and a restart
reloads the entries of memory that are within the window, in their order. -/
def Durable (s : System) : Prop :=
  (∀ kind key data ts, s.answered kind key = some (data, ts) → s.clock - ts ≤ cfg.retention →
      (s.shelf kind).d.get? key = some data ∧ (s.shelf kind).t.get? key = some ts ∧
        ∃ r, (s.disk kind).get? key = some r ∧ r.b = data ∧ r.date = ts) ∧
    ∀ removed listing, (∀ kind, (listing kind : List (Str × Record)).Perm (s.disk kind).items) →
      ∀ kind,
        ((boot cfg s.clock removed listing s.disk).shelf kind).d.items =
            (s.shelf kind).d.items.filter (fun e => (s.shelf kind).young cfg s.clock e.1) ∧
          ∀ key, ((boot cfg s.clock removed listing s.disk).shelf kind).t.get? key =
            ((s.shelf kind).t.get? key).filter fun ts => decide (s.clock - ts ≤ cfg.retention)

/-- A step does not remove the record of an entry that memory holds and that is within the window. -/
def NoLateRemoval (s : System) (a : Action) : Prop :=
  ∀ tid p k ks, a = .remove tid true → s.threads tid = some p → p.pending = some (k :: ks) →
    (s.shelf p.kind).young cfg s.clock k = false

/-! ## The invariant of one kind -/

/-- Memory and disk agree on the entries within the window, and ranks follow the order of memory. -/
structure Sync (clock : Int) (d : Shelf) (disk : Directory) (answered : Str → Option (Body × Int)) : Prop where
  parallel : d.Parallel
  rank_lt : ∀ k r, disk.get? k = some r → r.n < clock.toNat * 1000
  on_disk : ∀ k b ts, d.d.get? k = some b → d.t.get? k = some ts → clock - ts ≤ cfg.retention →
    ∃ r, disk.get? k = some r ∧ r.b = b ∧ r.date = ts
  in_memory : ∀ k r, disk.get? k = some r → clock - r.date ≤ cfg.retention →
    d.d.get? k = some r.b ∧ d.t.get? k = some r.date
  order : d.d.keys.Pairwise fun k k' => ∀ r r', disk.get? k = some r → disk.get? k' = some r' →
    clock - r.date ≤ cfg.retention → clock - r'.date ≤ cfg.retention → r.n < r'.n
  held : ∀ k b ts, answered k = some (b, ts) → clock - ts ≤ cfg.retention →
    d.d.get? k = some b ∧ d.t.get? k = some ts

section Kind

variable {cfg} {clock clock' now : Int} {d d' : Shelf} {disk : Directory} {key : Str} {data : Body} {n : Nat}
  {answered : Str → Option (Body × Int)} {removed : Str → Bool} {listing : List (Str × Record)}

theorem Shelf.Parallel.get?_t (h : d.Parallel) {b : Body} (hk : d.d.get? key = some b) :
    ∃ ts, d.t.get? key = some ts := by
  have hne : d.t.get? key ≠ none := by
    rw [Ne, Ordered.get?_eq_none, h, ← Ordered.get?_eq_none, hk]
    exact Option.some_ne_none b
  exact Option.ne_none_iff_exists'.1 hne

theorem young_of_get? {ts : Int} (h : d.t.get? key = some ts) :
    d.young cfg clock key = decide (clock - ts ≤ cfg.retention) := by
  unfold Shelf.young
  rw [h, Option.any_some]

theorem young_eq_false : d.young cfg clock key = false ↔
    ∀ ts, d.t.get? key = some ts → cfg.retention < clock - ts := by
  unfold Shelf.young
  cases d.t.get? key with
  | none => simp
  | some ts =>
    simp only [Option.any_some, decide_eq_false_iff_not, not_le, Option.some.injEq, forall_eq']

/-- Time makes entries older. -/
theorem Sync.mono (h : Sync cfg clock d disk answered) (hc : clock ≤ clock') :
    Sync cfg clock' d disk answered where
  parallel := h.parallel
  rank_lt k r hr := lt_of_lt_of_le (h.rank_lt k r hr) (by omega)
  on_disk k b ts hb hts hy := h.on_disk k b ts hb hts (by omega)
  in_memory k r hr hy := h.in_memory k r hr (by omega)
  order := h.order.imp fun {k k'} hk r r' hr hr' hy hy' => hk r r' hr hr' (by omega) (by omega)
  held k b ts ha hy := h.held k b ts ha (by omega)

/-- An eviction takes entries that are past the window. -/
theorem Sync.evict {ks : List Str} (h : Sync cfg clock d disk answered) (he : Evicted cfg now d ks d')
    (hnow : now ≤ clock) : Sync cfg clock d' disk answered where
  parallel := he.parallel h.parallel
  rank_lt := h.rank_lt
  on_disk k b ts hb hts hy := by
    obtain ⟨-, h1, h2⟩ | ⟨-, hnone, -⟩ := he.get? k
    · exact h.on_disk k b ts (h1 ▸ hb) (h2 ▸ hts) hy
    · rw [hnone] at hb
      cases hb
  in_memory k r hr hy := by
    obtain ⟨hb, hts⟩ := h.in_memory k r hr hy
    obtain ⟨-, h1, h2⟩ | ⟨-, -, ts, hts', hold⟩ := he.get? k
    · exact ⟨h1 ▸ hb, h2 ▸ hts⟩
    · rw [hts] at hts'
      obtain rfl := Option.some.inj hts'
      omega
  order := h.order.sublist (he.suffix.sublist.map Prod.fst)
  held k b ts ha hy := by
    obtain ⟨hb, hts⟩ := h.held k b ts ha hy
    obtain ⟨-, h1, h2⟩ | ⟨-, -, ts', hts', hold⟩ := he.get? k
    · exact ⟨h1 ▸ hb, h2 ▸ hts⟩
    · rw [hts] at hts'
      obtain rfl := Option.some.inj hts'
      omega

/-- The record of a key that memory does not hold, or holds past the window, may go. -/
theorem Sync.remove (h : Sync cfg clock d disk answered) (hk : d.young cfg clock key = false) :
    Sync cfg clock d (disk.pop key) answered where
  parallel := h.parallel
  rank_lt k r hr := by
    rw [Ordered.get?_pop] at hr
    split at hr
    · cases hr
    · exact h.rank_lt k r hr
  on_disk k b ts hb hts hy := by
    rw [Ordered.get?_pop]
    have hne : k ≠ key := by
      rintro rfl
      have := young_eq_false.1 hk ts hts
      omega
    rw [if_neg hne]
    exact h.on_disk k b ts hb hts hy
  in_memory k r hr hy := by
    rw [Ordered.get?_pop] at hr
    split at hr
    · cases hr
    · exact h.in_memory k r hr hy
  order := h.order.imp fun {k k'} hkk r r' hr hr' hy hy' => by
    rw [Ordered.get?_pop] at hr hr'
    split at hr
    · cases hr
    · split at hr'
      · cases hr'
      · exact hkk r r' hr hr' hy hy'
  held := h.held

/-- A write puts the entry last, with the highest rank. -/
theorem Sync.write (h : Sync cfg clock d disk answered) (hnow : 0 < now)
    (hn : clock.toNat * 1000 ≤ n) (hn' : n < (clock.toNat + 1) * 1000) (hclock : 0 < clock) :
    Sync cfg (clock + 1) (d.write key data now) (disk.set key ⟨n, some now, data⟩)
      (Function.update answered key (some (data, now))) := by
  have hdate : (⟨n, some now, data⟩ : Record).date = now := by
    unfold Record.date
    dsimp only
    rw [if_neg (by omega)]
  have hm : Sync cfg (clock + 1) d disk answered := h.mono (by omega)
  refine ⟨h.parallel.write, ?_, ?_, ?_, ?_, ?_⟩
  · intro k r hr
    rw [Ordered.get?_set] at hr
    split at hr
    · obtain rfl := Option.some.inj hr
      rw [show (clock + 1).toNat = clock.toNat + 1 by omega]
      exact hn'
    · exact hm.rank_lt k r hr
  · intro k b ts hb hts hy
    unfold Shelf.write at hb hts
    rw [Ordered.get?_push] at hb hts
    rw [Ordered.get?_set]
    by_cases hk : k = key
    · rw [if_pos hk] at hb hts ⊢
      exact ⟨_, rfl, Option.some.inj hb, hdate.trans (Option.some.inj hts)⟩
    · rw [if_neg hk] at hb hts ⊢
      exact hm.on_disk k b ts hb hts hy
  · intro k r hr hy
    unfold Shelf.write
    rw [Ordered.get?_push, Ordered.get?_push]
    rw [Ordered.get?_set] at hr
    by_cases hk : k = key
    · rw [if_pos hk] at hr ⊢
      rw [if_pos hk]
      obtain rfl := Option.some.inj hr
      exact ⟨rfl, by rw [hdate]⟩
    · rw [if_neg hk] at hr ⊢
      rw [if_neg hk]
      exact hm.in_memory k r hr hy
  · unfold Shelf.write
    dsimp only
    rw [Ordered.keys_push, Ordered.keys_pop, List.pairwise_append]
    have hne : ∀ k ∈ d.d.keys.filter (fun k' => !decide (k' = key)), k ≠ key := by
      intro k hk
      simpa using (List.mem_filter.1 hk).2
    refine ⟨?_, List.pairwise_singleton _ _, ?_⟩
    · refine (hm.order.sublist List.filter_sublist).imp_of_mem ?_
      intro k k' hk hk' hkk r r' hr hr' hy hy'
      rw [Ordered.get?_set, if_neg (hne k hk)] at hr
      rw [Ordered.get?_set, if_neg (hne k' hk')] at hr'
      exact hkk r r' hr hr' hy hy'
    · intro k hk k' hk' r r' hr hr' _ _
      obtain rfl := List.mem_singleton.1 hk'
      rw [Ordered.get?_set, if_neg (hne k hk)] at hr
      rw [Ordered.get?_set, if_pos rfl] at hr'
      obtain rfl := Option.some.inj hr'
      exact lt_of_lt_of_le (h.rank_lt k r hr) hn
  · intro k b ts ha hy
    unfold Shelf.write
    rw [Ordered.get?_push, Ordered.get?_push]
    by_cases hk : k = key
    · subst hk
      rw [Function.update_self] at ha
      obtain ⟨rfl, rfl⟩ := Prod.mk.inj (Option.some.inj ha)
      exact ⟨if_pos rfl, if_pos rfl⟩
    · rw [Function.update_of_ne hk] at ha
      rw [if_neg hk, if_neg hk]
      exact hm.held k b ts ha hy

/-- A deposit that finds its bytes is answered for the entry that holds them. -/
theorem Sync.found (h : Sync cfg clock d disk answered) (hk : d.d.get? key = some data) :
    Sync cfg clock d disk
      (Function.update answered key ((d.t.get? key).map fun ts => (data, ts))) := by
  refine ⟨h.parallel, h.rank_lt, h.on_disk, h.in_memory, h.order, ?_⟩
  intro k b ts ha hy
  by_cases hkk : k = key
  · subst hkk
    rw [Function.update_self] at ha
    obtain ⟨ts', hts, heq⟩ := Option.map_eq_some_iff.1 ha
    obtain ⟨rfl, rfl⟩ := Prod.mk.inj heq
    exact ⟨hk, hts⟩
  · rw [Function.update_of_ne hkk] at ha
    exact h.held k b ts ha hy

/-! ## A restart -/

/-- The entries that a restart loads, in the order of memory. -/
def reloaded (cfg : Config) (clock : Int) (d : Shelf) (disk : Directory) : List (Str × Record) :=
  d.d.items.filterMap fun e =>
    ((disk.get? e.1).filter fun r => decide (clock - r.date ≤ cfg.retention)).map fun r => (e.1, r)

theorem mem_reloaded (h : Sync cfg clock d disk answered) {e : Str × Record} :
    e ∈ reloaded cfg clock d disk ↔ e ∈ disk.items ∧ clock - e.2.date ≤ cfg.retention := by
  obtain ⟨k, r⟩ := e
  unfold reloaded
  rw [List.mem_filterMap]
  constructor
  · rintro ⟨⟨k', b⟩, -, he⟩
    obtain ⟨r', hr', heq⟩ := Option.map_eq_some_iff.1 he
    obtain ⟨rfl, rfl⟩ := Prod.mk.inj heq
    obtain ⟨hr, hy⟩ := Option.filter_eq_some_iff.1 hr'
    exact ⟨Ordered.get?_eq_some.1 hr, of_decide_eq_true hy⟩
  · rintro ⟨hr, hy⟩
    have hr' := Ordered.get?_eq_some.2 hr
    refine ⟨(k, r.b), Ordered.get?_eq_some.1 (h.in_memory k r hr' hy).1, ?_⟩
    rw [Option.map_eq_some_iff]
    exact ⟨r, Option.filter_eq_some_iff.2 ⟨hr', decide_eq_true hy⟩, rfl⟩

theorem reloaded_pairwise (h : Sync cfg clock d disk answered) :
    (reloaded cfg clock d disk).Pairwise fun a b => a.2.n < b.2.n := by
  unfold reloaded
  rw [List.pairwise_filterMap]
  have horder := h.order
  unfold Ordered.keys at horder
  rw [List.pairwise_map] at horder
  refine horder.imp fun {e e'} hee a ha a' ha' => ?_
  obtain ⟨r, hr, rfl⟩ := Option.map_eq_some_iff.1 ha
  obtain ⟨r', hr', rfl⟩ := Option.map_eq_some_iff.1 ha'
  obtain ⟨hr, hy⟩ := Option.filter_eq_some_iff.1 hr
  obtain ⟨hr', hy'⟩ := Option.filter_eq_some_iff.1 hr'
  exact hee r r' hr hr' (of_decide_eq_true hy) (of_decide_eq_true hy')

/-- What is loaded, by rank, is in the order of memory: the ranks leave one order. -/
theorem load_eq_reloaded (h : Sync cfg clock d disk answered) (hl : listing.Perm disk.items) :
    (load cfg clock removed listing disk).2 = reloaded cfg clock d disk := by
  have hlt := reloaded_pairwise h
  have hmem : ∀ e, e ∈ (load cfg clock removed listing disk).2 ↔ e ∈ reloaded cfg clock d disk :=
    fun e => (mem_load hl).trans (mem_reloaded h).symm
  have hnodup : (reloaded cfg clock d disk).Nodup := hlt.imp fun {a b} hab heq => by
    subst heq
    exact lt_irrefl _ hab
  have hperm : (load cfg clock removed listing disk).2.Perm (reloaded cfg clock d disk) :=
    (List.perm_ext_iff_of_nodup (List.Nodup.of_map _ (nodup_load hl)) hnodup).2 hmem
  refine hperm.eq_of_pairwise ?_ sorted_load (hlt.imp fun {a b} => le_of_lt)
  have hranks : ((reloaded cfg clock d disk).map fun e => e.2.n).Nodup :=
    List.pairwise_map.2 (hlt.imp fun {a b} => ne_of_lt)
  intro a b ha hb hab hba
  exact List.inj_on_of_nodup_map hranks ((hmem a).1 ha) hb (le_antisymm hab hba)

/-- The bodies reloaded are those of memory that are within the window. -/
theorem items_reload (h : Sync cfg clock d disk answered) (hl : listing.Perm disk.items) :
    (bootShelf (load cfg clock removed listing disk).2).d.items =
      d.d.items.filter fun e => d.young cfg clock e.1 := by
  rw [items_bootShelf_d (nodup_load hl), load_eq_reloaded h hl]
  unfold reloaded
  rw [List.map_filterMap, ← List.filterMap_eq_filter]
  refine List.filterMap_congr fun e he => ?_
  obtain ⟨k, b⟩ := e
  have hb := Ordered.get?_eq_some.2 he
  obtain ⟨ts, hts⟩ := h.parallel.get?_t hb
  have hyoung : d.young cfg clock k = decide (clock - ts ≤ cfg.retention) := young_of_get? hts
  by_cases hy : clock - ts ≤ cfg.retention
  · obtain ⟨r, hr, hrb, hrd⟩ := h.on_disk k b ts hb hts hy
    subst hrb
    subst hrd
    simp [hr, hy, hyoung, Option.filter, Option.guard]
  · have hnone : (disk.get? k).filter (fun r => decide (clock - r.date ≤ cfg.retention)) = none := by
      rw [Option.filter_eq_none_iff]
      intro r hr hyr
      have := (h.in_memory k r hr (of_decide_eq_true hyr)).2
      rw [hts] at this
      obtain rfl := Option.some.inj this
      exact hy (of_decide_eq_true hyr)
    rw [hnone]
    simp [hy, hyoung, Option.guard]

theorem get?_t_reload (h : Sync cfg clock d disk answered) (hl : listing.Perm disk.items) :
    (bootShelf (load cfg clock removed listing disk).2).t.get? key =
      (d.t.get? key).filter fun ts => decide (clock - ts ≤ cfg.retention) := by
  refine Option.ext fun ts => ?_
  rw [Ordered.get?_eq_some, items_bootShelf_t (nodup_load hl), List.mem_map, Option.filter_eq_some_iff]
  constructor
  · rintro ⟨⟨k, r⟩, he, heq⟩
    obtain ⟨rfl, rfl⟩ := Prod.mk.inj heq
    obtain ⟨hr, hy⟩ := (mem_load hl).1 he
    exact ⟨(h.in_memory k r (Ordered.get?_eq_some.2 hr) hy).2, decide_eq_true hy⟩
  · rintro ⟨hts, hy⟩
    have hne : d.d.get? key ≠ none := by
      rw [Ne, Ordered.get?_eq_none, ← h.parallel, ← Ordered.get?_eq_none, hts]
      exact Option.some_ne_none ts
    obtain ⟨b, hb⟩ := Option.ne_none_iff_exists'.1 hne
    obtain ⟨r, hr, rfl, rfl⟩ := h.on_disk key b ts hb hts (of_decide_eq_true hy)
    exact ⟨(key, r), (mem_load hl).2 ⟨Ordered.get?_eq_some.1 hr, of_decide_eq_true hy⟩, rfl⟩

/-- A restart drops what is past the window and keeps the rest. -/
theorem Sync.load (h : Sync cfg clock d disk answered) (hl : listing.Perm disk.items) :
    Sync cfg clock (bootShelf (load cfg clock removed listing disk).2)
      (load cfg clock removed listing disk).1 answered where
  parallel := bootShelf_parallel (nodup_load hl)
  rank_lt k r hr := h.rank_lt k r (get?_of_load hr)
  on_disk k b ts hb hts hy := by
    rw [get?_t_reload h hl] at hts
    rw [Ordered.get?_eq_some, items_reload h hl] at hb
    obtain ⟨hts, -⟩ := Option.filter_eq_some_iff.1 hts
    obtain ⟨r, hr, rfl, rfl⟩ :=
      h.on_disk k b ts (Ordered.get?_eq_some.2 (List.mem_filter.1 hb).1) hts hy
    exact ⟨r, get?_load_of_young hl hr hy, rfl, rfl⟩
  in_memory k r hr hy := by
    obtain ⟨hb, hts⟩ := h.in_memory k r (get?_of_load hr) hy
    rw [get?_t_reload h hl, Ordered.get?_eq_some, items_reload h hl, List.mem_filter]
    refine ⟨⟨Ordered.get?_eq_some.1 hb, ?_⟩, Option.filter_eq_some_iff.2 ⟨hts, decide_eq_true hy⟩⟩
    rw [young_of_get? hts]
    exact decide_eq_true hy
  order := by
    unfold Ordered.keys
    rw [items_reload h hl]
    refine (h.order.sublist (List.filter_sublist.map Prod.fst)).imp ?_
    intro k k' hkk r r' hr hr' hy hy'
    exact hkk r r' (get?_of_load hr) (get?_of_load hr') hy hy'
  held k b ts ha hy := by
    obtain ⟨hb, hts⟩ := h.held k b ts ha hy
    rw [get?_t_reload h hl, Ordered.get?_eq_some, items_reload h hl, List.mem_filter]
    refine ⟨⟨Ordered.get?_eq_some.1 hb, ?_⟩, Option.filter_eq_some_iff.2 ⟨hts, decide_eq_true hy⟩⟩
    rw [young_of_get? hts]
    exact decide_eq_true hy

end Kind

/-! ## Runs -/

section Runs

variable {cfg} {s s' : System} {a : Action}

/-- The invariant of the system. -/
structure SysInv (cfg : Config) (s : System) : Prop where
  clock_pos : 0 < s.clock
  now : ∀ tid p, s.threads tid = some p → 0 < p.now ∧ p.now ≤ s.clock
  sync : ∀ kind, Sync cfg s.clock (s.shelf kind) (s.disk kind) (s.answered kind)

theorem sysInv_init (h : Init s) : SysInv cfg s := by
  obtain ⟨hshelf, hdisk, hclock, hthreads, hans⟩ := h
  refine ⟨hclock, fun tid p hp => ?_, fun kind => ?_⟩
  · rw [hthreads] at hp
    cases hp
  · rw [hshelf, hdisk]
    have hempty : ∀ k, (Ordered.empty : Directory).get? k = none := fun k => rfl
    refine ⟨rfl, ?_, ?_, ?_, List.Pairwise.nil, ?_⟩
    · intro k r hr
      rw [hempty] at hr
      cases hr
    · intro k b ts hb
      cases hb
    · intro k r hr
      rw [hempty] at hr
      cases hr
    · intro k b ts hk
      rw [hans] at hk
      cases hk

/-- A step of one thread keeps what the threads have read. -/
theorem now_update {tid : Nat} {q : Option Deposit} {clock : Int}
    (h : ∀ tid p, s.threads tid = some p → 0 < p.now ∧ p.now ≤ s.clock)
    (hq : ∀ p, q = some p → 0 < p.now ∧ p.now ≤ s.clock) (hc : s.clock ≤ clock) :
    ∀ tid' p, Function.update s.threads tid q tid' = some p → 0 < p.now ∧ p.now ≤ clock := by
  intro tid' p hp
  by_cases ht : tid' = tid
  · subst ht
    rw [Function.update_self] at hp
    exact ⟨(hq p hp).1, (hq p hp).2.trans hc⟩
  · rw [Function.update_of_ne ht] at hp
    exact ⟨(h tid' p hp).1, (h tid' p hp).2.trans hc⟩

/-- The critical section of a write keeps the invariant of its kind, and that of the others. -/
theorem SysInv.write {tid : Nat} {p : Deposit} {diskOk : Bool} {tie : Fin 1000} (h : SysInv cfg s)
    (hp : s.threads tid = some p) :
    SysInv cfg (s.afterWrite p tid (checkAndWrite cfg p.kind p.key p.data p.now (nextSeq s.clock tie)
      diskOk (s.shelf p.kind) (s.disk p.kind))) := by
  refine ⟨?_, now_update h.now (by rintro p' ⟨⟩) ?_, fun kind => ?_⟩
  · have := h.clock_pos
    unfold System.afterWrite
    dsimp only
    omega
  · unfold System.afterWrite
    dsimp only
    omega
  · obtain ⟨-, hk, hw⟩ | ⟨out, hout, hw⟩ | ⟨-, -, hw⟩ :=
      checkAndWrite_cases cfg p.kind p.key p.data p.now (nextSeq s.clock tie) diskOk (s.disk p.kind)
        (h.sync p.kind).parallel
    all_goals
      rw [hw]
      unfold System.afterWrite
      dsimp only
      by_cases hkind : kind = p.kind
    · subst hkind
      rw [if_pos rfl]
      simp only [Function.update_self]
      exact ((h.sync p.kind).mono (by omega)).found hk
    · rw [if_pos rfl]
      simp only [Function.update_of_ne hkind]
      exact (h.sync kind).mono (by omega)
    · subst hkind
      rw [if_neg hout]
      simp only [Function.update_self]
      exact (h.sync p.kind).mono (by omega)
    · rw [if_neg hout]
      simp only [Function.update_of_ne hkind]
      exact (h.sync kind).mono (by omega)
    · subst hkind
      rw [if_pos rfl]
      simp only [Function.update_self]
      have hts : (Shelf.write p.key p.data p.now (s.shelf p.kind)).t.get? p.key = some p.now := by
        unfold Shelf.write
        rw [Ordered.get?_push, if_pos rfl]
      rw [hts, Option.map_some]
      refine (h.sync p.kind).write (h.now tid p hp).1 ?_ ?_ h.clock_pos
      · unfold nextSeq
        omega
      · unfold nextSeq
        have := tie.isLt
        omega
    · rw [if_pos rfl]
      simp only [Function.update_of_ne hkind]
      exact (h.sync kind).mono (by omega)

theorem SysInv.step (h : SysInv cfg s) (hok : NoLateRemoval cfg s a) (hs : SysStep cfg s a s') :
    SysInv cfg s' := by
  have hpos := h.clock_pos
  cases hs with
  | tick dt =>
    refine ⟨?_, ?_, fun kind => (h.sync kind).mono ?_⟩
    · dsimp only
      omega
    · intro tid p hp
      have := h.now tid p hp
      dsimp only
      omega
    · dsimp only
      omega
  | @arrive tid kind key data ht =>
    refine ⟨hpos, now_update h.now ?_ (le_refl _), h.sync⟩
    rintro p ⟨⟩
    exact ⟨hpos, le_refl _⟩
  | @evict tid p hp hnone =>
    refine ⟨hpos, now_update h.now ?_ (le_refl _), fun kind => ?_⟩
    · rintro p' ⟨⟩
      exact h.now tid p hp
    · dsimp only
      by_cases hkind : kind = p.kind
      · subst hkind
        rw [Function.update_self]
        exact (h.sync p.kind).evict evict_evicted (h.now tid p hp).2
      · rw [Function.update_of_ne hkind]
        exact h.sync kind
  | @remove tid p k ks removed hp hpend =>
    refine ⟨hpos, now_update h.now ?_ (le_refl _), fun kind => ?_⟩
    · rintro p' ⟨⟩
      exact h.now tid p hp
    · dsimp only
      by_cases hkind : kind = p.kind
      · subst hkind
        rw [Function.update_self]
        cases removed with
        | false => exact h.sync p.kind
        | true => exact (h.sync p.kind).remove (hok tid p k ks rfl hp hpend)
      · rw [Function.update_of_ne hkind]
        exact h.sync kind
  | @write tid p diskOk tie hp hpend => exact h.write hp
  | @restart removed listing hl =>
    refine ⟨hpos, fun tid p hp => ?_, fun kind => (h.sync kind).load (hl kind)⟩
    cases hp

theorem SysInv.state_durable (h : SysInv cfg s) : Durable cfg s := by
  refine ⟨fun kind key data ts ha hy => ?_, fun removed listing hl kind => ?_⟩
  · obtain ⟨hb, hts⟩ := (h.sync kind).held key data ts ha hy
    exact ⟨hb, hts, (h.sync kind).on_disk key data ts hb hts hy⟩
  · exact ⟨items_reload (h.sync kind) (hl kind), fun key => get?_t_reload (h.sync kind) (hl kind)⟩

/-- In every run in which no removal comes late, what was answered 200 is held while it is young, in memory
and on disk, and every restart brings the young entries back in their order. -/
theorem durable (cfg : Config) (s : System) (h : Reach Init (SysStep cfg) (NoLateRemoval cfg) s) :
    Durable cfg s :=
  (h.invariant (fun _ h0 => sysInv_init h0) fun _ _ _ _ hi hok hs => hi.step hok hs).state_durable

end Runs

/-! ## A late removal -/

section Late

/-- The first start, at time 1. -/
def firstStart : System := ⟨fun _ => bootShelf [], fun _ => .empty, 1, fun _ => none, fun _ _ => none⟩

theorem init_firstStart : Init firstStart :=
  ⟨fun _ => rfl, fun _ => rfl, by decide, fun _ => rfl, fun _ _ => rfl⟩

/-- A public key is deposited at time 1, and again a week later, while another deposit is about to remove
the record that it has evicted: the removal takes the new record, and the key that was answered 200 is in
memory only. -/
theorem not_durable_of_removal :
    ∃ s, Reach Init (SysStep Config.default) (fun _ _ => True) s ∧ ¬ Durable Config.default s := by
  have h : Reach Init (SysStep Config.default) (fun _ _ => True) firstStart := .init init_firstStart
  have h := h.step (a := .arrive 0 .pub ['k'] [1]) trivial (.arrive _ _ _ rfl)
  have h := h.step (a := .evict 0) trivial (.evict rfl rfl)
  have h := h.step (a := .write 0 true 0) trivial (.write _ _ rfl rfl)
  have h := h.step (a := .tick (604800 * 10 ^ 9)) trivial (.tick _)
  have h := h.step (a := .arrive 1 .pub ['x'] [9]) trivial (.arrive _ _ _ rfl)
  have h := h.step (a := .arrive 2 .pub ['k'] [2]) trivial (.arrive _ _ _ rfl)
  have h := h.step (a := .evict 1) trivial (.evict rfl rfl)
  have h := h.step (a := .evict 2) trivial (.evict rfl rfl)
  have h := h.step (a := .write 2 true 0) trivial (.write _ _ rfl rfl)
  have h := h.step (a := .remove 1 true) trivial (.remove _ rfl rfl)
  refine ⟨_, h, ?_⟩
  rintro ⟨hd, -⟩
  obtain ⟨-, -, r, hr, -⟩ := hd .pub ['k'] [2] 604800000000002 (by decide) (by decide)
  exact absurd (Option.isSome_iff_exists.2 ⟨r, hr⟩) (by decide)

/-- A reveal deposited at the first start, and the eviction and removals around it: none is late. -/
theorem durable_first :
    ∃ s, s.answered .reveal ['j'] = some ([7], 1) ∧ s.clock = 2 ∧ Durable Config.default s := by
  have h : Reach Init (SysStep Config.default) (NoLateRemoval Config.default) firstStart :=
    .init init_firstStart
  have h := h.step (a := .arrive 0 .reveal ['j'] [7]) (by rintro _ _ _ _ ⟨⟩) (.arrive _ _ _ rfl)
  have h := h.step (a := .evict 0) (by rintro _ _ _ _ ⟨⟩) (.evict rfl rfl)
  have h := h.step (a := .write 0 true 0) (by rintro _ _ _ _ ⟨⟩) (.write _ _ rfl rfl)
  exact ⟨_, by decide, by decide, durable _ _ h⟩

end Late

end Dendra.Relay
