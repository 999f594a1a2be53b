import Dendra.Lib.Ordered
import Dendra.Lib.Str

/-!
# The relay's store

The relay keeps what is deposited in memory, in one dictionary of bodies and one of dates for each kind, and
on disk, in one record for each entry. A deposit evicts the entries that are too old, removes their records,
and then, in one critical section, checks its key and writes, to disk first.

* `evict`, `checkAndWrite`, `removeAll`: the pieces of a deposit. `load`, `bootShelf`: a restart.
* `evict_evicted`: what an eviction takes. `checkAndWrite_cases`: what the critical section may do.
* `Exact`, `Parallel`: the bytes charged are those held; bodies and dates have the same keys in the same
  order. Every piece keeps them.
-/

namespace Dendra.Relay

/-! ## Kinds and entries -/

inductive Kind
  | pub | req | res | reveal | attest
  deriving DecidableEq

abbrev Body : Type := List UInt8

/-- The kinds that hold a sealed artifact. -/
def writeOnceKinds : List Kind := [.req, .res, .reveal]

/-- `RETENTION_FLOOR`, in nanoseconds. -/
def retentionFloor : Int := 86400 * 10 ^ 9

/-- `KIND_BUDGET_FLOOR`. -/
def kindBudgetFloor : Nat := 64 * 2 ^ 20

/-- The environment may raise both bounds, never lower them. Times are in nanoseconds. -/
structure Config where
  retention : Int
  kindBudget : Nat
  retention_ge : retentionFloor ≤ retention
  kindBudget_ge : kindBudgetFloor ≤ kindBudget

def entryOverhead : Nat := 1024

/-- `_cost`. -/
def cost (key : Str) (data : Body) : Nat := key.byteLen + data.length + entryOverhead

/-- One kind in memory: `STORE[kind]`, `TS[kind]` and `USED[kind]`. -/
structure Shelf where
  d : Ordered Str Body
  t : Ordered Str Int
  used : Int

/-- The bytes charged are those held. -/
def Shelf.Exact (s : Shelf) : Prop := s.used = s.d.sum cost

/-- Bodies and dates have the same keys, in the same order. -/
def Shelf.Parallel (s : Shelf) : Prop := s.t.keys = s.d.keys

/-- A record on disk: its rank `n`, its date `t` (which older records do not have) and its bytes `b`. The
key is the one of the directory. -/
structure Record where
  n : Nat
  t : Option Int
  b : Body

/-- The date of a record. A zero is read as none. -/
def Record.date (r : Record) : Int :=
  match r.t with
  | some t => if t = 0 then (r.n / 1000 : Nat) else t
  | none => (r.n / 1000 : Nat)

/-- The records of one kind. The name of a file is a digest of its kind and key. -/
abbrev Directory : Type := Ordered Str Record

inductive Outcome
  | ok | conflict | full | unavailable
  deriving DecidableEq

variable (cfg : Config)

/-! ## A deposit -/

/-- The loop of the eviction. -/
def evictAged (now : Int) : Nat → Shelf → Shelf × List Str
  | 0, s => (s, [])
  | fuel + 1, s =>
    match s.d.items with
    | [] => (s, [])
    | (k0, b) :: _ =>
      if now - (s.t.get? k0).getD now ≤ cfg.retention then (s, [])
      else
        let r := evictAged now fuel ⟨s.d.pop k0, s.t.pop k0, s.used - cost k0 b⟩
        (r.1, k0 :: r.2)

/-- Eviction by age, from the oldest entry on: the shelf that is left and the keys to remove. -/
def evict (now : Int) (s : Shelf) : Shelf × List Str := evictAged cfg now s.d.items.length s

/-- `DISK.remove` for each key. A removal that fails is not reported. -/
def removeAll (removed : Str → Bool) (ks : List Str) (disk : Directory) : Directory :=
  ks.foldl (fun disk k => if removed k then disk.pop k else disk) disk

/-- The critical section of the write. `n` is the rank of the record and `diskOk` whether the disk takes
it. -/
def checkAndWrite (kind : Kind) (key : Str) (data : Body) (now : Int) (n : Nat) (diskOk : Bool) (s : Shelf)
    (disk : Directory) : Shelf × Directory × Outcome :=
  let stored := s.d.get? key
  if kind ∈ writeOnceKinds ∧ stored.isSome then
    if stored = some data then (s, disk, .ok) else (s, disk, .conflict)
  else
    let after := s.used - (stored.elim 0 (cost key) : Nat) + cost key data
    if after > cfg.kindBudget ∧ after > s.used then (s, disk, .full)
    else if !diskOk then (s, disk, .unavailable)
    else
      let disk := disk.set key ⟨n, some now, data⟩
      let dt := if s.d.has key then (s.d.moveToEnd key, s.t.pop key) else (s.d, s.t)
      (⟨dt.1.set key data, dt.2.set key now, after⟩, disk, .ok)

/-! ## A restart -/

/-- `load` for one kind, given the files as the directory lists them: what is left on disk, and what is
loaded, by rank. -/
def load (now : Int) (removed : Str → Bool) (listing : List (Str × Record)) (disk : Directory) :
    Directory × List (Str × Record) :=
  let expired := fun e : Str × Record => decide (now - e.2.date > cfg.retention)
  let items :=
    if cfg.retention > 0 then
      (removeAll removed ((listing.filter expired).map Prod.fst) disk,
        listing.filter fun e => !expired e)
    else (disk, listing)
  (items.1, items.2.insertionSort fun a b => a.2.n ≤ b.2.n)

/-- The loop of `_boot_store` over the loaded entries of one kind. -/
def bootEntry (s : Shelf) (e : Str × Record) : Shelf :=
  let used := if s.d.has e.1 then s.used - ((s.d.get? e.1).elim 0 (cost e.1) : Nat) else s.used
  ⟨s.d.set e.1 e.2.b, s.t.set e.1 e.2.date, used + cost e.1 e.2.b⟩

def bootShelf (items : List (Str × Record)) : Shelf := items.foldl bootEntry ⟨.empty, .empty, 0⟩

/-! ## What an eviction takes -/

section Evict

variable {cfg} {now : Int} {s s' : Shelf} {ks : List Str} {key : Str} {b : Body}

theorem Config.retention_pos (cfg : Config) : 0 < cfg.retention := by
  have := cfg.retention_ge
  unfold retentionFloor at this
  omega

/-- The first entries leave, each older than the window by its date. -/
inductive Evicted (cfg : Config) (now : Int) : Shelf → List Str → Shelf → Prop
  | done (s : Shelf) : Evicted cfg now s [] s
  | aged {s s' : Shelf} {ks : List Str} {k : Str} {b : Body} {ts : Int} {l : List (Str × Body)}
      (hd : s.d.items = (k, b) :: l) (ht : s.t.get? k = some ts) (hold : cfg.retention < now - ts)
      (h : Evicted cfg now ⟨s.d.pop k, s.t.pop k, s.used - cost k b⟩ ks s') :
      Evicted cfg now s (k :: ks) s'

theorem evictAged_evicted (fuel : Nat) (s : Shelf) :
    Evicted cfg now s (evictAged cfg now fuel s).2 (evictAged cfg now fuel s).1 := by
  induction fuel generalizing s with
  | zero => exact .done s
  | succ fuel ih =>
    simp only [evictAged]
    split
    · exact .done s
    · next k0 b l hd =>
      split
      · exact .done s
      · next hold =>
        cases ht : s.t.get? k0 with
        | none =>
          -- an entry without a date counts as just deposited
          rw [ht, Option.getD_none] at hold
          have := cfg.retention_pos
          omega
        | some ts =>
          rw [ht, Option.getD_some] at hold
          exact .aged hd ht (not_le.1 hold) (ih _)

theorem evict_evicted : Evicted cfg now s (evict cfg now s).2 (evict cfg now s).1 :=
  evictAged_evicted _ s

namespace Evicted

theorem exact (h : Evicted cfg now s ks s') (he : s.Exact) : s'.Exact := by
  induction h with
  | done => exact he
  | @aged s s' ks k b ts l hd ht hold _ ih =>
    refine ih ?_
    have hk : s.d.get? k = some b := Ordered.get?_eq_some.2 (hd ▸ List.mem_cons_self)
    have := Ordered.sum_pop_of_some cost hk
    unfold Shelf.Exact at he ⊢
    dsimp only
    rw [he, ← this]
    push_cast
    omega

theorem parallel (h : Evicted cfg now s ks s') (hp : s.Parallel) : s'.Parallel := by
  induction h with
  | done => exact hp
  | aged _ _ _ _ ih =>
    refine ih ?_
    unfold Shelf.Parallel at hp ⊢
    dsimp only
    rw [Ordered.keys_pop, Ordered.keys_pop, hp]

/-- A key is either left as it was or was too old. -/
theorem get? (h : Evicted cfg now s ks s') (key : Str) :
    (key ∉ ks ∧ s'.d.get? key = s.d.get? key ∧ s'.t.get? key = s.t.get? key) ∨
      (key ∈ ks ∧ s'.d.get? key = none ∧ ∃ ts, s.t.get? key = some ts ∧ cfg.retention < now - ts) := by
  induction h with
  | done => exact .inl ⟨List.not_mem_nil, rfl, rfl⟩
  | @aged s s' ks k b ts l hd ht hold _ ih =>
    simp only [Ordered.get?_pop] at ih
    by_cases hk : key = k
    · subst hk
      refine .inr ⟨List.mem_cons_self, ?_, ts, ht, hold⟩
      obtain ⟨-, hnone, -⟩ | ⟨-, hnone, -⟩ := ih
      · rw [hnone, if_pos rfl]
      · exact hnone
    · rw [if_neg hk, if_neg hk] at ih
      obtain ⟨hks, h1, h2⟩ | ⟨hks, h1, h2⟩ := ih
      · exact .inl ⟨by simp [hk, hks], h1, h2⟩
      · exact .inr ⟨List.mem_cons_of_mem _ hks, h1, h2⟩

/-- What is left is a tail of what was there. -/
theorem suffix (h : Evicted cfg now s ks s') : s'.d.items <:+ s.d.items := by
  induction h with
  | done => exact List.suffix_refl _
  | @aged s s' ks k b ts l hd ht hold _ ih =>
    rw [hd]
    dsimp only at ih
    rw [Ordered.pop_cons hd] at ih
    exact ih.trans (List.suffix_cons _ _)

end Evicted

end Evict

/-! ## What the critical section does -/

section Write

variable {cfg} {kind : Kind} {key : Str} {data : Body} {now : Int} {n : Nat} {diskOk : Bool} {s : Shelf}
  {disk : Directory}

/-- The shelf with an entry more, or one replaced. -/
def Shelf.write (key : Str) (data : Body) (now : Int) (s : Shelf) : Shelf :=
  ⟨s.d.push key data, s.t.push key now,
    s.used - ((s.d.get? key).elim 0 (cost key) : Nat) + cost key data⟩

variable (cfg kind key data now n diskOk disk) in
/-- The critical section finds the same bytes, or refuses and leaves all as it was, or writes: in that case
a sealed artifact is new, and the total is within the budget or not larger than it was. -/
theorem checkAndWrite_cases (hp : s.Parallel) :
    (kind ∈ writeOnceKinds ∧ s.d.get? key = some data ∧
        checkAndWrite cfg kind key data now n diskOk s disk = (s, disk, .ok)) ∨
      (∃ out, out ≠ .ok ∧ checkAndWrite cfg kind key data now n diskOk s disk = (s, disk, out)) ∨
      ((kind ∈ writeOnceKinds → s.d.get? key = none) ∧
        ((s.write key data now).used ≤ cfg.kindBudget ∨ (s.write key data now).used ≤ s.used) ∧
        checkAndWrite cfg kind key data now n diskOk s disk =
          (s.write key data now, disk.set key ⟨n, some now, data⟩, .ok)) := by
  unfold checkAndWrite
  dsimp only
  split
  · next h =>
    split
    · next hb => exact .inl ⟨h.1, hb, rfl⟩
    · exact .inr (.inl ⟨.conflict, by decide, rfl⟩)
  · next h =>
    split
    · exact .inr (.inl ⟨.full, by decide, rfl⟩)
    · next hfit =>
      split
      · exact .inr (.inl ⟨.unavailable, by decide, rfl⟩)
      · refine .inr (.inr ⟨fun hk => ?_, ?_, ?_⟩)
        · by_contra hne
          exact h ⟨hk, Option.isSome_iff_ne_none.2 hne⟩
        · unfold Shelf.write
          dsimp only
          by_contra hc
          push Not at hc
          exact hfit hc
        · unfold Shelf.write
          cases hhas : s.d.has key with
          | true =>
            simp only [if_true]
            rw [Ordered.set_moveToEnd hhas, Ordered.set_pop]
          | false =>
            have ht : s.t.has key = false := by
              rw [Ordered.has_eq_isSome, Option.isSome_eq_false_iff, Option.isNone_iff_eq_none,
                Ordered.get?_eq_none] at hhas ⊢
              rwa [hp]
            simp only [Bool.false_eq_true, if_false]
            rw [Ordered.set_of_not_has hhas, Ordered.set_of_not_has ht]

theorem Shelf.Exact.write (h : s.Exact) : (s.write key data now).Exact := by
  unfold Shelf.Exact at h ⊢
  unfold Shelf.write
  dsimp only
  cases hk : s.d.get? key with
  | none =>
    rw [Ordered.sum_push_of_none cost hk, h]
    push_cast
    simp
  | some b =>
    have := Ordered.sum_push_of_some cost (v := data) hk
    rw [h, Option.elim_some]
    omega

theorem Shelf.Parallel.write (h : s.Parallel) : (s.write key data now).Parallel := by
  unfold Shelf.Parallel at h ⊢
  unfold Shelf.write
  dsimp only
  rw [Ordered.keys_push, Ordered.keys_push, Ordered.keys_pop, Ordered.keys_pop, h]

end Write

/-! ## Removals and reloads -/

section Load

variable {cfg} {now : Int} {removed : Str → Bool} {ks : List Str} {disk : Directory} {key : Str}
  {listing items : List (Str × Record)} {s : Shelf}

/-- A removal takes the records of its keys only. -/
theorem get?_removeAll :
    (removeAll removed ks disk).get? key =
      if key ∈ ks ∧ removed key = true then none else disk.get? key := by
  unfold removeAll
  induction ks generalizing disk with
  | nil => simp
  | cons k ks ih =>
    rw [List.foldl_cons, ih]
    by_cases hr : removed k = true
    · rw [if_pos hr, Ordered.get?_pop]
      by_cases hk : key = k
      · subst hk
        simp [hr]
      · simp [hk]
    · rw [if_neg hr]
      by_cases hk : key = k
      · subst hk
        simp [hr]
      · simp [hk]

/-- The window is never empty, so a restart always purges. -/
theorem load_eq : load cfg now removed listing disk =
    (removeAll removed ((listing.filter fun e => decide (now - e.2.date > cfg.retention)).map Prod.fst)
        disk,
      (listing.filter fun e => !decide (now - e.2.date > cfg.retention)).insertionSort
        fun a b => a.2.n ≤ b.2.n) := by
  unfold load
  simp only [if_pos (show cfg.retention > 0 from cfg.retention_pos)]

/-- What is loaded are the young records. -/
theorem mem_load (hl : listing.Perm disk.items) {e : Str × Record} :
    e ∈ (load cfg now removed listing disk).2 ↔ e ∈ disk.items ∧ now - e.2.date ≤ cfg.retention := by
  rw [load_eq]
  dsimp only
  rw [List.mem_insertionSort, List.mem_filter, hl.mem_iff]
  simp

/-- A restart leaves the young records on disk. -/
theorem get?_load_of_young (hl : listing.Perm disk.items) {r : Record} (h : disk.get? key = some r)
    (hr : now - r.date ≤ cfg.retention) : (load cfg now removed listing disk).1.get? key = some r := by
  rw [load_eq]
  dsimp only
  rw [get?_removeAll, if_neg ?_, h]
  rintro ⟨hmem, -⟩
  obtain ⟨⟨k, r'⟩, he, rfl⟩ := List.mem_map.1 hmem
  rw [List.mem_filter, hl.mem_iff] at he
  obtain rfl := Ordered.eq_of_mem (Ordered.get?_eq_some.1 h) he.1
  have := of_decide_eq_true he.2
  dsimp only at this
  omega

/-- A restart adds no record. -/
theorem get?_of_load {r : Record} (h : (load cfg now removed listing disk).1.get? key = some r) :
    disk.get? key = some r := by
  rw [load_eq] at h
  dsimp only at h
  rw [get?_removeAll] at h
  split at h
  · cases h
  · exact h

theorem nodup_load (hl : listing.Perm disk.items) :
    ((load cfg now removed listing disk).2.map Prod.fst).Nodup := by
  rw [load_eq]
  dsimp only
  refine ((List.perm_insertionSort _ _).map Prod.fst).nodup_iff.2 ?_
  refine ((hl.map Prod.fst).nodup_iff.2 disk.nodup).sublist ?_
  exact List.filter_sublist.map _

theorem sorted_load : (load cfg now removed listing disk).2.Pairwise fun a b => a.2.n ≤ b.2.n := by
  rw [load_eq]
  have hsort : ∀ l : List (Str × Record),
      (l.insertionSort fun a b => a.2.n ≤ b.2.n).Pairwise fun a b => a.2.n ≤ b.2.n := by
    intro l
    have : Std.Total fun a b : Str × Record => a.2.n ≤ b.2.n := ⟨fun a b => le_total _ _⟩
    have : IsTrans (Str × Record) fun a b => a.2.n ≤ b.2.n := ⟨fun a b c => le_trans⟩
    exact List.pairwise_insertionSort _ l
  exact hsort _

theorem Shelf.Exact.bootEntry (h : s.Exact) (e : Str × Record) : (bootEntry s e).Exact := by
  unfold Shelf.Exact at h ⊢
  unfold Relay.bootEntry
  dsimp only
  cases hk : s.d.get? e.1 with
  | none =>
    have hhas : s.d.has e.1 = false := by rw [Ordered.has_eq_isSome, hk]; rfl
    rw [hhas, Ordered.sum_set_of_none cost hk, h]
    simp
  | some b =>
    have hhas : s.d.has e.1 = true := by rw [Ordered.has_eq_isSome, hk]; rfl
    have := Ordered.sum_set_of_some cost (v := e.2.b) hk
    rw [if_pos hhas, h, Option.elim_some]
    omega

theorem bootShelf_exact : (bootShelf items).Exact := by
  unfold bootShelf
  exact List.foldlRecOn items bootEntry (show Shelf.Exact _ from rfl) fun s hs e _ => hs.bootEntry e

theorem bootShelf_d : (bootShelf items).d = Ordered.ofList (items.map fun e => (e.1, e.2.b)) := by
  have hfold : ∀ s : Shelf, (items.foldl bootEntry s).d =
      (items.map fun e => (e.1, e.2.b)).foldl (fun d p => d.set p.1 p.2) s.d := by
    intro s
    induction items generalizing s with
    | nil => rfl
    | cons e items ih => exact ih _
  exact hfold _

theorem bootShelf_t : (bootShelf items).t = Ordered.ofList (items.map fun e => (e.1, e.2.date)) := by
  have hfold : ∀ s : Shelf, (items.foldl bootEntry s).t =
      (items.map fun e => (e.1, e.2.date)).foldl (fun d p => d.set p.1 p.2) s.t := by
    intro s
    induction items generalizing s with
    | nil => rfl
    | cons e items ih => exact ih _
  exact hfold _

section Nodup

variable (h : (items.map Prod.fst).Nodup)

include h

theorem items_bootShelf_d : (bootShelf items).d.items = items.map fun e => (e.1, e.2.b) := by
  rw [bootShelf_d, Ordered.items_ofList]
  rwa [List.map_map]

theorem items_bootShelf_t : (bootShelf items).t.items = items.map fun e => (e.1, e.2.date) := by
  rw [bootShelf_t, Ordered.items_ofList]
  rwa [List.map_map]

theorem bootShelf_parallel : (bootShelf items).Parallel := by
  unfold Shelf.Parallel Ordered.keys
  rw [items_bootShelf_d h, items_bootShelf_t h, List.map_map, List.map_map]
  rfl

end Nodup

end Load

end Dendra.Relay
