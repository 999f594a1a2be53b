import Dendra.Lib.Json
import Dendra.Relay.Durability
import Dendra.Relay.Request
import Dendra.Reveal.Marker

/-!
# The cache of the work queue

`GET /list` is answered from a cache of bodies by suffix, each kept with the version of the store that it was
built at. An answer takes the lock twice: to look for the body or copy the keys, and to file the body that it
has built in between. The steps of the deposits and of the requests interleave.

* `ListStep`: the steps. `listBody`: what the store answers at an instant.
* `CacheInv`: an entry of the current version is the body of the store, and the cache is within its bounds.
* `Seen`: what a request has met since it came in; `InFlight`.
* `list_exact`: what a request is answered, in every run.
-/

namespace Dendra.Relay

open Reveal (strip)

variable (cfg : Config)

/-! ## The code -/

/-- The kinds in the order of `STORE`. -/
def storeKinds : List Kind := [.pub, .req, .res, .reveal, .attest]

/-- `_keys_locked`. -/
def keysLocked (shelf : Kind → Shelf) (suffix : Option Str) : List (Str × List Str) :=
  storeKinds.map fun kind => (kind.name,
    match suffix with
    | none | some [] => (shelf kind).d.keys
    | some sfx => (shelf kind).d.keys.filter fun x => sfx.isSuffixOf x)

def joinWith (sep : Str) : List Str → Str
  | [] => []
  | [s] => s
  | s :: l => s ++ sep ++ joinWith sep l

/-- `json.dumps(keys).encode()`. -/
def dumpKeys (keys : List (Str × List Str)) : Body :=
  Str.utf8 ('{' :: joinWith [',', ' '] (keys.map fun e => Json.quote true e.1 ++ [':', ' '] ++
    ('[' :: joinWith [',', ' '] (e.2.map (Json.quote true)) ++ [']'])) ++ ['}'])

/-- `_etag`. -/
def etag (body : Body) : Str := '"' :: (Str.hex (Sha256.hash body)).take 32 ++ ['"']

/-- `_etag_matches`. -/
def etagMatches (header : Option Str) (tag : Str) : Bool :=
  (Str.split (header.getD []) ',').any fun t =>
    let t := strip t
    decide ((if "W/".toList.isPrefixOf t then t.drop 2 else t) = tag)

/-- `LIST_CACHE_MAX_ENTRIES`. -/
def maxEntries : Nat := 256

/-- `LIST_CACHE_MAX_BYTES`. -/
def maxBytes : Nat := 8 <<< 20

/-- An entry of `_LIST_CACHE`. -/
structure Entry where
  version : Nat
  body : Body
  tag : Str

/-- `_LIST_CACHE` and `_LIST_CACHE_BYTES`. -/
structure Cache where
  entries : Ordered Str Entry
  bytes : Int

/-- The loop that evicts: the oldest entries leave until both bounds hold. -/
def trim : Nat → Cache → Cache
  | 0, c => c
  | fuel + 1, c =>
    if c.entries.items.length > maxEntries ∨ c.bytes > maxBytes then
      match c.entries.items with
      | [] => c
      | (slot, e) :: _ => trim fuel ⟨c.entries.pop slot, c.bytes - e.body.length⟩
    else c

/-- The second critical section of `_list_answer`. -/
def Cache.file (c : Cache) (slot : Str) (e : Entry) : Cache :=
  let old := c.entries.get? slot
  if old.all fun o => decide (o.version < e.version) then
    let bytes := c.bytes - (old.elim 0 fun o => o.body.length : Nat)
    let entries := (c.entries.set slot e).moveToEnd slot
    trim entries.items.length ⟨entries, bytes + e.body.length⟩
  else c

/-- What a request is answered, with its `ETag` and the suffix that was applied. -/
structure ListResponse where
  status : Nat
  body : Body
  tag : Str
  echo : Option Str

/-- The end of `do_GET`. -/
def listReply (suffix inm : Option Str) (body : Body) (tag : Str) : ListResponse :=
  let echo := if suffix = some [] then none else suffix
  if etagMatches inm tag then ⟨304, [], tag, echo⟩ else ⟨200, body, tag, echo⟩

/-- Where a request stands: before the first critical section, after it with the keys that it has copied, or
with its body. -/
inductive Phase
  | arrived
  | copied (version : Nat) (keys : List (Str × List Str))
  | ready (body : Body) (tag : Str)

/-- A request on its way, with its `If-None-Match`. -/
structure Get where
  suffix : Option Str
  inm : Option Str
  phase : Phase

/-! ## The system -/

/-- The store, its version, the cache and the requests on their way. -/
structure Server where
  sys : System
  version : Nat
  cache : Cache
  gets : Nat → Option Get

/-- The critical section of a step of a deposit has changed the keys, and has raised the version: the eviction
took something, or the write went through. -/
def bumps (s : System) : Action → Bool
  | .evict tid => (s.threads tid).any fun p => decide ((evict cfg p.now (s.shelf p.kind)).2 ≠ [])
  | .write tid diskOk tie => (s.threads tid).any fun p =>
    decide (¬ (p.kind ∈ writeOnceKinds ∧ ((s.shelf p.kind).d.get? p.key).isSome)) &&
      decide ((checkAndWrite cfg p.kind p.key p.data p.now (nextSeq s.clock tie) diskOk (s.shelf p.kind)
        (s.disk p.kind)).2.2 = .ok)
  | .restart _ _ => true
  | _ => false

inductive ListAction
  | store (a : Action)
  | reload (items : Kind → List (Str × Record))
  | request (id : Nat) (suffix inm : Option Str)
  | read (id : Nat)
  | file (id : Nat)
  | answer (id : Nat) (r : ListResponse)

def Server.setGet (s : Server) (id : Nat) (g : Option Get) : Server :=
  { s with gets := Function.update s.gets id g }

inductive ListStep : Server → ListAction → Server → Prop
  /-- a step of a deposit -/
  | store {s : Server} {a : Action} {sys' : System} (h : SysStep cfg s.sys a sys')
      (ha : ∀ removed listing, a ≠ .restart removed listing) :
      ListStep s (.store a)
        { s with sys := sys', version := if bumps cfg s.sys a then s.version + 1 else s.version }
  /-- the process starts again -/
  | restart {s : Server} {removed : Str → Bool} {listing : Kind → List (Str × Record)} {sys' : System}
      (h : SysStep cfg s.sys (.restart removed listing) sys') :
      ListStep s (.store (.restart removed listing)) ⟨sys', 1, ⟨.empty, 0⟩, fun _ => none⟩
  /-- `_boot_store` in a running process, of whatever it has loaded -/
  | reload {s : Server} (items : Kind → List (Str × Record)) :
      ListStep s (.reload items)
        { s with sys := { s.sys with shelf := fun kind => bootShelf (items kind) }, version := s.version + 1 }
  | request {s : Server} {id : Nat} (suffix inm : Option Str) (h : s.gets id = none) :
      ListStep s (.request id suffix inm) (s.setGet id (some ⟨suffix, inm, .arrived⟩))
  /-- the first critical section, when the cache has the body -/
  | hit {s : Server} {id : Nat} {g : Get} {e : Entry} (h : s.gets id = some g) (hp : g.phase = .arrived)
      (he : s.cache.entries.get? (g.suffix.getD []) = some e) (hv : e.version = s.version) :
      ListStep s (.read id)
        ({ s with cache := { s.cache with entries := s.cache.entries.moveToEnd (g.suffix.getD []) } }.setGet id
          (some { g with phase := .ready e.body e.tag }))
  /-- the first critical section, when it does not -/
  | miss {s : Server} {id : Nat} {g : Get} (h : s.gets id = some g) (hp : g.phase = .arrived)
      (he : ∀ e, s.cache.entries.get? (g.suffix.getD []) = some e → e.version ≠ s.version) :
      ListStep s (.read id)
        (s.setGet id (some { g with phase := .copied s.version (keysLocked s.sys.shelf g.suffix) }))
  /-- the body is built, and filed if it is not too long -/
  | file {s : Server} {id version : Nat} {g : Get} {keys : List (Str × List Str)} (h : s.gets id = some g)
      (hp : g.phase = .copied version keys) :
      ListStep s (.file id)
        ({ s with cache :=
            if (dumpKeys keys).length > maxBytes then s.cache
            else s.cache.file (g.suffix.getD []) ⟨version, dumpKeys keys, etag (dumpKeys keys)⟩ }.setGet id
          (some { g with phase := .ready (dumpKeys keys) (etag (dumpKeys keys)) }))
  | answer {s : Server} {id : Nat} {g : Get} {body : Body} {tag : Str} (h : s.gets id = some g)
      (hp : g.phase = .ready body tag) :
      ListStep s (.answer id (listReply g.suffix g.inm body tag)) (s.setGet id none)

/-- A process just started, over any store. -/
def ListStart (s : Server) : Prop := s.version = 1 ∧ s.cache = ⟨.empty, 0⟩ ∧ ∀ id, s.gets id = none

/-- The steps from one state to another. -/
inductive ListRuns (s : Server) : List ListAction → Server → Prop
  | refl : ListRuns s [] s
  | step {s' s'' : Server} {acts : List ListAction} {a : ListAction} (h : ListRuns s acts s')
      (hs : ListStep cfg s' a s'') : ListRuns s (acts ++ [a]) s''

/-- The body of the work queue, as the store has it. -/
def listBody (s : Server) (suffix : Option Str) : Body := dumpKeys (keysLocked s.sys.shelf suffix)

/-! ## The store -/

section Store

variable {cfg} {s : Server} {a : ListAction} {s' : Server}

theorem keysLocked_getD (shelf : Kind → Shelf) (suffix : Option Str) :
    keysLocked shelf (some (suffix.getD [])) = keysLocked shelf suffix := by
  cases suffix with
  | none => rfl
  | some sfx => rfl

theorem keysLocked_congr {shelf shelf' : Kind → Shelf} (h : ∀ kind, (shelf' kind).d.keys = (shelf kind).d.keys)
    (suffix : Option Str) : keysLocked shelf' suffix = keysLocked shelf suffix := by
  simp only [keysLocked, h]

theorem Evicted.eq_of_nil {now : Int} {d d' : Shelf} (h : Evicted cfg now d [] d') : d' = d := by
  cases h
  rfl

/-- The write leaves memory as it is when it finds a sealed artifact, and when it refuses. -/
theorem checkAndWrite_same {kind : Kind} {key : Str} {data : Body} {now : Int} {n : Nat} {diskOk : Bool}
    {d : Shelf} {disk : Directory}
    (h : kind ∈ writeOnceKinds ∧ (d.d.get? key).isSome ∨
      (checkAndWrite cfg kind key data now n diskOk d disk).2.2 ≠ .ok) :
    (checkAndWrite cfg kind key data now n diskOk d disk).1 = d := by
  unfold checkAndWrite at h ⊢
  dsimp only at h ⊢
  split
  · split <;> rfl
  · next hnew =>
    split
    · rfl
    · next hfit =>
      split
      · rfl
      · next hdisk =>
        rw [if_neg hnew, if_neg hfit, if_neg hdisk] at h
        exact absurd h (not_or.2 ⟨hnew, not_not.2 rfl⟩)

/-- A critical section that does not raise the version leaves the keys as they are. -/
theorem keys_of_not_bumps {s s' : System} {a : Action} (h : SysStep cfg s a s') (hb : bumps cfg s a = false)
    (kind : Kind) : (s'.shelf kind).d.keys = (s.shelf kind).d.keys := by
  cases h with
  | tick | arrive | remove => rfl
  | @evict tid p hp hpend =>
    have hnil : (evict cfg p.now (s.shelf p.kind)).2 = [] := by simpa [bumps, hp] using hb
    have hsame : (evict cfg p.now (s.shelf p.kind)).1 = s.shelf p.kind :=
      Evicted.eq_of_nil (hnil ▸ evict_evicted)
    simp only [hsame, Function.update_eq_self]
  | @write tid p diskOk tie hp hpend =>
    have hsame : (checkAndWrite cfg p.kind p.key p.data p.now (nextSeq s.clock tie) diskOk (s.shelf p.kind)
        (s.disk p.kind)).1 = s.shelf p.kind := by
      simp only [bumps, hp, Option.any_some, Bool.and_eq_false_iff, decide_eq_false_iff_not, not_not] at hb
      exact checkAndWrite_same hb
    simp only [System.afterWrite, hsame, Function.update_eq_self]
  | restart => simp [bumps] at hb

theorem version_le (h : ListStep cfg s a s') (ha : ∀ removed listing, a ≠ .store (.restart removed listing)) :
    s.version ≤ s'.version := by
  cases h with
  | store h _ =>
    dsimp only
    split <;> omega
  | restart => exact absurd rfl (ha _ _)
  | reload => exact Nat.le_succ _
  | request | hit | miss | file | answer => exact le_rfl

/-- While the version is the same, so are the keys. -/
theorem keys_of_version_eq (h : ListStep cfg s a s') (ha : ∀ removed listing, a ≠ .store (.restart removed listing))
    (hv : s'.version = s.version) (suffix : Option Str) :
    keysLocked s'.sys.shelf suffix = keysLocked s.sys.shelf suffix := by
  cases h with
  | @store _ _ hstep _ =>
    refine keysLocked_congr (keys_of_not_bumps hstep ?_) suffix
    by_contra hb
    rw [Bool.not_eq_false] at hb
    simp [hb] at hv
  | restart => exact absurd rfl (ha _ _)
  | reload => simp at hv
  | request | hit | miss | file | answer => rfl

end Store

/-! ## The cache -/

section Cache

variable {c : Cache} {slot k : Str} {e : Entry}

/-- The bytes are counted, and the cache is within its bounds. -/
structure Cache.Within (c : Cache) : Prop where
  bytes : c.bytes = (c.entries.sum fun _ e => e.body.length : Nat)
  entries_le : c.entries.items.length ≤ maxEntries
  bytes_le : c.bytes ≤ maxBytes

/-- An entry that is left by the eviction was there. -/
theorem get?_trim {fuel : Nat} (h : (trim fuel c).entries.get? k = some e) : c.entries.get? k = some e := by
  induction fuel generalizing c with
  | zero => exact h
  | succ fuel ih =>
    unfold trim at h
    split at h
    · split at h
      · exact h
      · have := ih h
        rw [Ordered.get?_pop] at this
        split at this
        · cases this
        · exact this
    · exact h

theorem trim_within {fuel : Nat} (hfuel : c.entries.items.length ≤ fuel)
    (hb : c.bytes = (c.entries.sum fun _ e => e.body.length : Nat)) : (trim fuel c).Within := by
  induction fuel generalizing c with
  | zero =>
    have hnil : c.entries.items = [] := List.length_eq_zero_iff.1 (by omega)
    refine ⟨hb, by rw [trim, hnil]; exact Nat.zero_le _, ?_⟩
    rw [trim, hb, Ordered.sum, hnil]
    exact Int.natCast_nonneg _
  | succ fuel ih =>
    unfold trim
    split
    next hover =>
      split
      next hnil =>
        rw [hb, Ordered.sum, hnil] at hover
        simp only [List.length_nil, List.map_nil, List.sum_nil] at hover
        omega
      next slot e l hl =>
        have hget : c.entries.get? slot = some e := Ordered.get?_eq_some.2 (hl ▸ List.mem_cons_self)
        refine ih ?_ ?_
        · rw [Ordered.pop_cons hl]
          rw [hl, List.length_cons] at hfuel
          omega
        · have hsum := Ordered.sum_pop_of_some (fun _ (e : Entry) => e.body.length) hget
          dsimp only at hsum ⊢
          rw [hb, ← hsum]
          push_cast
          omega
    next hover =>
      obtain ⟨hentries, hbytes⟩ := not_or.1 hover
      exact ⟨hb, by omega, by omega⟩

theorem Cache.Within.moveToEnd (h : c.Within) : Cache.Within { c with entries := c.entries.moveToEnd slot } where
  bytes := by rw [Ordered.sum_moveToEnd, h.bytes]
  entries_le := by
    have := h.entries_le
    rwa [Ordered.length_eq_sum, Ordered.sum_moveToEnd, ← Ordered.length_eq_sum]
  bytes_le := h.bytes_le

theorem get?_file {e' : Entry} (h : (c.file slot e).entries.get? k = some e') :
    k = slot ∧ e' = e ∨ c.entries.get? k = some e' := by
  unfold Cache.file at h
  dsimp only at h
  split at h
  · have hget := get?_trim h
    rw [Ordered.get?_moveToEnd, Ordered.get?_set] at hget
    split at hget
    · exact .inl ⟨‹_›, (Option.some.inj hget).symm⟩
    · exact .inr hget
  · exact .inr h

theorem Cache.Within.file (h : c.Within) : (c.file slot e).Within := by
  unfold Cache.file
  dsimp only
  split
  · refine trim_within le_rfl ?_
    rw [Ordered.sum_moveToEnd, h.bytes]
    cases hold : c.entries.get? slot with
    | none =>
      have hnew : c.entries.has slot = false := by rw [Ordered.has_eq_isSome, hold, Option.isSome_none]
      rw [Ordered.set_of_not_has hnew, Ordered.sum_push_of_none _ hold]
      simp
    | some o =>
      have hsum := Ordered.sum_set_of_some (fun _ (e : Entry) => e.body.length) (v := e) hold
      dsimp only [Option.elim_some] at hsum ⊢
      omega
  · exact h

end Cache

/-! ## What a request has met -/

/-- An entry of the current version is the body of the store. -/
structure CacheInv (s : Server) : Prop where
  within : s.cache.Within
  fresh : ∀ slot e, s.cache.entries.get? slot = some e → e.version ≤ s.version ∧
    (e.version = s.version → e.body = listBody s (some slot)) ∧ e.tag = etag e.body

/-- Since the last request of an id came in, with its suffix and its tags, a state has been met in which `P`. -/
def Seen (s₀ : Server) (acts : List ListAction) (s : Server) (id : Nat) (suffix inm : Option Str)
    (P : Server → Prop) : Prop :=
  ∃ pre mid post s₁, acts = pre ++ .request id suffix inm :: (mid ++ post) ∧
    (∀ suffix' inm', .request id suffix' inm' ∉ mid ++ post) ∧
    ListRuns cfg s₀ (pre ++ .request id suffix inm :: mid) s₁ ∧ ListRuns cfg s₁ post s ∧ P s₁

/-- What a request on its way has met, by where it stands. -/
def InFlight (s₀ : Server) (acts : List ListAction) (s : Server) (id : Nat) (g : Get) : Prop :=
  match g.phase with
  | .arrived => Seen cfg s₀ acts s id g.suffix g.inm fun _ => True
  | .copied version keys =>
    Seen cfg s₀ acts s id g.suffix g.inm (fun s₁ => keys = keysLocked s₁.sys.shelf g.suffix) ∧
      version ≤ s.version ∧ (version = s.version → keys = keysLocked s.sys.shelf g.suffix)
  | .ready body tag =>
    Seen cfg s₀ acts s id g.suffix g.inm (fun s₁ => body = listBody s₁ g.suffix) ∧ tag = etag body

section Run

variable {cfg} {s₀ s s' : Server} {acts : List ListAction} {a : ListAction} {id : Nat} {suffix inm : Option Str}
  {P Q : Server → Prop}

theorem Seen.later (h : Seen cfg s₀ acts s id suffix inm P) (hs : ListStep cfg s a s')
    (ha : ∀ suffix' inm', a ≠ .request id suffix' inm') : Seen cfg s₀ (acts ++ [a]) s' id suffix inm P := by
  obtain ⟨pre, mid, post, s₁, rfl, hnone, hpre, hpost, hP⟩ := h
  refine ⟨pre, mid, post ++ [a], s₁, by simp, ?_, hpre, hpost.step hs, hP⟩
  intro suffix' inm' hmem
  rw [← List.append_assoc, List.mem_append, List.mem_singleton] at hmem
  exact hmem.elim (hnone suffix' inm') fun h => ha _ _ h.symm

/-- What holds now has been met. -/
theorem Seen.now (h : Seen cfg s₀ acts s id suffix inm P) (hr : ListRuns cfg s₀ acts s) (hQ : Q s) :
    Seen cfg s₀ acts s id suffix inm Q := by
  obtain ⟨pre, mid, post, s₁, rfl, hnone, -, -, -⟩ := h
  exact ⟨pre, mid ++ post, [], s, by simp, by simpa using hnone, hr, .refl, hQ⟩

theorem InFlight.later {g : Get} (h : InFlight cfg s₀ acts s id g) (hs : ListStep cfg s a s')
    (ha : ∀ suffix' inm', a ≠ .request id suffix' inm')
    (hr : ∀ removed listing, a ≠ .store (.restart removed listing)) :
    InFlight cfg s₀ (acts ++ [a]) s' id g := by
  unfold InFlight at *
  split
  · simp only [*] at h
    exact h.later hs ha
  next version keys hp =>
    simp only [hp] at h
    obtain ⟨hseen, hle, heq⟩ := h
    refine ⟨hseen.later hs ha, hle.trans (version_le hs hr), fun hv => ?_⟩
    have hle' := version_le hs hr
    rw [keys_of_version_eq hs hr (by omega)]
    exact heq (by omega)
  next body tag hp =>
    simp only [hp] at h
    exact ⟨h.1.later hs ha, h.2⟩

theorem CacheInv.later (h : CacheInv s) (hs : ListStep cfg s a s') (hc : s'.cache = s.cache)
    (hr : ∀ removed listing, a ≠ .store (.restart removed listing)) : CacheInv s' := by
  refine ⟨hc ▸ h.within, fun slot e he => ?_⟩
  rw [hc] at he
  obtain ⟨hle, hbody, htag⟩ := h.fresh slot e he
  have hle' := version_le hs hr
  refine ⟨hle.trans hle', fun hv => ?_, htag⟩
  rw [listBody, keys_of_version_eq hs hr (by omega)]
  exact hbody (by omega)

variable (cfg) in
/-- The invariant of a run. -/
def ListInv (s₀ : Server) (acts : List ListAction) (s : Server) : Prop :=
  CacheInv s ∧ ∀ id g, s.gets id = some g → InFlight cfg s₀ acts s id g

/-- Where one request moves on, the others have met what they had met. -/
theorem ListInv.setGet {g' : Option Get} (h : ListInv cfg s₀ acts s) (hs : ListStep cfg s a s')
    (hgets : s'.gets = Function.update s.gets id g') (hcache : CacheInv s')
    (ha : ∀ id' suffix' inm', id' ≠ id → a ≠ .request id' suffix' inm')
    (hr : ∀ removed listing, a ≠ .store (.restart removed listing))
    (hown : ∀ g, g' = some g → InFlight cfg s₀ (acts ++ [a]) s' id g) : ListInv cfg s₀ (acts ++ [a]) s' := by
  refine ⟨hcache, fun id' g hg => ?_⟩
  rw [hgets, Function.update_apply] at hg
  split at hg
  next hid => exact hid ▸ hown g hg
  next hid => exact (h.2 id' g hg).later hs (fun suffix' inm' => ha id' suffix' inm' hid) hr

theorem ListInv.step (h : ListInv cfg s₀ acts s) (hrun : ListRuns cfg s₀ acts s) (hs : ListStep cfg s a s') :
    ListInv cfg s₀ (acts ++ [a]) s' := by
  have hstep := hs
  cases hs with
  | @store _ sys' hsys hno =>
    have hr : ∀ removed listing, ListAction.store _ ≠ .store (.restart removed listing) := fun r l heq =>
      hno r l (ListAction.store.inj heq)
    exact ⟨h.1.later hstep rfl hr, fun id g hg => (h.2 id g hg).later hstep (by simp) hr⟩
  | restart =>
    refine ⟨⟨⟨rfl, Nat.zero_le _, Int.natCast_nonneg _⟩, fun slot e he => ?_⟩, fun id g hg => ?_⟩
    · cases he
    · cases hg
  | reload => exact ⟨h.1.later hstep rfl (by simp), fun id g hg => (h.2 id g hg).later hstep (by simp) (by simp)⟩
  | @request id suffix inm hnone =>
    refine h.setGet hstep rfl (h.1.later hstep rfl (by simp)) (by simp_all [eq_comm]) (by simp) ?_
    rintro g ⟨rfl⟩
    exact ⟨acts, [], [], _, by simp, by simp, hrun.step hstep, .refl, trivial⟩
  | @hit id g e hg hp he hv =>
    obtain ⟨-, hbody, htag⟩ := h.1.fresh _ _ he
    have hseen := h.2 id g hg
    simp only [InFlight, hp] at hseen
    refine h.setGet hstep rfl ⟨h.1.within.moveToEnd, fun slot e he => ?_⟩ (by simp) (by simp) ?_
    · change (s.cache.entries.moveToEnd (g.suffix.getD [])).get? slot = some e at he
      rw [Ordered.get?_moveToEnd] at he
      exact h.1.fresh slot e he
    · rintro _ ⟨rfl⟩
      refine ⟨(hseen.now hrun ?_).later hstep (by simp), htag⟩
      rw [hbody hv, listBody, listBody, keysLocked_getD]
  | @miss id g hg hp he =>
    have hseen := h.2 id g hg
    simp only [InFlight, hp] at hseen
    refine h.setGet hstep rfl (h.1.later hstep rfl (by simp)) (by simp) (by simp) ?_
    have hnow : Seen cfg s₀ acts s id g.suffix g.inm fun s₁ =>
        keysLocked s.sys.shelf g.suffix = keysLocked s₁.sys.shelf g.suffix := hseen.now hrun rfl
    rintro _ ⟨rfl⟩
    exact ⟨hnow.later hstep (by simp), le_rfl, fun _ => rfl⟩
  | @file id version g keys hg hp =>
    have hflight := h.2 id g hg
    simp only [InFlight, hp] at hflight
    obtain ⟨hseen, hle, heq⟩ := hflight
    refine h.setGet hstep rfl ?_ (by simp) (by simp) ?_
    · by_cases hlong : (dumpKeys keys).length > maxBytes
      · exact h.1.later hstep (if_pos hlong) (by simp)
      · refine ⟨?_, fun slot e he => ?_⟩
        · simp only [Server.setGet, hlong, ↓reduceIte]
          exact h.1.within.file
        · simp only [Server.setGet, hlong, ↓reduceIte] at he
          obtain ⟨rfl, rfl⟩ | he := get?_file he
          · refine ⟨hle, fun hv => ?_, rfl⟩
            rw [listBody, keysLocked_getD]
            exact congrArg dumpKeys (heq hv)
          · exact h.1.fresh slot e he
    · rintro _ ⟨rfl⟩
      obtain ⟨pre, mid, post, s₁, hacts, hnone, hpre, hpost, hkeys⟩ := hseen.later hstep (by simp)
      exact ⟨⟨pre, mid, post, s₁, hacts, hnone, hpre, hpost, congrArg dumpKeys hkeys⟩, rfl⟩
  | @answer id g body tag hg hp =>
    exact h.setGet hstep rfl (h.1.later hstep rfl (by simp)) (by simp) (by simp) (by rintro g ⟨⟩)

theorem listInv (h₀ : ListStart s₀) (h : ListRuns cfg s₀ acts s) : ListInv cfg s₀ acts s := by
  induction h with
  | refl =>
    obtain ⟨-, hcache, hgets⟩ := h₀
    refine ⟨⟨?_, fun slot e he => ?_⟩, fun id g hg => ?_⟩
    · rw [hcache]
      exact ⟨rfl, Nat.zero_le _, Int.natCast_nonneg _⟩
    · rw [hcache] at he
      cases he
    · rw [hgets id] at hg
      cases hg
  | step hrun hs ih => exact ih.step hrun hs

end Run

/-- In every run the cache is within its bounds, and what a request is answered is the body of the store at an
instant since it came in, or, to a request that names the tag of that body, that nothing has changed. -/
theorem list_exact {s₀ s : Server} {acts : List ListAction} (h₀ : ListStart s₀) (h : ListRuns cfg s₀ acts s) :
    (s.cache.entries.items.length ≤ maxEntries ∧ (s.cache.entries.sum fun _ e => e.body.length) ≤ maxBytes) ∧
    ∀ id r s', ListStep cfg s (.answer id r) s' → ∃ suffix inm pre mid post s₁,
      acts = pre ++ .request id suffix inm :: (mid ++ post) ∧
      (∀ suffix' inm', .request id suffix' inm' ∉ mid ++ post) ∧
      ListRuns cfg s₀ (pre ++ .request id suffix inm :: mid) s₁ ∧ ListRuns cfg s₁ post s ∧
      r.tag = etag (listBody s₁ suffix) ∧
      (r.status = 200 ∧ r.body = listBody s₁ suffix ∧ etagMatches inm (etag (listBody s₁ suffix)) = false ∨
        r.status = 304 ∧ etagMatches inm (etag (listBody s₁ suffix)) = true) := by
  obtain ⟨hcache, hgets⟩ := listInv h₀ h
  refine ⟨⟨hcache.within.entries_le, ?_⟩, ?_⟩
  · have hbytes := hcache.within.bytes
    have hle := hcache.within.bytes_le
    omega
  · intro id r s' hs
    cases hs with
    | @answer _ g body tag hg hp =>
      have hflight := hgets id g hg
      simp only [InFlight, hp] at hflight
      obtain ⟨⟨pre, mid, post, s₁, hacts, hnone, hpre, hpost, rfl⟩, rfl⟩ := hflight
      refine ⟨g.suffix, g.inm, pre, mid, post, s₁, hacts, hnone, hpre, hpost, ?_⟩
      cases hmatch : etagMatches g.inm (etag (listBody s₁ g.suffix)) with
      | true => exact ⟨by simp [listReply, hmatch], .inr ⟨by simp [listReply, hmatch], rfl⟩⟩
      | false => exact ⟨by simp [listReply, hmatch], .inl ⟨by simp [listReply, hmatch], by simp [listReply, hmatch], rfl⟩⟩

section First

/-- A relay with nothing in its store. -/
def idleServer : Server where
  sys := ⟨fun _ => bootShelf [], fun _ => .empty, 1, fun _ => none, fun _ _ => none⟩
  version := 1
  cache := ⟨.empty, 0⟩
  gets := fun _ => none

/-- A first request for the full queue. -/
def firstAsked : Server := idleServer.setGet 0 (some ⟨none, none, .arrived⟩)

def idleKeys : List (Str × List Str) := keysLocked idleServer.sys.shelf none

def firstCopied : Server := firstAsked.setGet 0 (some ⟨none, none, .copied 1 idleKeys⟩)

def firstFiled : Server :=
  { firstCopied with cache :=
      if (dumpKeys idleKeys).length > maxBytes then firstCopied.cache
      else firstCopied.cache.file [] ⟨1, dumpKeys idleKeys, etag (dumpKeys idleKeys)⟩ }.setGet 0
    (some ⟨none, none, .ready (dumpKeys idleKeys) (etag (dumpKeys idleKeys))⟩)

theorem firstFiled_runs :
    ListRuns .default idleServer [.request 0 none none, .read 0, .file 0] firstFiled := by
  have hasked : ListStep .default idleServer (.request 0 none none) firstAsked := .request none none rfl
  have hcopied : ListStep .default firstAsked (.read 0) firstCopied :=
    .miss (g := ⟨none, none, .arrived⟩) (by simp [firstAsked, Server.setGet]) rfl (by intro e he; cases he)
  have hfiled : ListStep .default firstCopied (.file 0) firstFiled :=
    .file (g := ⟨none, none, .copied 1 idleKeys⟩) (by simp [firstCopied, Server.setGet]) rfl
  exact .step (.step (.step .refl hasked) hcopied) hfiled

/-- The first request is answered. -/
theorem list_exact_first :
    (∃ r s', ListStep .default firstFiled (.answer 0 r) s') ∧
    (firstFiled.cache.entries.items.length ≤ maxEntries ∧
      (firstFiled.cache.entries.sum fun _ e => e.body.length) ≤ maxBytes) ∧
    ∀ id r s', ListStep .default firstFiled (.answer id r) s' → ∃ suffix inm pre mid post s₁,
      [.request 0 none none, .read 0, .file 0] = pre ++ .request id suffix inm :: (mid ++ post) ∧
      (∀ suffix' inm', .request id suffix' inm' ∉ mid ++ post) ∧
      ListRuns .default idleServer (pre ++ .request id suffix inm :: mid) s₁ ∧
      ListRuns .default s₁ post firstFiled ∧ r.tag = etag (listBody s₁ suffix) ∧
      (r.status = 200 ∧ r.body = listBody s₁ suffix ∧ etagMatches inm (etag (listBody s₁ suffix)) = false ∨
        r.status = 304 ∧ etagMatches inm (etag (listBody s₁ suffix)) = true) := by
  refine ⟨⟨_, _, .answer (g := ⟨none, none, .ready (dumpKeys idleKeys) (etag (dumpKeys idleKeys))⟩) ?_ rfl⟩,
    list_exact .default ⟨rfl, rfl, fun _ => rfl⟩ firstFiled_runs⟩
  simp [firstFiled, Server.setGet]

end First

end Dendra.Relay
