import Dendra.Judge.Question
import Dendra.Lib.Json.RoundTrip
import Dendra.Season.Answers

/-!
# Controlled faults

A period's document, public by its hash only until its reveal, commits identities, classes of fault and the hash of
a seed. The seed draws the requests whose answers are faulted. The reveal lists them, and a day is ranked with it.

* `checkFaultReveal`, `drawnNotListed`, `faultDay`: the checks of a reveal, alone and against the chain.
* `faultDraw`: what a seed draws.
* `listed_iff`: what a reveal that passes both lists.
* `faultReveal_fixed`: two such reveals of one commitment list the same requests, with the same classes.
-/

namespace Dendra.Season.Faults

/-! ## The draw -/

/-- `int.from_bytes(bs, "big")`. -/
def bigEndian (bs : List UInt8) : Nat := bs.foldl (fun n b => 256 * n + b.toNat) 0

/-- `fault_draw`. -/
def faultDraw (seed : List UInt8) (jobId : Str) (faultBps : Int) (classes : List Str) : Option Str :=
  let d := Sha256.hash (seed ++ jobId.utf8)
  if ((bigEndian (d.take 8) % 10000 : Nat) : Int) ≥ faultBps then none
  else classes[bigEndian ((d.drop 8).take 8) % classes.length]?

/-! ## The document -/

def faultClasses : List Str := ["incoherent_answer".toList, "plausible_false_fact".toList, "no_reveal".toList]

def faultDocVersion : Int := 1

def faultDocKeys : List Str :=
  ["classes".toList, "fault_bps".toList, "from_day".toList, "nonce".toList, "seed_sha256".toList, "to_day".toList,
    "traps".toList, "version".toList]

def faultRevealKeys : List Str := ["version".toList, "commitment".toList, "seed".toList, "faults".toList]

def faultEntryKeys : List Str :=
  ["job_id".toList, "miner_id".toList, "class".toList, "question".toList, "answer".toList, "faulted".toList]

/-- What does not match. -/
inductive FaultRefusal
  | documentHash
  | notJson
  | notCanonical
  | version
  | days
  | faultBps
  | classes
  | hexField
  | noIdentity
  | identity
  | revealKeys
  | revealCommitment
  | seed
  | noFaults
  | entry
  | entryIdentity
  | entryClass
  | drawnOtherwise
  deriving DecidableEq

/-- `_FAULT_HEX64`. -/
def isHex64 (s : Str) : Bool :=
  decide (s.length = 64) && s.all fun c => c.isDigit || (decide ('a' ≤ c) && decide (c ≤ 'f'))

/-- `_FAULT_MINER`. -/
def isMinerId (s : Str) : Bool :=
  decide (s.length ≤ 64) && s.head?.any Char.isAlphanum &&
    s.all fun c => c.isAlphanum || decide (c = '_') || decide (c = '.') || decide (c = '-')

/-- `_FAULT_JOB`. -/
def isJobId (s : Str) : Bool :=
  decide (1 ≤ s.length ∧ s.length ≤ 128) &&
    s.all fun c => c.isAlphanum || decide (c = '_') || decide (c = '.') || decide (c = ':') || decide (c = '-')

/-- `_FAULT_ADDRESS`. -/
def isAddress (s : Str) : Bool :=
  (Str.cutPrefix s "dendra1".toList).any fun r =>
    decide (38 ≤ r.length ∧ r.length ≤ 58) && r.all fun c => c.isDigit || c.isLower

/-- `set(d) == keys`. -/
def sameKeys (d : List (Str × Json)) (keys : List Str) : Bool :=
  d.all (fun e => decide (e.1 ∈ keys)) && keys.all fun k => d.any fun e => decide (e.1 = k)

/-- The value is the integer `n`, and its type `int`. -/
def isInt (v : Option Json) (n : Int) : Bool :=
  match v with
  | some (.int m) => decide (m = n)
  | _ => false

/-- The value is equal to the integer `n`: a boolean or a float may be. -/
def equalsInt (v : Option Json) (n : Int) : Bool :=
  match v with
  | some (.int m) => decide (m = n)
  | some (.bool b) => decide ((if b then 1 else 0) = n)
  | some (.float t) => decide (t = Str.formatInt n ++ ['.', '0'])
  | _ => false

def text? (v : Option Json) : Option Str :=
  match v with
  | some (.str s) => some s
  | _ => none

instance {κ α : Type} [DecidableEq κ] [DecidableEq α] : DecidableEq (Ordered κ α) := fun d d' =>
  decidable_of_iff (d.items = d'.items) ⟨fun h => Ordered.ext h, congrArg Ordered.items⟩

/-- What the checks read of a document. -/
structure FaultDoc where
  faultBps : Int
  classes : List Str
  seedSha256 : Str
  /-- the payout address of each identity -/
  traps : Ordered Str Str
  deriving DecidableEq

def bpsOf (d : List (Str × Json)) : Option Int :=
  match Json.get? d "fault_bps".toList with
  | some (.int n) => if 0 < n ∧ n ≤ 10000 then some n else none
  | _ => none

def classesOf (d : List (Str × Json)) : Option (List Str) :=
  match Json.get? d "classes".toList with
  | some (.arr l) =>
    (l.mapM fun v => text? (some v)).filter fun cs =>
      decide (cs ≠ [] ∧ cs.Nodup ∧ cs = faultClasses.filter fun k => decide (k ∈ cs))
  | _ => none

def hexOf (d : List (Str × Json)) (key : Str) : Option Str := (text? (Json.get? d key)).filter isHex64

/-- An identity of the document. -/
def trapOf : Json → Option (Str × Str)
  | .obj d =>
    if sameKeys d ["miner_id".toList, "payout_address".toList] then
      match text? (Json.get? d "miner_id".toList), text? (Json.get? d "payout_address".toList) with
      | some m, some a => if isMinerId m && isAddress a then some (m, a) else none
      | _, _ => none
    else none
  | _ => none

/-- The identities, in order. -/
def readTraps (prev : Str) (traps : Ordered Str Str) : List Json → Option (Ordered Str Str)
  | [] => some traps
  | t :: l =>
    match trapOf t with
    | some (m, a) => if m ≤ prev then none else readTraps m (traps.set m a) l
    | none => none

/-- `canonical_fault_document`. -/
def canonicalFaultDocument (d : List (Str × Json)) : List UInt8 := (Json.dump false (Json.obj d).sortKeys).utf8

/-- The fields of a document that is canonical. -/
def readFields (period : FaultPeriod) (d : List (Str × Json)) : Except FaultRefusal FaultDoc :=
  if isInt (Json.get? d "version".toList) faultDocVersion = false then .error .version
  else if (isInt (Json.get? d "from_day".toList) period.fromDay &&
      isInt (Json.get? d "to_day".toList) period.toDay) = false then .error .days
  else
    match bpsOf d with
    | none => .error .faultBps
    | some faultBps =>
      match classesOf d with
      | none => .error .classes
      | some classes =>
        match hexOf d "seed_sha256".toList with
        | none => .error .hexField
        | some seedSha256 =>
          if (hexOf d "nonce".toList).isNone then .error .hexField
          else
            match Json.get? d "traps".toList with
            | some (.arr (t :: l)) =>
              match readTraps [] .empty (t :: l) with
              | some traps => .ok ⟨faultBps, classes, seedSha256, traps⟩
              | none => .error .identity
            | _ => .error .noIdentity

/-- The document of a period, from its bytes. -/
def readDocument (period : FaultPeriod) (bytes : List UInt8) : Except FaultRefusal FaultDoc :=
  if Str.hex (Sha256.hash bytes) ≠ period.commitment then .error .documentHash
  else
    match (Json.decodeUtf8 bytes).bind Json.loads with
    | none => .error .notJson
    | some (.obj d) =>
      if sameKeys d faultDocKeys && decide (canonicalFaultDocument d = bytes) then readFields period d
      else .error .notCanonical
    | some _ => .error .notCanonical

/-! ## The reveal -/

/-- A drawn request, as the reveal lists it. -/
structure FaultEntry where
  jobId : Str
  minerId : Str
  cls : Str
  question : Str
  answer : Str
  faulted : Bool
  deriving DecidableEq

/-- A reveal that is accepted. -/
structure Checked where
  document : FaultDoc
  seed : List UInt8
  faults : Ordered Str FaultEntry
  deriving DecidableEq

/-- The seed and the listed requests of a reveal. -/
def readReveal (period : FaultPeriod) (doc : FaultDoc) : Json → Except FaultRefusal (List UInt8 × List Json)
  | .obj d =>
    if sameKeys d faultRevealKeys = false then .error .revealKeys
    else if equalsInt (Json.get? d "version".toList) faultDocVersion = false ∨
        text? (Json.get? d "commitment".toList) ≠ some period.commitment then .error .revealCommitment
    else
      match (hexOf d "seed".toList).bind Str.unhex with
      | none => .error .seed
      | some seed =>
        if Str.hex (Sha256.hash seed) ≠ doc.seedSha256 then .error .seed
        else
          match Json.get? d "faults".toList with
          | some (.arr l) => .ok (seed, l)
          | _ => .error .noFaults
  | _ => .error .revealKeys

/-- An entry whose identity and class are not checked yet. -/
structure RawEntry where
  jobId : Str
  minerId : Option Json
  cls : Option Json
  question : Str
  answer : Str
  faulted : Bool

def rawEntry : Json → Option RawEntry
  | .obj d =>
    if sameKeys d faultEntryKeys then
      match text? (Json.get? d "job_id".toList), text? (Json.get? d "question".toList),
        text? (Json.get? d "answer".toList), Json.get? d "faulted".toList with
      | some j, some q, some a, some (.bool f) =>
        if isJobId j then some ⟨j, Json.get? d "miner_id".toList, Json.get? d "class".toList, q, a, f⟩ else none
      | _, _, _, _ => none
    else none
  | _ => none

/-- One listed request. -/
def readFault (doc : FaultDoc) (seed : List UInt8) (faults : Ordered Str FaultEntry) (e : Json) :
    Except FaultRefusal (Ordered Str FaultEntry) :=
  match rawEntry e with
  | none => .error .entry
  | some e =>
    if faults.has e.jobId then .error .entry
    else
      match (text? e.minerId).filter doc.traps.has with
      | none => .error .entryIdentity
      | some mid =>
        match (text? e.cls).filter fun c => decide (c ∈ doc.classes) with
        | none => .error .entryClass
        | some c =>
          if faultDraw seed e.jobId doc.faultBps doc.classes = some c then
            .ok (faults.set e.jobId ⟨e.jobId, mid, c, e.question, e.answer, e.faulted⟩)
          else .error .drawnOtherwise

/-- `check_fault_reveal`. -/
def checkFaultReveal (period : FaultPeriod) (docBytes : List UInt8) (reveal : Json) :
    Except FaultRefusal Checked :=
  match readDocument period docBytes with
  | .error e => .error e
  | .ok doc =>
    match readReveal period doc reveal with
    | .error e => .error e
    | .ok (seed, l) =>
      match l.foldlM (readFault doc seed) .empty with
      | .error e => .error e
      | .ok faults => .ok ⟨doc, seed, faults⟩

/-! ## The chain -/

/-- A job of the chain. -/
structure ChainJob where
  id : Str
  client : Option Str
  minerId : Option Str

section Day

variable (jobs : List ChainJob) (settled : Ordered Str Int) (generator : Str) (first last : Int)

/-- The job settled in the blocks of the day. -/
def settledIn (jobId : Str) : Bool := (settled.get? jobId).any fun h => decide (first ≤ h ∧ h ≤ last)

/-- `drawn_not_listed`. -/
def drawnNotListed (c : Checked) : List (Str × Str × Str) :=
  (jobs.insertionSort fun j j' => j.id ≤ j'.id).filterMap fun j =>
    match j.minerId with
    | none => none
    | some mid =>
      if j.client ≠ some generator ∨ c.document.traps.has mid = false ∨ settledIn settled first last j.id = false then
        none
      else
        match faultDraw c.seed j.id c.document.faultBps c.document.classes with
        | some cls => if c.faults.has j.id then none else some (j.id, mid, cls)
        | none => none

/-- `by_job`. -/
def byJob (jobId : Str) : Option ChainJob := (jobs.filter fun j => decide (j.id = jobId)).getLast?

/-- The chain has the job as a programme request of the identity that the reveal names. -/
def ofProgramme (e : FaultEntry) : Bool :=
  (byJob jobs e.jobId).any fun j => decide (j.client = some generator) && decide (j.minerId = some e.minerId)

/-- Each listed request of the day is a programme request of the identity that the reveal names. -/
def ListsProgramme (c : Checked) : Prop :=
  ∀ jid e, c.faults.get? jid = some e → settledIn settled first last jid = true → ofProgramme jobs generator e = true

/-- The requests that the reveals of the begun periods list, none twice. -/
def listAll (checked : List Checked) : Option (Ordered Str FaultEntry) :=
  (checked.flatMap fun c => c.faults.items).foldlM
    (fun listed e => if listed.has e.1 then none else some (listed.set e.1 e.2)) .empty

/-- What `rank_day` reads of the reveals: the requests that they list for the day. -/
def faultDay (checked : List Checked) : Option (List FaultEntry) :=
  match listAll checked with
  | none => none
  | some listed =>
    let day := ((listed.items.filter fun e => settledIn settled first last e.1).insertionSort
      fun e e' => e.1 ≤ e'.1).map Prod.snd
    if day.all (ofProgramme jobs generator) &&
        checked.all fun c => (drawnNotListed jobs settled generator first last c).isEmpty then some day
    else none

end Day

/-! ## What a reveal lists -/

section Checks

variable {period : FaultPeriod} {bytes : List UInt8} {reveal : Json} {doc : FaultDoc} {c : Checked} {jid : Str}
  {e : FaultEntry} {seed : List UInt8}

theorem readDocument_hash (h : readDocument period bytes = .ok doc) :
    Str.hex (Sha256.hash bytes) = period.commitment := by
  unfold readDocument at h
  by_contra hne
  rw [if_pos hne] at h
  cases h

theorem readReveal_seed {l : List Json} (h : readReveal period doc reveal = .ok (seed, l)) :
    Str.hex (Sha256.hash seed) = doc.seedSha256 := by
  unfold readReveal at h
  split at h
  · split at h
    · cases h
    · split at h
      · cases h
      · split at h
        · cases h
        · next hseed =>
          split at h
          · cases h
          · next hhash =>
            split at h
            · obtain ⟨rfl, -⟩ := Prod.mk.inj (Except.ok.inj h)
              exact not_not.1 hhash
            · cases h
  · cases h

/-- What is known of the requests that a reveal lists. -/
def Drawn (doc : FaultDoc) (seed : List UInt8) (faults : Ordered Str FaultEntry) : Prop :=
  ∀ jid e, faults.get? jid = some e →
    e.jobId = jid ∧ doc.traps.has e.minerId = true ∧ faultDraw seed jid doc.faultBps doc.classes = some e.cls

/-- A listed request is one that the seed draws. -/
theorem Drawn.readFault {faults faults' : Ordered Str FaultEntry} {v : Json} (h : Drawn doc seed faults)
    (hread : readFault doc seed faults v = .ok faults') : Drawn doc seed faults' := by
  unfold Faults.readFault at hread
  split at hread
  · cases hread
  · next raw _ =>
    split at hread
    · cases hread
    · split at hread
      · cases hread
      · next mid hmid =>
        split at hread
        · cases hread
        · next cls _ =>
          split at hread
          · next hdraw =>
            obtain rfl := Except.ok.inj hread
            intro jid e he
            rw [Ordered.get?_set] at he
            split at he
            · next heq =>
              obtain rfl := Option.some.inj he
              exact ⟨heq.symm, (Option.filter_eq_some_iff.1 hmid).2, heq ▸ hdraw⟩
            · exact h jid e he
          · cases hread

theorem Drawn.foldlM {l : List Json} {faults faults' : Ordered Str FaultEntry} (h : Drawn doc seed faults)
    (hread : l.foldlM (Faults.readFault doc seed) faults = .ok faults') : Drawn doc seed faults' := by
  induction l generalizing faults with
  | nil =>
    obtain rfl := Except.ok.inj hread
    exact h
  | cons v l ih =>
    rw [List.foldlM_cons] at hread
    cases hv : Faults.readFault doc seed faults v with
    | error e =>
      rw [hv] at hread
      cases hread
    | ok faults₁ =>
      rw [hv] at hread
      exact ih (h.readFault hv) hread

/-- What an accepted reveal is. -/
theorem checkFaultReveal_ok (h : checkFaultReveal period bytes reveal = .ok c) :
    Str.hex (Sha256.hash bytes) = period.commitment ∧ readDocument period bytes = .ok c.document ∧
      Str.hex (Sha256.hash c.seed) = c.document.seedSha256 ∧ Drawn c.document c.seed c.faults := by
  unfold checkFaultReveal at h
  split at h
  · cases h
  · next doc hdoc =>
    split at h
    · cases h
    · next seed l hreveal =>
      split at h
      · cases h
      · next faults hfaults =>
        obtain rfl := Except.ok.inj h
        refine ⟨readDocument_hash hdoc, hdoc, readReveal_seed hreveal, Drawn.foldlM ?_ hfaults⟩
        intro jid e he
        cases he

end Checks

section Listed

variable {jobs : List ChainJob} {settled : Ordered Str Int} {generator : Str} {first last : Int} {c : Checked}
  {jid cls : Str} {e : FaultEntry}

/-- A drawn request that is not listed is found. -/
theorem drawnNotListed_eq_nil (h : drawnNotListed jobs settled generator first last c = []) {j : ChainJob}
    {mid : Str} (hj : j ∈ jobs) (hmid : j.minerId = some mid) (hclient : j.client = some generator)
    (htrap : c.document.traps.has mid = true) (hin : settledIn settled first last j.id = true)
    (hdraw : faultDraw c.seed j.id c.document.faultBps c.document.classes = some cls) :
    c.faults.has j.id = true := by
  unfold drawnNotListed at h
  have hnone := List.filterMap_eq_nil_iff.1 h j ((List.mem_insertionSort _).2 hj)
  rw [hmid] at hnone
  dsimp only at hnone
  rw [if_neg (by simp [hclient, htrap, hin]), hdraw] at hnone
  dsimp only at hnone
  by_contra hlisted
  rw [if_neg hlisted] at hnone
  cases hnone

theorem mem_of_byJob {j : ChainJob} (h : byJob jobs jid = some j) : j ∈ jobs ∧ j.id = jid := by
  obtain ⟨hj, hid⟩ := List.mem_filter.1 (List.mem_of_getLast? h)
  exact ⟨hj, of_decide_eq_true hid⟩

theorem ofProgramme_iff : ofProgramme jobs generator e = true ↔
    ∃ j, byJob jobs e.jobId = some j ∧ j.client = some generator ∧ j.minerId = some e.minerId := by
  simp [ofProgramme, Option.any_eq_true]

/-- What a reveal that passes lists of a day: what its seed draws among the programme requests of its identities. -/
theorem listed_iff (cls : Str) (hd : Drawn c.document c.seed c.faults)
    (hp : ListsProgramme jobs settled generator first last c)
    (hm : drawnNotListed jobs settled generator first last c = []) (hin : settledIn settled first last jid = true) :
    (∃ e, c.faults.get? jid = some e ∧ e.cls = cls) ↔
      ∃ j ∈ jobs, j.id = jid ∧ j.client = some generator ∧ (∃ mid, j.minerId = some mid ∧
        c.document.traps.has mid = true) ∧
        faultDraw c.seed jid c.document.faultBps c.document.classes = some cls := by
  constructor
  · rintro ⟨e, he, rfl⟩
    obtain ⟨rfl, htrap, hdraw⟩ := hd jid e he
    obtain ⟨j, hj, hclient, hmid⟩ := ofProgramme_iff.1 (hp _ e he hin)
    obtain ⟨hmem, hid⟩ := mem_of_byJob hj
    exact ⟨j, hmem, hid, hclient, ⟨e.minerId, hmid, htrap⟩, hdraw⟩
  · rintro ⟨j, hj, rfl, hclient, ⟨mid, hmid, htrap⟩, hdraw⟩
    have hlisted := drawnNotListed_eq_nil hm hj hmid hclient htrap hin hdraw
    rw [Ordered.has_eq_isSome, Option.isSome_iff_exists] at hlisted
    obtain ⟨e, he⟩ := hlisted
    refine ⟨e, he, ?_⟩
    obtain ⟨-, -, hdraw'⟩ := hd j.id e he
    exact Option.some.inj (hdraw'.symm.trans hdraw)

theorem foldlM_listed {items : List (Str × FaultEntry)} {listed₀ listed : Ordered Str FaultEntry}
    (h : items.foldlM (fun listed e => if listed.has e.1 then none else some (listed.set e.1 e.2)) listed₀ =
      some listed) :
    (∀ k v, listed₀.get? k = some v → listed.get? k = some v) ∧ ∀ e ∈ items, listed.get? e.1 = some e.2 := by
  induction items generalizing listed₀ with
  | nil =>
    obtain rfl := Option.some.inj h
    exact ⟨fun _ _ h => h, fun e he => (List.not_mem_nil he).elim⟩
  | cons e items ih =>
    rw [List.foldlM_cons] at h
    by_cases hhas : listed₀.has e.1 = true
    · rw [if_pos hhas] at h
      cases h
    · rw [if_neg hhas] at h
      obtain ⟨hold, hnew⟩ := ih h
      refine ⟨fun k v hv => hold k v ?_, fun e' he' => ?_⟩
      · rw [Ordered.get?_set, if_neg]
        · exact hv
        · rintro rfl
          rw [Ordered.has_eq_isSome, hv] at hhas
          exact hhas rfl
      · obtain rfl | he' := List.mem_cons.1 he'
        · exact hold _ _ (by rw [Ordered.get?_set, if_pos rfl])
        · exact hnew e' he'

/-- A ranking has checked each reveal against the chain. -/
theorem programme_of_faultDay {checked : List Checked} {day : List FaultEntry}
    (h : faultDay jobs settled generator first last checked = some day) (hc : c ∈ checked) :
    ListsProgramme jobs settled generator first last c ∧ drawnNotListed jobs settled generator first last c = [] := by
  unfold faultDay at h
  split at h
  · cases h
  · next listed hlisted =>
    dsimp only at h
    split at h
    · next hall =>
      rw [Bool.and_eq_true, List.all_eq_true, List.all_eq_true] at hall
      refine ⟨fun jid e he hin => hall.1 e ?_, List.isEmpty_iff.1 (hall.2 c hc)⟩
      have hitem : (jid, e) ∈ checked.flatMap fun c => c.faults.items :=
        List.mem_flatMap.2 ⟨c, hc, Ordered.get?_eq_some.1 he⟩
      have hget := (foldlM_listed hlisted).2 _ hitem
      refine List.mem_map.2 ⟨(jid, e), (List.mem_insertionSort _).2 (List.mem_filter.2 ⟨?_, hin⟩), rfl⟩
      exact Ordered.get?_eq_some.1 hget
    · cases h

end Listed

/-- What an entry says but for the texts and whether the answer was faulted. -/
def FaultEntry.core (e : FaultEntry) : Str × Str × Str := (e.jobId, e.minerId, e.cls)

/-- **No fault is invented or withdrawn.** Two reveals that are accepted for one commitment, and whose documents and
seeds do not collide, list the same requests of a day, of the same identities and with the same classes: those that
the seed draws among the programme requests of the committed identities. -/
theorem faultReveal_fixed (period : FaultPeriod) (bytes bytes' : List UInt8) (reveal reveal' : Json)
    (c c' : Checked) (h : checkFaultReveal period bytes reveal = .ok c)
    (h' : checkFaultReveal period bytes' reveal' = .ok c')
    (hbytes : Sha256.hash bytes = Sha256.hash bytes' → bytes = bytes')
    (hseed : Sha256.hash c.seed = Sha256.hash c'.seed → c.seed = c'.seed)
    (jobs : List ChainJob) (settled : Ordered Str Int) (generator : Str) (first last : Int)
    (hp : ListsProgramme jobs settled generator first last c)
    (hp' : ListsProgramme jobs settled generator first last c')
    (hm : drawnNotListed jobs settled generator first last c = [])
    (hm' : drawnNotListed jobs settled generator first last c' = []) (jid : Str)
    (hin : settledIn settled first last jid = true) :
    (c.faults.get? jid).map FaultEntry.core = (c'.faults.get? jid).map FaultEntry.core ∧
      ∀ cls, (∃ e, c.faults.get? jid = some e ∧ e.cls = cls) ↔
        ∃ j ∈ jobs, j.id = jid ∧ j.client = some generator ∧
          (∃ mid, j.minerId = some mid ∧ c.document.traps.has mid = true) ∧
          faultDraw c.seed jid c.document.faultBps c.document.classes = some cls := by
  obtain ⟨hhash, hdoc, hs, hd⟩ := checkFaultReveal_ok h
  obtain ⟨hhash', hdoc', hs', hd'⟩ := checkFaultReveal_ok h'
  obtain rfl := hbytes (Judge.hex_injective (hhash.trans hhash'.symm))
  have hdocument : c.document = c'.document := Except.ok.inj (hdoc.symm.trans hdoc')
  have hseeds : c.seed = c'.seed :=
    hseed (Judge.hex_injective (hs.trans (hdocument ▸ hs'.symm)))
  have hiff (cls : Str) := listed_iff cls hd hp hm hin
  have hiff' (cls : Str) := listed_iff cls hd' hp' hm' hin
  rw [← hdocument, ← hseeds] at hiff'
  have hsame (cls : Str) := (hiff cls).trans (hiff' cls).symm
  refine ⟨?_, hiff⟩
  cases he : c.faults.get? jid with
  | none =>
    cases he' : c'.faults.get? jid with
    | none => rfl
    | some e' =>
      obtain ⟨e, heq, -⟩ := (hsame e'.cls).2 ⟨e', he', rfl⟩
      cases he.symm.trans heq
  | some e =>
    obtain ⟨e', he', hcls⟩ := (hsame e.cls).1 ⟨e, he, rfl⟩
    rw [he', Option.map_some, Option.map_some]
    -- both name the miner that the chain has
    obtain ⟨hid, -, -⟩ := hd jid e he
    obtain ⟨hid', -, -⟩ := hd' jid e' he'
    obtain ⟨j, hj, -, hmid⟩ := ofProgramme_iff.1 (hp jid e he hin)
    obtain ⟨j', hj', -, hmid'⟩ := ofProgramme_iff.1 (hp' jid e' he' hin)
    rw [hid] at hj
    rw [hid'] at hj'
    obtain rfl := Option.some.inj (hj.symm.trans hj')
    have hminer := Option.some.inj (hmid.symm.trans hmid')
    unfold FaultEntry.core
    rw [hid, hid', hminer, hcls]

/-! ## A period of one identity -/

/-- 32 zero bytes, in hex, and their hash. -/
def zeroSeed : Str := List.replicate 64 '0'

def zeroHash : Str := Str.hex (Sha256.hash (List.replicate 32 0))

/-- A document that faults every request, never revealed. -/
def oneFields : List (Str × Json) :=
  [("classes".toList, .arr [.str "no_reveal".toList]), ("fault_bps".toList, .int 10000),
    ("from_day".toList, .int 0), ("nonce".toList, .str zeroSeed), ("seed_sha256".toList, .str zeroHash),
    ("to_day".toList, .int 0),
    ("traps".toList, .arr [.obj [("miner_id".toList, .str ['m']),
      ("payout_address".toList, .str ("dendra1".toList ++ List.replicate 38 'q'))]]),
    ("version".toList, .int 1)]

def oneText : Str := Json.dump false (.obj oneFields)

def onePeriod : FaultPeriod := ⟨0, 0, Str.hex (Sha256.hash oneText.utf8)⟩

/-- A reveal of it has one request. -/
def oneEntry (question : Str) (faulted : Bool) : List (Str × Json) :=
  [("job_id".toList, .str ['j']), ("miner_id".toList, .str ['m']), ("class".toList, .str "no_reveal".toList),
    ("question".toList, .str question), ("answer".toList, .str []), ("faulted".toList, .bool faulted)]

def oneReveal (commitment question : Str) (faulted : Bool) : List (Str × Json) :=
  [("version".toList, .int 1), ("commitment".toList, .str commitment), ("seed".toList, .str zeroSeed),
    ("faults".toList, .arr [.obj (oneEntry question faulted)])]

def oneChecked (question : Str) (faulted : Bool) : Checked where
  document := ⟨10000, ["no_reveal".toList], zeroHash, .ofList [(['m'], "dendra1".toList ++ List.replicate 38 'q')]⟩
  seed := List.replicate 32 0
  faults := .ofList [(['j'], ⟨['j'], ['m'], "no_reveal".toList, question, [], faulted⟩)]

theorem sameKeys_of_map {d : List (Str × Json)} {keys : List Str} (h : d.map Prod.fst = keys) :
    sameKeys d keys = true := by
  subst h
  unfold sameKeys
  rw [Bool.and_eq_true, List.all_eq_true, List.all_eq_true]
  refine ⟨fun e he => decide_eq_true (List.mem_map_of_mem he), fun k hk => ?_⟩
  obtain ⟨e, he, rfl⟩ := List.mem_map.1 hk
  exact List.any_eq_true.2 ⟨e, he, decide_eq_true rfl⟩

theorem get?_of_mem {d : List (Str × Json)} {keys : List Str} (hkeys : d.map Prod.fst = keys) (hd : keys.Nodup)
    {k : Str} {v : Json} (h : (k, v) ∈ d) : Json.get? d k = some v := by
  subst hkeys
  unfold Json.get?
  cases hfind : d.find? fun e => decide (e.1 = k) with
  | none => exact absurd rfl (of_decide_eq_false (Bool.eq_false_iff.2 (List.find?_eq_none.1 hfind _ h)))
  | some e =>
    have hk : e.1 = k := by simpa using List.find?_some hfind
    obtain rfl := List.inj_on_of_nodup_map hd (List.mem_of_find?_eq_some hfind) h hk
    rfl

theorem readDocument_utf8 {period : FaultPeriod} {t : Str} {d : List (Str × Json)}
    (hhash : Str.hex (Sha256.hash t.utf8) = period.commitment) (hloads : Json.loads t = some (.obj d))
    (hkeys : sameKeys d faultDocKeys = true) (hcanonical : canonicalFaultDocument d = t.utf8) :
    readDocument period t.utf8 = readFields period d := by
  unfold readDocument
  rw [if_neg (not_not.2 hhash), Json.decodeUtf8_utf8, Option.bind_some, hloads]
  dsimp only
  rw [hkeys, decide_eq_true hcanonical]
  rfl

theorem readReveal_obj {period : FaultPeriod} {doc : FaultDoc} {d : List (Str × Json)} {seed : List UInt8}
    {l : List Json} (hkeys : sameKeys d faultRevealKeys = true)
    (hversion : equalsInt (Json.get? d "version".toList) faultDocVersion = true)
    (hcommitment : text? (Json.get? d "commitment".toList) = some period.commitment)
    (hseed : (hexOf d "seed".toList).bind Str.unhex = some seed)
    (hhash : Str.hex (Sha256.hash seed) = doc.seedSha256) (hl : Json.get? d "faults".toList = some (.arr l)) :
    readReveal period doc (.obj d) = .ok (seed, l) := by
  unfold readReveal
  dsimp only
  have hmatch : ¬(equalsInt (Json.get? d "version".toList) faultDocVersion = false ∨
      text? (Json.get? d "commitment".toList) ≠ some period.commitment) := by
    rintro (h | h)
    · rw [hversion] at h
      cases h
    · exact h hcommitment
  rw [hkeys, if_neg (by decide), if_neg hmatch, hseed]
  dsimp only
  rw [if_neg (not_not.2 hhash), hl]

/-- All is drawn, in the one class. -/
theorem faultDraw_all (seed : List UInt8) (jobId c : Str) : faultDraw seed jobId 10000 [c] = some c := by
  unfold faultDraw
  dsimp only
  rw [if_neg, List.length_singleton, Nat.mod_one]
  · rfl
  · omega

theorem wf_oneFields : (Json.obj oneFields).Wf := by
  refine ⟨by decide, Json.wfFields_iff.2 fun e he => ?_⟩
  simp only [oneFields, List.mem_cons, List.not_mem_nil, or_false] at he
  obtain rfl | rfl | rfl | rfl | rfl | rfl | rfl | rfl := he <;>
    simp [Json.Wf, Json.WfItems, Json.WfFields]

theorem sortKeys_oneFields : (Json.obj oneFields).sortKeys = .obj oneFields := by
  have hsort (l : List (Str × Json)) (h : (l.map Prod.fst).Pairwise (· ≤ ·)) :
      (l.insertionSort fun e e' => e.1 ≤ e'.1) = l := (List.pairwise_map.1 h).insertionSort_eq
  have hfields : Json.sortFields oneFields = oneFields := by
    simp only [oneFields, Json.sortFields, Json.sortKeys, Json.sortItems]
    rw [hsort _ (by decide)]
  change Json.obj ((Json.sortFields oneFields).insertionSort fun e e' => e.1 ≤ e'.1) = .obj oneFields
  rw [hfields, hsort oneFields (by decide)]

theorem readDocument_one : readDocument onePeriod oneText.utf8 = .ok (oneChecked [] true).document := by
  have hloads : Json.loads oneText = some (.obj oneFields) := Json.loads_dump false wf_oneFields
  have hcanonical : canonicalFaultDocument oneFields = oneText.utf8 := by
    rw [canonicalFaultDocument, sortKeys_oneFields]
    rfl
  rw [readDocument_utf8 rfl hloads (by decide) hcanonical]
  decide +kernel

theorem readReveal_one (period : FaultPeriod) {doc : FaultDoc} (question : Str) (faulted : Bool)
    (hdoc : doc.seedSha256 = zeroHash) :
    readReveal period doc (.obj (oneReveal period.commitment question faulted)) =
      .ok (List.replicate 32 0, [.obj (oneEntry question faulted)]) := by
  have hseed : ((some zeroSeed).filter isHex64).bind Str.unhex = some (List.replicate 32 0) := by decide
  have hkeys : (oneReveal period.commitment question faulted).map Prod.fst = faultRevealKeys := rfl
  have hget {k : Str} {v : Json} := get?_of_mem (k := k) (v := v) hkeys (by decide)
  refine readReveal_obj (sameKeys_of_map hkeys) ?_ ?_ ?_ hdoc.symm ?_
  · rw [hget (.head _)]
    rfl
  · rw [hget (.tail _ (.head _))]
    rfl
  · rw [hexOf, hget (.tail _ (.tail _ (.head _)))]
    exact hseed
  · exact hget (.tail _ (.tail _ (.tail _ (.head _))))

theorem rawEntry_one (question : Str) (faulted : Bool) :
    rawEntry (.obj (oneEntry question faulted)) =
      some ⟨['j'], some (.str ['m']), some (.str "no_reveal".toList), question, [], faulted⟩ := by
  have hkeys : (oneEntry question faulted).map Prod.fst = faultEntryKeys := rfl
  have hget {k : Str} {v : Json} := get?_of_mem (k := k) (v := v) hkeys (by decide)
  unfold rawEntry
  dsimp only
  rw [sameKeys_of_map hkeys, if_pos rfl, hget (.head _), hget (.tail _ (.head _)), hget (.tail _ (.tail _ (.head _))),
    hget (.tail _ (.tail _ (.tail _ (.head _)))), hget (.tail _ (.tail _ (.tail _ (.tail _ (.head _))))),
    hget (.tail _ (.tail _ (.tail _ (.tail _ (.tail _ (.head _))))))]
  rfl

theorem readFault_one {doc : FaultDoc} (seed : List UInt8) (question : Str) (faulted : Bool)
    (hbps : doc.faultBps = 10000) (hclasses : doc.classes = ["no_reveal".toList]) (htraps : doc.traps.has ['m'] = true) :
    readFault doc seed .empty (.obj (oneEntry question faulted)) = .ok (oneChecked question faulted).faults := by
  have htrap : (text? (some (Json.str ['m']))).filter doc.traps.has = some ['m'] := by
    rw [text?, Option.filter_some, if_pos htraps]
  have hclass : (text? (some (Json.str "no_reveal".toList))).filter (fun c => decide (c ∈ ["no_reveal".toList])) =
      some "no_reveal".toList := by
    rw [text?, Option.filter_some, if_pos (decide_eq_true (List.mem_singleton_self _))]
  unfold readFault
  rw [rawEntry_one, hbps, hclasses]
  dsimp only
  rw [if_neg (by decide), htrap]
  dsimp only
  rw [hclass]
  dsimp only
  rw [faultDraw_all, if_pos rfl]
  rfl

theorem checkFaultReveal_of {period : FaultPeriod} {docBytes : List UInt8} {reveal e : Json} {doc : FaultDoc}
    {seed : List UInt8} {faults : Ordered Str FaultEntry} (hdoc : readDocument period docBytes = .ok doc)
    (hreveal : readReveal period doc reveal = .ok (seed, [e])) (hread : readFault doc seed .empty e = .ok faults) :
    checkFaultReveal period docBytes reveal = .ok ⟨doc, seed, faults⟩ := by
  unfold checkFaultReveal
  rw [hdoc]
  dsimp only
  rw [hreveal]
  dsimp only
  rw [List.foldlM_cons, hread]
  rfl

theorem checkFaultReveal_one (question : Str) (faulted : Bool) :
    checkFaultReveal onePeriod oneText.utf8 (.obj (oneReveal onePeriod.commitment question faulted)) =
      .ok (oneChecked question faulted) :=
  checkFaultReveal_of readDocument_one (readReveal_one _ _ _ rfl) (readFault_one _ _ _ rfl rfl rfl)

/-- Of the two reveals neither leaves the request out. -/
theorem faultReveal_fixed_one :
    ((oneChecked ['a'] true).faults.get? ['j']).map FaultEntry.core =
      ((oneChecked ['b'] false).faults.get? ['j']).map FaultEntry.core := by
  have hp (question : Str) (faulted : Bool) : ListsProgramme [⟨['j'], some ['g'], some ['m']⟩]
      (.ofList [(['j'], 5)]) ['g'] 0 9 (oneChecked question faulted) := by
    intro jid e he _
    obtain ⟨rfl, rfl⟩ := Prod.mk.inj (List.mem_singleton.1 (Ordered.get?_eq_some.1 he))
    rfl
  exact (faultReveal_fixed onePeriod oneText.utf8 oneText.utf8 (.obj (oneReveal _ ['a'] true))
    (.obj (oneReveal _ ['b'] false)) _ _
    (checkFaultReveal_one _ _) (checkFaultReveal_one _ _) (fun _ => rfl) (fun _ => rfl)
    [⟨['j'], some ['g'], some ['m']⟩] (.ofList [(['j'], 5)]) ['g'] 0 9 (hp _ _) (hp _ _) (by decide +kernel)
    (by decide +kernel) ['j'] rfl).1

end Dendra.Season.Faults
