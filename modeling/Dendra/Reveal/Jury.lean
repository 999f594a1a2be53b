import Dendra.Jobs.Seated
import Dendra.Lib.Ordered
import Dendra.Reveal.Worker

/-!
# The jury of a reveal

What `reveal_disputed_job` reads, and to whom it seals: `read_jury`, `decide_reveal`, `plan_reveal`, `committee_pubs`
and `reveal_job` of `reveal_helpers.py`, and `AuditCommittee` of `query_assigned_committee.go`, which answers them.

* `readJury`: three answers, never two.
* `committeePubs`: the keys of the members, in the order of the registry.
* `revealDisputedJob`: the outcome, and the copies that are deposited.

What is shown of an outcome, and why a jury was not read, are left out.
-/

namespace Dendra.Reveal

open Jobs (QueryErr)

/-! ## The query -/

/-- `AuditCommittee` of the chain, with the height that the jury is anchored at. -/
def auditCommitteeQuery (job : Str) (redo : Bool) (s : Jobs.State) : Except QueryErr (List Str × UInt64) :=
  if Str.trimSpace job = [] then .error ⟨.invalidArgument, "invalid request"⟩
  else if s.jobs.has job = false then .error ⟨.notFound, "unknown job"⟩
  else
    let key := if redo then Jobs.redoAnchorKey job else job
    match s.juries.auditCommittee.get key with
    | none =>
      .error ⟨.notFound, "no jury anchored for this job (the audit was never opened, or was deferred for want of an eligible pool) — this is not an empty jury"⟩
    | some raw =>
      .ok (((Str.split raw ',').map Str.trimSpace).filter fun m => decide (m ≠ []),
        (s.juries.committeeSince.get key).getD 0)

/-! ## What is read -/

/-- A value under `members`: an item of a list is a text, or something else. -/
inductive Field
  | notList
  | list (items : List (Option Str))

/-- What stands on stdout: an object, with `members` if it has it and whether it has a field that the response does not
have, or something else. -/
inductive Printed
  | other
  | object (members : Option Field) (foreign : Bool)

/-- What a query ends with. No return code: it did not run. -/
structure CliAnswer where
  rc : Option Int
  /-- stderr carries the status `NotFound` -/
  notFound : Bool
  out : Printed

/-- `JURY_READ`, `JURY_ABSENT`, `JURY_UNKNOWN`. -/
inductive JuryRead
  | read (members : List Str)
  | absent
  | unknown
  deriving DecidableEq

/-- The members, each once, or none if one of them is not a flat identifier. -/
def readMembers : List (Option Str) → List Str → Option (List Str)
  | [], acc => some acc
  | none :: _, _ => none
  | some m :: items, acc =>
    if Judge.safeJobId m = false then none
    else readMembers items (if acc.contains m then acc else acc ++ [m])

/-- `read_jury`. The outer `none` is a runner that raises. -/
def readJury : Option CliAnswer → JuryRead
  | none => .unknown
  | some a =>
    match a.rc with
    | none => .unknown
    | some rc =>
      if rc ≠ 0 then if a.notFound then .absent else .unknown
      else
        match a.out with
        | .other | .object (some .notList) _ => .unknown
        | .object (some (.list items)) _ =>
          match readMembers items [] with
          | none => .unknown
          | some members => .read members
        | .object none foreign => if foreign then .unknown else .read []

/-- The decisions of `decide_reveal`. -/
inductive Decision
  | seal
  | noRevealEmptyJury
  | noRevealHumanDispute
  | waitNoJury
  | waitUnreadable
  deriving DecidableEq

structure RevealPlan where
  action : Decision
  members : List Str

/-- `decide_reveal`. -/
def decideReveal (audit : JuryRead) (redo : Option JuryRead) (me : Str) : RevealPlan :=
  match audit with
  | .read members =>
    let members := members.filter fun m => decide (m ≠ me)
    if members ≠ [] then ⟨.seal, members⟩ else ⟨.noRevealEmptyJury, []⟩
  | .absent =>
    match redo with
    | some (.read _) => ⟨.noRevealHumanDispute, []⟩
    | some .absent => ⟨.waitNoJury, []⟩
    | some .unknown | none => ⟨.waitUnreadable, []⟩
  | .unknown => ⟨.waitUnreadable, []⟩

/-- `plan_reveal`. -/
def planReveal (me : Str) (audit redo : Option CliAnswer) : RevealPlan :=
  let audit := readJury audit
  decideReveal audit (if audit = .absent then some (readJury redo) else none) me

/-! ## The keys -/

/-- A miner of the registry, or of a list of ids. -/
inductive Entry
  | record (minerId encPubkey : Str)
  | legacy (minerId : Str)

def Entry.id : Entry → Str
  | .record m _ | .legacy m => m

def Entry.onchain : Entry → Str
  | .record _ key => strip key
  | .legacy _ => []

/-- `committee_pubs`; no result where the relay's answer raises. `usable` is `usable_pub`, and `pub` what the relay has
under `pub/<mid>`, if it is a text. -/
def committeePubs (usable : Str → Bool) (pub : Str → Option (Option Str)) (me : Str) (jury : List Str) :
    List Entry → Ordered Str Str → Option (Ordered Str Str)
  | [], pubs => some pubs
  | m :: miners, pubs =>
    let wanted := jury.filter fun j => decide (j ≠ [] ∧ j ≠ me)
    if m.id = [] ∨ m.id = me ∨ wanted.contains m.id = false then committeePubs usable pub me jury miners pubs
    else if m.onchain ≠ [] then
      committeePubs usable pub me jury miners (if usable m.onchain then pubs.set m.id m.onchain else pubs)
    else
      match pub m.id with
      | none => none
      | some none => committeePubs usable pub me jury miners pubs
      | some (some key) => committeePubs usable pub me jury miners (if usable key then pubs.set m.id key else pubs)

/-! ## The copies -/

/-- A copy of the prompt and the answer, sealed to a key and put under the slot of a juror. -/
structure Copy where
  job : Str
  member : Str
  key : Str

/-- What the deposit of a copy meets: it is stored, or one was; it is refused; or it raises. -/
inductive Put
  | stored
  | refused
  | raised

/-- `reveal_job`: the copies that were sent, and how many are stored; no number where a deposit raises. -/
def revealJob (put : Str → Put) (job : Str) : List (Str × Str) → List Copy × Option Nat
  | [] => ([], some 0)
  | (mid, key) :: targets =>
    match put mid with
    | .raised => ([⟨job, mid, key⟩], none)
    | .refused =>
      let r := revealJob put job targets
      (⟨job, mid, key⟩ :: r.1, r.2)
    | .stored =>
      let r := revealJob put job targets
      (⟨job, mid, key⟩ :: r.1, r.2.map (· + 1))

/-- What is answered while a job is revealed. `request` and `response` say whether the sealed prompt and the sealed
answer were read; an outer `none` is a call that raises. -/
structure World where
  audit : Option CliAnswer
  redo : Option CliAnswer
  request : Option Bool
  response : Option Bool
  miners : Option (Option (List Entry))
  pub : Str → Option (Option Str)
  put : Str → Put

/-- A plan that was kept is used if it has a member. -/
def kept : Option (List Str) → Bool
  | some (_ :: _) => true
  | _ => false

/-- The plan that a job is revealed under. -/
def planOf (me : Str) (x : World) (cached : Option (List Str)) : RevealPlan :=
  match cached with
  | some (m :: members) => ⟨.seal, m :: members⟩
  | _ => planReveal me x.audit x.redo

/-- `reveal_disputed_job`, with the handler of `main` around it. -/
def revealDisputedJob (usable : Str → Bool) (me job : Str) (x : World) (cached : Option (List Str)) :
    Outcome × List Copy :=
  let plan := planOf me x cached
  let unreadable : Outcome × List Copy := (⟨.unreadable, some plan.members⟩, [])
  if plan.action ≠ .seal then (⟨.held, none⟩, [])
  else
    match x.request with
    | none => (⟨.held, none⟩, [])
    | some false => unreadable
    | some true =>
      match x.response with
      | none => (⟨.held, none⟩, [])
      | some false => unreadable
      | some true =>
        match x.miners with
        | none => (⟨.held, none⟩, [])
        | some none => unreadable
        | some (some miners) =>
          match committeePubs usable x.pub me plan.members miners .empty with
          | none => (⟨.held, none⟩, [])
          | some pubs =>
            if pubs.items = [] then (⟨.held, some plan.members⟩, [])
            else
              match revealJob x.put job pubs.items with
              | (copies, none) => (⟨.held, none⟩, copies)
              | (copies, some n) =>
                (⟨if n ≥ pubs.items.length then .revealed else .incomplete, some plan.members⟩, copies)

/-! ## What is read, and what is sealed -/

theorem mem_readMembers {items : List (Option Str)} {acc members : List Str} (h : readMembers items acc = some members)
    {m : Str} : m ∈ members ↔ m ∈ acc ∨ some m ∈ items := by
  induction items generalizing acc with
  | nil =>
    cases h
    simp
  | cons item items ih =>
    cases item with
    | none => cases h
    | some k =>
      unfold readMembers at h
      split at h
      · cases h
      · rw [ih h, List.mem_cons, Option.some.injEq]
        split
        · next hk =>
          have hk : k ∈ acc := List.contains_iff_mem.1 hk
          constructor
          · rintro (h | h)
            · exact .inl h
            · exact .inr (.inr h)
          · rintro (h | rfl | h)
            · exact .inl h
            · exact .inl hk
            · exact .inr h
        · rw [List.mem_append, List.mem_singleton, or_assoc]

/-- A jury that is read was printed, and by a query that succeeded. -/
theorem readJury_read {a : Option CliAnswer} {members : List Str} (h : readJury a = .read members) :
    ∃ b field foreign, a = some b ∧ b.rc = some 0 ∧ b.out = .object field foreign ∧
      ((∃ items, field = some (.list items) ∧ readMembers items [] = some members) ∨ field = none ∧ members = []) := by
  cases a with
  | none => cases h
  | some b =>
    unfold readJury at h
    simp only at h
    split at h
    · cases h
    · next rc hrc =>
      split at h
      · split at h <;> cases h
      · next hzero =>
        obtain rfl : rc = 0 := not_not.1 hzero
        split at h
        · cases h
        · cases h
        · next items foreign hout =>
          split at h
          · cases h
          · next ms hms =>
            cases h
            exact ⟨b, _, foreign, rfl, hrc, hout, .inl ⟨items, rfl, hms⟩⟩
        · next foreign hout =>
          split at h
          · cases h
          · cases h
            exact ⟨b, _, foreign, rfl, hrc, hout, .inr ⟨rfl, rfl⟩⟩

/-- Only an audit jury that was read is sealed to, without the miner itself. -/
theorem planReveal_seal {me : Str} {audit redo : Option CliAnswer} (h : (planReveal me audit redo).action = .seal) :
    ∃ members, readJury audit = .read members ∧
      (planReveal me audit redo).members = members.filter (fun m => decide (m ≠ me)) ∧
      (planReveal me audit redo).members ≠ [] := by
  unfold planReveal decideReveal at h ⊢
  simp only at h ⊢
  cases haudit : readJury audit with
  | read members =>
    simp only [haudit] at h ⊢
    by_cases hne : members.filter (fun m => decide (m ≠ me)) ≠ []
    · simp only [if_pos hne]
      exact ⟨members, rfl, rfl, hne⟩
    · rw [if_neg hne] at h
      cases h
  | absent =>
    simp only [haudit, if_true] at h
    split at h <;> cases h
  | unknown =>
    rw [haudit] at h
    cases h

theorem mem_items_set {d : Ordered Str Str} {k v k' v' : Str} (h : (k, v) ∈ (d.set k' v').items) :
    k = k' ∧ v = v' ∨ (k, v) ∈ d.items := by
  rw [← Ordered.get?_eq_some, Ordered.get?_set] at h
  split at h
  · next hk =>
    cases h
    exact .inl ⟨hk, rfl⟩
  · exact .inr (Ordered.get?_eq_some.1 h)

/-- What a key that is sealed to is: the anchored one of a member that anchored one, else what the relay has of it. -/
structure Keyed (usable : Str → Bool) (pub : Str → Option (Option Str)) (me : Str) (jury : List Str)
    (miners : List Entry) (mid key : Str) : Prop where
  member : mid ∈ jury
  other : mid ≠ me
  usable : usable key = true
  listed : ∃ m ∈ miners, m.id = mid ∧ (m.onchain ≠ [] ∧ key = m.onchain ∨ m.onchain = [] ∧ pub mid = some (some key))

section Keys

variable {usable : Str → Bool} {pub : Str → Option (Option Str)} {me : Str} {jury : List Str}

theorem Keyed.mono {miners : List Entry} {m : Entry} {mid key : Str} (h : Keyed usable pub me jury miners mid key) :
    Keyed usable pub me jury (m :: miners) mid key :=
  { h with
    listed := by
      obtain ⟨k, hk, hrest⟩ := h.listed
      exact ⟨k, List.mem_cons_of_mem _ hk, hrest⟩ }

theorem committeePubs_keyed {miners : List Entry} {pubs pubs' : Ordered Str Str}
    (h : committeePubs usable pub me jury miners pubs = some pubs') {mid key : Str} (hm : (mid, key) ∈ pubs'.items) :
    (mid, key) ∈ pubs.items ∨ Keyed usable pub me jury miners mid key := by
  induction miners generalizing pubs with
  | nil =>
    cases h
    exact .inl hm
  | cons m miners ih =>
    unfold committeePubs at h
    simp only at h
    split at h
    · exact (ih h).imp id Keyed.mono
    · next hwanted =>
      simp only [not_or, Bool.not_eq_false, List.contains_iff_mem, List.mem_filter, decide_eq_true_eq] at hwanted
      obtain ⟨-, hme, hjury, -⟩ := hwanted
      have hput : ∀ k : Str, (m.onchain ≠ [] ∧ k = m.onchain ∨ m.onchain = [] ∧ pub m.id = some (some k)) →
          committeePubs usable pub me jury miners (if usable k then pubs.set m.id k else pubs) = some pubs' →
          (mid, key) ∈ pubs.items ∨ Keyed usable pub me jury (m :: miners) mid key := by
        intro k hk h
        rcases ih h with hmem | hkeyed
        · by_cases husable : usable k = true
          · rw [if_pos husable] at hmem
            rcases mem_items_set hmem with ⟨rfl, rfl⟩ | hmem
            · exact .inr ⟨hjury, hme, husable, m, List.mem_cons_self, rfl, hk⟩
            · exact .inl hmem
          · rw [if_neg husable] at hmem
            exact .inl hmem
        · exact .inr hkeyed.mono
      split at h
      · next hon => exact hput m.onchain (.inl ⟨hon, rfl⟩) h
      · next hon =>
        split at h
        · cases h
        · exact (ih h).imp id Keyed.mono
        · next k hk => exact hput k (.inr ⟨not_not.1 hon, hk⟩) h

theorem revealJob_copies {put : Str → Put} {job : Str} {targets : List (Str × Str)} {c : Copy}
    (h : c ∈ (revealJob put job targets).1) : c.job = job ∧ (c.member, c.key) ∈ targets := by
  induction targets with
  | nil => cases h
  | cons target targets ih =>
    obtain ⟨mid, key⟩ := target
    have hrest : c ∈ (revealJob put job targets).1 → c.job = job ∧ (c.member, c.key) ∈ (mid, key) :: targets :=
      fun h => ⟨(ih h).1, List.mem_cons_of_mem _ (ih h).2⟩
    have hfirst : c = ⟨job, mid, key⟩ → c.job = job ∧ (c.member, c.key) ∈ (mid, key) :: targets := by
      rintro rfl
      exact ⟨rfl, List.mem_cons_self⟩
    unfold revealJob at h
    split at h
    · exact hfirst (List.mem_singleton.1 h)
    · rcases List.mem_cons.1 h with h | h
      · exact hfirst h
      · exact hrest h
    · rcases List.mem_cons.1 h with h | h
      · exact hfirst h
      · exact hrest h

end Keys

/-- A copy goes to a member of the plan; without a plan that seals there is none. -/
theorem revealDisputedJob_copies {usable : Str → Bool} {me job : Str} {x : World} {cached : Option (List Str)}
    {c : Copy} (h : c ∈ (revealDisputedJob usable me job x cached).2) : (planOf me x cached).action = .seal ∧ c.job = job ∧
      ∃ miners, x.miners = some (some miners) ∧
        Keyed usable x.pub me (planOf me x cached).members miners c.member c.key := by
  unfold revealDisputedJob at h
  simp only at h
  split at h
  · cases h
  · next hseal =>
    refine ⟨not_not.1 hseal, ?_⟩
    split at h
    · cases h
    · cases h
    · split at h
      · cases h
      · cases h
      · split at h
        · cases h
        · cases h
        · next miners hminers =>
          split at h
          · cases h
          · next pubs hpubs =>
            split at h
            · cases h
            · have hcopy : c ∈ (revealJob x.put job pubs.items).1 := by
                split at h
                · next hr =>
                  rw [hr]
                  exact h
                · next hr =>
                  rw [hr]
                  exact h
              obtain ⟨hjob, hmem⟩ := revealJob_copies hcopy
              refine ⟨hjob, miners, hminers, ?_⟩
              rcases committeePubs_keyed hpubs hmem with h | h
              · cases h
              · exact h

/-- The plan that is kept is the one that the job was revealed under. -/
theorem revealDisputedJob_plan {usable : Str → Bool} {me job : Str} {x : World} {cached : Option (List Str)}
    {members : List Str} (h : (revealDisputedJob usable me job x cached).1.plan = some members) :
    (planOf me x cached).action = .seal ∧ (planOf me x cached).members = members := by
  unfold revealDisputedJob at h
  simp only at h
  split at h
  · cases h
  · next hseal =>
    refine ⟨not_not.1 hseal, ?_⟩
    have hplan : some (planOf me x cached).members = some members → (planOf me x cached).members = members :=
      fun e => Option.some.inj e
    split at h
    · cases h
    · exact hplan h
    · split at h
      · cases h
      · exact hplan h
      · split at h
        · cases h
        · exact hplan h
        · split at h
          · cases h
          · split at h
            · exact hplan h
            · split at h
              · cases h
              · exact hplan h

end Dendra.Reveal
