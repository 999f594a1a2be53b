import Dendra.Reveal.Jury

/-!
# The recipients of a reveal

A chain and a reveal worker that asks it. The worker keeps a jury that it read, because the chain does not move it.

* `Truthful`: the command line prints what the chain answers, if it succeeds; anything may fail.
* `Joint.Step`: the chain moves on, or is restarted; the worker reveals a job; it forgets a jury.
* `jury_sealed`: the jury of a job does not move until the job is resolved, and every copy is sealed to a member of it.
-/

namespace Dendra.Reveal

open Jobs (Chain Ctx WfJobId view Later Descends)
open Relation (ReflTransGen)

/-! ## The two together -/

/-- `seen` is the jury that the chain answered when the worker read the one it keeps; no program reads it. -/
structure Joint where
  chain : Jobs.State
  juries : Str → Option (List Str)
  seen : Str → List Str

/-- The jury of a job, in the order of its anchor. -/
def juryOf (s : Jobs.State) (job : Str) : List Str := Jobs.anchoredSeats s job

def entryOf (m : Jobs.Miner) : Entry := .record m.minerId m.encPubkey

section Runs

variable [Chain] (usable : Str → Bool) (me : Str)

/-- A query that succeeds prints what the chain answers, and leaves an empty list out; a registry that is read is the
chain's. -/
structure Truthful (s : Jobs.State) (job : Str) (x : World) : Prop where
  audit : ∀ a field foreign, x.audit = some a → a.rc = some 0 → a.out = .object field foreign →
    ∃ members height, auditCommitteeQuery job false s = .ok (members, height) ∧
      (field = some (.list (members.map some)) ∨ members = [] ∧ field = none)
  miners : ∀ miners, x.miners = some (some miners) → miners = s.funds.miners.entries.map entryOf

/-- A job is revealed: the plan it was revealed under is kept. -/
def Joint.served (job : Str) (x : World) (t : Joint) : Joint :=
  { t with
    juries := Function.update t.juries job ((revealDisputedJob usable me job x (t.juries job)).1.plan <|> t.juries job)
    seen := if kept (t.juries job) then t.seen else Function.update t.seen job (juryOf t.chain job) }

inductive Joint.Step (t : Joint) : Joint → Prop
  | chain {s : Jobs.State} (h : Later t.chain s) : Step t { t with chain := s }
  | reveal {job : Str} {x : World} (hx : Truthful t.chain job x) : Step t (t.served usable me job x)
  /-- Jobs were revealed, or left the set, or the process is new. -/
  | forget {p : Str → Bool} : Step t { t with juries := fun job => if p job then t.juries job else none }

/-- A chain from its genesis, and a worker that read nothing. -/
def Joint.Init (t : Joint) : Prop := Jobs.Genesis t.chain ∧ ∀ job, t.juries job = none

def Joint.Runs (t : Joint) : Prop := ∃ t₀ : Joint, t₀.Init ∧ ReflTransGen (Joint.Step usable me) t₀ t

/-! ## The invariant -/

/-- A jury is the one that the chain has, until the job is resolved. -/
structure Current (s : Jobs.State) (job : Str) (jury : List Str) : Prop where
  wf : WfJobId job
  jury : (view s job).Resolved ∨ juryOf s job = jury ∧ ∃ raw, s.juries.auditCommittee.get job = some raw

/-- What the worker keeps are members of that jury, other than itself. -/
structure Joint.Inv (t : Joint) : Prop where
  chain : Descends t.chain
  juries : ∀ job members, t.juries job = some members →
    members ≠ [] ∧ Current t.chain job (t.seen job) ∧ ∀ m ∈ members, m ∈ t.seen job ∧ m ≠ me

end Runs

section Lemmas

variable [Chain] {usable : Str → Bool} {me job : Str} {s s' : Jobs.State} {t t' : Joint} {x : World} {jury : List Str}

theorem Current.later (h : Current s job jury) (hs : Descends s) (hl : Later s s') : Current s' job jury := by
  refine ⟨h.wf, ?_⟩
  rcases h.jury with hr | ⟨hjury, raw, hraw⟩
  · exact .inl (hs.later_resolved h.wf hl hr)
  · refine (hs.later_jury h.wf hl hraw).imp id fun hget => ⟨?_, raw, hget⟩
    rw [← hjury, juryOf, juryOf, Jobs.anchoredSeats, Jobs.anchoredSeats, hget, hraw]

omit [Chain] in
/-- A jury with a member is anchored. -/
theorem anchor_of_mem {m : Str} (h : m ∈ juryOf s job) : ∃ raw, s.juries.auditCommittee.get job = some raw := by
  cases hraw : s.juries.auditCommittee.get job with
  | some raw => exact ⟨raw, rfl⟩
  | none =>
    rw [juryOf, Jobs.anchoredSeats, hraw] at h
    cases h

omit [Chain] in
/-- A text that is trimmed to nothing is blank. -/
theorem isSpace_of_trimSpace {raw : Str} (h : Str.trimSpace raw = []) : ∀ a ∈ raw, Str.isSpace a = true := by
  have hlast : ∀ a ∈ raw.dropWhile Str.isSpace, Str.isSpace a = true := by
    rw [Str.trimSpace, List.reverse_eq_nil_iff, List.dropWhile_eq_nil_iff] at h
    exact fun a ha => h a (List.mem_reverse.2 ha)
  refine List.dropWhile_eq_nil_iff.1 ?_
  cases hdrop : raw.dropWhile Str.isSpace with
  | nil => rfl
  | cons b bs =>
    have hb : Str.isSpace b = true := hlast b (by rw [hdrop]; exact List.mem_cons_self)
    have hhead := List.head?_dropWhile_not Str.isSpace raw
    rw [hdrop] at hhead
    simp [hb] at hhead

omit [Chain] in
/-- The members of an anchor, whether or not the text is looked at first. -/
theorem members_of_blank {raw : Str} (h : Str.trimSpace raw = []) :
    ((Str.split raw ',').map Str.trimSpace).filter (fun m => decide (m ≠ [])) = [] := by
  have hcomma : ',' ∉ raw := fun hc => by
    have hspace := isSpace_of_trimSpace h ',' hc
    revert hspace
    decide
  have hsplit : Str.split raw ',' = [raw] := by
    have hjoin : Str.join [raw] ',' = raw := List.intercalate_singleton
    conv_lhs => rw [← hjoin]
    exact Str.split_join (by simpa using hcomma) (by simp)
  rw [hsplit, List.map_singleton, h]
  rfl

omit [Chain] in
/-- The query answers the anchored jury. -/
theorem auditCommitteeQuery_ok {members : List Str} {height : UInt64}
    (h : auditCommitteeQuery job false s = .ok (members, height)) :
    s.jobs.has job = true ∧ members = juryOf s job := by
  unfold auditCommitteeQuery at h
  split at h
  · cases h
  · split at h
    · cases h
    · next hjob =>
      simp only [Bool.false_eq_true, if_false] at h
      split at h
      · cases h
      · next raw hraw =>
        cases h
        refine ⟨by simpa using hjob, ?_⟩
        rw [juryOf, Jobs.anchoredSeats, hraw]
        simp only
        split
        · next hblank => exact members_of_blank hblank
        · rfl

omit [Chain] in
/-- What is read of a truthful answer is the jury. -/
theorem Truthful.read (hx : Truthful s job x) {members : List Str} (h : readJury x.audit = .read members) :
    s.jobs.has job = true ∧ ∀ m, m ∈ members ↔ m ∈ juryOf s job := by
  obtain ⟨a, field, foreign, haudit, hrc, hout, hfield⟩ := readJury_read h
  obtain ⟨ms, height, hquery, hprinted⟩ := hx.audit a field foreign haudit hrc hout
  obtain ⟨hjob, rfl⟩ := auditCommitteeQuery_ok hquery
  refine ⟨hjob, fun m => ?_⟩
  rcases hfield with ⟨items, rfl, hread⟩ | ⟨rfl, rfl⟩
  · obtain hitems : items = (juryOf s job).map some := by
      rcases hprinted with h | ⟨-, h⟩
      · exact Field.list.inj (Option.some.inj h)
      · cases h
    rw [mem_readMembers hread, hitems]
    simp
  · rcases hprinted with h | ⟨h, -⟩
    · cases h
    · rw [h]

/-- The plan of a job is a part of the jury that was seen. -/
theorem Joint.Inv.plan (hi : t.Inv me) (hx : Truthful t.chain job x)
    (hseal : (planOf me x (t.juries job)).action = .seal) :
    (planOf me x (t.juries job)).members ≠ [] ∧ Current t.chain job ((t.served usable me job x).seen job) ∧
      ∀ m ∈ (planOf me x (t.juries job)).members, m ∈ (t.served usable me job x).seen job ∧ m ≠ me := by
  unfold planOf at hseal ⊢
  split
  · next m members hcached =>
    have hseen : (t.served usable me job x).seen = t.seen := if_pos (by rw [hcached]; rfl)
    rw [hseen]
    exact hi.juries job _ hcached
  · next hcached =>
    have hfresh : kept (t.juries job) = false := by
      rcases hj : t.juries job with _ | _ | ⟨m, members⟩
      · rfl
      · rfl
      · exact absurd hj (hcached m members)
    have hseen : (t.served usable me job x).seen job = juryOf t.chain job := by
      show (if kept (t.juries job) = true then t.seen else Function.update t.seen job (juryOf t.chain job)) job = _
      rw [hfresh, if_neg Bool.false_ne_true, Function.update_self]
    rw [hseen]
    split at hseal
    · next m members hj => exact absurd hj (hcached m members)
    · obtain ⟨members, hread, hmembers, hne⟩ := planReveal_seal hseal
      obtain ⟨hjob, hjury⟩ := hx.read hread
      have hpart : ∀ m ∈ (planReveal me x.audit x.redo).members, m ∈ juryOf t.chain job ∧ m ≠ me := by
        intro m hm
        rw [hmembers, List.mem_filter, decide_eq_true_eq] at hm
        exact ⟨(hjury m).1 hm.1, hm.2⟩
      refine ⟨hne, ⟨hi.chain.inv.1.jobs job hjob, .inr ⟨rfl, ?_⟩⟩, hpart⟩
      obtain ⟨m, hm⟩ := List.exists_mem_of_ne_nil _ hne
      exact anchor_of_mem (hpart m hm).1

theorem Joint.Step.inv (hi : t.Inv me) (h : Joint.Step usable me t t') : t'.Inv me := by
  cases h with
  | chain h =>
    refine ⟨hi.chain.later h, fun job members hm => ?_⟩
    obtain ⟨hne, hcurrent, hpart⟩ := hi.juries job members hm
    exact ⟨hne, hcurrent.later hi.chain h, hpart⟩
  | @reveal job x hx =>
    refine ⟨hi.chain, fun k members hm => ?_⟩
    by_cases hk : k = job
    · subst hk
      have hm : Function.update t.juries k
          ((revealDisputedJob usable me k x (t.juries k)).1.plan <|> t.juries k) k = some members := hm
      rw [Function.update_self] at hm
      cases hplan : (revealDisputedJob usable me k x (t.juries k)).1.plan with
      | some ms =>
        rw [hplan] at hm
        obtain rfl : ms = members := Option.some.inj hm
        obtain ⟨hseal, rfl⟩ := revealDisputedJob_plan hplan
        exact hi.plan hx hseal
      | none =>
        rw [hplan] at hm
        have hm : t.juries k = some members := hm
        obtain ⟨hne, hrest⟩ := hi.juries k members hm
        have hkept : kept (t.juries k) = true := by
          rw [hm]
          cases members with
          | nil => exact absurd rfl hne
          | cons m ms => rfl
        have hseen : (t.served usable me k x).seen = t.seen := if_pos hkept
        rw [hseen]
        exact ⟨hne, hrest⟩
    · have hjuries : (t.served usable me job x).juries k = t.juries k := Function.update_of_ne hk _ _
      have hseen : (t.served usable me job x).seen k = t.seen k := by
        show (if kept (t.juries job) = true then t.seen else Function.update t.seen job (juryOf t.chain job)) k = _
        split
        · rfl
        · exact Function.update_of_ne hk _ _
      rw [hseen]
      exact hi.juries k members (hjuries ▸ hm)
  | @forget p =>
    refine ⟨hi.chain, fun k members hm => hi.juries k members ?_⟩
    have hm : (if p k then t.juries k else none) = some members := hm
    split at hm
    · exact hm
    · cases hm

theorem Joint.Runs.next (h : t.Runs usable me) (hs : Joint.Step usable me t t') : t'.Runs usable me := by
  obtain ⟨t₀, hi, h⟩ := h
  exact ⟨t₀, hi, h.tail hs⟩

/-- The worker starts when the chain is there. -/
theorem runs_of_descends (h : Descends s) : (⟨s, fun _ => none, fun _ => []⟩ : Joint).Runs usable me := by
  obtain ⟨s₀, hg, h⟩ := h
  refine ⟨⟨s₀, fun _ => none, fun _ => []⟩, ⟨hg, fun _ => rfl⟩, ?_⟩
  induction h with
  | refl => exact .refl
  | tail _ hl ih => exact ih.tail (.chain hl)

theorem Joint.Runs.inv (h : t.Runs usable me) : t.Inv me := by
  obtain ⟨t₀, ⟨hchain, hnone⟩, h⟩ := h
  induction h with
  | refl => exact ⟨⟨t₀.chain, hchain, .refl⟩, fun job members hm => by rw [hnone] at hm; cases hm⟩
  | tail _ hs ih => exact hs.inv ih

end Lemmas

/-! ## The loop of the worker -/

section Loop

variable [Chain] {usable : Str → Bool} {cfg : Settings} {ρ : Round} {r : Row} {s : System} {t : Joint} {x : World}

omit [Chain] in
theorem juries_file (job : Str) (s : System) : (System.file cfg job s).worker.juries = s.worker.juries := by
  unfold System.file
  split
  · rfl
  · split <;> rfl

/-- A row of a round is a reveal, and maybe a jury that is forgotten, or it leaves the juries alone. -/
theorem rowTurn_steps (hj : t.juries = s.worker.juries) (hx : Truthful t.chain r.job x)
    (hr : ρ.reveal r.job (s.worker.juries r.job) =
      (revealDisputedJob usable cfg.me r.job x (s.worker.juries r.job)).1) :
    ∃ t', ReflTransGen (Joint.Step usable cfg.me) t t' ∧ t'.chain = t.chain ∧
      t'.juries = (rowTurn cfg ρ r s).1.worker.juries := by
  have hserved : (t.served usable cfg.me r.job x).juries =
      Function.update s.worker.juries r.job
        ((ρ.reveal r.job (s.worker.juries r.job)).plan <|> s.worker.juries r.job) := by
    rw [hr, ← hj]
    rfl
  have hreveal : ReflTransGen (Joint.Step usable cfg.me) t (t.served usable cfg.me r.job x) := .single (.reveal hx)
  unfold rowTurn
  simp only
  split
  · exact ⟨t, .refl, rfl, hj⟩
  · split
    · exact ⟨t, .refl, rfl, hj⟩
    · split
      · exact ⟨t, .refl, rfl, hj⟩
      · split
        · refine ⟨_, hreveal.tail (Joint.Step.forget (p := fun job => decide (job ≠ r.job))), rfl, ?_⟩
          rw [juries_file]
          funext job
          show (if decide (job ≠ r.job) = true then (t.served usable cfg.me r.job x).juries job else none) =
            (Function.update (Function.update s.worker.juries r.job
              ((ρ.reveal r.job (s.worker.juries r.job)).plan <|> s.worker.juries r.job)) r.job none) job
          rw [hserved]
          by_cases hjob : job = r.job
          · rw [hjob, if_neg (by simp), Function.update_self]
          · rw [if_pos (by simpa using hjob)]
            exact (Function.update_of_ne hjob _ _).symm
        · exact ⟨_, hreveal, rfl, hserved⟩
        · exact ⟨_, hreveal, rfl, hserved⟩
        · exact ⟨_, hreveal, rfl, hserved⟩

/-- At the end of a round the juries of the jobs that left the set are forgotten. -/
theorem keep_step (hj : t.juries = s.worker.juries) (mine : List Str) :
    ∃ t', Joint.Step usable cfg.me t t' ∧ t'.chain = t.chain ∧ t'.juries = (s.worker.keep mine).juries := by
  refine ⟨_, Joint.Step.forget (p := mine.contains), rfl, ?_⟩
  rw [hj]
  rfl

end Loop

/-! ## The result -/

section Result

variable [Chain] {usable : Str → Bool} {me : Str}

/-- The key of a copy is the anchored one of a member that anchored one, else the one that the relay has of it. -/
structure SealedTo (s : Jobs.State) (x : World) (c : Copy) (m : Jobs.Miner) : Prop where
  registered : s.miner c.member = some m
  anchored : strip m.encPubkey ≠ [] → c.key = strip m.encPubkey
  fallback : strip m.encPubkey = [] → x.pub c.member = some (some c.key)

theorem copy_sealed {t : Joint} {job : Str} {x : World} {c : Copy} (ht : t.Runs usable me) (hx : Truthful t.chain job x)
    (hc : c ∈ (revealDisputedJob usable me job x (t.juries job)).2) :
    c.job = job ∧ c.member ≠ me ∧ c.member ∈ (t.served usable me job x).seen job ∧
      (t.chain.resolved job = false → juryOf t.chain job = (t.served usable me job x).seen job) ∧
      usable c.key = true ∧ ∃ m, SealedTo t.chain x c m := by
  obtain ⟨hseal, hjob, miners, hminers, hkeyed⟩ := revealDisputedJob_copies hc
  obtain ⟨-, hcurrent, hpart⟩ := ht.inv.plan hx hseal
  obtain ⟨hmem, hme⟩ := hpart c.member hkeyed.member
  refine ⟨hjob, hme, hmem, fun hopen => ?_, hkeyed.usable, ?_⟩
  · rcases hcurrent.jury with hr | ⟨hjury, -⟩
    · rw [Jobs.resolved_iff.2 hr] at hopen
      cases hopen
    · exact hjury
  · obtain ⟨e, he, hid, hkey⟩ := hkeyed.listed
    rw [hx.miners miners hminers, List.mem_map] at he
    obtain ⟨m, hm, rfl⟩ := he
    have hon : (entryOf m).onchain = strip m.encPubkey := rfl
    refine ⟨m, Table.get?_eq_some_iff.2 ⟨hm, hid⟩, fun hne => ?_, fun hempty => ?_⟩
    · rcases hkey with ⟨-, hk⟩ | ⟨h0, -⟩
      · exact hk
      · exact absurd h0 hne
    · rcases hkey with ⟨hne, -⟩ | ⟨-, hk⟩
      · exact absurd hempty hne
      · exact hk

/-- The jury of a job does not move until the job is resolved, its height but for a restart, which keeps its age; and a
copy goes to a member of the jury that the worker read, which is the one of the chain as long as the job is not
resolved. -/
theorem jury_sealed :
    (∀ {s s' : Jobs.State} {j raw : Str} {x y : UInt64}, Descends s → Jobs.Sitting s j raw x → Jobs.Ages s x s' y →
      s'.resolved j = false → Jobs.Sitting s' j raw y) ∧
    ∀ {t : Joint} {job : Str} {x : World} {c : Copy}, t.Runs usable me → Truthful t.chain job x →
      c ∈ (revealDisputedJob usable me job x (t.juries job)).2 →
      c.job = job ∧ c.member ≠ me ∧ c.member ∈ (t.served usable me job x).seen job ∧
        (t.chain.resolved job = false → juryOf t.chain job = (t.served usable me job x).seen job) ∧
        usable c.key = true ∧ ∃ m, SealedTo t.chain x c m :=
  ⟨fun hs h hrun hopen => Jobs.jury_fixed hs h hrun hopen, fun ht hx hc => copy_sealed ht hx hc⟩

end Result

/-! ## A run -/

open Jobs (blockAt nameOf idOf ticket client free summoned forked)

/-- The primary of the job of the runs. -/
def primary : Str := idOf 2

def ownKey : Str := List.replicate 64 '1'

def jurorKey : Str := List.replicate 64 '2'

/-- The jury is summoned; then the primary and one juror anchor keys. -/
def keyed : List (Ctx × Jobs.Action) := summoned ++
  [(blockAt 7, .rotateMinerKeys ⟨nameOf 2, idOf 2, ownKey, []⟩),
    (blockAt 7, .rotateMinerKeys ⟨nameOf 0, idOf 0, jurorKey, []⟩)]

/-- Everything is answered, and the relay has the key of the primary under the name of every juror. -/
def swapped (s : Jobs.State) : World where
  audit := some ⟨some 0, false, .object (some (.list ((juryOf s ticket).map some))) false⟩
  redo := none
  request := some true
  response := some true
  miners := some (some (s.funds.miners.entries.map entryOf))
  pub _ := some (some ownKey)
  put _ := .stored

/-- Any text is a key. -/
def anyKey (_ : Str) : Bool := true

/-- A round later the jury cannot be read. -/
def unread (s : Jobs.State) : World := { swapped s with audit := none }

theorem truthful_swapped {s : Jobs.State} (h : (auditCommitteeQuery ticket false s).isOk = true) :
    Truthful s ticket (swapped s) := by
  refine ⟨fun a field foreign ha hrc hout => ?_, fun miners hm => ?_⟩
  · cases ha
    cases hout
    obtain ⟨⟨members, height⟩, hquery⟩ := Jobs.exists_ok h
    obtain ⟨-, rfl⟩ := auditCommitteeQuery_ok hquery
    exact ⟨_, height, hquery, .inl rfl⟩
  · exact (Option.some.inj (Option.some.inj hm)).symm

/-- What the run below ends in. -/
def Sealing (s : Jobs.State) : Prop :=
  (forked s).isOk = true ∧ s.jobs.has ticket = true ∧ (s.juries.auditCommittee.get ticket).isSome = true ∧
    s.juries.committeeSince.get ticket = some 6 ∧ s.resolved ticket = false ∧
    (Jobs.outcome (forked s) s).resolved ticket = false ∧
    (Jobs.outcome (forked s) s).juries.committeeSince.get ticket = some 7 ∧
    (auditCommitteeQuery ticket false s).isOk = true ∧
    ((revealDisputedJob anyKey primary ticket (swapped s) none).2.any fun c => decide (c.key = ownKey)) = true ∧
    (s.miner primary).map Jobs.Miner.encPubkey = some ownKey ∧
    (juryOf s ticket).all (fun m => decide ((s.miner m).map Jobs.Miner.encPubkey ≠ some ownKey)) = true ∧
    ((revealDisputedJob anyKey primary ticket (unread s)
      ((revealDisputedJob anyKey primary ticket (swapped s) none).1.plan <|> none)).2.any fun c =>
        decide (c.key = jurorKey)) = true

instance (s : Jobs.State) : Decidable (Sealing s) := by
  unfold Sealing
  infer_instance

theorem exists_sealing : ∃ s, Descends s ∧ Sealing s := by
  obtain ⟨s, hs, ht⟩ := Jobs.exists_reachable (fun _ _ _ => trivial)
    (Jobs.reachable_village Jobs.validate_unwindMode (by decide) fun _ _ _ _ => trivial)
    (show Jobs.endsIn free (fun s => decide (Sealing s)) keyed (Jobs.village Jobs.unwindMode) = true by
      rewrite [Jobs.application_eq_tabled]
      decide +kernel)
  exact ⟨s, Jobs.descends_of_reachable hs, of_decide_eq_true ht⟩

/-- The export at block 8, imported at block 9, keeps the jury and the age of its anchor; the worker seals to the jury
that it kept when it cannot be read. -/
theorem jury_sealed_run : ∃ s s' raw, Descends s ∧ Jobs.Sitting s ticket raw 6 ∧ forked s = .ok s' ∧
    Jobs.Sitting s' ticket raw 7 ∧ ∃ (t : Joint) (c : Copy), t.Runs anyKey primary ∧ t.chain = s ∧
      c ∈ (revealDisputedJob anyKey primary ticket (unread s) (t.juries ticket)).2 ∧ c.member ≠ primary ∧
      c.member ∈ juryOf s ticket ∧ ∃ m, SealedTo s (unread s) c m := by
  obtain ⟨s, hs, hok, hjob, hraw, hsince, hopen, hopen', -, hquery, -, -, -, hcopy⟩ := exists_sealing
  obtain ⟨raw, hraw⟩ := Option.isSome_iff_exists.1 hraw
  have himp : forked s = .ok (Jobs.outcome (forked s) s) := Jobs.eq_ok_outcome hok
  have hsit : Jobs.Sitting s ticket raw 6 := ⟨hjob, hraw, hsince⟩
  have hruns : (⟨s, fun _ => none, fun _ => []⟩ : Joint).Runs anyKey primary := runs_of_descends hs
  have hruns' := hruns.next (.reveal (truthful_swapped hquery))
  have hunread : Truthful s ticket (unread s) :=
    ⟨(fun _ _ _ ha => by cases ha), (truthful_swapped hquery).miners⟩
  have hrun : Jobs.Ages s 6 (Jobs.outcome (forked s) s) 7 := by
    have hage : Jobs.sinceElapsed (blockAt 9) (Jobs.elapsedSince (blockAt 8) 6) = 7 := by decide
    have hload : Jobs.initGenesis (blockAt 9) none (Jobs.exportGenesis (blockAt 8) s) (Jobs.genesis .default 0 0) =
        .ok (Jobs.outcome (forked s) s) := himp
    rw [← hage]
    exact Jobs.Ages.restart .here hload
  obtain ⟨c, hc, -⟩ := List.any_eq_true.1 hcopy
  generalize ht : (⟨s, fun _ => none, fun _ => []⟩ : Joint).served anyKey primary ticket (swapped s) = t at hruns'
  have hchain : t.chain = s := by rw [← ht]; rfl
  have hkept : t.juries ticket = ((revealDisputedJob anyKey primary ticket (swapped s) none).1.plan <|> none) := by
    rw [← ht]
    show Function.update (fun _ : Str => (none : Option (List Str))) ticket
      ((revealDisputedJob anyKey primary ticket (swapped s) none).1.plan <|> none) ticket = _
    rw [Function.update_self]
  rw [← hkept] at hc
  obtain ⟨-, hme, hmem, hjury, -, hkey⟩ := (jury_sealed).2 hruns' (hchain ▸ hunread) hc
  rw [hchain] at hjury hkey
  exact ⟨s, _, raw, hs, hsit, himp, (@jury_sealed _ anyKey primary).1 hs hsit hrun hopen', t, c, hruns',
    hchain, hc, hme, hjury hopen ▸ hmem, hkey⟩

/-- The height of the anchor moves with a restart. A juror without an anchored key gets its copy sealed to what the
relay has under its name: the key of the primary, which no juror anchored. -/
theorem jury_moved : ∃ s s' raw, Descends s ∧ Jobs.Sitting s ticket raw 6 ∧ forked s = .ok s' ∧
    s'.resolved ticket = false ∧ s'.juries.committeeSince.get ticket = some 7 ∧
    ∃ (t : Joint) (c : Copy), t.Runs anyKey primary ∧ t.chain = s ∧ Truthful s ticket (swapped s) ∧
      c ∈ (revealDisputedJob anyKey primary ticket (swapped s) (t.juries ticket)).2 ∧
      (s.miner primary).map Jobs.Miner.encPubkey = some c.key ∧
      ∀ m ∈ juryOf s ticket, (s.miner m).map Jobs.Miner.encPubkey ≠ some c.key := by
  obtain ⟨s, hs, hok, hjob, hraw, hsince, -, hopen', hsince', hquery, hcopy, hown, hothers, -⟩ := exists_sealing
  obtain ⟨raw, hraw⟩ := Option.isSome_iff_exists.1 hraw
  have himp : forked s = .ok (Jobs.outcome (forked s) s) := Jobs.eq_ok_outcome hok
  obtain ⟨c, hc, hkey⟩ := List.any_eq_true.1 hcopy
  have hkey : c.key = ownKey := of_decide_eq_true hkey
  refine ⟨s, _, raw, hs, ⟨hjob, hraw, hsince⟩, himp, hopen', hsince', _, c, runs_of_descends hs, rfl,
    truthful_swapped hquery, hc, hkey ▸ hown, fun m hm => ?_⟩
  rw [hkey]
  exact of_decide_eq_true (List.all_eq_true.1 hothers m hm)

end Dendra.Reveal
