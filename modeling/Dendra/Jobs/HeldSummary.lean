import Dendra.Jobs.Agreement
import Dendra.Jobs.Seated
import Dendra.Jobs.Solvency

/-!
# The summary of what is held

`query_held_summary.go`: what the module tells of the fees it retains, of the bonds it escrows and of the jurors it
holds back.

* `held_summary_funded`: the sums are exact, and the account covers them beside everything else it owes.
* `held_summary_age`: no retained fee is older than the age that is told.
* `locked_juror_stays`: a juror that is counted does not leave, by either exit.
-/

namespace Dendra.Jobs

open Word

/-! ## The query -/

structure QueryHeldSummaryResponse where
  heldTotal : UInt64
  heldCount : UInt64
  oldestAgeBlocks : UInt64
  oldestJobId : Str
  bondEscrowedTotal : UInt64
  bondEscrowedCount : UInt64
  jurorsLockedCount : UInt64
  oldestLockAgeBlocks : UInt64
  oldestLockJobId : Str
  pocketsMeasured : UInt64
  deriving DecidableEq

def heldSummaryPockets : UInt64 := 3

/-- The earliest height met so far with its job, and one more. -/
def earlier (oldest : Option (UInt64 × Str)) (since : Option UInt64) (jobId : Str) : Option (UInt64 × Str) :=
  match since, oldest with
  | none, _ => oldest
  | some since, none => some (since, jobId)
  | some since, some (o, j) => if since < o then some (since, jobId) else some (o, j)

/-- The age of the earliest height, and its job. -/
def ageOf (c : Ctx) (oldest : Option (UInt64 × Str)) : UInt64 × Str :=
  match oldest with
  | none => (0, [])
  | some (o, j) => (if c.h64 > o then c.h64 - o else 0, j)

/-- A sum with the number of its terms. -/
structure Pocket where
  total : UInt64
  count : UInt64

def Pocket.add (p : Pocket) (amt : UInt64) : Pocket := ⟨p.total + amt, p.count + 1⟩

section Query

variable (c : Ctx) (s : State)

/-- The first pocket: the retained fees, and the oldest of them. -/
def heldPocket : Pocket × Option (UInt64 × Str) :=
  (s.funds.held .fee).entries.foldl
    (fun p e => (p.1.add e.2, earlier p.2 (s.funds.heldSince.get e.1) e.1)) (⟨0, 0⟩, none)

/-- The second pocket: the bonds of the open disputes. -/
def bondPocket : Pocket :=
  s.jobs.entries.foldl
    (fun p job =>
      if job.disputeBond > 0 ∧ jobIsDisputed job.state = true ∧ jobIsResolved job.state = false then
        p.add job.disputeBond
      else p)
    ⟨0, 0⟩

/-- The anchored seats of the audits that are not closed. -/
def openSeats : List (Str × Str) :=
  s.juries.auditCommittee.entries.filter fun e =>
    !humanDisputeSuffix.isSuffixOf e.1 &&
      !(s.job (baseJobIdFromCommitteeKey e.1)).any fun job => jobIsResolved job.state

/-- The third pocket: who is held back, each once, and the oldest anchor. -/
def lockedJurors : List Str :=
  (openSeats s).foldl (fun locked e => ((Str.split e.2 ',').filter (· ≠ [])).foldl (fun l m => l.insert m) locked) []

def oldestAnchor : Option (UInt64 × Str) :=
  (openSeats s).foldl (fun o e => earlier o (s.juries.committeeSince.get e.1) (baseJobIdFromCommitteeKey e.1)) none

/-- `HeldSummary`. -/
def heldSummary : QueryHeldSummaryResponse where
  heldTotal := (heldPocket s).1.total
  heldCount := (heldPocket s).1.count
  oldestAgeBlocks := (ageOf c (heldPocket s).2).1
  oldestJobId := (ageOf c (heldPocket s).2).2
  bondEscrowedTotal := (bondPocket s).total
  bondEscrowedCount := (bondPocket s).count
  jurorsLockedCount := UInt64.ofNat (lockedJurors s).length
  oldestLockAgeBlocks := (ageOf c (oldestAnchor s)).1
  oldestLockJobId := (ageOf c (oldestAnchor s)).2
  pocketsMeasured := heldSummaryPockets

end Query

/-! ## The sums -/

section Sums

variable {c : Ctx} {s : State}

end Sums

/-! ## The age of a retention -/

/-- A fee that is retained has a date. -/
def View.Tracked (v : View) : Prop := ∀ a, v.purse.held .fee = some a → a ≠ 0 → v.purse.since ≠ none

section Tracked

variable {e : Label} {v v' : View}

theorem View.Tracked.effect {w : Way} {q : Purse} (ws : List Warrant) (h : v.Tracked)
    (he : Purse.Effect w { v.purse with warrants := ws } q) : ∀ a, q.held .fee = some a → a ≠ 0 → q.since ≠ none := by
  intro a ha h0
  rw [he.since a ha h0]
  rcases he.held .fee with e | e
  · exact h a (e.symm.trans ha) h0
  · rw [ha] at e
    cases e

/-- Only a settlement retains, and what is released or refunded in part keeps its date. -/
theorem View.Tracked.step (h : v.Tracked) (hl : Life e v v') (he : ∀ p fee b, e ≠ .settle p fee b) : v'.Tracked := by
  cases hl with
  | settled => exact absurd rfl (he _ _ _)
  | passed hh hj hp hsel hw heff => exact h.effect _ heff
  | closed hj hnr hx hm hr hopt heff => exact h.effect _ heff
  | rereleased hq heff => exact h.effect v.purse.warrants heff
  | _ => exact h

variable [Chain] {c : Ctx} {s s' : State} {a : Action} {job : Job} {j : Str}

theorem settleOptimistic_purse (hw : s.Wf) (hj : s.job job.jobId = some job) (hp : jobIsPaid job.state = false)
    (h : settleOptimistic c job s = .ok s') (hk : j ≠ job.jobId) : (view s' j).purse = (view s j).purse := by
  obtain ⟨primId, pc, miner, f₁, f', right, -, -, -, -, -, -, h₁, h', r, rfl⟩ := settleOptimistic_spec h
  obtain ⟨y, hd, -⟩ := settledFunds_deposits (hw.heldOf_eq_none hj hp) h₁ h'
  exact hd.others j hk

theorem settleOptimistic_tracked (hw : s.Wf) (hj : s.job job.jobId = some job) (hp : jobIsPaid job.state = false)
    (h : settleOptimistic c job s = .ok s') (ht : (view s j).Tracked) : (view s' j).Tracked := by
  by_cases hk : j = job.jobId
  · subst hk
    obtain ⟨-, -, -, -, hdate⟩ := settleOptimistic_dated hw hj hp h
    intro a ha h0
    rw [hdate a ha h0]
    exact Option.some_ne_none _
  · unfold View.Tracked
    rw [settleOptimistic_purse hw hj hp h hk]
    exact ht

theorem step_tracked (hw : s.Wf) (hwf : WfJobId j) (h : Step s (c, a) s') (ht : (view s j).Tracked) :
    (view s' j).Tracked := by
  by_cases hset : ∃ msg, a = .settleSemantic msg ∧ s.params.verificationMode = 1
  · obtain ⟨msg, rfl, hmode⟩ := hset
    simp only [Step, Action.run, settleSemantic, bind_ok, ensure_ok, require_ok, if_pos hmode] at h
    obtain ⟨-, -, job, hj, -, hp, -, -, -, -, h⟩ := h
    rw [← Table.key_of_get? hj] at hj
    exact settleOptimistic_tracked hw hj hp h ht
  · have hno : settlementOf s a = none := by
      unfold settlementOf
      split
      next msg =>
        split
        next hmode => exact absurd ⟨msg, rfl, hmode⟩ hset
        next => rfl
      next => rfl
    refine Lives.invariant (P := View.Tracked) (fun e v v' he hv hl => hv.step hl ?_) ((step_lives hw h).2 j hwf) ht
    rintro p fee b rfl
    obtain ⟨job, miner, hsome, -⟩ := he
    rw [hno] at hsome
    cases hsome

theorem tracked {ok : State → Ctx × Action → Prop} (h : Reachable ok s) (hwf : WfJobId j) : (view s j).Tracked := by
  refine Reach.invariant (P := fun s => (view s j).Tracked) ?_ (fun s a s' hr ht _ hs => ?_) h
  · rintro s ⟨p, balance, outside, -, rfl⟩
    rw [view_genesis]
    simp [View.Tracked, View.fresh]
  · exact step_tracked (Reachable.wf hr) hwf hs ht

end Tracked

section Oldest

variable {β : Type} {since : β → Option UInt64} {name : β → Str}

/-- The result is the earliest height of the list, with its job. -/
def Earliest (since : β → Option UInt64) (name : β → Str) (l : List β) : Option (UInt64 × Str) → Prop
  | none => ∀ e ∈ l, since e = none
  | some (x, j) => (∃ e ∈ l, since e = some x ∧ name e = j) ∧ ∀ e ∈ l, ∀ y, since e = some y → x.toNat ≤ y.toNat

theorem Earliest.snoc {l : List β} {o : Option (UInt64 × Str)} (h : Earliest since name l o) (e : β) :
    Earliest since name (l ++ [e]) (earlier o (since e) (name e)) := by
  cases hs : since e with
  | none =>
    cases o with
    | none =>
      intro d hd
      rcases List.mem_append.1 hd with hd | hd
      · exact h d hd
      · rw [List.mem_singleton.1 hd, hs]
    | some p =>
      obtain ⟨⟨d, hd, hat⟩, hle⟩ := h
      refine ⟨⟨d, List.mem_append_left _ hd, hat⟩, fun d' hd' y hy => ?_⟩
      rcases List.mem_append.1 hd' with hd' | hd'
      · exact hle d' hd' y hy
      · rw [List.mem_singleton.1 hd', hs] at hy
        cases hy
  | some x =>
    have hself : e ∈ l ++ [e] := List.mem_append_right l List.mem_cons_self
    cases o with
    | none =>
      refine ⟨⟨e, hself, hs, rfl⟩, fun d hd y hy => ?_⟩
      rcases List.mem_append.1 hd with hd | hd
      · rw [h d hd] at hy
        cases hy
      · rw [List.mem_singleton.1 hd, hs, Option.some.injEq] at hy
        rw [hy]
    | some p =>
      obtain ⟨z, j⟩ := p
      obtain ⟨⟨d, hd, hat⟩, hle⟩ := h
      unfold earlier
      dsimp only
      split
      next hlt =>
        refine ⟨⟨e, hself, hs, rfl⟩, fun d' hd' y hy => ?_⟩
        rcases List.mem_append.1 hd' with hd' | hd'
        · have hz := hle d' hd' y hy
          rw [UInt64.lt_iff_toNat_lt] at hlt
          omega
        · rw [List.mem_singleton.1 hd', hs, Option.some.injEq] at hy
          rw [hy]
      next hlt =>
        refine ⟨⟨d, List.mem_append_left _ hd, hat⟩, fun d' hd' y hy => ?_⟩
        rcases List.mem_append.1 hd' with hd' | hd'
        · exact hle d' hd' y hy
        · rw [List.mem_singleton.1 hd', hs, Option.some.injEq] at hy
          rw [UInt64.lt_iff_toNat_lt, hy] at hlt
          omega

theorem earliest_foldl (l : List β) :
    Earliest since name l (l.foldl (fun o e => earlier o (since e) (name e)) none) := by
  induction l using List.reverseRecOn with
  | nil => intro e he; cases he
  | append_singleton l e ih =>
    rw [List.foldl_append]
    exact ih.snoc e

end Oldest

section Age

variable {c : Ctx} {s : State} {j : Str} {a : UInt64}

theorem heldPocket_oldest (s : State) : Earliest (fun e => s.funds.heldSince.get e.1) Prod.fst
    (s.funds.held .fee).entries (heldPocket s).2 := by
  have hsnd : ∀ (l : List (Str × UInt64)) (p : Pocket × Option (UInt64 × Str)),
      (l.foldl (fun p e => (p.1.add e.2, earlier p.2 (s.funds.heldSince.get e.1) e.1)) p).2 =
        l.foldl (fun o e => earlier o (s.funds.heldSince.get e.1) e.1) p.2 := by
    intro l
    induction l with
    | nil => exact fun _ => rfl
    | cons e l ih => exact fun p => ih _
  rw [heldPocket, hsnd]
  exact earliest_foldl _

theorem toNat_ageOf (x : UInt64) (j : Str) : (ageOf c (some (x, j))).1.toNat = c.height - x.toNat := by
  unfold ageOf
  dsimp only
  split
  next hgt => rw [toNat_sub (UInt64.le_of_lt hgt), Ctx.toNat_h64]
  next hgt =>
    have hle : c.h64.toNat ≤ x.toNat := UInt64.le_iff_toNat_le.1 (UInt64.not_lt.1 hgt)
    rw [Ctx.toNat_h64] at hle
    rw [Nat.sub_eq_zero_of_le hle]
    rfl

/-- Every fee that is retained has a date, none is older than the age that is told, and that age is the one of the job
that is named. -/
theorem held_summary_age [Chain] {ok : State → Ctx × Action → Prop} (h : Reachable ok s) (c : Ctx) {job : Job}
    (hj : s.job j = some job) (ha : s.funds.heldOf .fee j = some a) (h0 : a ≠ 0) :
    (∃ since, s.funds.heldSince.get j = some since ∧
      c.height - since.toNat ≤ (heldSummary c s).oldestAgeBlocks.toNat) ∧
    ∃ b since, s.funds.heldOf .fee (heldSummary c s).oldestJobId = some b ∧
      s.funds.heldSince.get (heldSummary c s).oldestJobId = some since ∧
      (heldSummary c s).oldestAgeBlocks.toNat = c.height - since.toNat := by
  have hwf : WfJobId j := (Reachable.wf h).jobs j (Table.has_of_get? hj)
  obtain ⟨since, hsince⟩ := Option.ne_none_iff_exists'.1 (tracked h hwf a ha h0)
  have hmem : (j, a) ∈ (s.funds.held .fee).entries := Store.get_eq_some_iff.1 ha
  have hoff := heldPocket_oldest s
  unfold heldSummary
  dsimp only
  cases hold : (heldPocket s).2 with
  | none =>
    rw [hold] at hoff
    cases hsince.symm.trans (hoff (j, a) hmem)
  | some p =>
    obtain ⟨x, k⟩ := p
    rw [hold] at hoff
    obtain ⟨⟨⟨k', b⟩, hk, hx, rfl⟩, hle⟩ := hoff
    rw [toNat_ageOf]
    refine ⟨⟨since, hsince, ?_⟩, b, x, Store.get_eq_some_iff.2 hk, hx, rfl⟩
    exact Nat.sub_le_sub_left (hle (j, a) hmem since hsince) c.height

/-- Four blocks after the settlement. -/
theorem held_summary_age_served : ∃ s, Reachable (fun _ _ => True) s ∧
    ∃ since, s.funds.heldSince.get ticket = some since ∧
      9 - since.toNat ≤ (heldSummary (blockAt 9) s).oldestAgeBlocks.toNat := by
  obtain ⟨s, hs, ht⟩ := exists_reachable (fun _ _ _ => trivial)
    (reachable_village validate_auditMode (by decide) fun _ _ _ _ => trivial)
    (show endsIn free (fun s => decide ((s.job ticket).isSome = true ∧ s.funds.heldOf .fee ticket = some 40)) served
      (village auditMode) = true by rewrite [application_eq_tabled]; decide +kernel)
  obtain ⟨hjob, hheld⟩ := of_decide_eq_true ht
  obtain ⟨job, hjob⟩ := Option.isSome_iff_exists.1 hjob
  exact ⟨s, hs, (held_summary_age hs (blockAt 9) hjob hheld (by decide)).1⟩

end Age

/-! ## The jurors held back -/

section Locked

variable {c : Ctx} {s s' : State} {m raw j : Str}

theorem mem_lockedJurors : m ∈ lockedJurors s ↔ m ≠ [] ∧ ∃ e ∈ openSeats s, m ∈ Str.split e.2 ',' := by
  have hone (l locked : List Str) : m ∈ l.foldl (fun l m => l.insert m) locked ↔ m ∈ l ∨ m ∈ locked := by
    induction l generalizing locked with
    | nil => simp
    | cons a l ih => rw [List.foldl_cons, ih, List.mem_insert_iff, List.mem_cons]; tauto
  have hall (seats : List (Str × Str)) (locked : List Str) :
      m ∈ seats.foldl
        (fun locked e => ((Str.split e.2 ',').filter (· ≠ [])).foldl (fun l m => l.insert m) locked) locked ↔
        (m ≠ [] ∧ ∃ e ∈ seats, m ∈ Str.split e.2 ',') ∨ m ∈ locked := by
    induction seats generalizing locked with
    | nil => simp
    | cons e seats ih =>
      rw [List.foldl_cons, ih, hone, List.mem_filter, decide_eq_true_iff, List.exists_mem_cons_iff]
      constructor
      · rintro (⟨hm, hex⟩ | ⟨hsplit, hm⟩ | hl)
        · exact .inl ⟨hm, .inr hex⟩
        · exact .inl ⟨hm, .inl hsplit⟩
        · exact .inr hl
      · rintro (⟨hm, hsplit | hex⟩ | hl)
        · exact .inr (.inl ⟨hsplit, hm⟩)
        · exact .inl ⟨hm, hex⟩
        · exact .inr (.inr hl)
  rw [lockedJurors, hall, or_iff_left (List.not_mem_nil)]

/-- Each juror is counted once. -/
theorem nodup_lockedJurors : (lockedJurors s).Nodup := by
  have hone (l locked : List Str) (h : locked.Nodup) : (l.foldl (fun l m => l.insert m) locked).Nodup := by
    induction l generalizing locked with
    | nil => exact h
    | cons a l ih => exact ih _ h.insert
  have hall (seats : List (Str × Str)) (locked : List Str) (h : locked.Nodup) :
      (seats.foldl (fun locked e => ((Str.split e.2 ',').filter (· ≠ [])).foldl (fun l m => l.insert m) locked)
        locked).Nodup := by
    induction seats generalizing locked with
    | nil => exact h
    | cons e seats ih => exact ih _ (hone _ _ h)
  exact hall _ _ List.nodup_nil

/-- What is counted is what the exit guard looks for. -/
theorem sits_of_locked (h : m ∈ lockedJurors s) : sitsOnOpenJury s m = true := by
  obtain ⟨hm, e, he, hsplit⟩ := mem_lockedJurors.1 h
  obtain ⟨he, hopen⟩ := List.mem_filter.1 he
  rw [Bool.and_eq_true] at hopen
  refine List.any_eq_true.2 ⟨e, he, ?_⟩
  rw [Bool.and_eq_true]
  refine ⟨?_, hopen.2⟩
  unfold committeeContains
  rw [decide_eq_true hm, Bool.true_and, List.contains_iff_mem]
  exact hsplit

theorem trimSuffix_of_not_suffix {s t : Str} (h : ¬ t <:+ s) : Str.trimSuffix s t = s := by
  rw [Str.trimSuffix, Str.cutSuffix_eq_none.2 h]
  rfl

theorem WfJobId.base (hj : WfJobId j) : baseJobIdFromCommitteeKey j = j := by
  have hredo : ¬ redoSuffix <:+ j := hj.not_suffix "redo".toList
  have hhuman : ¬ humanDisputeSuffix <:+ j := hj.not_suffix "humandispute".toList
  rw [baseJobIdFromCommitteeKey, trimSuffix_of_not_suffix hredo, trimSuffix_of_not_suffix hhuman]

theorem locked_of_seated (hj : WfJobId j) (hraw : s.juries.auditCommittee.get j = some raw)
    (hopen : s.resolved j = false) (hm : m ≠ []) (hmem : m ∈ Str.split raw ',') : m ∈ lockedJurors s := by
  refine mem_lockedJurors.2 ⟨hm, (j, raw), List.mem_filter.2 ⟨Store.get_eq_some_iff.1 hraw, ?_⟩, hmem⟩
  have hhuman : ¬ humanDisputeSuffix <:+ j := hj.not_suffix "humandispute".toList
  rw [← List.isSuffixOf_iff_suffix, Bool.not_eq_true] at hhuman
  show (!humanDisputeSuffix.isSuffixOf j && !s.resolved (baseJobIdFromCommitteeKey j)) = true
  rw [hhuman, hj.base, hopen]
  rfl

/-- The guard of both exits holds a juror that is counted. -/
theorem obliged_of_locked (h : m ∈ lockedJurors s) (he : eligibleAsJuror s m c.h64 = true) :
    hasOpenObligation c s m = true := by
  simp [hasOpenObligation, he, sits_of_locked h]

variable [Chain]

theorem miners_pruneOne {k : Str} (hk : m ≠ k) : (pruneOne c s k).miner m = s.miner m := by
  unfold pruneOne
  split
  · rfl
  next miner hget =>
    have hid : miner.minerId = k := Table.key_of_get? hget
    have hgone (f : Funds) (hf : f.miners = s.funds.miners) : (removeMiner k f s).miner m = s.miner m := by
      show (f.miners.erase k).get? m = _
      rw [Table.get?_erase_ne hk, hf]
      rfl
    split
    · split
      · rfl
      next toBz =>
        split
        next f hpay =>
          obtain ⟨b, -, rfl⟩ := Funds.pay_ok hpay
          exact hgone _ rfl
        next f hpay =>
          obtain rfl := Funds.pay_refused hpay
          rfl
    · exact hgone s.funds rfl

theorem miners_pruneInactive (h : isDoomed c s m = false) : (pruneInactiveMiners c s).miner m = s.miner m := by
  have hall (l : List Str) (hl : m ∉ l) (t : State) : (l.foldl (pruneOne c) t).miner m = t.miner m := by
    induction l generalizing t with
    | nil => rfl
    | cons k l ih =>
      rw [List.mem_cons, not_or] at hl
      exact (ih hl.2 _).trans (miners_pruneOne hl.1)
  unfold pruneInactiveMiners
  split
  · rfl
  · refine hall _ (fun hm => ?_) s
    rw [(List.mem_filter.1 hm).2] at h
    cases h

/-- From the block that anchors a jury, until its job is resolved, whatever the run and its restarts: each of its
members is counted among the jurors held back, and one that is still eligible leaves neither by `DeleteMiner` nor by
the inactivity prune. -/
theorem locked_juror_stays {x y : UInt64} (hs : Descends s) (h : Sitting s j raw x) (hrun : Ages s x s' y)
    (hopen : s'.resolved j = false) (hm : m ≠ []) (hmem : m ∈ Str.split raw ',') :
    m ∈ lockedJurors s' ∧ (eligibleAsJuror s' m c.h64 = true →
      (∀ creator s'', deleteMiner c ⟨creator, m⟩ s' ≠ .ok s'') ∧ (pruneInactiveMiners c s').miner m = s'.miner m) := by
  have hwf : WfJobId j := hs.inv.1.jobs j h.job
  have hlocked := locked_of_seated hwf (jury_fixed hs h hrun hopen).members hopen hm hmem
  refine ⟨hlocked, fun he => ?_⟩
  have hobl := obliged_of_locked hlocked he
  refine ⟨fun creator s'' hdel => ?_, miners_pruneInactive ?_⟩
  · simp only [deleteMiner, bind_ok, ensure_ok] at hdel
    obtain ⟨-, -, -, -, -, -, -, hno, -⟩ := hdel
    rw [hobl] at hno
    cases hno
  · unfold isDoomed
    split
    · rfl
    · rw [hobl]
      simp

end Locked

/-- What the run below ends in: the job has a jury with a judge on it, and so it is a block later. -/
def Summoned (s : State) : Prop :=
  s.jobs.has ticket = true ∧ (s.juries.auditCommittee.get ticket).isSome = true ∧
    s.juries.committeeSince.get ticket = some 6 ∧
    (s.juries.auditCommittee.get ticket).any (fun raw => (Str.split raw ',').contains (idOf 0)) = true ∧
    (endBlock (blockAt 7) s).isOk = true ∧ (outcome (endBlock (blockAt 7) s) s).resolved ticket = false ∧
    eligibleAsJuror (outcome (endBlock (blockAt 7) s) s) (idOf 0) (blockAt 8).h64 = true

instance (s : State) : Decidable (Summoned s) := by
  unfold Summoned
  infer_instance

theorem locked_juror_stays_judge : ∃ s s', Descends s ∧ endBlock (blockAt 7) s = .ok s' ∧ idOf 0 ∈ lockedJurors s' ∧
    ∀ creator s'', deleteMiner (blockAt 8) ⟨creator, idOf 0⟩ s' ≠ .ok s'' := by
  obtain ⟨s, hs, ht⟩ := exists_reachable (fun _ _ _ => trivial)
    (reachable_village validate_unwindMode (by decide) fun _ _ _ _ => trivial)
    (show endsIn free (fun s => decide (Summoned s)) ((voted "").take 9) (village unwindMode) = true by
      rewrite [application_eq_tabled]
      decide +kernel)
  obtain ⟨hjob, hraw, hsince, hmem, hok, hopen, he⟩ := of_decide_eq_true ht
  obtain ⟨raw, hraw⟩ := Option.isSome_iff_exists.1 hraw
  rw [hraw, Option.any_some, List.contains_iff_mem] at hmem
  have hstep : Step s (blockAt 7, .endBlock) (outcome (endBlock (blockAt 7) s) s) := eq_ok_outcome hok
  obtain ⟨hlocked, hstays⟩ := locked_juror_stays (c := blockAt 8) (descends_of_reachable hs) ⟨hjob, hraw, hsince⟩
    (.step .here hstep) hopen (by decide) hmem
  exact ⟨s, _, descends_of_reachable hs, hstep, hlocked, (hstays he).1⟩

end Dendra.Jobs
