import Dendra.Season.Unwound
import Dendra.Season.Calc
import Dendra.Lib.Bech32

/-!
# Payout declarations

An identity declares the address that its rewards go to, and may lock it. The service decides on its memory,
which a restart rebuilds from the evidence, on the registry as it reads it then, and on what the past records
say of themselves.

* `answer`, `record`, `replay`: the code. `PayoutAction`: declarations, what the chain shows, restarts.
* `PayoutInv`: what holds after any actions. `PayoutInv.step`: what one action keeps.
* `dayIdentities_locked`: the address that a ranking reads.
* `payout_lock`: the lock is final and is not taken late.
-/

namespace Dendra.Season.Facts

/-! ## The identities of a day -/

/-- What is read of the chain for a day, by miner. -/
structure ChainFacts where
  work : Ordered Str Int
  verdicts : Ordered Str Int
  presence : Ordered Str Int
  judgeActive : Ordered Str Int

def addPayout (payout : Ordered Str Str) : Rec → Ordered Str Str
  | .payout _ mid address .. => payout.set mid address
  | _ => payout

/-- `day_identities`. -/
def dayIdentities (day : Nat) (records : List Rec) (chain : ChainFacts) (defaultAddress : Ordered Str Str) :
    List Identity :=
  let payout := records.foldl addPayout .empty
  let (sampled, grades) := workGrades day records
  let mids := sortedSet (chain.work.keys ++ chain.verdicts.keys ++ chain.presence.keys ++ chain.judgeActive.keys)
  mids.map fun mid =>
    { minerId := mid
      presence := (chain.presence.get? mid).getD 0
      verifiedRequests :=
        if gradedOut ((grades.get? mid).getD []) ((sampled.get? mid).getD ∅).card then 0
        else (chain.work.get? mid).getD 0
      verdicts := (chain.verdicts.get? mid).getD 0
      payoutAddress :=
        match (payout.get? mid).filter fun a => decide (a ≠ []) with
        | some a => a
        | none => (defaultAddress.get? mid).getD []
      judgeActive := (chain.judgeActive.get? mid).getD 0
      probation := false
      kitVersion := none
      registrationNotDated := false }

theorem map_minerId_dayIdentities (day : Nat) (records : List Rec) (chain : ChainFacts)
    (defaultAddress : Ordered Str Str) :
    (dayIdentities day records chain defaultAddress).map Identity.minerId =
      sortedSet (chain.work.keys ++ chain.verdicts.keys ++ chain.presence.keys ++ chain.judgeActive.keys) := by
  unfold dayIdentities
  rw [List.map_map]
  exact List.map_id _

end Dendra.Season.Facts

namespace Dendra.Season.Payout

/-! ## The code -/

def lower (s : Str) : Str := s.map Char.toLower

/-- `BLOCKED_ADDRESSES`. -/
def blockedAddresses : List Str :=
  ["fee_collector", "distribution", "bonded_tokens_pool", "not_bonded_tokens_pool", "nft"].map fun name =>
    Bech32.encode "dendra".toList ((Sha256.hash (Str.utf8 name.toList)).take 20)

/-- `payable_address` finds nothing wrong. -/
def payableAddress (address : Str) : Bool :=
  (Bech32.decode address).any fun d =>
    decide (d.1 = "dendra".toList) && decide (d.2.length = 20 ∨ d.2.length = 32) &&
      !decide (lower address ∈ blockedAddresses)

/-- `_owner_signed`, of the operator and the creator that the registry names and of the signer. -/
def ownerSigned (operator creator : Option Str) (who : Str) : Bool :=
  match operator, creator with
  | some op, some cr =>
    if op = [] ∨ cr = [] ∨ who = [] then false
    else decide (lower cr ≠ lower op) && decide (lower who = lower cr)
  | _, _ => false

/-- A signed declaration, and what the registry names when it is read. `lock` is `none` when the body has a
value for it that is no boolean. -/
structure Declaration where
  minerId : Str
  address : Str
  lock : Option Bool
  signer : Str
  operator : Option Str
  creator : Option Str

def Declaration.owner (q : Declaration) : Bool := ownerSigned q.operator q.creator q.signer

/-- The memory of a run. A height of 0 and an end of `none` are not read yet. -/
structure Memory where
  declared : Ordered Str Int
  locked : Ordered Str Str
  notOwnerDeclared : Finset Str
  height : Nat
  ended : Option Bool

def Memory.empty : Memory := ⟨.empty, .empty, ∅, 0, none⟩

inductive Answer
  | unpayable
  | malformedLock
  | timeNotRead
  | seasonOver
  | lockedElsewhere
  | unchanged
  | lockRefused
  | tooSoon
  | filed
  deriving DecidableEq

/-- `DECLARE_EVERY_BLOCKS`. -/
def declareEveryBlocks : Int := 720

/-- `_declaration_allowed`. -/
def declarationAllowed (m : Memory) (mid : Str) : Bool :=
  match m.declared.get? mid with
  | none => true
  | some last => decide ((m.height : Int) - last ≥ declareEveryBlocks)

/-- What `_payout` answers. -/
def answer (m : Memory) (q : Declaration) : Answer :=
  if !payableAddress q.address then .unpayable
  else
    match q.lock with
    | none => .malformedLock
    | some lock =>
      match m.ended with
      | none => .timeNotRead
      | some true => .seasonOver
      | some false =>
        match m.locked.get? q.minerId with
        | some held => if held ≠ lower q.address then .lockedElsewhere else .unchanged
        | none =>
          if lock ∧ (m.declared.get? q.minerId).isSome ∧ (q.minerId ∈ m.notOwnerDeclared ∨ q.owner = false) then
            .lockRefused
          else if !declarationAllowed m q.minerId then .tooSoon
          else .filed

/-- The record of a declaration. -/
def record (start : Nat) (m : Memory) (q : Declaration) : Rec :=
  .payout (filedDay start m.height) q.minerId (lower q.address) m.height (q.lock = some true) q.owner

/-- `_replay`, of a payout record. -/
def replay (m : Memory) : Rec → Memory
  | .payout _ mid address height lock owner =>
    { m with
      declared := m.declared.set mid height
      notOwnerDeclared := if owner then m.notOwnerDeclared else insert mid m.notOwnerDeclared
      locked := if lock then setDefault m.locked (mid, lower address) else m.locked }
  | _ => m

/-- How the filing of a record ends: it is filed; the append fails and nothing is written; the service dies
before the line is written, or after it. -/
inductive Fate
  | filed
  | failed
  | died (written : Bool)
  deriving DecidableEq

/-- The evidence in the order in which it was filed, and the memory. -/
structure PayoutState where
  log : List Rec
  mem : Memory

/-- The memory that a start rebuilds. -/
def restarted (log : List Rec) : Memory := (allRecords log).foldl replay .empty

def isPayout : Rec → Bool
  | .payout .. => true
  | _ => false

/-- What happens: the chain shows a height, and whether its time is past the end; a declaration arrives; another
record is filed; the service restarts. -/
inductive PayoutAction
  | shows (height : Nat) (ended : Bool)
  | declare (q : Declaration) (fate : Fate)
  | file (r : Rec) (other : isPayout r = false)
  | restart

section Runs

variable (start : Nat)

/-- A declaration that is to be filed. -/
def PayoutState.fileDeclaration (s : PayoutState) (q : Declaration) (fate : Fate) : PayoutState :=
  let rec' := record start s.mem q
  let declared := s.mem.declared.set q.minerId (s.mem.height : Int)
  match fate with
  | .filed =>
    { s with
      log := s.log ++ [rec']
      mem :=
        { s.mem with
          declared := declared
          notOwnerDeclared := if q.owner then s.mem.notOwnerDeclared else insert q.minerId s.mem.notOwnerDeclared
          locked := if q.lock = some true then s.mem.locked.set q.minerId (lower q.address) else s.mem.locked } }
  | .failed => { s with mem := { s.mem with declared := declared } }
  | .died written =>
    let log := if written then s.log ++ [rec'] else s.log
    { s with log := log, mem := restarted log }

def PayoutState.step (s : PayoutState) : PayoutAction → PayoutState
  | .shows height ended => { s with mem := { s.mem with height := height, ended := some ended } }
  | .declare q fate => if answer s.mem q = .filed then s.fileDeclaration start q fate else s
  | .file r _ => { s with log := s.log ++ [r] }
  | .restart => { s with mem := restarted s.log }

def PayoutState.run (actions : List PayoutAction) : PayoutState :=
  actions.foldl (PayoutState.step start) ⟨[], .empty⟩

end Runs

/-! ## The records of an identity -/

def payoutOf (mid : Str) : Rec → Bool
  | .payout _ m .. => decide (m = mid)
  | _ => false

def recAddress : Rec → Str
  | .payout _ _ address .. => address
  | _ => []

def recHeight : Rec → Nat
  | .payout _ _ _ height .. => height
  | _ => 0

def recLock : Rec → Bool
  | .payout _ _ _ _ lock _ => lock
  | _ => false

def recOwner : Rec → Bool
  | .payout _ _ _ _ _ owner => owner
  | _ => false

/-- The payout records of an identity. -/
def payoutRecords (mid : Str) (log : List Rec) : List Rec := log.filter (payoutOf mid)

section Records

variable {log : List Rec} {mid : Str} {m : Memory} {r : Rec}

theorem isPayout_of_payoutOf (h : payoutOf mid r = true) : isPayout r = true := by
  cases r <;> first | rfl | cases h

theorem payoutRecords_append (log log' : List Rec) :
    payoutRecords mid (log ++ log') = payoutRecords mid log ++ payoutRecords mid log' :=
  List.filter_append ..

theorem payoutRecords_other (h : isPayout r = false) : payoutRecords mid [r] = [] := by
  cases r <;> first | rfl | cases h

/-- What the memory knows of the records: who has declared, whose records are not all of owner mode, who has
locked. -/
structure Knows (m : Memory) (log : List Rec) : Prop where
  declared : ∀ mid, ∀ r ∈ payoutRecords mid log, (m.declared.get? mid).isSome = true
  notOwner : ∀ mid, ∀ r ∈ payoutRecords mid log, recOwner r = false → mid ∈ m.notOwnerDeclared
  locked : ∀ mid, ∀ r ∈ payoutRecords mid log, recLock r = true → (m.locked.get? mid).isSome = true

/-- Knowledge is of the payout records, in any order. -/
theorem Knows.mono {log' : List Rec} (h : Knows m log) (hsub : ∀ r ∈ log', isPayout r = true → r ∈ log) :
    Knows m log' := by
  have hmem (mid : Str) (r : Rec) (hr : r ∈ payoutRecords mid log') : r ∈ payoutRecords mid log := by
    obtain ⟨hr, hof⟩ := List.mem_filter.1 hr
    exact List.mem_filter.2 ⟨hsub r hr (isPayout_of_payoutOf hof), hof⟩
  exact ⟨fun mid r hr => h.declared mid r (hmem mid r hr), fun mid r hr => h.notOwner mid r (hmem mid r hr),
    fun mid r hr => h.locked mid r (hmem mid r hr)⟩

theorem isSome_set {κ α : Type} [DecidableEq κ] {d : Ordered κ α} {k k' : κ} {v : α}
    (h : (d.get? k).isSome = true) : ((d.set k' v).get? k).isSome = true := by
  rw [Ordered.get?_set]
  split
  · rfl
  · exact h

/-- A record that is read once more. -/
theorem Knows.replay (h : Knows m log) (r : Rec) : Knows (replay m r) (log ++ [r]) := by
  cases r with
  | payout d mid address height lock owner =>
    have hone (mid' : Str) : payoutRecords mid' [Rec.payout d mid address height lock owner] =
        if mid = mid' then [.payout d mid address height lock owner] else [] := by
      simp [payoutRecords, payoutOf, List.filter_cons]
    refine ⟨fun mid' r hr => ?_, fun mid' r hr hno => ?_, fun mid' r hr hlock => ?_⟩
    · change ((m.declared.set mid (height : Int)).get? mid').isSome = true
      by_cases hm : mid' = mid
      · rw [Ordered.get?_set, if_pos hm]
        rfl
      · rw [payoutRecords_append, hone, if_neg (Ne.symm hm), List.append_nil] at hr
        exact isSome_set (h.declared mid' r hr)
    · change mid' ∈ (if owner then m.notOwnerDeclared else insert mid m.notOwnerDeclared)
      rw [payoutRecords_append, hone] at hr
      obtain hr | hr := List.mem_append.1 hr
      · have hold := h.notOwner mid' r hr hno
        split
        · exact hold
        · exact Finset.mem_insert_of_mem hold
      · by_cases hm : mid = mid'
        · rw [if_pos hm] at hr
          obtain rfl := List.mem_singleton.1 hr
          change owner = false at hno
          rw [if_neg (by simp [hno]), hm]
          exact Finset.mem_insert_self _ _
        · rw [if_neg hm] at hr
          cases hr
    · change ((if lock then setDefault m.locked (mid, lower address) else m.locked).get? mid').isSome = true
      rw [payoutRecords_append, hone] at hr
      obtain hr | hr := List.mem_append.1 hr
      · have hold := h.locked mid' r hr hlock
        split
        · rw [get?_setDefault, Option.isSome_or, hold, Bool.true_or]
        · exact hold
      · by_cases hm : mid = mid'
        · rw [if_pos hm] at hr
          obtain rfl := List.mem_singleton.1 hr
          change lock = true at hlock
          rw [if_pos hlock, get?_setDefault, if_pos hm.symm, Option.isSome_or, Option.isSome_some, Bool.or_true]
        · rw [if_neg hm] at hr
          cases hr
  | _ =>
    refine h.mono fun r hr hpay => ?_
    obtain hr | hr := List.mem_append.1 hr
    · exact hr
    · obtain rfl := List.mem_singleton.1 hr
      cases hpay

/-- A start knows the records that it reads. -/
theorem Knows.start (records : List Rec) : Knows (records.foldl Payout.replay .empty) records := by
  induction records using List.reverseRecOn with
  | nil => exact ⟨fun mid r h => (List.not_mem_nil h).elim, fun mid r h => (List.not_mem_nil h).elim,
      fun mid r h => (List.not_mem_nil h).elim⟩
  | append_singleton l r ih =>
    rw [List.foldl_append]
    exact ih.replay r

end Records

/-! ## What holds after any actions -/

/-- What any actions keep: the memory knows the evidence, nothing follows a lock, and a payout has an
address. -/
structure PayoutInv (s : PayoutState) : Prop where
  knows : Knows s.mem s.log
  last : ∀ mid, ∀ r ∈ (payoutRecords mid s.log).dropLast, recLock r = false
  address : ∀ r ∈ s.log.filter isPayout, recAddress r ≠ []

/-- What any actions keep, also when the heights that the chain shows go back: the pause between two declarations of
an identity puts its records under days that do not. -/
structure PayoutOrder (start : Nat) (s : PayoutState) : Prop where
  filed : ∀ mid, ∀ r ∈ payoutRecords mid s.log, r.day = filedDay start (recHeight r)
  days : ∀ mid, ((payoutRecords mid s.log).map Rec.day).Pairwise (· ≤ ·)
  upto : ∀ mid, ∀ r ∈ payoutRecords mid s.log,
    ∃ last : Nat, s.mem.declared.get? mid = some (last : Int) ∧ r.day ≤ filedDay start last

section Runs

variable {start : Nat} {s : PayoutState} {q : Declaration} {mid : Str} {r : Rec}

theorem payableAddress_ne_nil {address : Str} (h : payableAddress address = true) : address ≠ [] := by
  rintro rfl
  revert h
  decide

theorem toLower_toLower (c : Char) : c.toLower.toLower = c.toLower := by
  unfold Char.toLower
  grind

theorem lower_lower (s : Str) : lower (lower s) = lower s := by
  rw [lower, lower, List.map_map]
  exact List.map_congr_left fun c _ => toLower_toLower c

/-- What a declaration that is filed has passed. -/
theorem answer_filed {m : Memory} (h : answer m q = .filed) :
    payableAddress q.address = true ∧ m.ended = some false ∧ m.locked.get? q.minerId = none ∧
      (q.lock = some true → (m.declared.get? q.minerId).isSome = true →
        q.minerId ∉ m.notOwnerDeclared ∧ q.owner = true) ∧ declarationAllowed m q.minerId = true := by
  unfold answer at h
  split at h
  · cases h
  · next hpay =>
    split at h
    · cases h
    · next lock hlock =>
      split at h
      · cases h
      · cases h
      · next hended =>
        split at h
        · split at h <;> cases h
        · next hheld =>
          split at h
          · cases h
          · next hlate =>
            split at h
            · cases h
            · next hallowed =>
              refine ⟨by simpa using hpay, hended, hheld, fun htrue hdecl => ?_, by simpa using hallowed⟩
              obtain rfl : lock = true := Option.some.inj (hlock.symm.trans htrue)
              rw [not_and, not_and] at hlate
              have := hlate rfl hdecl
              rw [not_or, Bool.not_eq_false] at this
              exact this

/-- It comes after the last, by the pause. -/
theorem declared_le {m : Memory} {last : Nat} (h : declarationAllowed m mid = true)
    (hlast : m.declared.get? mid = some (last : Int)) : last ≤ m.height := by
  unfold declarationAllowed at h
  rw [hlast] at h
  have := of_decide_eq_true h
  unfold declareEveryBlocks at this
  omega

/-- The record of a declaration is the payout record of its identity. -/
theorem payoutRecords_record (m : Memory) :
    payoutRecords mid [record start m q] = if q.minerId = mid then [record start m q] else [] := by
  simp [payoutRecords, payoutOf, record, List.filter_cons]

theorem filter_record (log : List Rec) (m : Memory) :
    (log ++ [record start m q]).filter isPayout = log.filter isPayout ++ [record start m q] := by
  rw [List.filter_append]
  rfl

/-- A start reads what was filed. -/
theorem Knows.restarted (log : List Rec) : Knows (restarted log) log :=
  (Knows.start (allRecords log)).mono fun _ hr _ => mem_allRecords hr

/-- It knows the height of the last declaration. -/
theorem declared_replay (records : List Rec) (m : Memory) (mid : Str) :
    (records.foldl replay m).declared.get? mid =
      (((payoutRecords mid records).getLast?).map fun r => (recHeight r : Int)).or (m.declared.get? mid) := by
  induction records using List.reverseRecOn with
  | nil => rfl
  | append_singleton l r ih =>
    rw [List.foldl_append, payoutRecords_append]
    cases r with
    | payout day mid' address height lock owner =>
      change ((l.foldl replay m).declared.set mid' (height : Int)).get? mid = _
      rw [Ordered.get?_set]
      by_cases hm : mid = mid'
      · rw [if_pos hm]
        simp [payoutRecords, payoutOf, recHeight, hm]
      · rw [if_neg hm, ih]
        simp [payoutRecords, payoutOf, Ne.symm hm]
    | _ => exact ih.trans (by simp [payoutRecords, payoutOf])

/-- Records that are no payouts change nothing. -/
theorem PayoutInv.file (h : PayoutInv s) (hr : isPayout r = false) :
    PayoutInv { s with log := s.log ++ [r] } := by
  have hsame (mid : Str) : payoutRecords mid (s.log ++ [r]) = payoutRecords mid s.log := by
    rw [payoutRecords_append, payoutRecords_other hr, List.append_nil]
  have hfilter : (s.log ++ [r]).filter isPayout = s.log.filter isPayout := by simp [hr]
  refine ⟨h.knows.mono fun r' hr' hpay => ?_, fun mid => (hsame mid).symm ▸ h.last mid, hfilter ▸ h.address⟩
  obtain hr' | hr' := List.mem_append.1 hr'
  · exact hr'
  · obtain rfl := List.mem_singleton.1 hr'
    exact absurd (hr.symm.trans hpay) Bool.false_ne_true

/-- Nothing has been filed with a lock for an identity whose declaration is filed. -/
theorem PayoutInv.unlocked (h : PayoutInv s) (hfiled : answer s.mem q = .filed) :
    ∀ r ∈ payoutRecords q.minerId s.log, recLock r = false := by
  intro r hr
  by_contra hlock
  have hsome := h.knows.locked q.minerId r hr (by simpa using hlock)
  rw [(answer_filed hfiled).2.2.1] at hsome
  cases hsome

/-- The evidence once a declaration is filed, whatever the memory that knows it. -/
theorem PayoutInv.append {m : Memory} (h : PayoutInv s) (hfiled : answer s.mem q = .filed)
    (hknows : Knows m (s.log ++ [record start s.mem q])) :
    PayoutInv { s with log := s.log ++ [record start s.mem q], mem := m } := by
  refine ⟨hknows, fun mid => ?_, ?_⟩
  · change ∀ r ∈ (payoutRecords mid (s.log ++ [record start s.mem q])).dropLast, recLock r = false
    rw [payoutRecords_append, payoutRecords_record]
    by_cases hm : q.minerId = mid
    · subst hm
      rw [if_pos rfl, List.dropLast_concat]
      exact h.unlocked hfiled
    · rw [if_neg hm, List.append_nil]
      exact h.last mid
  · change ∀ r ∈ (s.log ++ [record start s.mem q]).filter isPayout, recAddress r ≠ []
    rw [filter_record]
    intro r hr
    obtain hr | hr := List.mem_append.1 hr
    · exact h.address r hr
    · obtain rfl := List.mem_singleton.1 hr
      exact fun hnil => payableAddress_ne_nil (answer_filed hfiled).1 (List.map_eq_nil_iff.1 hnil)

/-- The memory once a declaration is filed is that of its record read once more. -/
theorem replay_record (start : Nat) (hheld : s.mem.locked.get? q.minerId = none) :
    replay s.mem (record start s.mem q) =
      { s.mem with
        declared := s.mem.declared.set q.minerId (s.mem.height : Int)
        notOwnerDeclared := if q.owner then s.mem.notOwnerDeclared else insert q.minerId s.mem.notOwnerDeclared
        locked := if q.lock = some true then s.mem.locked.set q.minerId (lower q.address) else s.mem.locked } := by
  simp only [replay, record, lower_lower, setDefault, Ordered.has_eq_isSome, hheld]
  by_cases hl : q.lock = some true <;> simp [hl]

/-- What one declaration keeps. -/
theorem PayoutInv.declare (h : PayoutInv s) (hfiled : answer s.mem q = .filed) (fate : Fate) :
    PayoutInv (s.fileDeclaration start q fate) := by
  cases fate with
  | filed =>
    refine h.append hfiled ?_
    rw [← replay_record start (answer_filed hfiled).2.2.1]
    exact h.knows.replay _
  | failed =>
    exact ⟨⟨fun mid r hr => isSome_set (h.knows.declared mid r hr), h.knows.notOwner, h.knows.locked⟩, h.last,
      h.address⟩
  | died written =>
    cases written with
    | false => exact ⟨Knows.restarted _, h.last, h.address⟩
    | true => exact h.append hfiled (Knows.restarted _)

/-- What one action keeps. -/
theorem PayoutInv.step (h : PayoutInv s) (a : PayoutAction) : PayoutInv (s.step start a) := by
  cases a with
  | shows height ended => exact ⟨⟨h.knows.declared, h.knows.notOwner, h.knows.locked⟩, h.last, h.address⟩
  | declare q fate =>
    unfold PayoutState.step
    dsimp only
    split
    · next hfiled => exact h.declare hfiled fate
    · exact h
  | file r other => exact h.file other
  | restart => exact ⟨Knows.restarted _, h.last, h.address⟩

theorem PayoutInv.run (start : Nat) (actions : List PayoutAction) : PayoutInv (.run start actions) := by
  induction actions using List.reverseRecOn with
  | nil => exact ⟨Knows.start [], fun mid r hr => (List.not_mem_nil hr).elim,
      fun r hr => (List.not_mem_nil hr).elim⟩
  | append_singleton l a ih =>
    rw [PayoutState.run, List.foldl_append]
    exact ih.step a

/-! ## The order of the days -/

/-- An identity's record is filed under a day that none of its records is after. -/
theorem PayoutOrder.day_le (h : PayoutOrder start s) (hfiled : answer s.mem q = .filed) :
    ∀ r ∈ payoutRecords q.minerId s.log, r.day ≤ filedDay start s.mem.height := by
  intro r hr
  obtain ⟨last, hlast, hday⟩ := h.upto q.minerId r hr
  exact hday.trans (filedDay_mono (declared_le (answer_filed hfiled).2.2.2.2 hlast))

/-- The memory in which the declaration is the last of its identity. -/
theorem PayoutOrder.declared {m : Memory} (h : PayoutOrder start s) (hfiled : answer s.mem q = .filed)
    (hm : m.declared = s.mem.declared.set q.minerId (s.mem.height : Int)) :
    PayoutOrder start { s with mem := m } := by
  refine ⟨h.filed, h.days, fun mid r hr => ?_⟩
  change ∃ last : Nat, m.declared.get? mid = some (last : Int) ∧ r.day ≤ filedDay start last
  rw [hm, Ordered.get?_set]
  by_cases hmid : mid = q.minerId
  · subst hmid
    rw [if_pos rfl]
    exact ⟨s.mem.height, rfl, h.day_le hfiled r hr⟩
  · rw [if_neg hmid]
    exact h.upto mid r hr

theorem PayoutOrder.append {m : Memory} (h : PayoutOrder start s) (hfiled : answer s.mem q = .filed)
    (hm : m.declared = s.mem.declared.set q.minerId (s.mem.height : Int)) :
    PayoutOrder start { s with log := s.log ++ [record start s.mem q], mem := m } := by
  have hold := h.declared hfiled hm
  have hrecs (mid : Str) : payoutRecords mid (s.log ++ [record start s.mem q]) =
      payoutRecords mid s.log ++ if q.minerId = mid then [record start s.mem q] else [] := by
    rw [payoutRecords_append, payoutRecords_record]
  refine ⟨fun mid r hr => ?_, fun mid => ?_, fun mid r hr => ?_⟩
  · rw [hrecs] at hr
    obtain hr | hr := List.mem_append.1 hr
    · exact h.filed mid r hr
    · split at hr
      · obtain rfl := List.mem_singleton.1 hr
        rfl
      · cases hr
  · change ((payoutRecords mid (s.log ++ [record start s.mem q])).map Rec.day).Pairwise (· ≤ ·)
    rw [hrecs]
    split
    · next hmid =>
      subst hmid
      rw [List.map_append, List.pairwise_append]
      refine ⟨h.days q.minerId, List.pairwise_singleton _ _, fun d hd d' hd' => ?_⟩
      obtain ⟨r, hr, rfl⟩ := List.mem_map.1 hd
      obtain rfl := List.mem_singleton.1 hd'
      exact h.day_le hfiled r hr
    · rw [List.append_nil]
      exact h.days mid
  · rw [hrecs] at hr
    obtain hr | hr := List.mem_append.1 hr
    · exact hold.upto mid r hr
    · split at hr
      · next hmid =>
        obtain rfl := List.mem_singleton.1 hr
        refine ⟨s.mem.height, ?_, le_refl _⟩
        rw [hm, Ordered.get?_set, if_pos hmid.symm]
      · cases hr

/-- A start reads an identity's declarations in the order in which they were made. -/
theorem PayoutOrder.restart (h : PayoutOrder start s) :
    PayoutOrder start { s with mem := restarted s.log } := by
  refine ⟨h.filed, h.days, fun mid r hr => ?_⟩
  have hread : payoutRecords mid (allRecords s.log) = payoutRecords mid s.log := filter_allRecords (h.days mid)
  obtain ⟨l, last, hl⟩ : ∃ l last, payoutRecords mid s.log = l ++ [last] :=
    (List.eq_nil_or_concat' _).resolve_left (List.ne_nil_of_mem hr)
  refine ⟨recHeight last, ?_, ?_⟩
  · change (restarted s.log).declared.get? mid = _
    rw [restarted, declared_replay, hread, hl, List.getLast?_concat]
    rfl
  · have hlast : last ∈ payoutRecords mid s.log := by
      rw [hl]
      exact List.mem_append_right _ (List.mem_singleton_self _)
    rw [← h.filed mid last hlast]
    have hdays := h.days mid
    rw [hl, List.map_append, List.pairwise_append] at hdays
    rw [hl] at hr
    obtain hr | hr := List.mem_append.1 hr
    · exact hdays.2.2 _ (List.mem_map_of_mem hr) _ (List.mem_singleton_self _)
    · obtain rfl := List.mem_singleton.1 hr
      exact le_refl _

theorem PayoutOrder.step (h : PayoutOrder start s) (a : PayoutAction) : PayoutOrder start (s.step start a) := by
  cases a with
  | shows height ended => exact ⟨h.filed, h.days, h.upto⟩
  | declare q fate =>
    unfold PayoutState.step
    dsimp only
    split
    · next hfiled =>
      cases fate with
      | filed => exact h.append hfiled rfl
      | failed => exact h.declared hfiled rfl
      | died written =>
        cases written with
        | false => exact h.restart
        | true => exact (h.append (m := { s.mem with declared := _ }) hfiled rfl).restart
    · exact h
  | file r other =>
    have hsame (mid : Str) : payoutRecords mid (s.log ++ [r]) = payoutRecords mid s.log := by
      rw [payoutRecords_append, payoutRecords_other other, List.append_nil]
    exact ⟨fun mid => (hsame mid).symm ▸ h.filed mid, fun mid => (hsame mid).symm ▸ h.days mid,
      fun mid => (hsame mid).symm ▸ h.upto mid⟩
  | restart => exact h.restart

theorem PayoutOrder.run (start : Nat) (actions : List PayoutAction) : PayoutOrder start (.run start actions) := by
  induction actions using List.reverseRecOn with
  | nil => exact ⟨fun mid r hr => (List.not_mem_nil hr).elim, fun mid => .nil,
      fun mid r hr => (List.not_mem_nil hr).elim⟩
  | append_singleton l a ih =>
    rw [PayoutState.run, List.foldl_append]
    exact ih.step a

/-! ## The lock -/

/-- Nothing is filed for an identity after its lock. -/
theorem PayoutInv.after_lock {l₁ l₂ : List Rec} (h : PayoutInv s) (hlog : s.log = l₁ ++ r :: l₂)
    (hr : payoutOf mid r = true) (hlock : recLock r = true) : payoutRecords mid l₂ = [] := by
  have hrecs : payoutRecords mid s.log = payoutRecords mid l₁ ++ r :: payoutRecords mid l₂ := by
    rw [hlog, payoutRecords_append, payoutRecords, payoutRecords, List.filter_cons_of_pos hr]
    rfl
  by_contra hne
  have hmem : r ∈ (payoutRecords mid s.log).dropLast := by
    rw [hrecs, List.dropLast_append_of_ne_nil (List.cons_ne_nil _ _), List.dropLast_cons_of_ne_nil hne]
    exact List.mem_append_right _ List.mem_cons_self
  rw [h.last mid r hmem] at hlock
  cases hlock

theorem ownerSigned_true {operator creator : Option Str} {who : Str} (h : ownerSigned operator creator who = true) :
    ∃ op cr, operator = some op ∧ creator = some cr ∧ lower cr ≠ lower op ∧ lower who = lower cr := by
  unfold ownerSigned at h
  split at h
  · next op cr =>
    split at h
    · cases h
    · exact ⟨op, cr, rfl, rfl, by simpa using h⟩
  · cases h

/-- A record of an identity comes of its declaration, and a lock that is not the first of owner mode. -/
theorem late_lock {a : PayoutAction} (h : PayoutInv s) (hlog : (s.step start a).log = s.log ++ [r])
    (hr : payoutOf mid r = true) (hlock : recLock r = true) (hne : payoutRecords mid s.log ≠ []) :
    (∃ q fate op cr, a = .declare q fate ∧ q.minerId = mid ∧ q.operator = some op ∧ q.creator = some cr ∧
      lower cr ≠ lower op ∧ lower q.signer = lower cr) ∧ ∀ r' ∈ payoutRecords mid s.log, recOwner r' = true := by
  have hsame : s.log ≠ s.log ++ [r] := by simp
  cases a with
  | shows height ended => exact absurd hlog hsame
  | restart => exact absurd hlog hsame
  | file r' other =>
    obtain rfl : r' = r := by simpa using List.append_cancel_left hlog
    rw [isPayout_of_payoutOf hr] at other
    cases other
  | declare q fate =>
    unfold PayoutState.step at hlog
    dsimp only at hlog
    split at hlog
    · next hfiled =>
      obtain rfl : r = record start s.mem q := by
        cases fate with
        | filed => simpa using (List.append_cancel_left hlog).symm
        | failed => exact absurd hlog hsame
        | died written =>
          cases written with
          | false => exact absurd hlog hsame
          | true => simpa using (List.append_cancel_left hlog).symm
      obtain rfl : q.minerId = mid := of_decide_eq_true hr
      obtain ⟨r', hr'⟩ := List.exists_mem_of_ne_nil _ hne
      obtain ⟨hall, howner⟩ :=
        (answer_filed hfiled).2.2.2.1 (of_decide_eq_true hlock) (h.knows.declared _ r' hr')
      obtain ⟨op, cr, hop, hcr, hdiff, hsig⟩ := ownerSigned_true howner
      refine ⟨⟨q, fate, op, cr, rfl, rfl, hop, hcr, hdiff, hsig⟩, fun r' hr' => ?_⟩
      by_contra hno
      exact hall (h.knows.notOwner _ r' hr' (by simpa using hno))
    · exact absurd hlog hsame

/-- Of the evidence of an identity, a day reads the address of the last record. -/
theorem foldl_addPayout (records : List Rec) (mid : Str) (d : Ordered Str Str) :
    (records.foldl Facts.addPayout d).get? mid =
      (((payoutRecords mid records).getLast?).map recAddress).or (d.get? mid) := by
  induction records using List.reverseRecOn with
  | nil => rfl
  | append_singleton l r ih =>
    rw [List.foldl_append, payoutRecords_append]
    cases r with
    | payout day m address height lock owner =>
      change ((l.foldl Facts.addPayout d).set m address).get? mid = _
      rw [Ordered.get?_set]
      by_cases hm : mid = m
      · rw [if_pos hm]
        simp [payoutRecords, payoutOf, recAddress, hm]
      · rw [if_neg hm, ih]
        simp [payoutRecords, payoutOf, Ne.symm hm]
    | _ => exact ih.trans (by simp [payoutRecords, payoutOf])

/-- A ranking reads the locked address. -/
theorem dayIdentities_locked {l₁ l₂ : List Rec} {day : Nat} {chain : Facts.ChainFacts}
    {defaultAddress : Ordered Str Str} {i : Identity} (h : PayoutInv s) (ho : PayoutOrder start s)
    (hlog : s.log = l₁ ++ r :: l₂) (hr : payoutOf mid r = true) (hlock : recLock r = true) (hday : r.day ≤ day)
    (hi : i ∈ Facts.dayIdentities day (recordsUpto (filesOf s.log) day) chain defaultAddress)
    (hmid : i.minerId = mid) : i.payoutAddress = recAddress r := by
  have hrecs : payoutRecords mid s.log = payoutRecords mid l₁ ++ [r] := by
    rw [hlog, payoutRecords_append, ← h.after_lock hlog hr hlock, payoutRecords, payoutRecords,
      List.filter_cons_of_pos hr]
    rfl
  have hread : payoutRecords mid (recordsUpto (filesOf s.log) day) =
      (payoutRecords mid l₁).filter (fun r => decide (r.day ≤ day)) ++ [r] := by
    have hfilter := filter_recordsUpto (ho.days mid) day
    change payoutRecords mid _ = (payoutRecords mid s.log).filter _ at hfilter
    rw [hfilter, hrecs, List.filter_append]
    simp [hday]
  have hne : recAddress r ≠ [] := by
    refine h.address r (List.mem_filter.2 ⟨?_, isPayout_of_payoutOf hr⟩)
    rw [hlog]
    exact List.mem_append_right _ List.mem_cons_self
  unfold Facts.dayIdentities at hi
  dsimp only at hi
  obtain ⟨m, -, rfl⟩ := List.mem_map.1 hi
  obtain rfl : m = mid := hmid
  have hget : ((recordsUpto (filesOf s.log) day).foldl Facts.addPayout .empty).get? m = some (recAddress r) := by
    rw [foldl_addPayout, hread, List.getLast?_concat]
    rfl
  dsimp only
  rw [hget, Option.filter_some, if_pos (decide_eq_true hne)]

/-- **The payout lock.** Whatever is declared, by whom the registry says at each time, and through any restarts:
nothing is filed for an identity after its lock; a lock that is not its first declaration was signed by a creator
that is not the operator, and so was every record before; and from the lock's day on the days read its
address. -/
theorem payout_lock (start : Nat) (actions : List PayoutAction) (mid : Str) :
    (∀ l₁ r l₂, (PayoutState.run start actions).log = l₁ ++ r :: l₂ → payoutOf mid r = true → recLock r = true →
      ∀ r' ∈ l₂, payoutOf mid r' = true → recAddress r' = recAddress r) ∧
    (∀ before a after r, actions = before ++ a :: after →
      (PayoutState.run start (before ++ [a])).log = (PayoutState.run start before).log ++ [r] →
      payoutOf mid r = true → recLock r = true → payoutRecords mid (PayoutState.run start before).log ≠ [] →
        (∃ q fate op cr, a = .declare q fate ∧ q.minerId = mid ∧ q.operator = some op ∧ q.creator = some cr ∧
          lower cr ≠ lower op ∧ lower q.signer = lower cr) ∧
        ∀ r' ∈ payoutRecords mid (PayoutState.run start before).log, recOwner r' = true) ∧
    (∀ l₁ r l₂, (PayoutState.run start actions).log = l₁ ++ r :: l₂ → payoutOf mid r = true → recLock r = true →
      ∀ day ≥ r.day, ∀ chain defaultAddress,
        ∀ i ∈ Facts.dayIdentities day (recordsUpto (filesOf (PayoutState.run start actions).log) day) chain
          defaultAddress, i.minerId = mid → i.payoutAddress = recAddress r) := by
  have h := PayoutInv.run start actions
  refine ⟨fun l₁ r l₂ hlog hr hlock r' hr' hof => ?_, fun before a after r _ hlog hr hlock hne => ?_,
    fun l₁ r l₂ hlog hr hlock day hday chain defaultAddress i hi hmid =>
      dayIdentities_locked h (.run start actions) hlog hr hlock hday hi hmid⟩
  · have hnil := h.after_lock hlog hr hlock
    exact absurd hof (by simpa using List.filter_eq_nil_iff.1 hnil r' hr')
  · rw [PayoutState.run, List.foldl_append] at hlog
    exact late_lock (PayoutInv.run start before) hlog hr hlock hne

/-- The first declaration of an identity, with a lock, in the first day. -/
def firstLock : Declaration :=
  ⟨"m".toList, "dendra1qurswpc8qurswpc8qurswpc8qurswpc8f5ukkh".toList, some true, "o".toList, none, none⟩

theorem log_firstLock :
    (PayoutState.run 1 [.shows 5 false, .declare firstLock .filed]).log =
      [.payout 0 firstLock.minerId firstLock.address 5 true false] := by decide +kernel

/-- The day of the first declaration pays its address. -/
theorem payout_lock_first : ∃ i ∈ Facts.dayIdentities 0
    (recordsUpto (filesOf (PayoutState.run 1 [.shows 5 false, .declare firstLock .filed]).log) 0)
    ⟨Ordered.empty.set firstLock.minerId 1, .empty, .empty, .empty⟩ .empty,
    i.payoutAddress = firstLock.address := by
  let chain : Facts.ChainFacts := ⟨Ordered.empty.set firstLock.minerId 1, .empty, .empty, .empty⟩
  have hmem : firstLock.minerId ∈
      (Facts.dayIdentities 0 (recordsUpto (filesOf (PayoutState.run 1 [.shows 5 false,
        .declare firstLock .filed]).log) 0) chain .empty).map Identity.minerId := by
    rw [Facts.map_minerId_dayIdentities]
    decide
  obtain ⟨i, hi, hmid⟩ := List.mem_map.1 hmem
  exact ⟨i, hi, (payout_lock 1 [.shows 5 false, .declare firstLock .filed] firstLock.minerId).2.2
    [] _ [] log_firstLock rfl rfl 0 (le_refl 0) _ _ _ hi hmid⟩

end Runs

end Dendra.Season.Payout
