import Dendra.Jobs.Absences
import Dendra.Jobs.Disputer
import Dendra.Jobs.HeldFee

/-!
# The round trip of a state

A state is exported at one height and imported at another. Amounts, committees and marks are the same
afterwards; a dispute, a retention and a summons are as old as they were; and an entry of a queue is
as far away as it was, or at the next block when it had passed. A second export says the same, but for
the order and the repetition of entries that had passed.

* `RoundTrip`: what is kept.
* `round_trip`: an import keeps it.
-/

namespace Dendra.Jobs

open Word

/-! ## Delays and ages -/

section Heights

variable {c c' : Ctx} {x : Int}

theorem addInt64_add_neg {a b : Int} (hb : b.bmod (2 ^ 64) = b) :
    addInt64 (addInt64 a b) (-a) = b := by
  rw [addInt64, addInt64, Int.bmod_add_bmod, show a + b + -a = b by omega, hb]

/-- What was subtracted from a height, from their difference. -/
theorem addInt64_neg_addInt64_neg {a b : Int} (hb : b.bmod (2 ^ 64) = b) :
    addInt64 a (-addInt64 a (-b)) = b := by
  rw [addInt64, addInt64, ← Int.sub_eq_add_neg, Int.sub_bmod_bmod, show a - (a + -b) = b by omega, hb]

theorem remaining_bmod : (remaining c x).bmod (2 ^ 64) = remaining c x := by
  unfold remaining
  simp only
  split
  · rw [addInt64, Int.bmod_bmod]
  · rfl

theorem remaining_pos : 0 < remaining c x := by
  unfold remaining
  simp only
  split
  · next h => exact h
  · decide

/-- A delay is the same after its import. -/
theorem remaining_remaining : remaining c' (addInt64 c'.h (remaining c x)) = remaining c x := by
  have h : addInt64 (addInt64 c'.h (remaining c x)) (-c'.h) = remaining c x :=
    addInt64_add_neg remaining_bmod
  rw [remaining, h]
  exact if_pos remaining_pos

/-- An age that the chain has reached is the same after its import. -/
theorem elapsedSince_sinceElapsed {age : UInt64} (h : age.toNat < c'.height) :
    elapsedSince c' (sinceElapsed c' age) = age := by
  have hlt := c'.height_lt
  have hage : toInt64 age = age.toNat := toInt64_of_lt (by omega)
  have hh : c'.h = c'.height := rfl
  have h64 : c'.h64.toNat = c'.height := by
    rw [Ctx.h64, UInt64.toNat_ofNat']
    omega
  have hsince : (sinceElapsed c' age).toNat = c'.height - age.toNat := by
    rw [sinceElapsed, hage, hh, if_pos (by omega), toUint64, UInt64.toNat_ofNat']
    omega
  have hint : toInt64 (sinceElapsed c' age) = (c'.height - age.toNat : Nat) := by
    rw [toInt64_of_lt (by omega), hsince]
  unfold elapsedSince
  rw [hint, hh]
  split
  · apply UInt64.toNat_inj.1
    rw [toNat_sub (UInt64.le_iff_toNat_le.2 (by omega)), h64, hsince]
    omega
  · apply UInt64.toNat_inj.1
    show 0 = _
    omega

/-- An age in the genesis. -/
theorem exportJob_age (c : Ctx) (job : Job) (hd : jobIsDisputed job.state = true) :
    (exportJob c job).disputeHeight.bmod (2 ^ 64) = (exportJob c job).disputeHeight := by
  rw [exportJob, if_pos hd]
  exact Int.bmod_bmod

end Heights

/-! ## The collections -/

section Collections

variable {κ α β : Type} [LinearOrder κ] {c c' : Ctx}

/-- Entries that are rewritten under their own keys. -/
theorem entries_putAll_map {key : α → κ} {t : Table key} {g : α → α} (hg : ∀ a, key (g a) = key a) :
    ((Table.empty : Table key).putAll (t.entries.map g)).entries = t.entries.map g := by
  refine Table.entries_putAll (t := (Table.empty : Table key)) (l := t.entries.map g) ?_
  rw [Table.entries_empty, List.nil_append, List.pairwise_map]
  exact t.sorted.imp fun h => by rwa [hg, hg]

/-- Ages are as they were, once the chain has reached them. -/
theorem exportAges_importAges {t : Store Str UInt64}
    (h : ∀ e ∈ exportAges c t, e.2.toNat < c'.height) :
    exportAges c' (importAges c' (exportAges c t) .empty) = exportAges c t := by
  have hent : (importAges c' (exportAges c t) .empty).entries =
      (exportAges c t).map fun e => (e.1, sinceElapsed c' e.2) := by
    have e := entries_putAll_map (t := t)
      (g := fun e => (e.1, sinceElapsed c' (elapsedSince c e.2))) fun _ => rfl
    rw [importAges, exportAges, List.map_map]
    exact e
  rw [exportAges, hent, List.map_map]
  conv_rhs => rw [← List.map_id (exportAges c t)]
  refine List.map_congr_left fun e he => ?_
  simp only [Function.comp_apply, elapsedSince_sinceElapsed (h e he), id]

theorem mem_importQueue {l : List PendingEntry} {q : Queue} {k : QueueKey} :
    k ∈ (importQueue c' l q).entries ↔
      k ∈ q.entries ∨ ∃ e ∈ l, k = qkey (addInt64 c'.h e.blocksRemaining) e.id := by
  induction l generalizing q with
  | nil => simp [importQueue]
  | cons e l ih =>
    have hcons : importQueue c' (e :: l) q =
        importQueue c' l (q.insert (qkey (addInt64 c'.h e.blocksRemaining) e.id)) := rfl
    rw [hcons, ih, KeySet.mem_insert]
    simp only [List.mem_cons, exists_eq_or_imp]
    tauto

/-- The queue of an import has one entry for each exported one, as far away as it was, or at the next
block when it had passed. -/
def Rescheduled (c c' : Ctx) (q q' : Queue) : Prop :=
  ∀ k, k ∈ q'.entries ↔
    ∃ key ∈ q.entries, k = qkey (addInt64 c'.h (remaining c (ofLex key).1)) (ofLex key).2

theorem rescheduled_importQueue (q : Queue) :
    Rescheduled c c' q (importQueue c' (exportQueue c q) .empty) := by
  intro k
  rw [mem_importQueue, exportQueue]
  simp only [Table.entries_empty, List.not_mem_nil, false_or, List.mem_map, exists_exists_and_eq_and]

/-- A second export lists the same entries. -/
theorem Rescheduled.mem_exportQueue {q q' : Queue} (h : Rescheduled c c' q q') (e : PendingEntry) :
    e ∈ exportQueue c' q' ↔ e ∈ exportQueue c q := by
  simp only [exportQueue, List.mem_map]
  constructor
  · rintro ⟨k, hk, rfl⟩
    obtain ⟨key, hkey, rfl⟩ := (h k).1 hk
    exact ⟨key, hkey, by rw [qkey, ofLex_toLex, remaining_remaining]⟩
  · rintro ⟨key, hkey, rfl⟩
    exact ⟨_, (h _).2 ⟨key, hkey, rfl⟩, by rw [qkey, ofLex_toLex, remaining_remaining]⟩

end Collections

/-! ## The result -/

/-- What a state that was exported in the context `c` and the state imported in `c'` share. -/
structure RoundTrip (c c' : Ctx) (s s' : State) : Prop where
  params : s'.params = s.params
  /-- stakes, pools and retentions -/
  miners : s'.funds.miners = s.funds.miners
  pools : s'.funds.pools = s.funds.pools
  held : s'.funds.held = s.funds.held
  heldDemand : s'.funds.heldDemand = s.funds.heldDemand
  pendingHeldRelease : s'.funds.pendingHeldRelease = s.funds.pendingHeldRelease
  /-- jobs with their fees, bonds and marks; a dispute is as old as it was -/
  jobs : s'.jobs.entries.map (fun job => { job with disputeHeight := 0 }) =
    s.jobs.entries.map fun job => { job with disputeHeight := 0 }
  disputes : s'.jobs.entries.map (exportJob c') = s.jobs.entries.map (exportJob c)
  commits : s'.commits = s.commits
  beacons : s'.beacons = s.beacons
  /-- committees and juries -/
  workCommittee : s'.workCommittee = s.workCommittee
  auditCommittee : s'.juries.auditCommittee = s.juries.auditCommittee
  auditSelected : s'.juries.auditSelected = s.juries.auditSelected
  auditsOpened : s'.juries.auditsOpened = s.juries.auditsOpened
  judge : s'.registry.judge = s.registry.judge
  missedDraws : s'.registry.missedDraws = s.registry.missedDraws
  optimisticCount : s'.registry.optimisticCount = s.registry.optimisticCount
  availFailCount : s'.registry.availFailCount = s.registry.availFailCount
  availFailWindowStart : s'.registry.availFailWindowStart = s.registry.availFailWindowStart
  availChallenge : s'.registry.availChallenge.getD [] = s.registry.availChallenge.getD []
  /-- ages -/
  heldSince : exportAges c' s'.funds.heldSince = exportAges c s.funds.heldSince
  committeeSince : exportAges c' s'.juries.committeeSince = exportAges c s.juries.committeeSince
  /-- queues -/
  pendingReveal : Rescheduled c c' s.queues.pendingReveal s'.queues.pendingReveal
  pendingJobExpiry : Rescheduled c c' s.queues.pendingJobExpiry s'.queues.pendingJobExpiry
  pendingAudit : Rescheduled c c' s.queues.pendingAudit s'.queues.pendingAudit
  pendingAuditResolve : Rescheduled c c' s.queues.pendingAuditResolve s'.queues.pendingAuditResolve
  pendingAppealResolve : Rescheduled c c' s.queues.pendingAppealResolve s'.queues.pendingAppealResolve

/-- Two genesis states that say the same: equal, but for the order and the repetition of pending
entries. -/
structure GenesisState.Same (g g' : GenesisState) : Prop where
  rest : { g' with
    pendingReveal := g.pendingReveal
    pendingJobExpiry := g.pendingJobExpiry
    pendingAudit := g.pendingAudit
    pendingAuditResolve := g.pendingAuditResolve
    pendingAppealResolve := g.pendingAppealResolve } = g
  pendingReveal : ∀ e, e ∈ g'.pendingReveal ↔ e ∈ g.pendingReveal
  pendingJobExpiry : ∀ e, e ∈ g'.pendingJobExpiry ↔ e ∈ g.pendingJobExpiry
  pendingAudit : ∀ e, e ∈ g'.pendingAudit ↔ e ∈ g.pendingAudit
  pendingAuditResolve : ∀ e, e ∈ g'.pendingAuditResolve ↔ e ∈ g.pendingAuditResolve
  pendingAppealResolve : ∀ e, e ∈ g'.pendingAppealResolve ↔ e ∈ g.pendingAppealResolve

section Result

variable [Chain] {s s' : State} {c c' : Ctx}

omit [Chain] in
theorem importHeld_empty (held : Share → Store Str UInt64) {g : GenesisState}
    (hf : g.heldFee = (held .fee).entries) (hb : g.heldBurn = (held .burn).entries)
    (hv : g.heldValidatorShare = (held .validator).entries)
    (ht : g.heldTeamShare = (held .team).entries)
    (hr : g.heldTreasuryShare = (held .treasury).entries) :
    importHeld g (fun _ => .empty) = held := by
  funext sh
  cases sh with
  | fee => rw [importHeld, hf, Table.putAll_entries]
  | burn => rw [importHeld, hb, Table.putAll_entries]
  | validator => rw [importHeld, hv, Table.putAll_entries]
  | team => rw [importHeld, ht, Table.putAll_entries]
  | treasury => rw [importHeld, hr, Table.putAll_entries]

omit [Chain] in
/-- What they share is what a second export writes. -/
theorem RoundTrip.same (h : RoundTrip c c' s s') : (exportGenesis c s).Same (exportGenesis c' s') where
  rest := by
    simp only [exportGenesis, h.params, h.miners, h.disputes, h.pools, h.commits, h.beacons, h.held,
      h.heldDemand, h.auditCommittee, h.workCommittee, h.optimisticCount, h.availFailCount,
      h.availFailWindowStart, h.judge, h.missedDraws, h.auditSelected, h.pendingHeldRelease,
      h.auditsOpened, h.heldSince, h.committeeSince, h.availChallenge]
  pendingReveal := h.pendingReveal.mem_exportQueue
  pendingJobExpiry := h.pendingJobExpiry.mem_exportQueue
  pendingAudit := h.pendingAudit.mem_exportQueue
  pendingAuditResolve := h.pendingAuditResolve.mem_exportQueue
  pendingAppealResolve := h.pendingAppealResolve.mem_exportQueue

omit [Chain] in
theorem RoundTrip.and_same (h : RoundTrip c c' s s') :
    RoundTrip c c' s s' ∧ (exportGenesis c s).Same (exportGenesis c' s') :=
  ⟨h, h.same⟩

omit [Chain] in
/-- An imported job is the exported one, but for the height of its dispute. -/
theorem importedJob_exportJob (job : Job) :
    (importedJob c' (exportJob c job)).jobId = job.jobId ∧
      { importedJob c' (exportJob c job) with disputeHeight := 0 } =
        { job with disputeHeight := 0 } ∧
      exportJob c' (importedJob c' (exportJob c job)) = exportJob c job := by
  by_cases hd : jobIsDisputed job.state = true
  · have he := exportJob_age c job hd
    rw [exportJob, if_pos hd] at he ⊢
    rw [importedJob, if_pos hd, exportJob, if_pos hd]
    refine ⟨rfl, rfl, ?_⟩
    simp only
    rw [addInt64_neg_addInt64_neg he]
  · rw [exportJob, if_neg hd, importedJob, if_neg hd, exportJob, if_neg hd]
    exact ⟨rfl, rfl, rfl⟩

/-- A state that is exported and imported, at a height above every exported age, is the same but for
its heights, and is exported again as it was. -/
theorem round_trip {u : Option (List Str)} {p : Params} {balance outside : Nat}
    (himp : initGenesis c' u (exportGenesis c s) (genesis p balance outside) = .ok s')
    (hheld : ∀ e ∈ (exportGenesis c s).heldSinceElapsed, e.2.toNat < c'.height)
    (hsum : ∀ e ∈ (exportGenesis c s).committeeSinceElapsed, e.2.toNat < c'.height) :
    RoundTrip c c' s s' ∧ (exportGenesis c s).Same (exportGenesis c' s') := by
  obtain ⟨r, d, z, rfl⟩ := initGenesis_spec himp
  have hjobs : ((Table.empty : Table Job.jobId).putAll
      (((s.jobs.entries.map (exportJob c)).map (importedJob c')))).entries =
        s.jobs.entries.map fun job => importedJob c' (exportJob c job) := by
    rw [List.map_map]
    exact entries_putAll_map (t := s.jobs) fun job => importedJob_exportJob job |>.1
  refine RoundTrip.and_same
    { params := rfl
      miners := Table.putAll_entries _
      pools := by
        show (if s.funds.pools.isSome = true then s.funds.pools else none) = s.funds.pools
        cases s.funds.pools <;> rfl
      held := importHeld_empty s.funds.held rfl rfl rfl rfl rfl
      heldDemand := Table.putAll_entries _
      pendingHeldRelease := Table.putAll_entries _
      jobs := by
        refine (congrArg (List.map _) hjobs).trans ?_
        rw [List.map_map]
        exact List.map_congr_left fun job _ => (importedJob_exportJob job).2.1
      disputes := by
        refine (congrArg (List.map _) hjobs).trans ?_
        rw [List.map_map]
        exact List.map_congr_left fun job _ => (importedJob_exportJob job).2.2
      commits := Table.putAll_entries _
      beacons := Table.putAll_entries _
      workCommittee := Table.putAll_entries _
      auditCommittee := Table.putAll_entries _
      auditSelected := Table.putAll_entries _
      auditsOpened := by
        show (if s.juries.auditsOpened > 0 then s.juries.auditsOpened else 0) = s.juries.auditsOpened
        split
        · rfl
        · next h => exact (by simpa [UInt64.pos_iff_ne_zero] using h : s.juries.auditsOpened = 0).symm
      judge := Table.putAll_entries _
      missedDraws := Table.putAll_entries _
      optimisticCount := Table.putAll_entries _
      availFailCount := Table.putAll_entries _
      availFailWindowStart := Table.putAll_entries _
      availChallenge := by
        show (if s.registry.availChallenge.getD [] ≠ [] then some (s.registry.availChallenge.getD [])
          else none).getD [] = _
        split
        · rfl
        · next h => exact (not_not.1 h).symm
      heldSince := exportAges_importAges hheld
      committeeSince := exportAges_importAges hsum
      pendingReveal := rescheduled_importQueue _
      pendingJobExpiry := rescheduled_importQueue _
      pendingAudit := rescheduled_importQueue _
      pendingAuditResolve := rescheduled_importQueue _
      pendingAppealResolve := rescheduled_importQueue _ }

end Result

/-! ## Runs -/

/-- Four miners declare as judges, the job is settled and disputed, and its audit summons the four. -/
def summoned : List (Ctx × Action) := [(blockAt 2, opening 100), (blockAt 3, .endBlock),
  (blockAt 4, declares 0), (blockAt 4, declares 1), (blockAt 4, declares 3), (blockAt 4, declares 4),
  (blockAt 4, anchors 2 "" "1"), (blockAt 5, .settleSemantic ⟨client, ticket⟩),
  (blockAt 5, .disputeVerdict ⟨client, ticket⟩), (blockAt 6, .endBlock)]

/-- The export of that state, imported on a chain at block 9. -/
def forked (s : State) : Except Err State :=
  initGenesis (blockAt 9) none (exportGenesis (blockAt 8) s) (genesis .default 0 0)

/-- The chain has reached every age of a genesis. -/
def GenesisState.agesBelow (h : Nat) (g : GenesisState) : Bool :=
  (g.heldSinceElapsed ++ g.committeeSinceElapsed).all fun e => decide (e.2.toNat < h)

theorem GenesisState.agesBelow_iff {h : Nat} {g : GenesisState} : g.agesBelow h = true ↔
    (∀ e ∈ g.heldSinceElapsed, e.2.toNat < h) ∧ ∀ e ∈ g.committeeSinceElapsed, e.2.toNat < h := by
  simp only [agesBelow, List.all_append, Bool.and_eq_true, List.all_eq_true, decide_eq_true_eq]

/-- The state that the jury is summoned in, exported at block 8 and imported at block 9. -/
theorem exists_forked : ∃ s, Reachable (fun _ _ => True) s ∧ (forked s).isOk = true ∧
    s.juries.auditCommittee.has ticket = true ∧ (exportGenesis (blockAt 8) s).agesBelow 9 = true ∧
    qkey 25 ticket ∈ s.queues.pendingAuditResolve.entries ∧
    qkey 26 ticket ∈ s.queues.pendingAuditResolve.entries ∧
    qkey 26 ticket ∈ (outcome (forked s) s).queues.pendingAuditResolve.entries ∧
    qkey 27 ticket ∈ (outcome (forked s) s).queues.pendingAuditResolve.entries := by
  obtain ⟨s, hs, ht⟩ := exists_reachable (fun _ _ _ => trivial)
    (reachable_village validate_unwindMode (by decide) fun _ _ _ _ => trivial)
    (show endsIn free
      (fun s => decide ((forked s).isOk = true ∧ s.juries.auditCommittee.has ticket = true ∧
        (exportGenesis (blockAt 8) s).agesBelow 9 = true ∧
        qkey 25 ticket ∈ s.queues.pendingAuditResolve.entries ∧
        qkey 26 ticket ∈ s.queues.pendingAuditResolve.entries ∧
        qkey 26 ticket ∈ (outcome (forked s) s).queues.pendingAuditResolve.entries ∧
        qkey 27 ticket ∈ (outcome (forked s) s).queues.pendingAuditResolve.entries))
      summoned (village unwindMode) = true by
      delta forked
      rewrite [application_eq_tabled]
      decide +kernel)
  exact ⟨s, hs, of_decide_eq_true ht⟩

/-- A dispute, a jury and two deadlines survive their import. -/
theorem round_trip_summoned : ∃ s s', Reachable (fun _ _ => True) s ∧ forked s = .ok s' ∧
    s.juries.auditCommittee.has ticket = true ∧ RoundTrip (blockAt 8) (blockAt 9) s s' ∧
    (exportGenesis (blockAt 8) s).Same (exportGenesis (blockAt 9) s') := by
  obtain ⟨s, hs, hok, hjury, hages, -⟩ := exists_forked
  obtain ⟨hheld, hsum⟩ := GenesisState.agesBelow_iff.1 hages
  have himp : forked s = .ok (outcome (forked s) s) := eq_ok_outcome hok
  obtain ⟨h1, h2⟩ := round_trip himp hheld hsum
  exact ⟨s, _, hs, himp, hjury, h1, h2⟩

/-- The deadline of the dispute and the one of the summons are two entries of one queue, on both sides
of the import. -/
theorem imported_twice : ∃ s s', Reachable (fun _ _ => True) s ∧ forked s = .ok s' ∧
    (∀ e ∈ (exportGenesis (blockAt 8) s).heldSinceElapsed, e.2.toNat < 9) ∧
    (∀ e ∈ (exportGenesis (blockAt 8) s).committeeSinceElapsed, e.2.toNat < 9) ∧
    qkey 25 ticket ∈ s.queues.pendingAuditResolve.entries ∧
    qkey 26 ticket ∈ s.queues.pendingAuditResolve.entries ∧
    qkey 26 ticket ∈ s'.queues.pendingAuditResolve.entries ∧
    qkey 27 ticket ∈ s'.queues.pendingAuditResolve.entries := by
  obtain ⟨s, hs, hok, -, hages, h25, h26, h26', h27⟩ := exists_forked
  obtain ⟨hheld, hsum⟩ := GenesisState.agesBelow_iff.1 hages
  have himp : forked s = .ok (outcome (forked s) s) := eq_ok_outcome hok
  exact ⟨s, _, hs, himp, hheld, hsum, h25, h26, h26', h27⟩

end Dendra.Jobs
