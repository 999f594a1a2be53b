import Dendra.Jobs.Progress.Lottery

/-!
# Progress of a block

The rest of the end of block: the deadlines, the inactivity prune, the retry of held releases and
the availability epoch. `endBlock_prog` puts the passes together.
-/

namespace Dendra.Jobs

open Word

variable [Chain] {c : Ctx} {E : Label → Prop} {s s' : State}

/-! ## Deadlines -/

theorem runAuditResolveTimeout_prog (hE : E .plain) (hw : s.Wf) :
    Prog E s (runAuditResolveTimeout c s) := by
  refine .foldl _ (fun _ _ => True) (fun key l s _ hw => ⟨?_, trivial⟩) trivial hw
  have h := resolveDisputedAudit_prog (c := c) hE hw hw.checked.slashLeak (ofLex key).2 true
  exact h.trans (.of_queues hE h.wf rfl rfl)

theorem runAppealResolveTimeout_prog (hE : E .plain) (hw : s.Wf) :
    Prog E s (runAppealResolveTimeout c s) := by
  refine .foldl _ (fun _ _ => True) (fun key l s _ hw => ⟨?_, trivial⟩) trivial hw
  have h := resolveDisputedAudit_prog (c := c) hE hw hw.checked.slashLeak (ofLex key).2 false
  exact h.trans (.of_queues hE h.wf rfl rfl)

/-! ## Inactive miners -/

section Prune

omit [Chain] in
/-- What the freedom of a miner rests on. -/
theorem View.Free.congr {m k : Str} (hjobs : s'.jobs = s.jobs) (hheld : s'.funds.held = s.funds.held)
    (h : (view s k).Free m) : (view s' k).Free m := by
  intro job hj hm
  have hj' : (view s k).job = some job := by
    show s.jobs.get? k = some job
    rw [← hjobs]
    exact hj
  obtain ⟨h1, h2⟩ := h job hj' hm
  refine ⟨?_, h2⟩
  show (s'.funds.held .fee).get k = none
  rw [hheld]
  exact h1

/-- One idle miner. -/
theorem pruneOne_prog (hE : E .plain) (hw : s.Wf) {m : Str} (hfree : ∀ k, (view s k).Free m) :
    Prog E s (pruneOne c s m) ∧ (pruneOne c s m).jobs = s.jobs ∧
      (pruneOne c s m).funds.held = s.funds.held := by
  unfold pruneOne
  split
  · exact ⟨.refl hw, rfl, rfl⟩
  · next miner hm =>
    split
    · split
      · exact ⟨.refl hw, rfl, rfl⟩
      · next toBz htb =>
        split
        · next f hf =>
          obtain ⟨b, hb, rfl⟩ := Funds.pay_ok hf
          exact ⟨.removeMiner hE hw hm hfree (Funds.Spends.pay hf ⟨rfl, rfl⟩) rfl, rfl, rfl⟩
        · next f hf =>
          rw [Funds.pay_refused hf]
          exact ⟨.of_spends hE hw (fun _ => le_rfl) (.refused _ _) s.registry, rfl, rfl⟩
    · refine ⟨.removeMiner hE hw hm hfree ((Funds.Spends.refl _ s.funds).mono_cost (by omega)) rfl,
        rfl, rfl⟩

theorem pruneInactiveMiners_prog (hE : E .plain) (hw : s.Wf) :
    Prog E s (pruneInactiveMiners c s) := by
  unfold pruneInactiveMiners
  split
  · exact .refl hw
  · refine .foldl _ (fun l s => ∀ m ∈ l, ∀ k, (view s k).Free m) (fun m l s hP hw => ?_)
      (fun m hm k => ?_) hw
    · obtain ⟨h1, hjobs, hheld⟩ := pruneOne_prog (c := c) hE hw (hP m (.head _))
      exact ⟨h1, fun m' hm' k => View.Free.congr hjobs hheld (hP m' (.tail _ hm') k)⟩
    · have hd := (List.mem_filter.1 hm).2
      unfold isDoomed at hd
      split at hd
      · cases hd
      · rw [Bool.and_eq_true, Bool.not_eq_true', Bool.not_eq_true'] at hd
        exact free_of_hasOpenObligation hd.2 k

end Prune

/-! ## Held releases -/

theorem retryHeldReleases_prog (hE : E .plain) (hw : s.Wf) : Prog E s (retryHeldReleases c s) := by
  refine .foldl _ (fun l s => (∀ j ∈ l, s.funds.pendingHeldRelease.has j = true) ∧ l.Nodup)
    (fun j l s hP hw => ?_) ⟨fun j hj => KeySet.has_iff_mem.2 hj, Table.nodup_entries _⟩ hw
  obtain ⟨hq, hn⟩ := hP
  rw [List.nodup_cons] at hn
  have hne : ∀ k ∈ l, k ≠ j := by
    rintro k hk rfl
    exact hn.1 hk
  split
  · next hnone =>
    refine ⟨?_, fun k hk => ?_, hn.2⟩
    · refine Prog.of_entry (j := j) (f := queueRelease false j s.funds) (q := s.queues)
        (u := s.juries) hE hw (fun k _ hk => ?_) (fun _ _ => rfl) (fun _ _ => rfl) (fun _ _ => rfl)
        rfl (fun _ => rfl) (fun _ => le_rfl) le_rfl ?_
      · have e : (s.funds.pendingHeldRelease.remove j).has k = s.funds.pendingHeldRelease.has k :=
          KeySet.has_remove_ne hk
        show (⟨_, _, _, (s.funds.pendingHeldRelease.remove j).has k, _⟩ : Purse) = _
        rw [e]
        rfl
      · have hl := Life.unqueued (v := view s j) hnone
        have e : (s.funds.pendingHeldRelease.remove j).has j = false := KeySet.has_remove_self
        rw [← e] at hl
        exact hl
    · show (s.funds.pendingHeldRelease.remove j).has k = true
      rw [KeySet.has_remove_ne (hne k hk)]
      exact hq k (.tail _ hk)
  · next job hj =>
    have hid : job.jobId = j := Table.key_of_get? hj
    have he := releaseHeld_effect (c := c) s.params job s.funds
    rw [hid] at he
    refine ⟨?_, fun k hk => ?_, hn.2⟩
    · have ht := Funds.Touch.of_held he
      exact Prog.of_entry (j := j) (f := releaseHeld c s.params job s.funds) (q := s.queues)
        (u := s.juries) hE hw (fun k _ hk => ht.others k hk) (fun _ _ => rfl) (fun _ _ => rfl)
        (fun _ _ => rfl) rfl ht.registered (fun _ => by have := ht.slack; omega) ht.supply
        (Life.rereleased (v := view s j) (hq j (.head _)) ht.own)
    · show (releaseHeld c s.params job s.funds).pendingHeldRelease.has k = true
      rw [he.pending_ne k (hne k hk)]
      exact hq k (.tail _ hk)

/-! ## Availability -/

section Availability

omit [Chain] in
theorem availSlashOf_le {p : Params} (hp : p.availSlashBps.toNat ≤ 10000) (x : UInt64) :
    availSlashOf p x ≤ x := by
  unfold availSlashOf
  have h := bpsOf_le (x := x) hp
  simp only
  split
  · next hm => exact UInt64.le_trans (UInt64.le_of_lt hm.2) h
  · exact h

/-- The bond of an unavailable miner is burned in part. -/
theorem slashUnavailable_spends {p : Params} (hp : p.availSlashBps.toNat ≤ 10000) (f : Funds)
    (m : Str) : Funds.Spends 0 (Funds.Beside []) f (slashUnavailable c p f m) := by
  unfold slashUnavailable
  split
  · exact .refl _ _
  · next r hr =>
    have hid : r.minerId = m := Table.key_of_get? hr
    simp only
    split
    · exact .refl _ _
    · have h1 := Funds.Spends.setMiner (P := Funds.Beside []) (f := f)
        (t := { r with stake := r.stake - availSlashOf p r.stake }) (by rw [hid]; exact hr)
      rcases hpay : (f.setMiner { r with stake := r.stake - availSlashOf p r.stake }).pay c .burn
        ⟨.slash, [], m, availSlashOf p r.stake⟩ with ⟨b, g⟩
      have h2 := Funds.Spends.pay (P := Funds.Beside []) hpay ⟨rfl, rfl⟩
      have hle := availSlashOf_le hp r.stake
      have := toNat_sub hle
      have := toNat_le_of_le hle
      exact (h1.trans h2).mono_cost (by simp only; omega)

theorem slashUnavailables_spends {p : Params} (hp : p.availSlashBps.toNat ≤ 10000) (l : List Str)
    (f : Funds) : Funds.Spends 0 (Funds.Beside []) f (l.foldl (slashUnavailable c p) f) := by
  induction l generalizing f with
  | nil => exact .refl _ _
  | cons m l ih => exact (slashUnavailable_spends hp f m).trans (ih _)

theorem runAvailabilitySlash_prog (hE : E .plain) (hw : s.Wf) (e : Int) :
    Prog E s (runAvailabilitySlash c e s) := by
  unfold runAvailabilitySlash
  simp only
  split
  · exact .refl hw
  · split
    · exact .refl hw
    · exact .of_spends hE hw (fun _ => le_rfl)
        (slashUnavailables_spends hw.checked.availSlash _ s.funds) _

theorem runAvailabilityEpoch_prog (hE : E .plain) (hw : s.Wf)
    (h : runAvailabilityEpoch c s = .ok s') : Prog E s s' := by
  have hpay : ∀ e {s s' : State}, s.Wf → payAvailability c e s = .ok s' → Prog E s s' := by
    intro e s s' hw h
    unfold payAvailability at h
    simp only at h
    split at h
    · cases h
    · cases h
      exact .of_registry hE hw _
  unfold runAvailabilityEpoch at h
  simp only at h
  split at h
  · cases h
    exact .refl hw
  · by_cases he : c.h / toInt64 s.params.availEpochBlocks ≥ 1
    · simp only [if_pos he, bind_ok, pure_ok] at h
      obtain ⟨s₁, h₁, rfl⟩ := h
      have h2 := runAvailabilitySlash_prog (c := c) hE hw (c.h / toInt64 s.params.availEpochBlocks - 1)
      have h3 := hpay _ h2.wf h₁
      exact (h2.trans h3).trans (.of_registry hE h3.wf _)
    · simp only [if_neg he, bind_ok, pure_ok] at h
      obtain ⟨s₁, rfl, rfl⟩ := h
      exact .of_registry hE hw _

end Availability

/-! ## The block -/

theorem runPeriodic_prog (hE : E .plain) (hw : s.Wf) : Prog E s (runPeriodic c s) := by
  unfold runPeriodic
  split
  · have h := pruneInactiveMiners_prog (c := c) hE hw
    exact h.trans (retryHeldReleases_prog hE h.wf)
  · exact .refl hw

theorem endBlock_prog (hE : E .plain) (hsum : E (.summon s.params)) (hw : s.Wf)
    (hdrop : ∀ key ∈ s.queues.pendingJobExpiry.due c.h jobExpiryMaxPerBlock, ∀ s',
      Returned s s' (ofLex key).2 → E (.drop (s'.job (ofLex key).2)))
    (h : endBlock c s = .ok s') : Prog E s s' := by
  simp only [endBlock, bind_ok] at h
  obtain ⟨s₂, h₂, h⟩ := h
  have h1 := runExpiry_prog hE hw hdrop
  have h2 : Prog E _ _ := .of_aside hE h1.wf (runReveal_aside (c := c) (blockSeed c s.params))
  have h3 := runOptimisticAudit_prog hE (by rw [h2.params, h1.params]; exact hsum) h2.wf h₂
  have h4 := runAuditResolveTimeout_prog (c := c) hE h3.wf
  have h5 := runAppealResolveTimeout_prog (c := c) hE h4.wf
  have h6 := runPeriodic_prog (c := c) hE h5.wf
  have h7 := runAvailabilityEpoch_prog hE h6.wf h
  exact (((((h1.trans h2).trans h3).trans h4).trans h5).trans h6).trans h7

end Dendra.Jobs
