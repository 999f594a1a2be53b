import Dendra.Jobs.Absences
import Dendra.Jobs.Records

/-!
# The sliding window of absences

The boundary of an epoch shifts the mask of every bonded miner by the epochs since it was last written,
adds the miss of the epoch, and takes the miner for a slash when the window holds enough of them. The
entry of a clean miner is deleted, and so is the one of a miner that is slashed. Beside a run stands the
set of the epochs that each miner owed and missed since then.

* `Encodes`: the bits of a mask are the missed epochs, counted back from an epoch.
* `Judged`: what the count does to the entry of a miner; it leaves those of the others alone.
* `Watch`: a run, and beside it the missed epochs; `Exact` is what it keeps.
* `window_exact`: who is slashed at a boundary, and what the stored masks are worth.
* `window_dust`: a bond whose slash is floored to nothing.
-/

namespace Dendra.Jobs

open Word

/-! ## Masks and sets of epochs -/

/-- The missed epochs that are in the window of `w` epochs that ends at `e`. -/
def inWindow (w e : Nat) (missed : Finset Nat) : Finset Nat :=
  missed.filter fun x => x ≤ e ∧ e < x + w

/-- The bits of the mask are the missed epochs of the window, counted back from epoch `e`. -/
def Encodes (w e : Nat) (mask : UInt64) (missed : Finset Nat) : Prop :=
  ∀ i < 64, mask.toNat.testBit i = true ↔ i < w ∧ ∃ x ∈ missed, x + i = e

section Encodes

variable {w e e' : Nat} {mask : UInt64} {missed : Finset Nat}

theorem mem_inWindow {x : Nat} : x ∈ inWindow w e missed ↔ x ∈ missed ∧ x ≤ e ∧ e < x + w :=
  Finset.mem_filter

/-- The misses of a mask are counted by its bits. -/
theorem Encodes.onesCount_eq (h : Encodes w e mask missed) (hle : w ≤ 64) :
    onesCount mask = (inWindow w e missed).card := by
  rw [onesCount_eq_card]
  refine Finset.card_nbij' (fun i => e - i) (fun x => e - x) (fun i hi => ?_) (fun x hx => ?_)
    (fun i hi => ?_) fun x hx => ?_
  · rw [Finset.mem_coe, Finset.mem_filter, Finset.mem_range] at hi
    obtain ⟨hw, x, hx, hsum⟩ := (h i hi.1).1 hi.2
    have hback : e - i = x := by omega
    rw [Finset.mem_coe, mem_inWindow]
    simp only [hback]
    exact ⟨hx, by omega⟩
  · rw [Finset.mem_coe, mem_inWindow] at hx
    rw [Finset.mem_coe, Finset.mem_filter, Finset.mem_range]
    have hlt : e - x < 64 := by omega
    exact ⟨hlt, (h (e - x) hlt).2 ⟨by omega, x, hx.1, by omega⟩⟩
  · rw [Finset.mem_coe, Finset.mem_filter, Finset.mem_range] at hi
    obtain ⟨-, x, -, hsum⟩ := (h i hi.1).1 hi.2
    simp only
    omega
  · rw [Finset.mem_coe, mem_inWindow] at hx
    simp only
    omega

/-- No miss of the window is left once the mask is empty. -/
theorem encodes_zero_iff (hle : w ≤ 64) : Encodes w e 0 missed ↔ inWindow w e missed = ∅ := by
  rw [Finset.eq_empty_iff_forall_notMem]
  constructor
  · intro h x hx
    rw [mem_inWindow] at hx
    have := (h (e - x) (by omega)).2 ⟨by omega, x, hx.1, by omega⟩
    simp at this
  · intro h i hi
    refine ⟨fun hbit => by simp at hbit, fun ⟨hw, x, hx, hsum⟩ => ?_⟩
    exact absurd (mem_inWindow.2 ⟨hx, by omega, by omega⟩) (h x)

/-- A window that ends later holds no miss of before that the earlier one does not. -/
theorem inWindow_subset (h : e ≤ e') (hm : ∀ x ∈ missed, x ≤ e) :
    inWindow w e' missed ⊆ inWindow w e missed := by
  intro x hx
  rw [mem_inWindow] at hx ⊢
  exact ⟨hx.1, hm x hx.1, by omega⟩

end Encodes

/-! ## The entry of a miner -/

section Entry

variable [Chain]

/-- The mask of a miner that the boundary of epoch `e` finds, before it judges the epoch. -/
def foundMask (p : Params) (e : UInt64) (r : Registry) (m : Str) : UInt64 := failMask p e [] [m] r m

/-- What is stored of a miner: the epoch that its mask ends at, and the mask. -/
def windowOf (r : Registry) (m : Str) : Option UInt64 × Option UInt64 :=
  (r.availFailWindowStart.get m, r.availFailCount.get m)

/-- The miner has the bond that comes with the obligation. -/
def Bonded (p : Params) (m : Miner) : Prop := ¬ (m.stake = 0 ∨ m.stake < p.minStake)

instance (p : Params) (m : Miner) : Decidable (Bonded p m) := inferInstanceAs (Decidable (¬ _))

/-- The miner was drawn for a proof of the epoch, and is not among the present. -/
def Absent (p : Params) (e : UInt64) (challenge : Str) (present : List Str) (m : Str) : Prop :=
  present.contains m = false ∧ availabilityProofOwed challenge e m p.availSampleBps = true

instance (p : Params) (e : UInt64) (challenge : Str) (present : List Str) (m : Str) :
    Decidable (Absent p e challenge present m) := inferInstanceAs (Decidable (_ ∧ _))

variable {p : Params} {e : UInt64} {challenge : Str} {present : List Str} {r r' : Registry} {m : Str}
  {last mask : UInt64}

theorem failMask_congr (h : windowOf r' m = windowOf r m) :
    failMask p e challenge present r' m = failMask p e challenge present r m := by
  obtain ⟨hl, hm⟩ := Prod.mk.inj h
  simp only [failMask, hl, hm]

/-- The mask shifted by the epochs since it was written. -/
def shiftedMask (e : UInt64) (r : Registry) (m : Str) : UInt64 :=
  match r.availFailWindowStart.get m, r.availFailCount.get m with
  | some last, some prev => if last < e ∧ e - last < 64 then prev <<< (e - last) else 0
  | _, _ => 0

theorem failMask_eq : failMask p e challenge present r m =
    (if Absent p e challenge present m then shiftedMask e r m ||| 1 else shiftedMask e r m) &&&
      (if p.availFailWindow ≥ 64 then UInt64.ofNat (2 ^ 64 - 1)
        else (1 <<< (if p.availFailWindow ≥ 64 then 64 else p.availFailWindow)) - 1) := rfl

/-- The mask that is judged has the bits of the one that is found, and the miss of the epoch. -/
theorem testBit_failMask (hw : 0 < windowSize p) (i : Nat) :
    (failMask p e challenge present r m).toNat.testBit i = true ↔
      (foundMask p e r m).toNat.testBit i = true ∨ i = 0 ∧ Absent p e challenge present m := by
  have hone : (1 : UInt64).toNat.testBit i = true ↔ i = 0 :=
    Nat.testBit_one_eq_true_iff_self_eq_zero
  have hpresent : ¬ Absent p e [] [m] m := fun h => by simp [Absent] at h
  rw [foundMask, failMask_eq, failMask_eq, if_neg hpresent, UInt64.toNat_and, UInt64.toNat_and,
    Nat.testBit_and, Nat.testBit_and, testBit_winMask, Bool.and_eq_true, Bool.and_eq_true,
    decide_eq_true_eq]
  split
  · next habsent =>
    rw [UInt64.toNat_or, Nat.testBit_or, Bool.or_eq_true, hone]
    constructor
    · rintro ⟨hkept | hi, hlt⟩
      · exact .inl ⟨hkept, hlt⟩
      · exact .inr ⟨hi, habsent⟩
    · rintro (⟨hkept, hlt⟩ | ⟨hi, -⟩)
      · exact ⟨.inl hkept, hlt⟩
      · exact ⟨.inr hi, hi ▸ hw⟩
  · next habsent =>
    constructor
    · exact .inl
    · rintro (hkept | ⟨-, h⟩)
      · exact hkept
      · exact absurd h habsent

/-- What the count does with a mask: the miner is taken, or its entry is written or deleted. -/
inductive Judged (p : Params) (e mask : UInt64) (w : Option UInt64 × Option UInt64) (taken : Prop) : Prop
  | taken (hk : p.availFailK.toNat ≤ onesCount mask) (hw : w.1 = none) (ht : taken)
  | clean (hk : onesCount mask < p.availFailK.toNat) (hz : mask = 0) (hw : w.1 = none) (ht : ¬ taken)
  | written (hk : onesCount mask < p.availFailK.toNat) (hw : w = (some e, some mask)) (ht : ¬ taken)

/-- The count of a bonded miner. -/
theorem countFailure_self {acc : Registry × List Str} {x : Miner} (hb : Bonded p x)
    (hfresh : x.minerId ∉ acc.2) :
    Judged p e (failMask p e challenge present acc.1 x.minerId)
      (windowOf (countFailure p e challenge present acc x).1 x.minerId)
      (x.minerId ∈ (countFailure p e challenge present acc x).2) := by
  obtain ⟨r, l⟩ := acc
  unfold countFailure
  rw [if_neg hb]
  simp only
  generalize failMask p e challenge present r x.minerId = mask
  have hgone : (windowOf (if (r.availFailWindowStart.get x.minerId).isSome then
      { r with
        availFailCount := r.availFailCount.remove x.minerId
        availFailWindowStart := r.availFailWindowStart.remove x.minerId } else r) x.minerId).1 = none := by
    split
    · exact Store.get_remove_self
    · next hnone => exact Option.not_isSome_iff_eq_none.1 hnone
  by_cases hk : p.availFailK.toNat ≤ onesCount mask
  · have hfailed : decide (onesCount mask ≥ p.availFailK.toNat) = true := decide_eq_true hk
    rw [if_pos (.inl hfailed)]
    refine .taken hk ?_ ?_
    · rw [← hgone]
      split <;> rfl
    · split <;> exact List.mem_append_right _ (.head _)
  · have hfailed : decide (onesCount mask ≥ p.availFailK.toNat) = false := decide_eq_false hk
    rw [not_le] at hk
    by_cases hz : mask = 0
    · rw [if_pos (.inr hz)]
      refine .clean hk hz ?_ ?_
      · rw [← hgone]
        split <;> rfl
      · split <;> simpa [hfailed] using hfresh
    · rw [if_neg (by simp [hfailed, hz])]
      refine .written hk ?_ ?_
      · exact Prod.ext Store.get_set_self Store.get_set_self
      · simpa [hfailed] using hfresh

/-- The count of a miner leaves the entries of the others alone. -/
theorem windowOf_countFailure_ne {acc : Registry × List Str} {x : Miner} (hne : m ≠ x.minerId) :
    windowOf (countFailure p e challenge present acc x).1 m = windowOf acc.1 m := by
  obtain ⟨r, l⟩ := acc
  unfold countFailure
  split
  · rfl
  · simp only
    split
    · split
      · exact Prod.ext (Store.get_remove_ne hne) (Store.get_remove_ne hne)
      · rfl
    · exact Prod.ext (Store.get_set_ne hne) (Store.get_set_ne hne)

/-- One that is not bonded is passed over. -/
theorem countFailure_unbonded {acc : Registry × List Str} {x : Miner} (hb : ¬ Bonded p x) :
    countFailure p e challenge present acc x = acc := by
  unfold countFailure
  exact if_pos (not_not.1 hb)

/-- What it takes is the miner, if anybody. -/
theorem taken_countFailure (acc : Registry × List Str) (x : Miner) :
    (countFailure p e challenge present acc x).2 = acc.2 ∨
      (countFailure p e challenge present acc x).2 = acc.2 ++ [x.minerId] := by
  obtain ⟨r, l⟩ := acc
  unfold countFailure
  split
  · exact .inl rfl
  · simp only
    split
    · split <;> split <;> simp
    · next h =>
      rw [not_or] at h
      exact .inl (if_neg h.1)

theorem mem_countFailure_ne {acc : Registry × List Str} {x : Miner} (hne : m ≠ x.minerId) :
    m ∈ (countFailure p e challenge present acc x).2 ↔ m ∈ acc.2 := by
  rcases taken_countFailure (p := p) (e := e) acc x with h | h
  · rw [h]
  · rw [h, List.mem_append, List.mem_singleton]
    exact or_iff_left hne

/-! ## The pass over the miners -/

/-- Miners that are not this one, or not bonded, leave its entry alone. -/
theorem foldl_countFailure_ne {l : List Miner} (h : ∀ x ∈ l, x.minerId = m → ¬ Bonded p x)
    (acc : Registry × List Str) :
    windowOf (l.foldl (countFailure p e challenge present) acc).1 m = windowOf acc.1 m ∧
      (m ∈ (l.foldl (countFailure p e challenge present) acc).2 ↔ m ∈ acc.2) := by
  induction l generalizing acc with
  | nil => exact ⟨rfl, Iff.rfl⟩
  | cons x l ih =>
    obtain ⟨hw, ht⟩ := ih (fun y hy => h y (.tail _ hy)) (countFailure p e challenge present acc x)
    by_cases hm : x.minerId = m
    · rw [countFailure_unbonded (h x (.head _) hm)] at hw ht
      rw [List.foldl_cons, countFailure_unbonded (h x (.head _) hm)]
      exact ⟨hw, ht⟩
    · rw [List.foldl_cons]
      exact ⟨hw.trans (windowOf_countFailure_ne (Ne.symm hm)),
        ht.trans (mem_countFailure_ne (Ne.symm hm))⟩

/-- Among distinct miners, a bonded one is judged on the entry it had. -/
theorem foldl_countFailure_self {l : List Miner} (hn : (l.map Miner.minerId).Nodup) {x : Miner}
    (hx : x ∈ l) (hb : Bonded p x) (acc : Registry × List Str) (hfresh : x.minerId ∉ acc.2) :
    Judged p e (failMask p e challenge present acc.1 x.minerId)
      (windowOf (l.foldl (countFailure p e challenge present) acc).1 x.minerId)
      (x.minerId ∈ (l.foldl (countFailure p e challenge present) acc).2) := by
  induction l generalizing acc with
  | nil => cases hx
  | cons y l ih =>
    rw [List.map_cons, List.nodup_cons] at hn
    rw [List.foldl_cons]
    rcases List.mem_cons.1 hx with rfl | hx
    · obtain ⟨hw, ht⟩ := foldl_countFailure_ne (p := p) (e := e) (m := x.minerId)
        (fun z hz hid => absurd (List.mem_map.2 ⟨z, hz, hid⟩) hn.1)
        (countFailure p e challenge present acc x)
      rw [hw, ht]
      exact countFailure_self hb hfresh
    · have hne : x.minerId ≠ y.minerId := fun hid => hn.1 (List.mem_map.2 ⟨x, hx, hid⟩)
      have h := ih hn.2 hx (countFailure p e challenge present acc y)
        (fun hin => hfresh ((mem_countFailure_ne hne).1 hin))
      rwa [failMask_congr (windowOf_countFailure_ne hne)] at h

/-- The miners that are taken are miners, each once. -/
theorem foldl_countFailure_sublist (l : List Miner) (acc : Registry × List Str) :
    ∃ t, (l.foldl (countFailure p e challenge present) acc).2 = acc.2 ++ t ∧
      t.Sublist (l.map Miner.minerId) := by
  induction l generalizing acc with
  | nil => exact ⟨[], (List.append_nil _).symm, .slnil⟩
  | cons x l ih =>
    obtain ⟨t, ht, hsub⟩ := ih (countFailure p e challenge present acc x)
    rw [List.foldl_cons, ht, List.map_cons]
    rcases taken_countFailure (p := p) (e := e) acc x with h | h
    · exact ⟨t, by rw [h], hsub.cons _⟩
    · exact ⟨x.minerId :: t, by rw [h, List.append_assoc]; rfl, hsub.cons_cons _⟩

/-! ## One judgment -/

/-- What is stored of a miner is worth the missed epochs before `n`: the mask encodes them at the epoch that
it ends at, or there is none and no window holds one of them any more. -/
def Stored (w n : Nat) (entry : Option UInt64 × Option UInt64) (missed : Finset Nat) : Prop :=
  entry.1 = none ∧ (∀ e, n ≤ e + 1 → inWindow w e missed = ∅) ∨
    ∃ last mask, entry = (some last, some mask) ∧ last.toNat < n ∧ (∀ x ∈ missed, x ≤ last.toNat) ∧
      Encodes w last.toNat mask missed

/-- The epochs before `n` that a miner owed and missed since it was last taken, and what is stored of
them: they are fewer than a slash needs in any window yet to come. -/
structure Exact (p : Params) (n : Nat) (r : Registry) (m : Str) (missed : Finset Nat) : Prop where
  past : ∀ x ∈ missed, x < n
  few : ∀ e, n ≤ e → (inWindow (windowSize p) e missed).card < p.availFailK.toNat
  stored : Stored (windowSize p) n (windowOf r m) missed

variable {n n' : Nat} {missed : Finset Nat} {taken : Prop}

omit [Chain] in
theorem Exact.congr (h : Exact p n r m missed) (hn : n ≤ n') (hw : windowOf r' m = windowOf r m) :
    Exact p n' r' m missed := by
  refine ⟨fun x hx => (h.past x hx).trans_le hn, fun e he => h.few e (hn.trans he), ?_⟩
  rw [hw]
  rcases h.stored with ⟨hnone, hempty⟩ | ⟨last, mask, he, hlt, hle, henc⟩
  · exact .inl ⟨hnone, fun e he => hempty e (hn.trans he)⟩
  · exact .inr ⟨last, mask, he, hlt.trans_le hn, hle, henc⟩

/-- Every boundary yet to come finds the misses of its window, and no others. -/
theorem Exact.encodes (h : Exact p n r m missed) (hn : n ≤ e.toNat) :
    Encodes (windowSize p) e.toNat (foundMask p e r m) missed := by
  rcases h.stored with ⟨hnone, hempty⟩ | ⟨last, mask, hentry, hlast, hle, henc⟩
  · have hfound : foundMask p e r m = 0 := found_of_none fun last mask hl => by
      have hgone : r.availFailWindowStart.get m = none := hnone
      rw [hgone] at hl
      cases hl
    rw [hfound]
    exact (encodes_zero_iff (windowSize_le p)).2 (hempty _ (by omega))
  · intro i hi
    obtain ⟨hl, hm⟩ := Prod.mk.inj hentry
    have hlt : last < e := UInt64.lt_iff_toNat_lt.2 (by omega)
    have hgap := toNat_sub (UInt64.le_of_lt hlt)
    rw [foundMask, testBit_found hl hm hi, hgap]
    constructor
    · rintro ⟨-, hge, hiw, hbit⟩
      obtain ⟨-, x, hx, hsum⟩ := (henc _ (by omega)).1 hbit
      exact ⟨hiw, x, hx, by omega⟩
    · rintro ⟨hiw, x, hx, hsum⟩
      have := hle x hx
      exact ⟨hlt, by omega, hiw, (henc _ (by omega)).2 ⟨by omega, x, hx, by omega⟩⟩

/-- The missed epochs with the one that is judged. -/
def withMiss (p : Params) (e : UInt64) (challenge : Str) (present : List Str) (m : Str)
    (missed : Finset Nat) : Finset Nat :=
  if Absent p e challenge present m then insert e.toNat missed else missed

/-- The mask that is judged encodes the misses with the one of the epoch. -/
theorem Exact.judged (h : Exact p n r m missed) (hw : 0 < windowSize p) (hn : n ≤ e.toNat) :
    Encodes (windowSize p) e.toNat (failMask p e challenge present r m)
      (withMiss p e challenge present m missed) := by
  intro i hi
  rw [testBit_failMask hw, h.encodes hn i hi, withMiss]
  split
  · next habsent =>
    constructor
    · rintro (⟨hlt, x, hx, hsum⟩ | ⟨rfl, -⟩)
      · exact ⟨hlt, x, Finset.mem_insert_of_mem hx, hsum⟩
      · exact ⟨hw, e.toNat, Finset.mem_insert_self _ _, Nat.add_zero _⟩
    · rintro ⟨hlt, x, hx, hsum⟩
      rcases Finset.mem_insert.1 hx with rfl | hx
      · exact .inr ⟨by omega, habsent⟩
      · exact .inl ⟨hlt, x, hx, hsum⟩
  · next habsent =>
    constructor
    · rintro (hin | ⟨-, hin⟩)
      · exact hin
      · exact absurd hin habsent
    · exact .inl

theorem Exact.le_of_mem (h : Exact p n r m missed) (hn : n ≤ e.toNat) (challenge : Str)
    (present : List Str) : ∀ x ∈ withMiss p e challenge present m missed, x ≤ e.toNat := by
  have hold : ∀ x ∈ missed, x ≤ e.toNat := fun x hx => ((h.past x hx).trans_le hn).le
  unfold withMiss
  split
  · exact fun x hx => (Finset.mem_insert.1 hx).elim (fun h => h.le) (hold x)
  · exact hold

omit [Chain] in
/-- A judgment takes the miner when the window holds enough misses, and what it stores is worth what is
left of them. -/
theorem Judged.exact (hj : Judged p e mask (windowOf r m) taken) (hk : 0 < p.availFailK.toNat)
    (henc : Encodes (windowSize p) e.toNat mask missed) (hpast : ∀ x ∈ missed, x ≤ e.toNat) :
    (taken ↔ p.availFailK.toNat ≤ (inWindow (windowSize p) e.toNat missed).card) ∧
      (taken → Exact p (e.toNat + 1) r m ∅) ∧ (¬ taken → Exact p (e.toNat + 1) r m missed) := by
  have hcount := henc.onesCount_eq (windowSize_le p)
  have hlater : ∀ e', e.toNat + 1 ≤ e' + 1 →
      inWindow (windowSize p) e' missed ⊆ inWindow (windowSize p) e.toNat missed :=
    fun e' he' => inWindow_subset (Nat.le_of_succ_le_succ he') hpast
  have hfew : onesCount mask < p.availFailK.toNat → ∀ e', e.toNat + 1 ≤ e' →
      (inWindow (windowSize p) e' missed).card < p.availFailK.toNat := fun hlt e' he' =>
    (Finset.card_le_card (hlater e' (Nat.le_succ_of_le he'))).trans_lt (hcount ▸ hlt)
  cases hj with
  | taken hle hgone ht =>
    refine ⟨⟨fun _ => hcount ▸ hle, fun _ => ht⟩, fun _ => ⟨fun x hx => ?_, fun _ _ => hk,
      .inl ⟨hgone, fun _ _ => rfl⟩⟩, fun hnot => absurd ht hnot⟩
    cases Finset.notMem_empty x hx
  | clean hlt hz hgone ht =>
    refine ⟨⟨fun h => absurd h ht, fun hle => absurd hle (by omega)⟩, fun h => absurd h ht, fun _ =>
      ⟨fun x hx => Nat.lt_succ_of_le (hpast x hx), hfew hlt, .inl ⟨hgone, fun e' he' => ?_⟩⟩⟩
    have hempty := hlater e' he'
    rw [hz] at henc
    rwa [(encodes_zero_iff (windowSize_le p)).1 henc, Finset.subset_empty] at hempty
  | written hlt hstored ht =>
    exact ⟨⟨fun h => absurd h ht, fun hle => absurd hle (by omega)⟩, fun h => absurd h ht, fun _ =>
      ⟨fun x hx => Nat.lt_succ_of_le (hpast x hx), hfew hlt,
        .inr ⟨e, mask, hstored, Nat.lt_succ_self _, hpast, henc⟩⟩⟩

end Entry

/-! ## The pass of a boundary -/

/-- The challenge that a sampled obligation is drawn on. -/
def slashChallenge (s : State) : Str :=
  if s.params.availSampleBps > 0 then s.registry.availChallenge.getD [] else []

/-- The miners that are present in an epoch. -/
def presentIds (epoch : Int) (s : State) : List Str := (presentAt s epoch).map fun k => (ofLex k).2

/-- The pass judges the epoch: it is armed, the epoch is no bootstrap, and its draw is known. -/
def Judges (epoch : Int) (s : State) : Prop :=
  ¬ (s.params.availSlashBps = 0 ∨ s.params.availFailK = 0 ∨ s.params.availFailWindow = 0 ∨ epoch < 1) ∧
    ¬ (s.params.availSampleBps > 0 ∧ s.registry.availChallenge.getD [] = [])

instance (epoch : Int) (s : State) : Decidable (Judges epoch s) := inferInstanceAs (Decidable (_ ∧ _))

section Pass

variable [Chain] {c : Ctx} {s s' : State} {epoch : Int} {m : Str} {n : Nat} {missed : Finset Nat}

/-- The miner owed a proof of the epoch and gave none: it was bonded and drawn, and is not present. -/
def MissedAt (epoch : Int) (s : State) (m : Str) : Prop :=
  Judges epoch s ∧ ((s.miner m).any fun x => decide (Bonded s.params x)) = true ∧
    Absent s.params (toUint64 epoch) (slashChallenge s) (presentIds epoch s) m

instance (epoch : Int) (s : State) (m : Str) : Decidable (MissedAt epoch s m) :=
  inferInstanceAs (Decidable (_ ∧ _ ∧ _))

/-- The missed epochs of a miner with the one that a boundary judges. -/
def missedWith (epoch : Int) (s : State) (m : Str) (missed : Finset Nat) : Finset Nat :=
  if MissedAt epoch s m then insert epoch.toNat missed else missed

/-- The judgment of all miners, and those that it takes. -/
def judgeAll (epoch : Int) (s : State) : Registry × List Str :=
  s.funds.miners.entries.foldl
    (countFailure s.params (toUint64 epoch) (slashChallenge s) (presentIds epoch s)) (s.registry, [])

theorem runAvailabilitySlash_eq : runAvailabilitySlash c epoch s =
    if Judges epoch s then
      { s with
        registry := (judgeAll epoch s).1
        funds := (judgeAll epoch s).2.foldl (slashUnavailable c s.params) s.funds }
    else s := by
  unfold runAvailabilitySlash
  simp only
  by_cases hdormant : s.params.availSlashBps = 0 ∨ s.params.availFailK = 0 ∨
      s.params.availFailWindow = 0 ∨ epoch < 1
  · rw [if_pos hdormant, if_neg fun h => h.1 hdormant]
  · by_cases hunknown : s.params.availSampleBps > 0 ∧ s.registry.availChallenge.getD [] = []
    · rw [if_neg hdormant, if_pos hunknown, if_neg fun h => h.2 hunknown]
    · rw [if_neg hdormant, if_neg hunknown]
      exact (if_pos ⟨hdormant, hunknown⟩).symm

omit [Chain] in
theorem toNat_toUint64 (h : 0 ≤ epoch) (hlt : epoch < 2 ^ 63) : (toUint64 epoch).toNat = epoch.toNat := by
  rw [toUint64, UInt64.toNat_ofNat', Int.emod_eq_of_lt h (by omega)]
  exact Nat.mod_eq_of_lt (by omega)

/-- What the pass takes from a miner. -/
def Miner.slashed (p : Params) (x : Miner) : Miner :=
  { x with stake := x.stake - availSlashOf p x.stake }

theorem slashUnavailable_miners (p : Params) (f : Funds) (id m : Str) :
    (slashUnavailable c p f id).miners.get? m =
      if m = id then (f.miners.get? m).map (Miner.slashed p) else f.miners.get? m := by
  unfold slashUnavailable
  by_cases hm : m = id
  · subst hm
    rw [if_pos rfl]
    cases hx : f.miners.get? m with
    | none => exact hx
    | some x =>
      have hid : x.minerId = m := Table.key_of_get? hx
      simp only
      split
      · next hz => rw [hx, Option.map_some, Miner.slashed, hz, UInt64.sub_zero]
      · subst hid
        rw [pay_miners]
        exact Table.get?_put_self (v := x.slashed p)
  · rw [if_neg hm]
    cases hx : f.miners.get? id with
    | none => rfl
    | some x =>
      have hid : x.minerId = id := Table.key_of_get? hx
      simp only
      split
      · rfl
      · rw [pay_miners]
        exact Table.get?_put_ne (v := x.slashed p) (hid ▸ hm)

/-- Each miner that is taken is slashed once. -/
theorem foldl_slashUnavailable_miners (p : Params) {l : List Str} (hn : l.Nodup) (f : Funds) (m : Str) :
    (l.foldl (slashUnavailable c p) f).miners.get? m =
      if m ∈ l then (f.miners.get? m).map (Miner.slashed p) else f.miners.get? m := by
  induction l generalizing f with
  | nil => rfl
  | cons id l ih =>
    rw [List.nodup_cons] at hn
    rw [List.foldl_cons, ih hn.2, slashUnavailable_miners]
    by_cases hm : m = id
    · rw [if_pos hm, if_neg (hm ▸ hn.1), if_pos (hm ▸ .head _)]
    · rw [if_neg hm]
      exact if_congr (by rw [List.mem_cons, or_iff_right hm]) rfl rfl

theorem judgeAll_nodup (epoch : Int) (s : State) : (judgeAll epoch s).2.Nodup := by
  obtain ⟨t, ht, hsub⟩ := foldl_countFailure_sublist s.funds.miners.entries (s.registry, [])
    (p := s.params) (e := toUint64 epoch)
  rw [judgeAll, ht, List.nil_append]
  exact hsub.nodup s.funds.miners.nodup_map_key

theorem judgeAll_self {x : Miner} (hx : s.miner m = some x) (hb : Bonded s.params x) (epoch : Int) :
    Judged s.params (toUint64 epoch)
      (failMask s.params (toUint64 epoch) (slashChallenge s) (presentIds epoch s) s.registry m)
      (windowOf (judgeAll epoch s).1 m) (m ∈ (judgeAll epoch s).2) := by
  have hid : x.minerId = m := Table.key_of_get? hx
  subst hid
  exact foldl_countFailure_self s.funds.miners.nodup_map_key (Table.mem_of_get? hx) hb (s.registry, [])
    List.not_mem_nil

theorem judgeAll_ne (h : ∀ x, s.miner m = some x → ¬ Bonded s.params x) (epoch : Int) :
    windowOf (judgeAll epoch s).1 m = windowOf s.registry m ∧ m ∉ (judgeAll epoch s).2 := by
  obtain ⟨hwindow, hin⟩ := foldl_countFailure_ne (p := s.params) (e := toUint64 epoch)
    (fun x hx hid => h x (Table.get?_eq_some_iff.2 ⟨hx, hid⟩)) (s.registry, [])
  exact ⟨hwindow, fun h => List.not_mem_nil (hin.1 h)⟩

/-- The pass judges the miner by the window, slashes it accordingly, and stores what is left. -/
theorem runAvailabilitySlash_exact (h : Exact s.params n s.registry m missed)
    (hk : 0 < s.params.availFailK.toNat) (hw : 0 < windowSize s.params) (hn : n ≤ epoch.toNat)
    (hlt : epoch < 2 ^ 63) :
    (runAvailabilitySlash c epoch s).miner m = (s.miner m).map (fun x =>
        if s.params.availFailK.toNat ≤
            (inWindow (windowSize s.params) epoch.toNat (missedWith epoch s m missed)).card then
          x.slashed s.params else x) ∧
      Exact s.params (epoch.toNat + 1) (runAvailabilitySlash c epoch s).registry m
        (if s.params.availFailK.toNat ≤
            (inWindow (windowSize s.params) epoch.toNat (missedWith epoch s m missed)).card then ∅
          else missedWith epoch s m missed) := by
  have hquiet : ¬ MissedAt epoch s m →
      ¬ s.params.availFailK.toNat ≤
        (inWindow (windowSize s.params) epoch.toNat (missedWith epoch s m missed)).card := by
    intro hnot
    rw [missedWith, if_neg hnot, not_le]
    exact h.few _ hn
  rw [runAvailabilitySlash_eq]
  by_cases hj : Judges epoch s
  · rw [if_pos hj]
    have hminer := foldl_slashUnavailable_miners (c := c) s.params (judgeAll_nodup epoch s) s.funds m
    by_cases hb : ((s.miner m).any fun x => decide (Bonded s.params x)) = true
    · obtain ⟨x, hx, hbx⟩ := (Option.any_eq_true _ _).1 hb
      have he : (toUint64 epoch).toNat = epoch.toNat := by
        have h1 : ¬ epoch < 1 := fun hlt => hj.1 (.inr (.inr (.inr hlt)))
        exact toNat_toUint64 (by omega) hlt
      obtain ⟨hiff, hyes, hno⟩ := (judgeAll_self hx (of_decide_eq_true hbx) epoch).exact hk
        (h.judged hw (he ▸ hn)) (h.le_of_mem (he ▸ hn) _ _)
      have hmiss : withMiss s.params (toUint64 epoch) (slashChallenge s) (presentIds epoch s) m missed =
          missedWith epoch s m missed := by
        rw [withMiss, missedWith, he]
        exact if_congr ⟨fun habsent => ⟨hj, hb, habsent⟩, fun hm => hm.2.2⟩ rfl rfl
      rw [hmiss, he] at hiff
      rw [he] at hyes
      rw [hmiss, he] at hno
      refine ⟨hminer.trans ?_, ?_⟩
      · by_cases hin : m ∈ (judgeAll epoch s).2
        · rw [if_pos hin]
          simp only [if_pos (hiff.1 hin)]
          rfl
        · rw [if_neg hin]
          simp only [if_neg fun hle => hin (hiff.2 hle)]
          exact Option.map_id'.symm
      · split
        · next hle => exact hyes (hiff.2 hle)
        · next hle => exact hno fun hin => hle (hiff.1 hin)
    · have hnot : ¬ MissedAt epoch s m := fun hmiss => hb hmiss.2.1
      obtain ⟨hwindow, hin⟩ := judgeAll_ne (fun x hx hbx => hb ((Option.any_eq_true _ _).2
        ⟨x, hx, decide_eq_true hbx⟩)) epoch
      rw [if_neg (hquiet hnot)]
      simp only [if_neg (hquiet hnot)]
      refine ⟨(hminer.trans (if_neg hin)).trans
        Option.map_id'.symm, ?_⟩
      rw [missedWith, if_neg hnot]
      exact h.congr (by omega) hwindow
  · have hnot : ¬ MissedAt epoch s m := fun hmiss => hj hmiss.1
    rw [if_neg hj, if_neg (hquiet hnot)]
    simp only [if_neg (hquiet hnot)]
    refine ⟨Option.map_id'.symm, ?_⟩
    rw [missedWith, if_neg hnot]
    exact h.congr (by omega) rfl

/-! ## The end of a block -/

/-- The state in which the end of a block runs the availability pass. -/
def closingState (c : Ctx) (s : State) : Except Err State := do
  let seed := blockSeed c s.params
  let s ← runOptimisticAudit c seed (runReveal c seed (runExpiry c s))
  pure (runPeriodic c (runAppealResolveTimeout c (runAuditResolveTimeout c s)))

theorem endBlock_closing (h : endBlock c s = .ok s') : ∃ s₁, closingState c s = .ok s₁ ∧
    runAvailabilityEpoch c s₁ = .ok s' := by
  unfold endBlock at h
  simp only at h
  obtain ⟨s₁, h₁, h₂⟩ := bind_ok.1 h
  exact ⟨_, bind_ok.2 ⟨s₁, h₁, rfl⟩, h₂⟩

theorem closingState_leaves {s₁ : State} (h : closingState c s = .ok s₁) :
    s₁.params = s.params ∧ s₁.masked = s.masked := by
  obtain ⟨s₂, h₂, h₃⟩ := bind_ok.1 h
  cases h₃
  have hlogged := (runAppealResolveTimeout_logged c _).trans ((runAuditResolveTimeout_logged c _).trans
    (runOptimisticAudit_logged c _ _ s₂ h₂))
  have hspared := (runPeriodic_spared c _).trans (spared_of_logged hlogged)
  have hheard := runReveal_runExpiry_heard c s (blockSeed c s.params)
  exact ⟨(params_of_kept (kept_of_spared hspared)).trans (params_of_told (told_of_heard hheard)),
    (masked_of_spared hspared).trans (masked_of_heard hheard)⟩

/-- The epoch that the end of this block closes. -/
def closed (c : Ctx) (s : State) : Int := c.h / epochLength s - 1

/-- The payment and the roll of the challenge leave the miners and their absences as the slash left them. -/
theorem runAvailabilityEpoch_slash (h : runAvailabilityEpoch c s = .ok s') :
    if closing c s then
      s'.funds = (runAvailabilitySlash c (closed c s) s).funds ∧
        s'.masked = (runAvailabilitySlash c (closed c s) s).masked
    else s' = s := by
  unfold runAvailabilityEpoch at h
  simp only at h
  split at h
  · next hquiet =>
    rw [if_neg (by unfold closing epochLength; omega)]
    exact (Except.ok.inj h).symm
  · next hclose =>
    have hclosing : closing c s := by
      unfold closing epochLength
      omega
    have hge : c.h / toInt64 s.params.availEpochBlocks ≥ 1 :=
      Int.le_ediv_of_mul_le (by omega) (by
        rw [one_mul]
        exact Int.le_of_dvd (by omega) (Int.dvd_of_emod_eq_zero (by omega)))
    rw [if_pos hclosing]
    rw [if_pos hge] at h
    obtain ⟨s₂, h₂, h₃⟩ := bind_ok.1 h
    cases payAvailability_eq c _ h₂
    cases h₃
    exact ⟨rfl, rfl⟩

end Pass

/-! ## Runs -/

/-- A run, and beside it the epochs that each miner owed and missed since it was last slashed. No code
reads them. -/
structure Watch where
  clock : Clock
  missed : Str → Finset Nat

section Runs

variable [Chain] {p : Params} {w w' : Watch} {c : Ctx} {s s₁ : State}

/-- Enough of the last epochs are missed when the end of the block closes this one. -/
def Due (c : Ctx) (s : State) (missed : Str → Finset Nat) (m : Str) : Prop :=
  closing c s ∧ s.params.availFailK.toNat ≤
    (inWindow s.params.availFailWindow.toNat (closed c s).toNat
      (missedWith (closed c s) s m (missed m))).card

instance (c : Ctx) (s : State) (missed : Str → Finset Nat) (m : Str) : Decidable (Due c s missed m) :=
  inferInstanceAs (Decidable (_ ∧ _))

/-- The missed epochs after the end of a block: none of a miner that is slashed. -/
def missedAfter (c : Ctx) (s : State) (missed : Str → Finset Nat) (m : Str) : Finset Nat :=
  if Due c s missed m then ∅
  else if closing c s then missedWith (closed c s) s m (missed m)
  else missed m

/-- One action of the run. -/
inductive Watch.Step (w : Watch) (a : Ctx × Action) (w' : Watch) : Prop
  | message (ha : a.2 ≠ .endBlock) (ht : Tick w.clock a w'.clock) (hm : w'.missed = w.missed)
  | block {s : State} (ha : a.2 = .endBlock) (ht : Tick w.clock a w'.clock)
    (hs : closingState a.1 w.clock.state = .ok s) (hm : w'.missed = missedAfter a.1 s w.missed)

/-- A chain that has noted no absence. -/
def Watch.Start (w : Watch) : Prop :=
  (∀ m, (windowOf w.clock.state.registry m).1 = none) ∧ w.missed = fun _ => ∅

/-- The parameters are these. -/
def Fixed (p : Params) (w : Watch) (_ : Ctx × Action) : Prop := w.clock.state.params = p

/-- The first epoch that no boundary has closed before this block. -/
def nextEpoch (p : Params) (block : Nat) : Nat := (block - 1) / (toInt64 p.availEpochBlocks).toNat

/-- What a run keeps of a miner: its missed epochs are exactly those that are stored. -/
def Watch.Kept (p : Params) (w : Watch) : Prop :=
  ∀ m, Exact p (nextEpoch p w.clock.block) w.clock.state.registry m (w.missed m)

omit [Chain] in
theorem windowOf_of_masked (h : s₁.masked = s.masked) (m : Str) :
    windowOf s₁.registry m = windowOf s.registry m := by
  obtain ⟨hcount, hstart⟩ := Prod.mk.inj h
  rw [windowOf, windowOf, hcount, hstart]

omit [Chain] in
theorem nextEpoch_mono {block block' : Nat} (h : block ≤ block') :
    nextEpoch p block ≤ nextEpoch p block' := Nat.div_le_div_right (Nat.sub_le_sub_right h 1)

omit [Chain] in
/-- The epoch that a boundary closes is the first that was open, and the next one is open after it. -/
theorem toNat_closed (hp : s.params = p) (hclose : closing c s) :
    (closed c s).toNat = nextEpoch p c.height ∧ nextEpoch p (c.height + 1) = (closed c s).toNat + 1 ∧
      closed c s < 2 ^ 63 := by
  obtain ⟨hlen, hpos, hmod⟩ := hclose
  unfold closed nextEpoch
  rw [epochLength, hp] at *
  have hk := Int.toNat_of_nonneg hlen.le
  generalize (toInt64 p.availEpochBlocks).toNat = k at hk ⊢
  rw [← hk] at hlen hmod ⊢
  have hc : c.h = (c.height : Int) := rfl
  have hlt := c.height_lt
  rw [hc] at hpos hmod ⊢
  norm_cast at hlen hpos hmod
  obtain ⟨q, hq⟩ := Nat.dvd_of_mod_eq_zero hmod
  have hquot : c.height / k = q := by rw [hq, Nat.mul_div_cancel_left _ hlen]
  have hq1 : 1 ≤ q := Nat.pos_of_ne_zero fun h0 => by
    rw [h0, Nat.mul_zero] at hq
    omega
  have hqle : q ≤ c.height := hquot ▸ Nat.div_le_self _ _
  have hlast : (c.height - 1) / k = q - 1 := by
    have hsplit : c.height - 1 = (k - 1) + k * (q - 1) := by
      rw [hq, Nat.mul_sub, Nat.mul_one]
      have := Nat.le_mul_of_pos_right k hq1
      omega
    rw [hsplit, Nat.add_mul_div_left _ _ hlen, Nat.div_eq_of_lt (by omega), Nat.zero_add]
  have hcast : ((c.height : Int) / (k : Int)) = (q : Int) := by
    rw [← hquot]
    norm_cast
  rw [hcast, hlast, Nat.add_sub_cancel, hquot]
  omega

/-- The accepted parameters under which the slash is armed. -/
theorem armed_of_validate (hv : p.validate = .ok ()) (harmed : p.availSlashBps ≠ 0) :
    0 < p.availFailK.toNat ∧ 0 < p.availFailWindow.toNat ∧
      windowSize p = p.availFailWindow.toNat := by
  have hpos : p.availSlashBps > 0 := UInt64.pos_iff_ne_zero.2 harmed
  simp only [Params.validate, bind_unit_ok, refuse_ok] at hv
  obtain ⟨-, -, -, -, -, -, -, -, -, -, -, -, -, -, -, -, -, -, -, -, -, -, -, -, hfail, hwide, -⟩ := hv
  rw [not_and, not_or] at hfail
  rw [not_and, gt_iff_lt, UInt64.not_lt, UInt64.le_iff_toNat_le] at hwide
  obtain ⟨hk, hw⟩ := hfail hpos
  have hle : p.availFailWindow.toNat ≤ 64 := hwide hpos
  refine ⟨Nat.pos_of_ne_zero fun h => hk (UInt64.toNat_inj.1 h),
    Nat.pos_of_ne_zero fun h => hw (UInt64.toNat_inj.1 h), ?_⟩
  unfold windowSize
  split
  · next hge => exact hle.antisymm (UInt64.le_iff_toNat_le.1 hge) |>.symm
  · rfl

/-- The end of a block that closes an epoch, for one miner. -/
theorem Watch.Kept.block (hk : w.Kept p) (hv : p.validate = .ok ()) (harmed : p.availSlashBps ≠ 0)
    (hfixed : w.clock.state.params = p) {s' : State} (hheight : c.height = w.clock.block)
    (hs : closingState c w.clock.state = .ok s) (hs' : runAvailabilityEpoch c s = .ok s') (m : Str) :
    s'.miner m = (s.miner m).map (fun x => if Due c s w.missed m then x.slashed p else x) ∧
      Exact p (nextEpoch p (c.height + 1)) s'.registry m (missedAfter c s w.missed m) := by
  obtain ⟨hp, hmasked⟩ := closingState_leaves hs
  rw [hfixed] at hp
  obtain ⟨hpos, hwide, hsize⟩ := armed_of_validate hv harmed
  have hexact : Exact p (nextEpoch p c.height) s.registry m (w.missed m) := by
    rw [hheight]
    exact (hk m).congr le_rfl (windowOf_of_masked hmasked m)
  have hslash := runAvailabilityEpoch_slash hs'
  by_cases hclose : closing c s
  · rw [if_pos hclose] at hslash
    obtain ⟨hclosed, hnext, hlt⟩ := toNat_closed hp hclose
    subst hp
    obtain ⟨hminer, hafter⟩ := runAvailabilitySlash_exact (c := c) hexact hpos (hsize ▸ hwide)
      hclosed.ge hlt
    have hdue : s.params.availFailK.toNat ≤ (inWindow (windowSize s.params) (closed c s).toNat
        (missedWith (closed c s) s m (w.missed m))).card ↔ Due c s w.missed m := by
      rw [Due, hsize]
      exact (and_iff_right hclose).symm
    simp only [hdue] at hminer hafter
    refine ⟨?_, ?_⟩
    · rw [State.miner, hslash.1]
      exact hminer
    · rw [hnext, missedAfter, if_pos hclose]
      exact hafter.congr le_rfl (windowOf_of_masked hslash.2 m)
  · rw [if_neg hclose] at hslash
    subst hslash
    have hdue : ¬ Due c s' w.missed m := fun h => hclose h.1
    rw [missedAfter, if_neg hdue, if_neg hclose]
    simp only [if_neg hdue]
    exact ⟨Option.map_id'.symm, hexact.congr (nextEpoch_mono (Nat.le_succ _)) rfl⟩

theorem Watch.Kept.step {a : Ctx × Action} (hk : w.Kept p) (hv : p.validate = .ok ())
    (harmed : p.availSlashBps ≠ 0) (hfixed : Fixed p w a) (hs : w.Step a w') : w'.Kept p := by
  intro m
  obtain ⟨c, a⟩ := a
  cases hs with
  | message ha ht hm =>
    rw [hm]
    refine (hk m).congr (nextEpoch_mono ?_) (windowOf_of_masked (step_masked ht.step ha) m)
    rw [ht.block]
    cases a <;> first | exact le_rfl | exact Nat.le_succ _
  | block ha ht hs hm =>
    dsimp only at ha
    subst ha
    obtain ⟨s₁, hs₁, hend⟩ := endBlock_closing ht.step
    rw [hs, Except.ok.injEq] at hs₁
    subst hs₁
    have h := (hk.block hv harmed hfixed ht.height hs hend m).2
    rw [hm, ht.block]
    rw [ht.height] at h
    exact h

theorem Watch.kept (hv : p.validate = .ok ()) (harmed : p.availSlashBps ≠ 0)
    (h : Reach Watch.Start Watch.Step (Fixed p) w) : w.Kept p := by
  refine h.invariant (P := Watch.Kept p) (fun w hstart m => ?_) fun w a w' _ hk hfixed hs =>
    hk.step hv harmed hfixed hs
  obtain ⟨hpos, -, -⟩ := armed_of_validate hv harmed
  obtain ⟨hnone, hmissed⟩ := hstart
  rw [hmissed]
  refine ⟨fun x hx => ?_, fun _ _ => hpos, .inl ⟨hnone m, fun _ _ => rfl⟩⟩
  cases Finset.notMem_empty x hx

/-- Over every run with the slash armed, under fixed parameters: what is stored of a miner is worth the
epochs that it owed and missed since it was last slashed; and the end of a block slashes it exactly when
enough of the last epochs of the window are among them. -/
theorem window_exact (hv : p.validate = .ok ()) (harmed : p.availSlashBps ≠ 0)
    (h : Reach Watch.Start Watch.Step (Fixed p) w) (m : Str) :
    Stored p.availFailWindow.toNat (nextEpoch p w.clock.block) (windowOf w.clock.state.registry m)
        (w.missed m) ∧
      ∀ w' c, Fixed p w (c, .endBlock) → w.Step (c, .endBlock) w' →
        ∃ s, closingState c w.clock.state = .ok s ∧ w'.missed m = missedAfter c s w.missed m ∧
          w'.clock.state.miner m =
            (s.miner m).map fun x => if Due c s w.missed m then x.slashed p else x := by
  have hk := Watch.kept hv harmed h
  obtain ⟨-, -, hsize⟩ := armed_of_validate hv harmed
  refine ⟨hsize ▸ (hk m).stored, fun w' c hfixed hs => ?_⟩
  cases hs with
  | message ha => exact absurd rfl ha
  | block ha ht hs hm =>
    obtain ⟨s₁, hs₁, hend⟩ := endBlock_closing ht.step
    rw [hs, Except.ok.injEq] at hs₁
    subst hs₁
    exact ⟨_, hs, congrFun hm m, (hk.block hv harmed hfixed ht.height hs hend m).1⟩

end Runs

/-! ## A boundary of the application -/

/-- Epochs of two blocks, and a slash of so many basis points for each absence. -/
def strictMode (bps : UInt64) : Params :=
  { absentMode with
    availEpochBlocks := 2
    availDeadlineBlocks := 1
    availSlashBps := bps
    availFailK := 1 }

theorem validate_strictMode [Chain] {bps : UInt64} (h : bps.toNat ≤ 10000) :
    (strictMode bps).validate = .ok () := by
  have hle : ¬ bps > 10000 := by
    rw [gt_iff_lt, UInt64.lt_iff_toNat_lt]
    exact Nat.not_lt.2 h
  simp only [Params.validate, Params.validateMode, Params.validateMode1, Params.validateEpoch14,
    Params.validateEpoch15, bind_unit_ok, refuse_ok]
  simp [strictMode, absentMode, Params.default, Params.effectiveAuditFloor, hle]

/-- The end of a block, from a state that has noted no absence. -/
theorem Watch.Step.first [Chain] {c : Ctx} {s s₁ s' : State} (hs : closingState c s = .ok s₁)
    (h : Jobs.Step s (c, .endBlock) s') :
    Watch.Step ⟨⟨s, c.height, []⟩, fun _ => ∅⟩ (c, .endBlock)
      ⟨⟨s', c.height + 1, []⟩, missedAfter c s₁ fun _ => ∅⟩ :=
  .block rfl ⟨rfl, h, rfl, rfl⟩ hs rfl

/-- A chain on which nobody has been present, in the block that closes epoch 1. -/
def absentees (bps : UInt64) : Watch := ⟨⟨village (strictMode bps), (blockAt 4).height, []⟩, fun _ => ∅⟩

theorem start_absentees (bps : UInt64) : (absentees bps).Start := ⟨fun _ => rfl, rfl⟩

/-- A slash of one in a hundred takes ten coins of a bond of a thousand. -/
theorem window_exact_absentees : ∃ w' s, (absentees 100).Step (blockAt 4, .endBlock) w' ∧
    closingState (blockAt 4) (village (strictMode 100)) = .ok s ∧
    (s.miner (idOf 0)).map Miner.stake = some 1000 ∧
    (w'.clock.state.miner (idOf 0)).map Miner.stake = some 990 := by
  obtain ⟨s, hs, hdue, hstake⟩ : ∃ s ∈ (closingState (blockAt 4) (village (strictMode 100))).toOption,
      Due (blockAt 4) s (fun _ => ∅) (idOf 0) ∧ (s.miner (idOf 0)).map Miner.stake = some 1000 := by
    decide
  obtain ⟨s', hs'⟩ := exists_ok (show (endBlock (blockAt 4) (village (strictMode 100))).isOk = true by
    decide)
  have hs := eq_ok_of_toOption hs
  have hstep := Watch.Step.first hs hs'
  have harmed : (strictMode 100).availSlashBps ≠ 0 := by decide
  obtain ⟨-, hexact⟩ := window_exact (validate_strictMode (by decide)) harmed
    (.init (start_absentees 100)) (idOf 0)
  obtain ⟨s₁, hs₁, -, hminer⟩ := hexact _ (blockAt 4) rfl hstep
  refine ⟨_, s, hstep, hs, hstake, ?_⟩
  obtain rfl : s = s₁ := Except.ok.inj (hs.symm.trans hs₁)
  have hdue' : Due (blockAt 4) s (absentees 100).missed (idOf 0) := hdue
  obtain ⟨x, hx, hbond⟩ := Option.map_eq_some_iff.1 hstake
  rw [hminer, hx, Option.map_some, Option.map_some, if_pos hdue', Miner.slashed, hbond]
  rfl

/-- A slash of one in ten thousand is floored to nothing: the miner is due, its absences are forgotten, and
it keeps its bond. -/
theorem window_dust : ∃ w w' s m, (strictMode 1).validate = .ok () ∧
    Reach Watch.Start Watch.Step (Fixed (strictMode 1)) w ∧ Fixed (strictMode 1) w (blockAt 4, .endBlock) ∧
    w.Step (blockAt 4, .endBlock) w' ∧ closingState (blockAt 4) w.clock.state = .ok s ∧
    Due (blockAt 4) s w.missed m ∧ w'.missed m = ∅ ∧
    (s.miner m).map Miner.stake = some 1000 ∧ (w'.clock.state.miner m).map Miner.stake = some 1000 := by
  obtain ⟨s, hs, hdue, hstake⟩ : ∃ s ∈ (closingState (blockAt 4) (village (strictMode 1))).toOption,
      Due (blockAt 4) s (fun _ => ∅) (idOf 0) ∧ (s.miner (idOf 0)).map Miner.stake = some 1000 := by
    decide
  obtain ⟨s', hs', hafter⟩ : ∃ s' ∈ (endBlock (blockAt 4) (village (strictMode 1))).toOption,
      (s'.miner (idOf 0)).map Miner.stake = some 1000 := by
    decide
  have hs := eq_ok_of_toOption hs
  have hnone : missedAfter (blockAt 4) s (fun _ => ∅) (idOf 0) = ∅ := if_pos hdue
  exact ⟨absentees 1, _, s, idOf 0, validate_strictMode (by decide), .init (start_absentees 1), rfl,
    Watch.Step.first hs (eq_ok_of_toOption hs'), hs, hdue, hnone, hstake, hafter⟩

end Dendra.Jobs
