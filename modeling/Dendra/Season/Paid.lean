import Dendra.Season.Payer

/-!
# Nothing is paid twice

A part is sent only if the chain did not execute it when the run looked, and nothing else can land in between
than what the run sent itself, provided that nothing was in flight when it looked. A week is planned only if no
frozen row of its days is paid by the rankings, and an amendment only if none of its rows is.

* `PlanOk`: a plan that pays nothing that the chain has under another digest, or by the other kind.
* `PayerInv`: the invariant; `PayerInv.step`.
* `paid_once`: the guarantee, in every run whose steps are `Undisturbed`.
* `paid_twice`: a part that lands between the search of the next run and its signature.
-/

namespace Dendra.Season

section Rows

variable {days days' : List DayResult} {wd : List Nat} {row : AmendRow} {amendments : List Amendment}

/-- A row that an amendment may pay is not one that the rankings pay. -/
theorem not_paid_of_rowRefusal (h : rowRefusal row days = none) (hd : row.day ∈ wd → days'[row.day]? = days[row.day]?) :
    (row.day, row.minerId) ∉ (paidRowsOf days' wd).map fun r => (r.1, r.2.1) := by
  intro hmem
  obtain ⟨⟨d, m, a⟩, hr, heq⟩ := List.mem_map.1 hmem
  obtain ⟨rfl, rfl⟩ := Prod.mk.inj heq
  unfold paidRowsOf at hr
  obtain ⟨d, hdw, hr⟩ := List.mem_flatMap.1 hr
  cases hday : days'[d]? with
  | none =>
    rw [hday] at hr
    cases hr
  | some day =>
    rw [hday, Option.elim_some] at hr
    obtain ⟨x, hx, heq⟩ := List.mem_map.1 hr
    obtain ⟨hxrow, hpaid⟩ := List.mem_filter.1 hx
    obtain ⟨rfl, hm⟩ := Prod.mk.inj heq
    obtain ⟨hminer, -⟩ := Prod.mk.inj hm
    rw [hd hdw] at hday
    unfold rowRefusal at h
    rw [hday] at h
    dsimp only at h
    have hmem : x ∈ day.rows.filter fun y => decide (y.minerId = row.minerId) :=
      List.mem_filter.2 ⟨hxrow, decide_eq_true hminer⟩
    split at h
    · next y hone =>
      rw [hone] at hmem
      obtain rfl := List.mem_singleton.1 hmem
      have hpos := of_decide_eq_true hpaid
      have hzero : x.paid = 0 := by
        split at h
        · cases h
        · split at h
          · cases h
          · next hno =>
            rw [not_or, not_not, not_not] at hno
            exact hno.2
      omega
    · cases h

/-- The days that `_amendment_days` reads are the published ones. -/
theorem amendmentDays_get {src : Rankings} {d fuel i : Nat} {day : DayResult}
    (h : (amendmentDays src d fuel)[i]? = some day) : ∃ e, src (d + i) = some (day, e) := by
  induction fuel generalizing d i with
  | zero => cases h
  | succ fuel ih =>
    unfold amendmentDays at h
    split at h
    · cases h
    · next day' e hsrc =>
      cases i with
      | zero =>
        obtain rfl := Option.some.inj h
        exact ⟨_, hsrc⟩
      | succ i => cases h
    · next day' hsrc =>
      cases i with
      | zero =>
        obtain rfl := Option.some.inj h
        exact ⟨_, hsrc⟩
      | succ i =>
        obtain ⟨e, he⟩ := ih (by simpa using h)
        exact ⟨e, by rwa [show d + (i + 1) = d + 1 + i by omega]⟩

end Rows

/-! ## Plans -/

section Plans

variable {keys : Keys} {payableAddress : Str → Bool} {doubledFrom : Option Nat}
  {planDigest : List (Str × Int) → Str} {amendmentDigest : Amendment → Str}
  {rankings : List (DayResult × Option Int)} {frozen : List Amendment} {n : Nat} {p : Plan}

/-- A week pays rows of its days only, and refuses a frozen row that its rankings pay. -/
theorem weekPlanOf_eq_some (h : weekPlanOf keys payableAddress doubledFrom planDigest rankings frozen n = some p) :
    p.kind = .week ∧ p.paidRows = paidRowsOf p.days p.weekDays ∧
      ∀ row ∈ frozenRows frozen, row.day ∈ p.weekDays → rowRefusal row p.days = none := by
  unfold weekPlanOf at h
  split at h
  · next payable wd loaded last hplan hload =>
    obtain rfl := Option.some.inj h
    refine ⟨rfl, rfl, fun row hrow hday => ?_⟩
    unfold planDays at hplan
    rw [hload] at hplan
    dsimp only at hplan
    split at hplan
    · cases hplan
    · next wd' hwd =>
      split at hplan
      · cases hplan
      · split at hplan
        · cases hplan
        · split at hplan
          · next hrows =>
            obtain ⟨-, rfl⟩ := Prod.mk.inj (Option.some.inj hplan)
            unfold amendedRowsOk at hrows
            have hrow := List.all_eq_true.1 hrows row hrow
            rw [Bool.or_eq_true] at hrow
            rcases hrow with hno | hnone
            · exact absurd hday (of_decide_eq_true hno)
            · exact Option.isNone_iff_eq_none.1 hnone
          · cases hplan
  · cases h

/-- An amendment pays the rows of its file, each of which the rankings published do not pay. -/
theorem amendPlanOf_eq_some (h : amendPlanOf keys doubledFrom amendmentDigest rankings frozen n = some p) :
    p.kind = .amendment ∧ ∃ doc ∈ frozen, frozen.find? (fun a => decide (a.id = n)) = some doc ∧
      p.paidRows = doc.rows.map (fun row => (row.day, row.minerId, row.address)) ∧
        ∀ row ∈ doc.rows, ∃ days : List DayResult, rowRefusal row days = none ∧
          days[row.day]? = (rankings[row.day]?).map Prod.fst := by
  unfold amendPlanOf at h
  split at h
  · cases h
  · next doc hdoc =>
    dsimp only at h
    split at h
    · next hok =>
      obtain rfl := Option.some.inj h
      refine ⟨rfl, doc, List.mem_of_find?_eq_some hdoc, hdoc, rfl, fun row hrow =>
        ⟨amendmentDays (fun d => rankings[d]?) 0 rankings.length, ?_, ?_⟩⟩
      · obtain ⟨doc', last, hdoc', -, hrows, -⟩ := amendmentRefusal_eq_none.1 hok.2.2.2
        rw [hdoc] at hdoc'
        obtain rfl := Option.some.inj hdoc'
        exact List.findSome?_eq_none_iff.1 hrows row hrow
      · have hlt := hok.1 row hrow
        have hget := List.getElem?_eq_getElem hlt
        obtain ⟨e, he⟩ := amendmentDays_get hget
        rw [Nat.zero_add] at he
        rw [hget, he]
        rfl
    · cases h

end Plans

/-! ## The invariant -/

/-- A plan under which the chain can execute more: what it executed of the same week or amendment has the same
digest, and what it executed of the other kind pays other rows. -/
structure PlanOk (executed : List Tx) (p : Plan) : Prop where
  digest : ∀ t ∈ executed, t.plan.kind = p.kind → t.plan.number = p.number → t.plan.digest = p.digest
  rows : ∀ t ∈ executed, t.plan.kind ≠ p.kind → ∀ r ∈ t.plan.rows, r ∉ p.rows

/-- A week pays rows of its days, and an amendment those of a frozen file. -/
structure Backed (frozen : List Amendment) (p : Plan) : Prop where
  week : p.kind = .week → p.paidRows = paidRowsOf p.days p.weekDays
  amendment : p.kind = .amendment →
    ∃ doc ∈ frozen, p.paidRows = doc.rows.map fun row => (row.day, row.minerId, row.address)

structure PayerInv (s : Payer) : Prop where
  once : (s.executed.map Tx.key).Nodup
  digest : ∀ t ∈ s.executed, ∀ t' ∈ s.executed, t.plan.kind = t'.plan.kind → t.plan.number = t'.plan.number →
    t.plan.digest = t'.plan.digest
  rows : ∀ t ∈ s.executed, ∀ t' ∈ s.executed, t.plan.kind ≠ t'.plan.kind → ∀ r ∈ t.plan.rows, r ∉ t'.plan.rows
  backed : ∀ t ∈ s.executed, Backed s.frozen t.plan
  /-- What can still land pays nothing twice. -/
  live : ∀ t ∈ s.pool, t.sequence ≤ s.sequence ∧ Backed s.frozen t.plan ∧
    (t.sequence = s.sequence → PlanOk s.executed t.plan ∧ t.key ∉ s.executed.map Tx.key)
  run : ∀ r, s.run = some r → PlanOk s.executed r.plan ∧ Backed s.frozen r.plan ∧ r.todo.Nodup ∧
    (∀ i ∈ r.todo, (r.plan.kind, r.plan.number, i) ∉ s.executed.map Tx.key) ∧
    (r.waiting = none → ∀ t ∈ s.pool, t.sequence < s.sequence) ∧
    ∀ t, r.waiting = some t → t.plan = r.plan ∧ t.part ∉ r.todo ∧
      ∀ t' ∈ s.pool, t'.sequence = s.sequence → t' = t

section Steps

variable {keys : Keys} {payableAddress : Str → Bool} {doubledFrom : Option Nat}
  {planDigest : List (Str × Int) → Str} {amendmentDigest : Amendment → Str} {s s' : Payer} {a : PayerAction}
  {p : Plan} {todo : List Nat}

theorem Backed.mono {frozen frozen' : List Amendment} (h : Backed frozen p) (hsub : ∀ a ∈ frozen, a ∈ frozen') :
    Backed frozen' p where
  week := h.week
  amendment hk := by
    obtain ⟨doc, hdoc, heq⟩ := h.amendment hk
    exact ⟨doc, hsub doc hdoc, heq⟩

theorem mem_frozenRows {frozen : List Amendment} {doc : Amendment} {row : AmendRow} (hd : doc ∈ frozen)
    (hr : row ∈ doc.rows) : row ∈ frozenRows frozen := List.mem_flatMap.2 ⟨doc, hd, hr⟩

/-- A part that the chain executed is found, under a digest that it was executed under. -/
theorem exists_done {executed : List Tx} {t : Tx} (ht : t ∈ executed) (hk : t.plan.kind = p.kind)
    (hn : t.plan.number = p.number) : ∃ t' ∈ executed, t'.plan.kind = p.kind ∧ t'.plan.number = p.number ∧
      (doneParts executed p).get? t.part = some t'.plan.digest := by
  unfold doneParts
  rw [Ordered.get?_ofList]
  have hmem : (t.part, t.plan.digest) ∈ ((executed.filter fun t =>
      decide (t.plan.kind = p.kind ∧ t.plan.number = p.number)).map fun t => (t.part, t.plan.digest)).reverse :=
    List.mem_reverse.2 (List.mem_map.2 ⟨t, List.mem_filter.2 ⟨ht, decide_eq_true ⟨hk, hn⟩⟩, rfl⟩)
  cases hfind : List.find? (fun e => decide (e.1 = t.part)) ((executed.filter fun t =>
      decide (t.plan.kind = p.kind ∧ t.plan.number = p.number)).map fun t => (t.part, t.plan.digest)).reverse with
  | none => exact absurd (decide_eq_true rfl) (List.find?_eq_none.1 hfind _ hmem)
  | some e =>
    obtain ⟨t', ht', rfl⟩ := List.mem_map.1 (List.mem_reverse.1 (List.mem_of_find?_eq_some hfind))
    obtain ⟨he, hsame⟩ := List.mem_filter.1 ht'
    obtain ⟨hk', hn'⟩ := of_decide_eq_true hsame
    exact ⟨t', he, hk', hn', rfl⟩

/-- The parts that a run has to send are not executed, and what is executed has the plan's digest. -/
theorem decideParts_eq_some {count : Nat} (hdigest : ∀ t ∈ s.executed, ∀ t' ∈ s.executed,
      t.plan.kind = t'.plan.kind → t.plan.number = t'.plan.number → t.plan.digest = t'.plan.digest)
    (h : decideParts p.digest count (doneParts s.executed p) = some todo) :
    (∀ t ∈ s.executed, t.plan.kind = p.kind → t.plan.number = p.number → t.plan.digest = p.digest) ∧
      todo.Nodup ∧ ∀ i ∈ todo, (p.kind, p.number, i) ∉ s.executed.map Tx.key := by
  unfold decideParts at h
  split at h
  · cases h
  · next hsame =>
    obtain rfl := Option.some.inj h
    refine ⟨fun t ht hk hn => ?_, List.nodup_range.filter _, fun i hi hmem => ?_⟩
    · obtain ⟨t', ht', hk', hn', hget⟩ := exists_done ht hk hn
      rw [hdigest t ht t' ht' (hk.trans hk'.symm) (hn.trans hn'.symm)]
      by_contra hne
      exact hsame (List.any_eq_true.2 ⟨_, Ordered.get?_eq_some.1 hget, decide_eq_true hne⟩)
    · obtain ⟨t, ht, hkey⟩ := List.mem_map.1 hmem
      unfold Tx.key at hkey
      obtain ⟨hk, hrest⟩ := Prod.mk.inj hkey
      obtain ⟨hn, rfl⟩ := Prod.mk.inj hrest
      obtain ⟨t', -, -, -, hget⟩ := exists_done ht hk hn
      have hnot := (List.mem_filter.1 hi).2
      rw [Ordered.has_eq_isSome, hget] at hnot
      cases hnot

/-- A run that starts when nothing is in flight. -/
theorem PayerInv.start (h : PayerInv s) (hquiet : ∀ t ∈ s.pool, t.sequence < s.sequence)
    (hb : Backed s.frozen p) (hrows : ∀ t ∈ s.executed, t.plan.kind ≠ p.kind → ∀ r ∈ t.plan.rows, r ∉ p.rows)
    (hd : decideParts p.digest p.parts.length (doneParts s.executed p) = some todo) :
    PayerInv { s with run := some ⟨p, todo, none⟩ } := by
  obtain ⟨hdigest, hnodup, hnew⟩ := decideParts_eq_some h.digest hd
  refine { h with run := ?_ }
  rintro r hr
  obtain rfl := Option.some.inj hr
  exact ⟨⟨hdigest, hrows⟩, hb, hnodup, hnew, fun _ => hquiet, by rintro t ⟨⟩⟩

/-- What an executed week and a new amendment pay, or the other way round, is apart. -/
theorem PayerInv.week (h : PayerInv s) {n : Nat}
    (hquiet : ∀ t ∈ s.pool, t.sequence < s.sequence)
    (hp : weekPlanOf keys payableAddress doubledFrom planDigest s.rankings s.frozen n = some p)
    (hd : decideParts p.digest p.parts.length (doneParts s.executed p) = some todo) :
    PayerInv { s with run := some ⟨p, todo, none⟩ } := by
  obtain ⟨hkind, hpaid, hrefused⟩ := weekPlanOf_eq_some hp
  refine h.start hquiet ⟨fun _ => hpaid, fun hk => by rw [hkind] at hk; cases hk⟩ ?_ hd
  intro t ht hne r hr hr'
  have htk : t.plan.kind = .amendment := by
    cases hk : t.plan.kind with
    | week => exact absurd (hk.trans hkind.symm) hne
    | amendment => rfl
  obtain ⟨doc, hdoc, hrows⟩ := (h.backed t ht).amendment htk
  unfold Plan.rows at hr hr'
  rw [hrows, List.map_map] at hr
  obtain ⟨row, hrow, rfl⟩ := List.mem_map.1 hr
  rw [hpaid] at hr'
  by_cases hday : row.day ∈ p.weekDays
  · exact not_paid_of_rowRefusal (hrefused row (mem_frozenRows hdoc hrow) hday) (fun _ => rfl) hr'
  · obtain ⟨⟨d, m, a⟩, hm, heq⟩ := List.mem_map.1 hr'
    obtain ⟨d', hd', hm⟩ := List.mem_flatMap.1 hm
    have hdd : d = d' := by
      cases hget : p.days[d']? with
      | none =>
        rw [hget] at hm
        cases hm
      | some day =>
        rw [hget, Option.elim_some] at hm
        obtain ⟨x, -, hx⟩ := List.mem_map.1 hm
        exact (Prod.mk.inj hx).1.symm
    have hrd : d = row.day := (Prod.mk.inj heq).1
    exact hday (hrd ▸ hdd ▸ hd')

theorem PayerInv.amend (h : PayerInv s) {n : Nat} (hc : Undisturbed s (.amend n))
    (hp : amendPlanOf keys doubledFrom amendmentDigest s.rankings s.frozen n = some p)
    (hd : decideParts p.digest p.parts.length (doneParts s.executed p) = some todo) :
    PayerInv { s with run := some ⟨p, todo, none⟩ } := by
  obtain ⟨hkind, doc, hdoc, hfile, hpaid, hrefused⟩ := amendPlanOf_eq_some hp
  have hweek : p.kind ≠ .week := by
    rw [hkind]
    exact PayKind.noConfusion
  refine h.start (hc.quiet ⟨n, .inr rfl⟩) ⟨fun hk => absurd hk hweek, fun _ => ⟨doc, hdoc, hpaid⟩⟩ ?_ hd
  intro t ht hne r hr hr'
  have htk : t.plan.kind = .week := by
    cases hk : t.plan.kind with
    | week => rfl
    | amendment => exact absurd (hk.trans hkind.symm) hne
  unfold Plan.rows at hr hr'
  rw [hpaid, List.map_map] at hr'
  obtain ⟨row, hrow, rfl⟩ := List.mem_map.1 hr'
  rw [(h.backed t ht).week htk] at hr
  obtain ⟨days, hnone, hdays⟩ := hrefused row hrow
  exact not_paid_of_rowRefusal hnone
    (fun hday => (hc.agree n rfl doc hfile row hrow t ht htk hday).trans hdays.symm) hr

/-- A transaction lands: everything else that was in flight is dead. -/
theorem PayerInv.lands (h : PayerInv s) {t : Tx} (ht : t ∈ s.pool) (hs : t.sequence = s.sequence) :
    PayerInv { s with executed := s.executed ++ [t], sequence := s.sequence + 1 } := by
  obtain ⟨-, hbacked, hlive⟩ := h.live t ht
  obtain ⟨hok, hnew⟩ := hlive hs
  have hmem : ∀ t' ∈ s.executed ++ [t], t' ∈ s.executed ∨ t' = t := fun t' ht' =>
    (List.mem_append.1 ht').imp_right List.mem_singleton.1
  refine ⟨?_, ?_, ?_, ?_, ?_, ?_⟩
  · rw [List.map_append, List.map_cons, List.map_nil]
    refine List.nodup_append.2 ⟨h.once, List.nodup_singleton _, ?_⟩
    rintro a ha b hb rfl
    obtain rfl := List.mem_singleton.1 hb
    exact hnew ha
  · intro t₁ h₁ t₂ h₂ hk hn
    rcases hmem t₁ h₁ with g₁ | g₁ <;> rcases hmem t₂ h₂ with g₂ | g₂
    · exact h.digest t₁ g₁ t₂ g₂ hk hn
    · subst g₂
      exact hok.digest t₁ g₁ hk hn
    · subst g₁
      exact (hok.digest t₂ g₂ hk.symm hn.symm).symm
    · rw [g₁, g₂]
  · intro t₁ h₁ t₂ h₂ hne r hr hr'
    rcases hmem t₁ h₁ with g₁ | g₁ <;> rcases hmem t₂ h₂ with g₂ | g₂
    · exact h.rows t₁ g₁ t₂ g₂ hne r hr hr'
    · subst g₂
      exact hok.rows t₁ g₁ hne r hr hr'
    · subst g₁
      exact hok.rows t₂ g₂ hne.symm r hr' hr
    · exact hne (by rw [g₁, g₂])
  · intro t' ht'
    rcases hmem t' ht' with ht' | rfl
    · exact h.backed t' ht'
    · exact hbacked
  · intro t' ht'
    obtain ⟨hle, hb, -⟩ := h.live t' ht'
    refine ⟨by dsimp only; omega, hb, fun heq => ?_⟩
    dsimp only at heq
    omega
  · intro r hr
    obtain ⟨hplan, hb, hnodup, htodo, hidle, hwait⟩ := h.run r hr
    -- only the part that the run waits for can land
    have hthis : t.plan = r.plan ∧ t.part ∉ r.todo := by
      cases hw : r.waiting with
      | none =>
        have := hidle hw t ht
        omega
      | some t₀ =>
        obtain ⟨hpl, hpart, honly⟩ := hwait t₀ hw
        obtain rfl := honly t ht hs
        exact ⟨hpl, hpart⟩
    refine ⟨⟨fun t' ht' hk hn => ?_, fun t' ht' hne => ?_⟩, hb, hnodup, fun i hi => ?_, fun _ t' ht' => ?_,
      fun t' hw => ?_⟩
    · rcases hmem t' ht' with ht' | rfl
      · exact hplan.digest t' ht' hk hn
      · rw [hthis.1]
    · rcases hmem t' ht' with ht' | rfl
      · exact hplan.rows t' ht' hne
      · exact absurd (by rw [hthis.1]) hne
    · rw [List.map_append, List.mem_append, not_or]
      refine ⟨htodo i hi, fun hm => hthis.2 ?_⟩
      have hkey : (r.plan.kind, r.plan.number, i) = t.key := List.mem_singleton.1 hm
      unfold Tx.key at hkey
      rw [← (Prod.mk.inj (Prod.mk.inj hkey).2).2]
      exact hi
    · have := (h.live t' ht').1
      dsimp only
      omega
    · obtain ⟨hpl, hpart, -⟩ := hwait t' hw
      refine ⟨hpl, hpart, fun t₂ ht₂ heq => ?_⟩
      have := (h.live t₂ ht₂).1
      dsimp only at heq
      omega

/-- The next part is signed and broadcast. -/
theorem PayerInv.send (h : PayerInv s) {i : Nat} (hrun : s.run = some ⟨p, i :: todo, none⟩) :
    PayerInv { s with
      pool := ⟨s.sequence, p, i⟩ :: s.pool
      run := some ⟨p, todo, some ⟨s.sequence, p, i⟩⟩ } := by
  obtain ⟨hplan, hb, hnodup, htodo, hidle, -⟩ := h.run _ hrun
  refine { h with live := ?_, run := ?_ }
  · intro t ht
    rcases List.mem_cons.1 ht with rfl | ht
    · exact ⟨le_refl _, hb, fun _ => ⟨hplan, htodo i List.mem_cons_self⟩⟩
    · exact h.live t ht
  · intro r hr
    obtain rfl := Option.some.inj hr
    refine ⟨hplan, hb, (List.nodup_cons.1 hnodup).2, fun j hj => htodo j (List.mem_cons_of_mem _ hj),
      by rintro ⟨⟩, fun t ht => ?_⟩
    obtain rfl := Option.some.inj ht
    refine ⟨rfl, (List.nodup_cons.1 hnodup).1, fun t' ht' heq => ?_⟩
    rcases List.mem_cons.1 ht' with rfl | ht'
    · rfl
    · have := hidle rfl t' ht'
      dsimp only at heq
      omega

theorem PayerInv.step (h : PayerInv s) (hc : Undisturbed s a)
    (hs : PayerStep keys payableAddress doubledFrom planDigest amendmentDigest s a s') : PayerInv s' := by
  cases hs with
  | publish rankings => exact { h with }
  | freeze a =>
    have hsub : ∀ b ∈ s.frozen, b ∈ s.frozen ++ [a] := fun b hb => List.mem_append_left _ hb
    refine { h with backed := fun t ht => (h.backed t ht).mono hsub, live := fun t ht => ?_, run := fun r hr => ?_ }
    · obtain ⟨h1, h2, h3⟩ := h.live t ht
      exact ⟨h1, h2.mono hsub, h3⟩
    · obtain ⟨h1, h2, h3⟩ := h.run r hr
      exact ⟨h1, h2.mono hsub, h3⟩
  | week hrun hp hd => exact h.week (hc.quiet ⟨_, .inl rfl⟩) hp hd
  | amend hrun hp hchain hd => exact h.amend hc hp hd
  | send hrun => exact h.send hrun
  | @seen p todo t hrun ht =>
    obtain ⟨hplan, hb, hnodup, htodo, -, hwait⟩ := h.run _ hrun
    refine { h with run := fun r hr => ?_ }
    obtain rfl := Option.some.inj hr
    refine ⟨hplan, hb, hnodup, htodo, fun _ t' ht' => ?_, by rintro t' ⟨⟩⟩
    obtain ⟨hle, -, hlive⟩ := h.live t' ht'
    refine lt_of_le_of_ne hle fun heq => ?_
    obtain rfl := (hwait t rfl).2.2 t' ht' heq
    exact (hlive heq).2 (List.mem_map_of_mem ht)
  | stop => exact { h with run := by rintro r ⟨⟩ }
  | lands ht hseq => exact h.lands ht hseq
  | spent =>
    refine { h with live := fun t ht => ?_, run := fun r hr => ?_ }
    · obtain ⟨hle, hb, -⟩ := h.live t ht
      refine ⟨by dsimp only; omega, hb, fun heq => ?_⟩
      dsimp only at heq
      omega
    · obtain ⟨h1, h2, h3, h4, -, hwait⟩ := h.run r hr
      refine ⟨h1, h2, h3, h4, fun _ t ht => ?_, fun t hw => ⟨(hwait t hw).1, (hwait t hw).2.1, fun t' ht' heq => ?_⟩⟩
      · have := (h.live t ht).1
        dsimp only
        omega
      · have := (h.live t' ht').1
        dsimp only at heq
        omega

end Steps

/-! ## The guarantee -/

/-- In a run whose steps are undisturbed, nothing is paid twice. -/
theorem paid_once (keys : Keys) (payableAddress : Str → Bool) (doubledFrom : Option Nat)
    (planDigest : List (Str × Int) → Str) (amendmentDigest : Amendment → Str) {s : Payer}
    (h : Reach Payer.IsStart (PayerStep keys payableAddress doubledFrom planDigest amendmentDigest)
      Undisturbed s) : PaidOnce s.executed := by
  have hinv : PayerInv s := h.invariant
    (fun s hs => by
      obtain ⟨hpool, hexec, hrun⟩ := hs
      refine ⟨?_, ?_, ?_, ?_, ?_, ?_⟩
      · rw [hexec]
        exact List.nodup_nil
      all_goals simp [hpool, hexec, hrun])
    fun _ _ _ _ hinv hok hstep => hinv.step hok hstep
  have hsub : ∀ t : Tx, ∀ r ∈ t.rows, r ∈ t.plan.rows := fun t r hr =>
    (List.filter_sublist.map _).subset hr
  exact ⟨hinv.once, hinv.digest, fun t ht t' ht' hne r hr hr' =>
    hinv.rows t ht t' ht' hne r (hsub t r hr) (hsub t' r hr')⟩

/-! ## One day, one part -/

section First

/-- The plan of the week of a season of one day. -/
def firstPlan : Plan :=
  ⟨.week, 0, ['d'], partsOf [(['a'], 106000)], paidRowsOf [firstDay] [0], [firstDay], [0]⟩

theorem weekPlanOf_first : weekPlanOf someKeys (fun _ => true) none (fun _ => ['d']) [(firstDay, some 17280)] [] 0 =
    some firstPlan := by
  have hplan : planDays someKeys (fun _ => true) 0 (fun d => [(firstDay, some 17280)][d]?) none [] =
      some ([(['a'], 106000)], [0]) := by decide +kernel
  have hload : loadDays (fun d => [(firstDay, some 17280)][d]?) 0 7 = some ([firstDay], some 0) := rfl
  unfold weekPlanOf
  rw [hplan, hload]
  rfl

/-- The payer of that season. -/
def firstPayer (sequence : Nat) (pool executed : List Tx) (run : Option PayRun) : Payer :=
  ⟨[(firstDay, some 17280)], [], sequence, pool, executed, run⟩

theorem PayerStep.first {amendmentDigest : Amendment → Str} {sequence : Nat} {pool : List Tx} :
    PayerStep someKeys (fun _ => true) none (fun _ => ['d']) amendmentDigest (firstPayer sequence pool [] none) (.week 0)
      (firstPayer sequence pool [] (some ⟨firstPlan, [0], none⟩)) :=
  .week rfl weekPlanOf_first rfl

/-- A run finds nothing in flight, and its part lands. -/
theorem paid_once_first : PaidOnce [⟨0, firstPlan, 0⟩] := by
  have hsend : PayerStep someKeys (fun _ => true) none (fun _ => ['d']) (fun _ => [])
      (firstPayer 0 [] [] (some ⟨firstPlan, [0], none⟩)) .send
      (firstPayer 0 [⟨0, firstPlan, 0⟩] [] (some ⟨firstPlan, [], some ⟨0, firstPlan, 0⟩⟩)) := .send rfl
  have hlands : PayerStep someKeys (fun _ => true) none (fun _ => ['d']) (fun _ => [])
      (firstPayer 0 [⟨0, firstPlan, 0⟩] [] (some ⟨firstPlan, [], some ⟨0, firstPlan, 0⟩⟩))
      (.lands ⟨0, firstPlan, 0⟩)
      (firstPayer 1 [⟨0, firstPlan, 0⟩] [⟨0, firstPlan, 0⟩]
        (some ⟨firstPlan, [], some ⟨0, firstPlan, 0⟩⟩)) := .lands List.mem_cons_self rfl
  have hquiet : Undisturbed (firstPayer 0 [] [] none) (.week 0) :=
    ⟨fun _ t ht => absurd ht List.not_mem_nil, by rintro n ⟨⟩⟩
  have hother : ∀ (s : Payer) (a : PayerAction), (∀ n, a ≠ .week n) → (∀ n, a ≠ .amend n) → Undisturbed s a := by
    intro s a hweek hamend
    refine ⟨?_, fun n h => absurd h (hamend n)⟩
    rintro ⟨n, h | h⟩
    · exact absurd h (hweek n)
    · exact absurd h (hamend n)
  exact paid_once someKeys (fun _ => true) none (fun _ => ['d']) (fun _ => [])
    (.step (.step (.step (.init ⟨rfl, rfl, rfl⟩) hquiet .first) (hother _ _ (by rintro n ⟨⟩) (by rintro n ⟨⟩)) hsend)
      (hother _ _ (by rintro n ⟨⟩) (by rintro n ⟨⟩)) hlands)

/-- A run stops once its part is broadcast, and the part lands between the search of the next run and its
signature: the part is executed twice. -/
theorem paid_twice : ∃ s, Reach Payer.IsStart
    (PayerStep someKeys (fun _ => true) none (fun _ => ['d']) fun _ => []) (fun _ _ => True) s ∧
      ¬ PaidOnce s.executed := by
  refine ⟨firstPayer 2 [⟨1, firstPlan, 0⟩, ⟨0, firstPlan, 0⟩] [⟨0, firstPlan, 0⟩, ⟨1, firstPlan, 0⟩]
    (some ⟨firstPlan, [], some ⟨1, firstPlan, 0⟩⟩), ?_, fun h => ?_⟩
  · have hstart : Reach Payer.IsStart (PayerStep someKeys (fun _ => true) none (fun _ => ['d']) fun _ => [])
        (fun _ _ => True) (firstPayer 0 [] [] none) := .init ⟨rfl, rfl, rfl⟩
    have hsent := (hstart.step trivial .first).step trivial (.send rfl)
    have hagain := (hsent.step trivial .stop).step trivial .first
    have hlands := hagain.step trivial (.lands List.mem_cons_self rfl)
    have hresent := hlands.step trivial (.send rfl)
    exact hresent.step trivial (.lands List.mem_cons_self rfl)
  · have hnodup : [((PayKind.week, 0, 0) : PayKind × Nat × Nat), (.week, 0, 0)].Nodup := h.once
    exact absurd hnodup (by decide)

end First

end Dendra.Season
