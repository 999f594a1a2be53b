import Dendra.Alert.Reconcile

/-!
# What the channel says

* `hear`: what a reader of the channel knows of one alert: whether it fires, and when it was last told.
* `Told`: the record of each alert is what the channel said of it. `tell_told`, `resolve_told`: one message.
* `conversation`: over a run whose passes are all saved.
* `alerts_settled`: a pass whose messages are all delivered leaves on record what fires, and nothing else.
-/

namespace Dendra.Alert

/-! ## A reader -/

/-- What a reader makes of one more message about an alert: `none` where it makes no sense. An alert starts when it
does not fire, changes and ends when it fires, and is repeated no sooner than the delay. -/
def hear (cfg : Config) (told : Option Int) (e : Int × Message) : Option (Option Int) :=
  match e.2, told with
  | .alert .firing .., none => some (some e.1)
  | .alert .changed .., some _ => some (some e.1)
  | .alert .stillFiring .., some last => if last + cfg.repeatH * 3600 ≤ e.1 then some (some e.1) else none
  | .resolved .., some _ => some none
  | _, _ => none

/-- What a reader knows of an alert after the messages about it. -/
def hears (cfg : Config) (key : Str) (log : List (Int × Message)) : Option (Option Int) :=
  (log.filter fun e => decide (e.2.key = key)).foldlM (hear cfg) none

section Reader

variable {cfg : Config} {key k : Str} {log : List (Int × Message)} {t : Int} {m : Message} {told : Option Int}

theorem hears_snoc_of_ne (h : m.key ≠ key) : hears cfg key (log ++ [(t, m)]) = hears cfg key log := by
  have hnil : [(t, m)].filter (fun e => decide (e.2.key = key)) = [] := by simp [h]
  rw [hears, List.filter_append, hnil, List.append_nil]
  rfl

theorem hears_snoc (h : m.key = key) (hlog : hears cfg key log = some told) :
    hears cfg key (log ++ [(t, m)]) = hear cfg told (t, m) := by
  have hself : [(t, m)].filter (fun e => decide (e.2.key = key)) = [(t, m)] := by simp [h]
  unfold hears at hlog ⊢
  rw [List.filter_append, hself, List.foldlM_append, hlog]
  simp

end Reader

/-! ## One message -/

/-- The log of a pass so far: what the channel had, and what the pass delivered. -/
def Pass.log (w : World) (before : List (Int × Message)) (p : Pass) : List (Int × Message) :=
  before ++ p.sent.map fun m => (w.now, m)

/-- Each record is what a reader knows. -/
def Told (cfg : Config) (alerts : Ordered Str Record) (log : List (Int × Message)) : Prop :=
  ∀ key, hears cfg key log = some ((alerts.get? key).map Record.lastSent)

section Pass

variable {w : World} {before : List (Int × Message)} {p : Pass} {name note key : Str}

theorem Told.snoc {alerts alerts' : Ordered Str Record} {log : List (Int × Message)} {m : Message}
    (h : Told w.cfg alerts log)
    (hear_eq : hear w.cfg ((alerts.get? m.key).map Record.lastSent) (w.now, m) =
      some ((alerts'.get? m.key).map Record.lastSent))
    (hother : ∀ k, k ≠ m.key → alerts'.get? k = alerts.get? k) : Told w.cfg alerts' (log ++ [(w.now, m)]) := by
  intro k
  by_cases hk : m.key = k
  · subst hk
    rw [hears_snoc rfl (h m.key)]
    exact hear_eq
  · rw [hears_snoc_of_ne hk, h k, hother k (Ne.symm hk)]

/-- Every record is of a check that the pass has. -/
def Checks (names : List Str) (alerts : Ordered Str Record) : Prop :=
  ∀ k r, alerts.get? k = some r → r.check ∈ names

/-- What is kept by each message of a pass. -/
structure Keeps (w : World) (before : List (Int × Message)) (names : List Str) (p : Pass) : Prop where
  told : Told w.cfg p.alerts (p.log w before)
  checks : Checks names p.alerts

theorem mem_ended {alerts : Ordered Str Record} {firing : List Finding} {k : Str} :
    k ∈ ended alerts name firing ↔ ∃ r, alerts.get? k = some r ∧ r.check = name ∧ k ∉ firing.map Finding.key := by
  unfold ended
  rw [List.mem_insertionSort, List.mem_map]
  constructor
  · rintro ⟨⟨k, r⟩, he, rfl⟩
    obtain ⟨he, hp⟩ := List.mem_filter.1 he
    exact ⟨r, Ordered.get?_eq_some.2 he, of_decide_eq_true hp⟩
  · rintro ⟨r, hget, hp⟩
    exact ⟨(k, r), List.mem_filter.2 ⟨Ordered.get?_eq_some.1 hget, decide_eq_true hp⟩, rfl⟩

end Pass

/-! ## Over a run -/

/-- The pass is saved, under the same settings, and has the check of every alert on record. -/
structure Kept (cfg : Config) (s : System) (r : Run) : Prop where
  saved : r.saved = true
  cfg : r.world.cfg = cfg
  checks : Checks (r.results.map Prod.fst) s.disk.alerts

/-- A pass over the payout check, which found no pay for too long. -/
def payoutPass (now : Int) (delivered : Bool) : Run where
  world := ⟨.default, now, fun _ => delivered⟩
  results := [("payout".toList, ⟨[⟨"payout-silent".toList, "silent".toList, [], []⟩], [], none⟩)]
  saved := true

/-- Each key belongs to one check, and each check runs once. -/
structure Owned (owner : Str → Str) (results : List (Str × CheckResult)) : Prop where
  findings : ∀ nr ∈ results, ∀ f ∈ nr.2.findings, owner f.key = nr.1
  unreadable : ∀ nr ∈ results, owner (nr.1 ++ "-unreadable".toList) = nr.1
  names : (results.map Prod.fst).Nodup

/-- Each record is of the check that its key belongs to. -/
def Filed (owner : Str → Str) (alerts : Ordered Str Record) : Prop :=
  ∀ k r, alerts.get? k = some r → r.check = owner k

/-- The finding under a key; of several, the last. -/
def firingAt (findings : List Finding) (key : Str) : Option Finding :=
  (Ordered.ofList (findings.map fun f => (f.key, f))).get? key

def Pass.fingerprint (p : Pass) (k : Str) : Option Str := (p.alerts.get? k).map Record.fingerprint

section Settled

variable {w : World} {p : Pass} {name note k : Str} {owner : Str → Str} {f : Finding}

theorem tell_filed (h : Filed owner p.alerts) (hf : owner f.key = name) : Filed owner (tell w name p f).alerts := by
  unfold tell post
  dsimp only
  split
  · exact h
  · split
    · simp only [if_true]
      intro k r hr
      rw [Ordered.get?_set] at hr
      split at hr
      next hk =>
        obtain rfl := Option.some.inj hr
        cases hget : p.alerts.get? f.key with
        | none => exact hf.symm.trans (hk ▸ rfl)
        | some r => exact (h f.key r hget).trans (hk ▸ rfl)
      · exact h k r hr
    · exact h

theorem resolve_filed (h : Filed owner p.alerts) (key : Str) : Filed owner (resolve w note p key).alerts := by
  unfold resolve post
  dsimp only
  split
  · simp only [if_true]
    intro k r hr
    rw [Ordered.get?_pop] at hr
    split at hr
    · cases hr
    · exact h k r hr
  · exact h

theorem tell_of_ne (hk : k ≠ f.key) : (tell w name p f).alerts.get? k = p.alerts.get? k := by
  unfold tell post
  dsimp only
  split
  · rfl
  · split
    · simp only [if_true, Ordered.get?_set, if_neg hk]
    · rfl

theorem resolve_of_ne {key : Str} (hk : k ≠ key) : (resolve w note p key).alerts.get? k = p.alerts.get? k := by
  unfold resolve post
  dsimp only
  split
  · simp only [if_true, Ordered.get?_pop, if_neg hk]
  · rfl

theorem tells_of_ne {l : List Finding} (hl : ∀ f ∈ l, k ≠ f.key) :
    (l.foldl (tell w name) p).alerts.get? k = p.alerts.get? k := by
  induction l generalizing p with
  | nil => rfl
  | cons f l ih =>
    exact (ih fun f' hf' => hl f' (List.mem_cons_of_mem f hf')).trans (tell_of_ne (hl f List.mem_cons_self))

theorem resolves_of_notMem {l : List Str} (hl : k ∉ l) :
    (l.foldl (resolve w note) p).alerts.get? k = p.alerts.get? k := by
  induction l generalizing p with
  | nil => rfl
  | cons key l ih =>
    rw [List.mem_cons, not_or] at hl
    exact (ih hl.2).trans (resolve_of_ne hl.1)

theorem tell_fingerprint (hsend : ∀ n, w.send n = true) :
    (tell w name p f).fingerprint f.key = some f.fingerprint := by
  unfold tell post Pass.fingerprint
  dsimp only
  split
  next hnone =>
    unfold prefixOf at hnone
    split at hnone
    · cases hnone
    next r hget =>
      split at hnone
      · cases hnone
      next hsame => rw [hget, Option.map_some, not_not.1 hsame]
  next => simp [hsend, Ordered.get?_set, recordOf]

theorem tells_fingerprint (hsend : ∀ n, w.send n = true) {l : List Finding} (hn : (l.map Finding.key).Nodup)
    (hf : f ∈ l) : (l.foldl (tell w name) p).fingerprint f.key = some f.fingerprint := by
  induction l generalizing p with
  | nil => cases hf
  | cons g l ih =>
    rw [List.map_cons, List.nodup_cons] at hn
    rcases List.mem_cons.1 hf with rfl | hf
    · have hlater : ∀ f' ∈ l, f.key ≠ f'.key := by
        intro f' hf' heq
        exact hn.1 (heq ▸ List.mem_map_of_mem hf')
      rw [List.foldl_cons, Pass.fingerprint, tells_of_ne hlater]
      exact tell_fingerprint hsend
    · exact ih hn.2 hf

theorem resolves_of_mem (hsend : ∀ n, w.send n = true) {l : List Str} (hl : k ∈ l) :
    (l.foldl (resolve w note) p).alerts.get? k = none := by
  induction l generalizing p with
  | nil => cases hl
  | cons key l ih =>
    by_cases hk : k ∈ l
    · exact ih hk
    · obtain rfl := (List.mem_cons.1 hl).resolve_right hk
      rw [List.foldl_cons, resolves_of_notMem hk]
      simp [resolve, post, hsend, Ordered.get?_pop]

theorem key_of_firingAt {findings : List Finding} (h : firingAt findings k = some f) : f.key = k := by
  unfold firingAt at h
  rw [Ordered.get?_ofList] at h
  obtain ⟨g, hg, hgf⟩ := Option.map_eq_some_iff.1 h
  have hk := List.find?_some hg
  have hmem := List.mem_of_find?_eq_some hg
  rw [List.mem_reverse, List.mem_map] at hmem
  obtain ⟨f', -, rfl⟩ := hmem
  obtain rfl : f' = f := hgf
  exact of_decide_eq_true hk

theorem mem_byKey {findings : List Finding} : f ∈ byKey findings ↔ firingAt findings f.key = some f := by
  unfold byKey
  rw [List.mem_map]
  constructor
  · rintro ⟨⟨k, f⟩, he, rfl⟩
    rw [List.mem_insertionSort] at he
    have hget : firingAt findings k = some f := Ordered.get?_eq_some.2 he
    rw [key_of_firingAt hget]
    exact hget
  · intro h
    exact ⟨(f.key, f), (List.mem_insertionSort _).2 (Ordered.get?_eq_some.1 h), rfl⟩

theorem nodup_byKey (findings : List Finding) : ((byKey findings).map Finding.key).Nodup := by
  have hkeys : (byKey findings).map Finding.key =
      ((Ordered.ofList (findings.map fun f => (f.key, f))).items.insertionSort fun e f => e.1 ≤ f.1).map Prod.fst := by
    unfold byKey
    rw [List.map_map]
    refine List.map_congr_left fun e he => ?_
    rw [List.mem_insertionSort] at he
    exact @key_of_firingAt e.1 e.2 findings (Ordered.get?_eq_some.2 he)
  rw [hkeys]
  exact ((List.perm_insertionSort _ _).map Prod.fst).nodup_iff.2 (Ordered.nodup _)

theorem findings_of_byKey {findings : List Finding} (hf : f ∈ byKey findings) : f ∈ findings := by
  have h := mem_byKey.1 hf
  unfold firingAt at h
  rw [Ordered.get?_ofList] at h
  obtain ⟨g, hg, hgf⟩ := Option.map_eq_some_iff.1 h
  have hmem := List.mem_of_find?_eq_some hg
  rw [List.mem_reverse, List.mem_map] at hmem
  obtain ⟨f', hf', rfl⟩ := hmem
  obtain rfl : f' = f := hgf
  exact hf'

theorem tells_filed {l : List Finding} (h : Filed owner p.alerts) (hl : ∀ f ∈ l, owner f.key = name) :
    Filed owner (l.foldl (tell w name) p).alerts := by
  induction l generalizing p with
  | nil => exact h
  | cons f l ih =>
    exact ih (tell_filed h (hl f List.mem_cons_self)) fun f' hf' => hl f' (List.mem_cons_of_mem f hf')

theorem resolves_filed {l : List Str} (h : Filed owner p.alerts) :
    Filed owner (l.foldl (resolve w note) p).alerts := by
  induction l generalizing p with
  | nil => exact h
  | cons key l ih => exact ih (resolve_filed h key)

/-! ### One check -/

/-- What a check may put on record is its own. -/
structure Own (owner : Str → Str) (nr : Str × CheckResult) : Prop where
  findings : ∀ f ∈ nr.2.findings, owner f.key = nr.1
  unreadable : owner (nr.1 ++ "-unreadable".toList) = nr.1

variable {nr : Str × CheckResult}

theorem Own.byKey (hown : Own owner nr) : ∀ f ∈ byKey nr.2.findings, owner f.key = nr.1 :=
  fun f hf => hown.findings f (findings_of_byKey hf)

theorem checkOne_filed (h : Filed owner p.alerts) (hown : Own owner nr) : Filed owner (checkOne w p nr).alerts := by
  have hkeys := hown.byKey
  obtain ⟨name, r⟩ := nr
  unfold checkOne
  dsimp only
  cases r.err with
  | some err =>
    dsimp only
    split
    · exact tell_filed h hown.unreadable
    · exact h
  | none => exact resolves_filed (tells_filed h hkeys)

theorem checkOne_of_ne (h : Filed owner p.alerts) (hown : Own owner nr) (hk : owner k ≠ nr.1) :
    (checkOne w p nr).alerts.get? k = p.alerts.get? k := by
  have hkeys := hown.byKey
  obtain ⟨name, r⟩ := nr
  have hne (f : Finding) (hf : owner f.key = name) : k ≠ f.key := fun heq => hk ((congrArg owner heq).trans hf)
  unfold checkOne
  dsimp only
  cases r.err with
  | some err =>
    dsimp only
    split
    · exact tell_of_ne (hne _ hown.unreadable)
    · rfl
  | none =>
    dsimp only
    rw [resolves_of_notMem]
    · exact tells_of_ne fun f hf => hne f (hkeys f hf)
    · intro hend
      obtain ⟨rec, hget, hcheck, -⟩ := mem_ended.1 hend
      exact hk ((tells_filed (p := { p with unknown := p.unknown.set name 0 }) h hkeys k rec hget).symm.trans hcheck)

theorem checkOne_settles (hsend : ∀ n, w.send n = true) (h : Filed owner p.alerts) (hown : Own owner nr)
    (herr : nr.2.err = none) (hk : owner k = nr.1) :
    (checkOne w p nr).fingerprint k = (firingAt nr.2.findings k).map Finding.fingerprint := by
  have hkeys := hown.byKey
  obtain ⟨name, r⟩ := nr
  dsimp only at herr hk hkeys
  have hfiled := tells_filed (w := w) (p := { p with unknown := p.unknown.set name 0 }) h hkeys
  unfold checkOne Pass.fingerprint
  dsimp only
  rw [herr]
  dsimp only
  cases hat : firingAt r.findings k with
  | some f =>
    obtain rfl := key_of_firingAt hat
    have hf := mem_byKey.2 hat
    rw [resolves_of_notMem]
    · exact tells_fingerprint hsend (nodup_byKey r.findings) hf
    · intro hend
      obtain ⟨-, -, -, hnot⟩ := mem_ended.1 hend
      exact hnot (List.mem_map_of_mem hf)
  | none =>
    have hnot : k ∉ (byKey r.findings).map Finding.key := by
      intro hmem
      obtain ⟨f, hf, rfl⟩ := List.mem_map.1 hmem
      rw [mem_byKey.1 hf] at hat
      cases hat
    rw [Option.map_none, Option.map_eq_none_iff]
    by_cases hend : k ∈ ended ((byKey r.findings).foldl (tell w name)
        { p with unknown := p.unknown.set name 0 }).alerts name (byKey r.findings)
    · exact resolves_of_mem hsend hend
    · rw [resolves_of_notMem hend]
      refine Option.eq_none_iff_forall_not_mem.2 fun rec hget => ?_
      exact hend (mem_ended.2 ⟨rec, hget, (hfiled k rec hget).trans hk, hnot⟩)

/-! ### A pass -/

theorem Owned.own {results : List (Str × CheckResult)} (h : Owned owner results) (hnr : nr ∈ results) :
    Own owner nr :=
  ⟨h.findings nr hnr, h.unreadable nr hnr⟩

theorem foldl_filed {results : List (Str × CheckResult)} (h : Filed owner p.alerts)
    (hown : ∀ nr ∈ results, Own owner nr) : Filed owner (results.foldl (checkOne w) p).alerts := by
  induction results generalizing p with
  | nil => exact h
  | cons nr results ih =>
    exact ih (checkOne_filed h (hown nr List.mem_cons_self)) fun nr' h' => hown nr' (List.mem_cons_of_mem nr h')

theorem foldl_of_ne {results : List (Str × CheckResult)} (h : Filed owner p.alerts)
    (hown : ∀ nr ∈ results, Own owner nr) (hk : ∀ nr ∈ results, owner k ≠ nr.1) :
    (results.foldl (checkOne w) p).alerts.get? k = p.alerts.get? k := by
  induction results generalizing p with
  | nil => rfl
  | cons nr results ih =>
    have hfirst := hown nr List.mem_cons_self
    rw [List.foldl_cons, ih (checkOne_filed h hfirst) (fun nr' h' => hown nr' (List.mem_cons_of_mem nr h'))
      (fun nr' h' => hk nr' (List.mem_cons_of_mem nr h')), checkOne_of_ne h hfirst (hk nr List.mem_cons_self)]

theorem foldl_settles {results : List (Str × CheckResult)} (hsend : ∀ n, w.send n = true)
    (h : Filed owner p.alerts) (hown : ∀ nr ∈ results, Own owner nr) (hn : (results.map Prod.fst).Nodup)
    (hnr : nr ∈ results) (herr : nr.2.err = none) (hk : owner k = nr.1) :
    (results.foldl (checkOne w) p).fingerprint k = (firingAt nr.2.findings k).map Finding.fingerprint := by
  induction results generalizing p with
  | nil => cases hnr
  | cons nr' results ih =>
    rw [List.map_cons, List.nodup_cons] at hn
    have hfirst := hown nr' List.mem_cons_self
    have hrest : ∀ nr ∈ results, Own owner nr := fun nr h' => hown nr (List.mem_cons_of_mem nr' h')
    rcases List.mem_cons.1 hnr with rfl | hnr
    · have hlater : ∀ nr' ∈ results, owner k ≠ nr'.1 := by
        intro nr' h' heq
        exact hn.1 (hk ▸ heq ▸ List.mem_map_of_mem h')
      rw [List.foldl_cons, Pass.fingerprint, foldl_of_ne (checkOne_filed h hfirst) hrest hlater]
      exact checkOne_settles hsend h hfirst herr hk
    · exact ih (checkOne_filed h hfirst) hrest hn.2 hnr

theorem reconcile_filed {s : State} {results : List (Str × CheckResult)} (h : Filed owner s.alerts)
    (howned : Owned owner results) : Filed owner (reconcile w s results).alerts := by
  intro k r hr
  unfold reconcile at hr
  rw [Ordered.get?_filter] at hr
  obtain ⟨hget, -⟩ := Option.filter_eq_some_iff.1 hr
  exact foldl_filed h (fun nr hnr => howned.own hnr) k r hget

end Settled

theorem filed {owner : Str → Str} {s : System} (h : Reach Init Step (fun _ r => Owned owner r.results) s) :
    Filed owner s.disk.alerts := by
  refine h.invariant (P := fun s => Filed owner s.disk.alerts) ?_ ?_
  · rintro _ rfl k r hr
    cases hr
  · rintro s r _ - hfiled howned rfl
    unfold cmdRun
    dsimp only
    split
    · exact reconcile_filed hfiled howned
    · exact hfiled

/-- Whatever was on record, delivered or lost in the passes before: a pass whose messages are all delivered leaves
on record, of each check that could read its source, exactly what it found, as it found it last. -/
theorem alerts_settled {owner : Str → Str} {s : System} (h : Reach Init Step (fun _ r => Owned owner r.results) s)
    {r : Run} (howned : Owned owner r.results) (hsend : ∀ n, r.world.send n = true) {nr : Str × CheckResult}
    (hnr : nr ∈ r.results) (herr : nr.2.err = none) {k : Str} (hk : owner k = nr.1) :
    (reconcile r.world s.disk r.results).fingerprint k = (firingAt nr.2.findings k).map Finding.fingerprint := by
  have hpass := foldl_settles (p := ⟨s.disk.unknown, s.disk.alerts, [], 0, false⟩) hsend (filed h)
    (fun nr hnr => howned.own hnr) howned.names hnr herr hk
  rw [← hpass]
  unfold reconcile Pass.fingerprint
  dsimp only
  rw [Ordered.get?_filter]
  congr 1
  cases hget : (r.results.foldl (checkOne r.world) ⟨s.disk.unknown, s.disk.alerts, [], 0, false⟩).alerts.get? k with
  | none => rfl
  | some rec =>
    have hcheck := (foldl_filed (w := r.world) (p := ⟨s.disk.unknown, s.disk.alerts, [], 0, false⟩) (filed h)
      (fun nr hnr => howned.own hnr) k rec hget).trans hk
    refine Option.filter_eq_some_iff.2 ⟨rfl, ?_⟩
    rw [List.contains_iff_mem, hcheck]
    exact List.mem_map_of_mem hnr

theorem alerts_settled_payout : (reconcile (payoutPass 60 true).world (cmdRun ⟨newState, []⟩ (payoutPass 0 false)).disk
    (payoutPass 60 true).results).fingerprint "payout-silent".toList = some "silent".toList := by
  have howned (now : Int) (delivered : Bool) :
      Owned (List.takeWhile (· != '-')) (payoutPass now delivered).results := by
    constructor <;> simp [payoutPass]
  exact alerts_settled (.step (.init rfl) (howned 0 false) rfl) (howned 60 true) (fun _ => rfl) List.mem_cons_self rfl
    (by decide)

end Dendra.Alert
