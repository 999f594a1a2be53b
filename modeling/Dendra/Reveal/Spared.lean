import Mathlib
import Dendra.Lib.Run
import Dendra.Reveal.Worker

/-!
# A revealed job is not accused

A job is filed under an epoch when it is delivered. `Kept` says where it is from then on.

* It waits in `pending`, and no closing of its epoch was taken by relay and chain; or
* the list at the relay holds it, and the commit of its epoch is on chain or on its way.

`Sparing` is what each step has to meet for `Kept` to go on (`Kept.step`). Until the job is listed the process does
not restart, a closing finds no other list under its key, and `already` is said of a marker that is there; later the
marker is not lost on its way. `marker_spares`: a judge that reads the chain then never reads an absence, once the
marker could be anchored.
-/

namespace Dendra.Reveal

variable {cfg : Settings} {ρ : Round} {s s' : System} {e x : Nat} {j : Str}

theorem formatUint_injective : Function.Injective Str.formatUint := fun m n h => by
  have := congrArg (Nat.ofDigitChars 10 · 0) h
  simpa [Str.formatUint, Nat.ofDigitChars_toDigits] using this

theorem listKey_injective (m : Str) : Function.Injective fun e => listKey e m := fun a b h => by
  have h : "markerlist__e".toList ++ Str.formatUint a ++ "__".toList ++ m =
    "markerlist__e".toList ++ Str.formatUint b ++ "__".toList ++ m := h
  exact formatUint_injective (List.append_cancel_left (List.append_cancel_right (List.append_cancel_right h)))

/-! ## The property -/

/-- The marker of the epoch is on chain or on its way there. -/
def System.Sent (cfg : Settings) (e : Nat) (s : System) : Prop :=
  (s.commits (markerKey e cfg.me)).isSome = true ∨ markerKey e cfg.me ∈ s.flight.map Prod.fst

/-- The marker of the epoch could be anchored, as far as the job goes: the worker does not keep the job for a first
closing that relay and chain take, and the transaction is not on its way. -/
def System.Due (cfg : Settings) (j : Str) (e : Nat) (s : System) : Prop :=
  (j ∈ s.worker.pending e → s.offered e = true) ∧
    (markerKey e cfg.me ∈ s.flight.map Prod.fst → (s.commits (markerKey e cfg.me)).isSome = true)

/-- What a judge reads: the commits on chain, and of the lists those it finds at the relay. -/
def System.Spares (cfg : Settings) (j : Str) (disputeHeight : Nat) (s : System) : Prop :=
  ∀ getList : Str → Option (List Str), (∀ k l, getList k = some l → s.lists k = some l) →
    markerState j cfg.me disputeHeight (fun k => anchoredRoot (s.commits k)) getList cfg.epochBlocks 2 ≠
      some (some false)

/-- The round closes the epoch. -/
def Closes (cfg : Settings) (ρ : Round) (e : Nat) (s : System) : Prop :=
  cfg.noMarker = false ∧ ∃ h x, ρ.height = some (some h) ∧ epochOf h cfg.epochBlocks = some x ∧ e ∈ closable s.worker x

/-- What the closing of an epoch meets: no other list at the relay, and a true answer of the chain. -/
structure Fair (cfg : Settings) (c : Closing) (e : Nat) (s : System) : Prop where
  list : c.willing = true →
    s.lists (listKey e cfg.me) = none ∨ s.lists (listKey e cfg.me) = some (sortedSet (s.worker.pending e))
  answer : c.answer = .already → s.Sent cfg e

/-! ## Where a filed job is -/

/-- The job waits for a closing of its epoch. -/
def Waits (j : Str) (e : Nat) (s : System) : Prop := j ∈ s.worker.pending e ∧ s.offered e = false

/-- The job is in the list of its epoch, and the marker is sent. -/
def Listed (cfg : Settings) (j : Str) (e : Nat) (s : System) : Prop :=
  (∃ l, s.lists (listKey e cfg.me) = some l ∧ j ∈ l) ∧ s.Sent cfg e

def Kept (cfg : Settings) (j : Str) (e : Nat) (s : System) : Prop := Waits j e s ∨ Listed cfg j e s

/-- The condition on a step, for a job that was filed under an epoch. -/
def Sparing (cfg : Settings) (j : Str) (e : Nat) (s : System) : Step → Prop
  | .round ρ => ¬ Listed cfg j e s → j ∈ s.worker.pending e → Closes cfg ρ e s → Fair cfg (ρ.closing e) e s
  | .restart => j ∈ s.worker.pending e → Listed cfg j e s
  | .executed _ => True
  | .dropped t => t.1 = markerKey e cfg.me →
      (s.commits t.1).isSome = true ∨ t.1 ∈ (s.flight.erase t).map Prod.fst

/-- A list and a commit stay, and a transaction stays on its way. -/
structure Grows (s s' : System) : Prop where
  lists : ∀ k l, s.lists k = some l → s'.lists k = some l
  commits : s'.commits = s.commits
  flight : ∀ t ∈ s.flight, t ∈ s'.flight
  delivered : s'.delivered = s.delivered

theorem Grows.refl (s : System) : Grows s s := ⟨fun _ _ h => h, rfl, fun _ h => h, rfl⟩

theorem Grows.trans {s'' : System} (h : Grows s s') (h' : Grows s' s'') : Grows s s'' where
  lists k l hk := h'.lists k l (h.lists k l hk)
  commits := h'.commits.trans h.commits
  flight t ht := h'.flight t (h.flight t ht)
  delivered := h'.delivered.trans h.delivered

theorem Grows.sent (h : Grows s s') (hs : s.Sent cfg e) : s'.Sent cfg e := by
  refine hs.imp (fun hc => by rw [h.commits]; exact hc) fun hf => ?_
  obtain ⟨t, ht, hk⟩ := List.mem_map.1 hf
  exact List.mem_map.2 ⟨t, h.flight t ht, hk⟩

theorem Grows.listed (h : Grows s s') (hs : Listed cfg j e s) : Listed cfg j e s' := by
  obtain ⟨⟨l, hl, hj⟩, hsent⟩ := hs
  exact ⟨⟨l, h.lists _ _ hl, hj⟩, h.sent hsent⟩

/-! ## A closing -/

/-- What an attempt to anchor an epoch does. -/
structure Tried (cfg : Settings) (c : Closing) (e : Nat) (s : System) (r : System × Option Bool) : Prop where
  worker : r.1.worker = s.worker
  offered : r.1.offered = s.offered
  grows : Grows s r.1
  others : ∀ k, k ≠ listKey e cfg.me → r.1.lists k = s.lists k
  anchored : r.2 = some true → r.1.lists (listKey e cfg.me) = some (sortedSet (s.worker.pending e)) ∧
    (c.answer = .already ∨ markerKey e cfg.me ∈ r.1.flight.map Prod.fst)
  taken : c.willing = true → s.worker.pending e ≠ [] →
    s.lists (listKey e cfg.me) = none ∨ s.lists (listKey e cfg.me) = some (sortedSet (s.worker.pending e)) →
      r.2 = some true

theorem putList_grows (key : Str) (jobs : List Str) (s : System) : Grows s (s.putList key jobs) := by
  unfold System.putList
  split
  · next hnone =>
    refine ⟨fun k l h => ?_, rfl, fun _ h => h, rfl⟩
    have hk : k ≠ key := fun hk => by simp [hk, hnone] at h
    exact (Function.update_of_ne hk _ _).trans h
  · exact .refl s

theorem send_grows (key : Str) (c : Commit) (sent : Bool) (s : System) : Grows s (s.send key c sent) := by
  unfold System.send
  split
  · exact ⟨fun _ _ h => h, rfl, fun _ h => List.mem_append_left _ h, rfl⟩
  · exact .refl s

@[simp] theorem putList_worker (key : Str) (jobs : List Str) (s : System) : (s.putList key jobs).worker = s.worker := by
  unfold System.putList
  split <;> rfl

@[simp] theorem putList_offered (key : Str) (jobs : List Str) (s : System) :
    (s.putList key jobs).offered = s.offered := by
  unfold System.putList
  split <;> rfl

theorem putList_others {key k : Str} (hk : k ≠ key) (jobs : List Str) (s : System) :
    (s.putList key jobs).lists k = s.lists k := by
  unfold System.putList
  split
  · exact Function.update_of_ne hk _ _
  · rfl

theorem putList_self {key : Str} {jobs : List Str} (h : s.lists key = none ∨ s.lists key = some jobs) :
    (s.putList key jobs).lists key = some jobs := by
  unfold System.putList
  split
  · exact Function.update_self _ _ _
  · next hne => exact h.resolve_left hne

@[simp] theorem send_worker (key : Str) (c : Commit) (b : Bool) (s : System) : (s.send key c b).worker = s.worker := by
  cases b <;> rfl

@[simp] theorem send_offered (key : Str) (c : Commit) (b : Bool) (s : System) :
    (s.send key c b).offered = s.offered := by
  cases b <;> rfl

@[simp] theorem send_lists (key : Str) (c : Commit) (b : Bool) (s : System) : (s.send key c b).lists = s.lists := by
  cases b <;> rfl

theorem anchorMarker_tried (cfg : Settings) (c : Closing) (e : Nat) (s : System) : Tried cfg c e s (anchorMarker cfg c e s) := by
  have hput := putList_grows (listKey e cfg.me) (sortedSet (s.worker.pending e)) s
  have hsame : ∀ k, k ≠ listKey e cfg.me →
      (s.putList (listKey e cfg.me) (sortedSet (s.worker.pending e))).lists k = s.lists k :=
    fun k hk => putList_others hk _ s
  have hsend := fun sent => hput.trans (send_grows (markerKey e cfg.me)
    ⟨merkleRoot (sortedSet (s.worker.pending e)), (sortedSet (s.worker.pending e)).length⟩ sent _)
  unfold anchorMarker
  dsimp only
  split
  · next hnil =>
    have hpend : s.worker.pending e = [] :=
      List.eq_nil_iff_forall_not_mem.2 fun a ha => by simpa [hnil] using mem_sortedSet.2 ha
    exact ⟨rfl, rfl, .refl s, fun _ _ => rfl, by simp, fun _ hne => absurd hpend hne⟩
  · split
    · next hd => exact ⟨rfl, rfl, .refl s, fun _ _ => rfl, by simp, by simp [Closing.willing, hd]⟩
    · next stored hd =>
      cases stored
      · exact ⟨rfl, rfl, .refl s, fun _ _ => rfl, by simp, by simp [Closing.willing, hd]⟩
      · exact ⟨by simp, by simp, hput, hsame, by simp, by simp [Closing.willing, hd]⟩
    · split
      · next hne => exact ⟨by simp, by simp, hput, hsame, by simp, fun _ _ h => absurd (putList_self h) hne⟩
      · next hlist =>
        rw [Ne, not_not] at hlist
        split
        · refine ⟨by simp, by simp, hsend true, by simpa using hsame, fun _ => ?_, fun _ _ _ => rfl⟩
          exact ⟨by simpa using hlist, .inr (by simp [System.send])⟩
        · next ha =>
          exact ⟨by simp, by simp, hput, hsame, fun _ => ⟨hlist, .inl ha⟩, fun _ _ _ => rfl⟩
        · next sent ha =>
          exact ⟨by simp, by simp, hsend sent, by simpa using hsame, by simp,
            by simp [Closing.willing, ha]⟩
        · next sent ha =>
          exact ⟨by simp, by simp, hsend sent, by simpa using hsame, by simp,
            by simp [Closing.willing, ha]⟩

/-- What the closing of an epoch leaves alone. -/
theorem closeOne_grows (cfg : Settings) (c : Closing) (e : Nat) (s : System) : Grows s (closeOne cfg c e s).1 := by
  have ht := (anchorMarker_tried cfg c e
    { s with offered := Function.update s.offered e (s.offered e || c.willing) }).grows
  have hr : Grows s (anchorMarker cfg c e
      { s with offered := Function.update s.offered e (s.offered e || c.willing) }).1 :=
    ⟨ht.lists, ht.commits, ht.flight, ht.delivered⟩
  unfold closeOne
  dsimp only
  split
  · exact hr
  · exact hr
  · exact ⟨hr.lists, hr.commits, hr.flight, hr.delivered⟩

/-- The closing of another epoch leaves a job where it waits. -/
theorem closeOne_other (cfg : Settings) (c : Closing) (hx : x ≠ e) (s : System) :
    (closeOne cfg c x s).1.worker.pending e = s.worker.pending e ∧ (closeOne cfg c x s).1.offered e = s.offered e ∧
      (closeOne cfg c x s).1.lists (listKey e cfg.me) = s.lists (listKey e cfg.me) := by
  have ht := anchorMarker_tried cfg c x
    { s with offered := Function.update s.offered x (s.offered x || c.willing) }
  have hlist := ht.others (listKey e cfg.me) fun h => hx (listKey_injective cfg.me h).symm
  have hoff : (Function.update s.offered x (s.offered x || c.willing)) e = s.offered e :=
    Function.update_of_ne hx.symm _ _
  unfold closeOne
  dsimp only
  split
  · exact ⟨by rw [ht.worker], (congrFun ht.offered e).trans hoff, hlist⟩
  · exact ⟨by rw [ht.worker], (congrFun ht.offered e).trans hoff, hlist⟩
  · refine ⟨?_, (congrFun ht.offered e).trans hoff, hlist⟩
    rw [ht.worker]
    exact Function.update_of_ne hx.symm _ _

/-- The closing of its epoch lists a job, or leaves it where it waits. -/
theorem closeOne_self {c : Closing} (hw : Waits j e s) (hf : Fair cfg c e s) :
    Kept cfg j e (closeOne cfg c e s).1 := by
  obtain ⟨hj, hoff⟩ := hw
  have ht := anchorMarker_tried cfg c e
    { s with offered := Function.update s.offered e (s.offered e || c.willing) }
  have hwait : (anchorMarker cfg c e
      { s with offered := Function.update s.offered e (s.offered e || c.willing) }).2 ≠ some true →
      Waits j e (anchorMarker cfg c e
        { s with offered := Function.update s.offered e (s.offered e || c.willing) }).1 := by
    intro hne
    refine ⟨by rw [ht.worker]; exact hj, ?_⟩
    rw [ht.offered]
    have hun : c.willing = false := by
      by_contra hwill
      rw [Bool.not_eq_false] at hwill
      exact hne (ht.taken hwill (List.ne_nil_of_mem hj) (hf.list hwill))
    simp [hoff, hun]
  unfold closeOne
  dsimp only
  split
  · next hr => exact .inl (hwait (by simp [hr]))
  · next hr => exact .inl (hwait (by simp [hr]))
  · next hr =>
    obtain ⟨hlist, hsent⟩ := ht.anchored hr
    refine .inr ⟨⟨_, hlist, mem_sortedSet.2 hj⟩, ?_⟩
    refine hsent.elim (fun ha => ?_) .inr
    have := ht.grows.sent (e := e) (hf.answer ha)
    exact this

/-- Closing the epochs of a round. -/
theorem closeAll_kept {es : List Nat} (hnd : es.Nodup) (h : Kept cfg j e s)
    (hf : ¬ Listed cfg j e s → e ∈ es → j ∈ s.worker.pending e → Fair cfg (ρ.closing e) e s) :
    Kept cfg j e (closeAll cfg ρ es s).1 := by
  induction es generalizing s with
  | nil => exact h
  | cons x es ih =>
    obtain ⟨hx, hnd⟩ := List.nodup_cons.1 hnd
    have hlisted : Listed cfg j e s → Listed cfg j e (closeOne cfg (ρ.closing x) x s).1 := (closeOne_grows _ _ _ _).listed
    have hkept : Kept cfg j e (closeOne cfg (ρ.closing x) x s).1 := by
      by_cases hl : Listed cfg j e s
      · exact .inr (hlisted hl)
      · have hw := h.resolve_right hl
        by_cases hxe : x = e
        · subst hxe
          exact closeOne_self hw (hf hl List.mem_cons_self hw.1)
        · obtain ⟨hpend, hoff, -⟩ := closeOne_other cfg (ρ.closing x) hxe s
          exact .inl ⟨hpend.symm ▸ hw.1, hoff.trans hw.2⟩
    have hfair : ¬ Listed cfg j e (closeOne cfg (ρ.closing x) x s).1 → e ∈ es →
        j ∈ (closeOne cfg (ρ.closing x) x s).1.worker.pending e →
          Fair cfg (ρ.closing e) e (closeOne cfg (ρ.closing x) x s).1 := by
      intro hl he hj
      have hxe : x ≠ e := fun h => hx (h ▸ he)
      obtain ⟨hpend, -, hlist⟩ := closeOne_other cfg (ρ.closing x) hxe s
      have hfs := hf (fun h => hl (hlisted h)) (List.mem_cons_of_mem x he) (hpend ▸ hj)
      exact ⟨fun hwill => by rw [hlist, hpend]; exact hfs.list hwill,
        fun ha => (closeOne_grows _ _ _ _).sent (hfs.answer ha)⟩
    unfold closeAll
    split
    · next s' heq =>
      rw [heq] at hkept
      exact hkept
    · next s' heq =>
      rw [heq] at hkept hfair
      exact ih hnd hkept hfair

/-- The first part of a round. -/
theorem epochTurn_kept (h : Kept cfg j e s) (hok : Sparing cfg j e s (.round ρ)) :
    Kept cfg j e (epochTurn cfg ρ s).1 := by
  unfold epochTurn
  split
  · exact h
  · next hmark =>
    split
    · exact h
    · exact h
    · next height hheight =>
      split
      · exact h
      · next x hepoch =>
        have hnd : (closable s.worker x).Nodup := by
          unfold closable
          split
          · exact List.nodup_nil
          · exact List.nodup_range.filter _
        have hkept := closeAll_kept hnd h fun hl he hj =>
          hok hl hj ⟨by simpa using hmark, height, x, hheight, hepoch, he⟩
        split
        · next s' heq =>
          rw [heq] at hkept
          exact hkept
        · next s' heq =>
          rw [heq] at hkept
          exact hkept

/-! ## The jobs of a round -/

/-- What the rows of a round do: jobs are filed, and the rest of the world is left alone. -/
structure Filed (cfg : Settings) (s s' : System) : Prop where
  lists : s'.lists = s.lists
  commits : s'.commits = s.commits
  flight : s'.flight = s.flight
  pending : ∀ e, ∀ j ∈ s.worker.pending e, j ∈ s'.worker.pending e
  offered : ∀ e, s.offered e = false → s'.offered e = false
  delivered : ∃ new, s'.delivered = new ++ s.delivered ∧ ∀ j e, (j, some e) ∈ new → Waits j e s'

theorem Filed.refl (s : System) : Filed cfg s s :=
  ⟨rfl, rfl, rfl, fun _ _ h => h, fun _ h => h, [], rfl, fun _ _ h => by cases h⟩

theorem Filed.trans {s'' : System} (h : Filed cfg s s') (h' : Filed cfg s' s'') : Filed cfg s s'' where
  lists := h'.lists.trans h.lists
  commits := h'.commits.trans h.commits
  flight := h'.flight.trans h.flight
  pending e j hj := h'.pending e j (h.pending e j hj)
  offered e he := h'.offered e (h.offered e he)
  delivered := by
    obtain ⟨new, hnew, hwaits⟩ := h.delivered
    obtain ⟨new', hnew', hwaits'⟩ := h'.delivered
    refine ⟨new' ++ new, by rw [hnew', hnew, List.append_assoc], fun j e hmem => ?_⟩
    rcases List.mem_append.1 hmem with hmem | hmem
    · exact hwaits' j e hmem
    · obtain ⟨hj, hoff⟩ := hwaits j e hmem
      exact ⟨h'.pending e j hj, h'.offered e hoff⟩

/-- A change of the worker that leaves what it filed. -/
theorem Filed.of_worker {w : Worker} (h : w.pending = s.worker.pending) : Filed cfg s { s with worker := w } :=
  ⟨rfl, rfl, rfl, fun e j hj => by rw [show w.pending = _ from h]; exact hj, fun _ he => he, [], rfl,
    fun _ _ hmem => by cases hmem⟩

theorem file_filed (job : Str) (s : System) : Filed cfg s (System.file cfg job s) := by
  unfold System.file
  split
  · exact ⟨rfl, rfl, rfl, fun _ _ hj => hj, fun _ he => he, [(job, none)], rfl, fun _ _ hmem => by simp at hmem⟩
  · next x hx =>
    split
    · exact ⟨rfl, rfl, rfl, fun _ _ hj => hj, fun _ he => he, [(job, none)], rfl, fun _ _ hmem => by simp at hmem⟩
    · refine ⟨rfl, rfl, rfl, fun e j hj => ?_, fun e he => ?_, [(job, some x)], rfl, fun j e hmem => ?_⟩
      · by_cases hex : e = x
        · subst hex
          simpa using .inr hj
        · simpa [Function.update_of_ne hex] using hj
      · by_cases hex : e = x
        · subst hex
          simp
        · simpa [Function.update_of_ne hex] using he
      · simp only [List.mem_singleton, Prod.mk.injEq, Option.some.injEq] at hmem
        obtain ⟨rfl, rfl⟩ := hmem
        exact ⟨by simp, by simp⟩

theorem rowTurn_filed (r : Row) (s : System) : Filed cfg s (rowTurn cfg ρ r s).1 := by
  unfold rowTurn
  dsimp only
  split
  · exact .refl s
  · split
    · exact .of_worker rfl
    · split
      · exact .refl s
      · split
        · refine Filed.trans (.of_worker ?_) (file_filed r.job _)
          rfl
        · exact .of_worker rfl
        · exact .of_worker rfl
        · exact .of_worker rfl

theorem rowsTurn_filed (rows : List Row) (s : System) : Filed cfg s (rowsTurn cfg ρ rows s).1 := by
  induction rows generalizing s with
  | nil => exact .refl s
  | cons r rows ih => exact (rowTurn_filed r s).trans (ih _)

/-- A round, after its first part. -/
theorem round_filed (cfg : Settings) (ρ : Round) (s : System) : Filed cfg (epochTurn cfg ρ s).1 (round cfg ρ s) := by
  unfold round
  split
  · next s' heq => rw [heq]; exact .refl s'
  · next s' heq =>
    rw [heq]
    split
    · exact .refl s'
    · exact .refl s'
    · exact (rowsTurn_filed _ s').trans (.of_worker rfl)

theorem Filed.kept (h : Filed cfg s s') (hk : Kept cfg j e s) : Kept cfg j e s' := by
  refine hk.imp (fun hw => ⟨h.pending e j hw.1, h.offered e hw.2⟩) fun hl => ?_
  unfold Listed System.Sent at hl ⊢
  rw [h.lists, h.commits, h.flight]
  exact hl

/-! ## Runs -/

/-- A transaction that leaves takes no other key with it. -/
theorem mem_erase_key {l : List (Str × Commit)} {t : Str × Commit} {k : Str} (ht : t.1 ≠ k) (h : k ∈ l.map Prod.fst) :
    k ∈ (l.erase t).map Prod.fst := by
  obtain ⟨u, hu, huk⟩ := List.mem_map.1 h
  have hut : u ≠ t := fun h => ht (by rw [← h]; exact huk)
  exact List.mem_map.2 ⟨u, (List.mem_erase_of_ne hut).2 hu, huk⟩

theorem Kept.step {a : Step} (h : Kept cfg j e s) (hok : Sparing cfg j e s a) (hs : s.step cfg a = some s') :
    Kept cfg j e s' := by
  cases a with
  | round ρ =>
    rw [System.step, Option.some.injEq] at hs
    exact hs ▸ (round_filed cfg ρ s).kept (epochTurn_kept h hok)
  | restart =>
    rw [System.step, Option.some.injEq] at hs
    subst hs
    exact .inr (h.elim (fun hw => hok hw.1) id)
  | executed t =>
    simp only [System.step] at hs
    split at hs
    · rw [Option.some.injEq] at hs
      subst hs
      refine h.imp id fun hl => ⟨hl.1, ?_⟩
      by_cases hkey : t.1 = markerKey e cfg.me
      · refine .inl ?_
        dsimp only
        split
        · rw [hkey, Function.update_self]
          rfl
        · next hsome => exact hkey ▸ Option.isSome_iff_ne_none.2 hsome
      · refine hl.2.imp (fun hc => ?_) fun hmem => ?_
        · dsimp only
          split
          · rw [Function.update_of_ne fun h => hkey h.symm]
            exact hc
          · exact hc
        · exact mem_erase_key hkey hmem
    · cases hs
  | dropped t =>
    simp only [System.step] at hs
    split at hs
    · rw [Option.some.injEq] at hs
      subst hs
      refine h.imp id fun hl => ⟨hl.1, ?_⟩
      by_cases hkey : t.1 = markerKey e cfg.me
      · show (s.commits (markerKey e cfg.me)).isSome = true ∨ markerKey e cfg.me ∈ (s.flight.erase t).map Prod.fst
        rw [← hkey]
        exact hok hkey
      · exact hl.2.imp_right (mem_erase_key hkey)
    · cases hs

/-- The round files the job under the epoch. -/
def Files (cfg : Settings) (ρ : Round) (j : Str) (e : Nat) (s : System) : Prop :=
  ∃ new, (round cfg ρ s).delivered = new ++ s.delivered ∧ (j, some e) ∈ new

theorem closeAll_grows (cfg : Settings) (ρ : Round) (es : List Nat) (s : System) : Grows s (closeAll cfg ρ es s).1 := by
  induction es generalizing s with
  | nil => exact .refl s
  | cons x es ih =>
    have hone := closeOne_grows cfg (ρ.closing x) x s
    unfold closeAll
    split
    · next s' heq =>
      rw [heq] at hone
      exact hone
    · next s' heq =>
      rw [heq] at hone
      exact hone.trans (ih s')

theorem epochTurn_delivered (s : System) : (epochTurn cfg ρ s).1.delivered = s.delivered := by
  unfold epochTurn
  split
  · rfl
  · split
    · rfl
    · rfl
    · split
      · rfl
      · next x _ =>
        have hall := (closeAll_grows cfg ρ (closable s.worker x) s).delivered
        split
        · next s' heq =>
          rw [heq] at hall
          exact hall
        · next s' heq =>
          rw [heq] at hall
          exact hall

/-- A job that a round files waits after it. -/
theorem Files.waits (h : Files cfg ρ j e s) : Waits j e (round cfg ρ s) := by
  obtain ⟨new, hnew, hmem⟩ := h
  obtain ⟨new', hnew', hwaits⟩ := (round_filed cfg ρ s).delivered
  rw [epochTurn_delivered, hnew] at hnew'
  exact hwaits j e (List.append_cancel_right hnew' ▸ hmem)

/-- A job that is kept is not accused once its marker could be anchored. -/
theorem Kept.spares (h : Kept cfg j e s) (hdue : s.Due cfg j e) {d : Nat} {es : List Nat}
    (hcov : coveringEpochs d cfg.epochBlocks 2 = some es) (he : e ∈ es) : s.Spares cfg j d := by
  rcases h with ⟨hj, hoff⟩ | ⟨⟨l, hl, hj⟩, hsent⟩
  · exact absurd ((hdue.1 hj).symm.trans hoff) (by decide)
  · intro getList hget
    obtain ⟨c, hc⟩ := Option.isSome_iff_exists.1 (hsent.elim id hdue.2)
    have hroot : lower (strip (anchoredRoot (s.commits (markerKey e cfg.me)))) ≠ [] := hc ▸ lower_anchoredRoot c
    have hlist : ∀ jobs, getList (listKey e cfg.me) = some jobs → j ∈ jobs := fun jobs hjobs =>
      Option.some.inj (hl.symm.trans (hget _ _ hjobs)) ▸ hj
    rw [markerState, hcov, Option.map_some, Ne, Option.some.injEq]
    exact scan_spares hroot hlist he

/-! ## The result -/

/-- A job that a round files under an epoch that covers its dispute is spared by every judge that reads the chain, in
every state of every run from there whose steps meet `Sparing`, once the marker could be anchored. -/
theorem marker_spares (cfg : Settings) {ρ : Round} {s₀ s : System} {j : Str} {e d : Nat} {es : List Nat}
    (hfile : Files cfg ρ j e s₀) (hcov : coveringEpochs d cfg.epochBlocks 2 = some es) (he : e ∈ es)
    (hrun : Reach (· = round cfg ρ s₀) (fun s a s' => s.step cfg a = some s') (Sparing cfg j e) s)
    (hdue : s.Due cfg j e) : s.Spares cfg j d :=
  have hkept : Kept cfg j e s := hrun.invariant (fun _ h => h ▸ .inl hfile.waits) fun _ _ _ _ hk hok hs => hk.step hok hs
  hkept.spares hdue hcov he

/-! ## Two runs -/

/-- Epochs of 600 blocks. -/
def miner : Settings := ⟨['m'], 4, false, 600⟩

def atStart : System := ⟨.fresh, fun _ => none, fun _ => none, [], fun _ => false, []⟩

/-- A round in which relay and chain take all that they are asked for, and `j` is disputed. -/
def serving (height : Option Nat) : Round where
  height := some height
  closing _ := ⟨.taken, .accepted⟩
  rows := some (some [⟨['j'], "open+disputed".toList, ['m']⟩])
  clock _ := 0
  reveal _ _ := ⟨.revealed, none⟩
  later _ := 0

/-- The job is filed at height 650, its epoch closed at height 1300, and its marker executed. -/
theorem marker_spares_first : ∃ s : System, s.worker.curEpoch = some 2 ∧ s.Spares miner ['j'] 610 := by
  obtain ⟨s₁, hs₁⟩ : ∃ s, s = round miner (serving (some 650)) atStart := ⟨_, rfl⟩
  obtain ⟨s₂, hs₂⟩ : ∃ s, s = round miner (serving (some 1300)) s₁ := ⟨_, rfl⟩
  have hfile : Files miner (serving (some 650)) ['j'] 1 atStart := ⟨[(['j'], some 1)], rfl, by simp⟩
  have hlists : s₁.lists (listKey 1 ['m']) = none := hs₁ ▸ rfl
  obtain ⟨t, ht, hkey⟩ : ∃ t ∈ s₂.flight, t.1 = markerKey 1 ['m'] :=
    List.mem_map.1 (by rw [hs₂, hs₁]; decide)
  have hoff : s₂.offered 1 = true := by rw [hs₂, hs₁]; decide
  have hcur : s₂.worker.curEpoch = some 2 := by rw [hs₂, hs₁]; decide
  have hnone : s₂.commits t.1 = none := by rw [hkey, hs₂, hs₁]; decide
  obtain ⟨s₃, hs₃⟩ : ∃ s, s₂.step miner (.executed t) = some s := ⟨_, if_pos ht⟩
  have hrun : Reach (· = round miner (serving (some 650)) atStart) (fun s a s' => s.step miner a = some s')
      (Sparing miner ['j'] 1) s₃ :=
    .step (a := .executed t) (.step (a := .round (serving (some 1300))) (.init hs₁)
      (fun _ _ _ => ⟨fun _ => .inl hlists, nofun⟩) (congrArg some hs₂.symm)) trivial hs₃
  have hs₃' := hs₃
  simp only [System.step, if_pos ht, Option.some.injEq, if_pos hnone] at hs₃'
  refine ⟨s₃, by rw [← hs₃']; exact hcur, marker_spares miner hfile rfl (by decide : 1 ∈ [1, 2]) hrun ⟨fun _ => ?_, fun _ => ?_⟩⟩
  · rw [← hs₃']
    exact hoff
  · rw [← hs₃', ← show t.1 = markerKey 1 miner.me from hkey]
    simp

/-- The height is not read in the round that delivers the job: it is filed under no epoch, and a judge reads an
absence when the epochs are over. -/
theorem marker_accuses : ∃ s : System,
    Reach System.Init (fun s a s' => s.step miner a = some s') (fun _ _ => True) s ∧
      (∃ e, (['j'], e) ∈ s.delivered) ∧ s.worker.curEpoch = some 3 ∧ coveringEpochs 610 miner.epochBlocks 2 = some [1, 2] ∧
      (∀ e ∈ [1, 2], s.Due miner ['j'] e) ∧ ¬ s.Spares miner ['j'] 610 := by
  refine ⟨round miner (serving (some 1900)) (round miner (serving none) atStart),
    .step (.step (.init (s := atStart) ⟨rfl, fun _ => rfl, fun _ => rfl, rfl, fun _ => rfl, rfl⟩) trivial
      (a := .round (serving none)) rfl) trivial (a := .round (serving (some 1900))) rfl, ⟨none, .head _⟩, rfl, rfl, ?_, ?_⟩
  · intro e _
    exact ⟨fun h => absurd (show ['j'] ∈ ([] : List Str) from h) List.not_mem_nil,
      fun h => absurd (show markerKey e ['m'] ∈ ([] : List Str) from h) List.not_mem_nil⟩
  · intro h
    exact h (fun _ => none) nofun (by decide)

end Dendra.Reveal
