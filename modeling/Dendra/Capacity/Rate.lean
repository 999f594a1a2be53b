import Dendra.Capacity.Store
import Dendra.Lib.Window

/-!
# The allowances of the registry

`_rate_ok` keeps one sliding window for each key of a table, and forgets the keys whose window is empty.

* `Table`: each key's calls that were let through, and the queue the table keeps of them.
* `rate_window`: no window of a key holds more calls than the limit, and a call is refused only when the window
  before it is full.
-/

namespace Dendra.Capacity

/-- The calls that were let through, with the table. -/
structure Served where
  table : Rates
  log : List (Str × Rat)

/-- One call of `_rate_ok`. -/
def call (limit : Nat) (v : Served) (e : Str × Rat) : Served :=
  let (ok, table) := rateOk e.1 limit e.2 v.table
  ⟨table, if ok then v.log ++ [e] else v.log⟩

def timesOf (log : List (Str × Rat)) (key : Str) : List Rat :=
  (log.filter fun e => decide (e.1 = key)).map Prod.snd

def queue (t : Rates) (key : Str) : List Rat := (t.get? key).getD []

/-- The calls in the window of a key that starts at `a`. -/
def Served.within (v : Served) (key : Str) (a : Rat) : Nat := Window.countFrom rateW a (timesOf v.log key)

/-- Each key's queue is the end of its calls, none of which is later than `now`. -/
structure Table (limit : Nat) (now : Rat) (v : Served) : Prop where
  holds : ∀ key, Window.Holds rateW now (timesOf v.log key) (queue v.table key)
  within : ∀ key, Window.Within rateW limit (timesOf v.log key)

section Calls

variable {limit : Nat} {now : Rat} {v : Served} {key k : Str} {t : Rates}

theorem timesOf_snoc (log : List (Str × Rat)) : timesOf (log ++ [(key, now)]) k =
    if key = k then timesOf log k ++ [now] else timesOf log k := by
  unfold timesOf
  rw [List.filter_append, List.map_append]
  by_cases h : key = k <;> simp [h]

/-- The queue of a call: the key's own, without its old calls. -/
def ownQueue (key : Str) (now : Rat) (t : Rates) : List Rat := Window.fresh rateW now (queue t key)

/-- The queue of another key is kept, or forgotten when its last call is old. -/
theorem queue_purge (hk : k ≠ key) : queue (t.filter fun k calls => decide (k = key) || alive now calls) k = queue t k ∨
    queue (t.filter fun k calls => decide (k = key) || alive now calls) k = [] ∧
      ∀ x, (queue t k).getLast? = some x → rateW < now - x := by
  unfold queue
  rw [Ordered.get?_filter]
  cases hget : t.get? k with
  | none => exact .inl rfl
  | some calls =>
    cases halive : alive now calls with
    | true =>
      refine .inl ?_
      simp [Option.filter, halive]
    | false =>
      refine .inr ⟨by simp [Option.filter, hk, halive], fun x hx => ?_⟩
      unfold alive at halive
      rw [Option.getD_some] at hx
      rw [hx] at halive
      exact not_le.1 (of_decide_eq_false halive)

theorem rateOk_eq (key : Str) (limit : Nat) (now : Rat) (t : Rates) :
    ((rateOk key limit now t).1 = decide ((ownQueue key now t).length < limit)) ∧
      (rateOk key limit now t).2 = (t.filter fun k calls => decide (k = key) || alive now calls).set key
        (if (ownQueue key now t).length < limit then ownQueue key now t ++ [now] else ownQueue key now t) := by
  have hown : queue (t.filter fun k calls => decide (k = key) || alive now calls) key = queue t key := by
    unfold queue
    rw [Ordered.get?_filter]
    cases t.get? key <;> simp [Option.filter]
  have hqueue : List.dropWhile (fun at' => decide (now - at' > rateW))
      (((t.filter fun k calls => decide (k = key) || alive now calls).get? key).getD []) = ownQueue key now t := by
    rw [ownQueue, ← hown]
    rfl
  unfold rateOk
  dsimp only
  rw [hqueue]
  split
  next h => simp [not_lt.2 h]
  next h => simp [not_le.1 h]

theorem Table.call (h : Table limit now v) (key : Str) {at' : Rat} (hle : now ≤ at') :
    Table limit at' (call limit v (key, at')) := by
  obtain ⟨hok, htable⟩ := rateOk_eq key limit at' v.table
  have hown := ((h.holds key).later hle).fresh
  have hother (k : Str) (hk : k ≠ key) (q : List Rat) : Window.Holds rateW at' (timesOf v.log k)
      (queue ((v.table.filter fun k calls => decide (k = key) || alive at' calls).set key q) k) := by
    rw [queue, Ordered.get?_set, if_neg hk]
    obtain hsame | ⟨hnil, hlast⟩ := @queue_purge at' key k v.table hk
    · rw [queue] at hsame
      rw [hsame]
      exact (h.holds k).later hle
    · rw [queue] at hnil
      rw [hnil]
      exact ((h.holds k).later hle).forget hlast
  unfold Capacity.call
  dsimp only
  rw [hok, htable]
  by_cases hshort : (ownQueue key at' v.table).length < limit
  · rw [if_pos hshort, if_pos (decide_eq_true hshort)]
    refine ⟨fun k => ?_, fun k => ?_⟩
    · dsimp only
      rw [timesOf_snoc]
      split
      next hk =>
        subst hk
        rw [queue, Ordered.get?_set, if_pos rfl]
        exact hown.snoc
      next hk => exact hother k (Ne.symm hk) _
    · dsimp only
      rw [timesOf_snoc]
      split
      next hk =>
        subst hk
        exact (h.within key).snoc hown hshort
      next => exact h.within k
  · rw [if_neg hshort, if_neg (by simpa using hshort)]
    refine ⟨fun k => ?_, h.within⟩
    by_cases hk : k = key
    · subst hk
      dsimp only
      rw [queue, Ordered.get?_set, if_pos rfl]
      exact hown
    · exact hother k hk _

theorem Table.later (h : Table limit now v) {at' : Rat} (hle : now ≤ at') : Table limit at' v :=
  ⟨fun key => (h.holds key).later hle, h.within⟩

/-- The table after some calls, first to last. -/
def served (limit : Nat) (calls : List (Str × Rat)) : Served := calls.foldl (Capacity.call limit) ⟨.empty, []⟩

theorem table_served {calls : List (Str × Rat)} (hsorted : (calls.map Prod.snd).Pairwise (· ≤ ·))
    (hpast : ∀ e ∈ calls, e.2 ≤ now) : Table limit now (served limit calls) := by
  induction calls using List.reverseRecOn generalizing now with
  | nil => exact ⟨fun _ => .nil _ _, fun _ _ => Nat.zero_le _⟩
  | append_singleton calls e ih =>
    rw [List.map_append, List.pairwise_append] at hsorted
    have hbefore (f : Str × Rat) (hf : f ∈ calls) : f.2 ≤ e.2 :=
      hsorted.2.2 f.2 (List.mem_map_of_mem hf) e.2 (List.mem_singleton_self _)
    rw [served, List.foldl_append]
    have h := (ih hsorted.1 hbefore).call e.1 le_rfl
    exact h.later (hpast e (List.mem_append_right _ (List.mem_singleton_self e)))

/-- After any calls whose clock did not go back: no window of a key holds more calls that were let through than the
limit, and a call is refused only when the window that ends with it holds as many. -/
theorem rate_window (limit : Nat) (calls : List (Str × Rat)) (hsorted : (calls.map Prod.snd).Pairwise (· ≤ ·)) :
    (∀ key a, (served limit calls).within key a ≤ limit) ∧
      ∀ key now, (∀ e ∈ calls, e.2 ≤ now) → (rateOk key limit now (served limit calls).table).1 = false →
        (served limit calls).within key (now - rateW) = limit := by
  have hwithin (key : Str) (a : Rat) : (served limit calls).within key a ≤ limit := by
    obtain hnil | ⟨l, e, hcalls⟩ := calls.eq_nil_or_concat'
    · rw [hnil]
      exact Nat.zero_le _
    · have hpast : ∀ f ∈ calls, f.2 ≤ e.2 := fun f hf => ?_
      · exact (table_served hsorted hpast).within key a
      rw [hcalls, List.map_append, List.pairwise_append] at hsorted
      rw [hcalls] at hf
      rcases List.mem_append.1 hf with hf | hf
      · exact hsorted.2.2 f.2 (List.mem_map_of_mem hf) e.2 (List.mem_singleton_self _)
      · rw [List.mem_singleton.1 hf]
  refine ⟨hwithin, fun key now hpast hrefused => le_antisymm (hwithin key _) ?_⟩
  rw [(rateOk_eq key limit now _).1, decide_eq_false_iff_not, not_lt] at hrefused
  exact hrefused.trans ((table_served hsorted hpast).holds key).full

/-- Of three calls in a minute, with an allowance of one, the first is let through. -/
theorem rate_window_three : (served 1 [(['p'], 0), (['p'], 30)]).within ['p'] (60 - rateW) = 1 :=
  (rate_window 1 [(['p'], 0), (['p'], 30)] (by decide)).2 ['p'] 60 (by decide) (by decide +kernel)

end Calls

end Dendra.Capacity
