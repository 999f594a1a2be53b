import Mathlib

/-!
# A sliding window

At most `n` calls are let through in any window of length `w`: the calls let through are kept in a queue, the old
ones leave it from the front, and a call is refused while the queue is full.

* `fresh`: the queue without the old calls in front.
* `Holds`: the queue is the end of the calls let through, and what it has lost is out of the window.
* `Within.snoc`, `Holds.full`: a call let through keeps the bound, and a full queue is a full window.
-/

namespace Dendra.Window

variable {τ : Type} [AddCommGroup τ] [LinearOrder τ] [IsOrderedAddMonoid τ]

/-- The queue at an instant. -/
def fresh (w now : τ) (q : List τ) : List τ := q.dropWhile fun x => decide (w < now - x)

/-- How many calls are in the window that starts at an instant. -/
def countFrom (w a : τ) (calls : List τ) : Nat := calls.countP fun x => decide (a ≤ x ∧ x ≤ a + w)

def Within (w : τ) (n : Nat) (calls : List τ) : Prop := ∀ a, countFrom w a calls ≤ n

structure Holds (w now : τ) (calls q : List τ) : Prop where
  sorted : calls.Pairwise (· ≤ ·)
  past : ∀ x ∈ calls, x ≤ now
  split : ∃ p, calls = p ++ q ∧ ∀ x ∈ p, w < now - x

variable {w now now' a : τ} {n : Nat} {calls q : List τ}

omit [IsOrderedAddMonoid τ] in
theorem Holds.nil (w now : τ) : Holds w now [] [] :=
  ⟨List.Pairwise.nil, fun _ h => absurd h List.not_mem_nil, [], rfl, fun _ h => absurd h List.not_mem_nil⟩

theorem Holds.later (h : Holds w now calls q) (hle : now ≤ now') : Holds w now' calls q := by
  obtain ⟨p, hsplit, hold⟩ := h.split
  exact ⟨h.sorted, fun x hx => (h.past x hx).trans hle, p, hsplit, fun x hx =>
    (hold x hx).trans_le (sub_le_sub_right hle x)⟩

omit [IsOrderedAddMonoid τ] in
theorem Holds.fresh (h : Holds w now calls q) : Holds w now calls (fresh w now q) := by
  obtain ⟨p, hsplit, hold⟩ := h.split
  refine ⟨h.sorted, h.past, p ++ q.takeWhile fun x => decide (w < now - x), ?_, fun x hx => ?_⟩
  · rw [hsplit, List.append_assoc]
    exact congrArg (p ++ ·) List.takeWhile_append_dropWhile.symm
  · rcases List.mem_append.1 hx with hx | hx
    · exact hold x hx
    · have htaken : decide (w < now - x) = true := List.mem_takeWhile_imp (p := fun x => decide (w < now - x)) hx
      exact of_decide_eq_true htaken

/-- A queue whose last call is old may be forgotten. -/
theorem Holds.forget (h : Holds w now calls q) (hlast : ∀ x, q.getLast? = some x → w < now - x) :
    Holds w now calls [] := by
  obtain ⟨p, hsplit, hold⟩ := h.split
  refine ⟨h.sorted, h.past, calls, (List.append_nil _).symm, fun x hx => ?_⟩
  rw [hsplit] at hx
  rcases List.mem_append.1 hx with hx | hx
  · exact hold x hx
  · obtain ⟨l, y, rfl⟩ := (List.eq_nil_or_concat' q).resolve_left (List.ne_nil_of_mem hx)
    have hsorted : (l ++ [y]).Pairwise (· ≤ ·) := (List.pairwise_append.1 (hsplit ▸ h.sorted)).2.1
    have hle : x ≤ y := by
      rcases List.mem_append.1 hx with hx | hx
      · exact (List.pairwise_append.1 hsorted).2.2 x hx y (List.mem_singleton_self y)
      · exact (List.mem_singleton.1 hx).le
    exact (hlast y (by simp)).trans_le (sub_le_sub_left hle now)

omit [IsOrderedAddMonoid τ] in
theorem Holds.snoc (h : Holds w now calls q) : Holds w now (calls ++ [now]) (q ++ [now]) := by
  obtain ⟨p, hsplit, hold⟩ := h.split
  refine ⟨List.pairwise_append.2 ⟨h.sorted, List.pairwise_singleton _ _, fun x hx y hy => ?_⟩, fun x hx => ?_,
    p, by rw [hsplit, List.append_assoc], hold⟩
  · rw [List.mem_singleton.1 hy]
    exact h.past x hx
  · rcases List.mem_append.1 hx with hx | hx
    · exact h.past x hx
    · exact (List.mem_singleton.1 hx).le

/-- A call that finds the queue short keeps the bound. -/
theorem Within.snoc (hwithin : Within w n calls) (h : Holds w now calls q) (hshort : q.length < n) :
    Within w n (calls ++ [now]) := by
  intro a
  unfold countFrom
  rw [List.countP_append, List.countP_singleton]
  split
  next hin =>
    obtain ⟨-, hin⟩ := of_decide_eq_true hin
    obtain ⟨p, hsplit, hold⟩ := h.split
    -- what the queue has lost is before the window
    have hp : p.countP (fun x => decide (a ≤ x ∧ x ≤ a + w)) = 0 := by
      refine List.countP_eq_zero.2 fun x hx hx' => ?_
      have hlt := hold x hx
      have hax := (of_decide_eq_true hx').1
      have : now - x ≤ w := sub_le_iff_le_add.2 (hin.trans ((add_comm a w).le.trans (add_le_add_right hax w)))
      exact absurd hlt (not_lt.2 this)
    rw [hsplit, List.countP_append, hp, Nat.zero_add]
    exact Nat.succ_le_of_lt (List.countP_le_length.trans_lt hshort)
  next => exact hwithin a

/-- A queue without old calls in front is in the window that ends now. -/
theorem Holds.full (h : Holds w now calls q) : (Window.fresh w now q).length ≤ countFrom w (now - w) calls := by
  obtain ⟨p, hsplit, -⟩ := h.fresh.split
  have hsorted : (Window.fresh w now q).Pairwise (· ≤ ·) := (List.pairwise_append.1 (hsplit ▸ h.sorted)).2.1
  have hall : ∀ x ∈ Window.fresh w now q, now - w ≤ x ∧ x ≤ now - w + w := by
    intro x hx
    refine ⟨?_, ?_⟩
    · cases hfresh : Window.fresh w now q with
      | nil =>
        rw [hfresh] at hx
        exact absurd hx List.not_mem_nil
      | cons y l =>
        have hy : ¬ w < now - y := by
          unfold Window.fresh at hfresh
          have hne : q.dropWhile (fun x => decide (w < now - x)) ≠ [] := by
            rw [hfresh]
            exact List.cons_ne_nil y l
          have hhead := List.head_dropWhile_not (fun x => decide (w < now - x)) hne
          simp only [hfresh, List.head_cons] at hhead
          exact of_decide_eq_false hhead
        rw [hfresh] at hx hsorted
        have hyx : y ≤ x := by
          rcases List.mem_cons.1 hx with rfl | hx
          · exact le_rfl
          · exact (List.pairwise_cons.1 hsorted).1 x hx
        exact (sub_le_comm.1 (not_lt.1 hy)).trans hyx
    · rw [sub_add_cancel]
      exact h.past x (hsplit ▸ List.mem_append_right _ hx)
  have hcount : countFrom w (now - w) (Window.fresh w now q) = (Window.fresh w now q).length :=
    List.countP_eq_length.2 fun x hx => decide_eq_true (hall x hx)
  rw [← hcount, countFrom, countFrom, hsplit, List.countP_append]
  exact Nat.le_add_left _ _

end Dendra.Window
