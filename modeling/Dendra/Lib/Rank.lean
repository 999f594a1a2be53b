import Mathlib

/-!
# Rank in a sorted list

Sorting a list by a total preorder and keeping the first `k` keeps exactly the elements that fewer
than `k` others stand strictly before (`mem_take_insertionSort`), when no two elements tie.
-/

namespace Dendra

namespace Rank

variable {α : Type} (le : α → α → Prop) [DecidableRel le]

/-- The elements of `l` strictly before `a`. -/
def before (l : List α) (a : α) : List α := l.filter fun b => !decide (le a b)

variable {le} [Std.Total le] {l : List α} {a : α} {k : Nat}

/-- In a sorted list without ties, the elements strictly before `a` are those in front of it. -/
theorem before_append {p q : List α} (hs : (p ++ a :: q).Pairwise le) (hn : (p ++ a :: q).Nodup)
    (hanti : ∀ b ∈ p ++ a :: q, le a b → le b a → b = a) : before le (p ++ a :: q) a = p := by
  have hp : ∀ b ∈ p, (!decide (le a b)) = true := by
    intro b hb
    have hba : le b a := (List.pairwise_append.1 hs).2.2 b hb a List.mem_cons_self
    rw [Bool.not_eq_true', decide_eq_false_iff_not]
    intro hab
    have e := hanti b (by simp [hb]) hab hba
    exact (List.nodup_append.1 hn).2.2 b hb a List.mem_cons_self e
  have hq : ∀ b ∈ a :: q, ¬ (!decide (le a b)) = true := by
    intro b hb
    have hab : le a b := by
      rcases List.mem_cons.1 hb with rfl | hb
      · exact (Std.Total.total b b).elim id id
      · exact (List.pairwise_cons.1 (List.pairwise_append.1 hs).2.1).1 b hb
    simp [hab]
  rw [before, List.filter_append, List.filter_eq_self.2 hp, List.filter_eq_nil_iff.2 hq,
    List.append_nil]

variable [IsTrans α le]

/-- The number of elements strictly before `a` is its position in the sorted list. -/
theorem length_before {p q : List α} (hn : l.Nodup) (hanti : ∀ b ∈ l, le a b → le b a → b = a)
    (hpq : l.insertionSort le = p ++ a :: q) : (before le l a).length = p.length := by
  have hperm : (l.insertionSort le).Perm l := List.perm_insertionSort le l
  have hbefore : before le (l.insertionSort le) a = p := by
    rw [hpq]
    exact before_append (hpq ▸ List.pairwise_insertionSort le l) (hpq ▸ hperm.nodup_iff.2 hn)
      fun b hb => hanti b (hperm.mem_iff.1 (hpq ▸ hb))
  rw [← hbefore]
  exact (hperm.filter _).length_eq.symm

/-- An element is among the first `k` of the sorted list when fewer than `k` stand before it. -/
theorem mem_take_insertionSort (hn : l.Nodup) (hanti : ∀ b ∈ l, le a b → le b a → b = a) :
    a ∈ (l.insertionSort le).take k ↔ a ∈ l ∧ (before le l a).length < k := by
  constructor
  · intro ha
    refine ⟨List.mem_insertionSort le |>.1 (List.mem_of_mem_take ha), ?_⟩
    obtain ⟨p, q, hpq⟩ := List.append_of_mem ha
    have hsplit : l.insertionSort le = p ++ a :: (q ++ (l.insertionSort le).drop k) := by
      rw [← List.cons_append, ← List.append_assoc, ← hpq, List.take_append_drop]
    have hlen : p.length < ((l.insertionSort le).take k).length := by
      rw [hpq, List.length_append, List.length_cons]
      omega
    rw [length_before hn hanti hsplit]
    exact Nat.lt_of_lt_of_le hlen (List.length_take_le _ _)
  · rintro ⟨hal, hlt⟩
    obtain ⟨p, q, hpq⟩ := List.append_of_mem ((List.mem_insertionSort le).2 hal)
    rw [length_before hn hanti hpq] at hlt
    obtain ⟨n, rfl⟩ : ∃ n, k = p.length + (n + 1) := ⟨k - p.length - 1, by omega⟩
    rw [hpq, List.take_length_add_append, List.take_succ_cons]
    simp

end Rank

end Dendra
