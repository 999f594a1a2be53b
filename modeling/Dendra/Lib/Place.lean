import Dendra.Lib.Rank

/-!
# Places in a sorted list

When no two elements tie, a list has one sorted order, whatever sorted it (`eq_insertionSort`), and the
place of an element in it is the number of elements strictly before it (`idxOf_insertionSort`).
-/

namespace Dendra

namespace Rank

variable {α : Type} {le : α → α → Prop} [DecidableRel le] [Std.Total le] [IsTrans α le]
  {l l' : List α} {a : α}

/-- Any sorted permutation of a list without ties is the list that insertion gives. -/
theorem eq_insertionSort (hanti : ∀ a ∈ l, ∀ b ∈ l, le a b → le b a → a = b) (hperm : l'.Perm l)
    (hs : l'.Pairwise le) : l' = l.insertionSort le := by
  have hsort : (l.insertionSort le).Perm l := List.perm_insertionSort le l
  have hsame : ∀ a b, a ∈ l' → b ∈ l.insertionSort le → le a b → le b a → a = b :=
    fun a b ha hb => hanti a (hperm.mem_iff.1 ha) b (hsort.mem_iff.1 hb)
  exact List.Perm.eq_of_pairwise hsame hs (List.pairwise_insertionSort le l) (hperm.trans hsort.symm)

/-- Sorting forgets the order of the input. -/
theorem insertionSort_perm (hanti : ∀ a ∈ l, ∀ b ∈ l, le a b → le b a → a = b) (h : l'.Perm l) :
    l'.insertionSort le = l.insertionSort le :=
  eq_insertionSort hanti ((List.perm_insertionSort le l').trans h)
    (List.pairwise_insertionSort le l')

/-- The place of an element, by its name, is the number of elements strictly before it. -/
theorem idxOf_insertionSort {β : Type} [BEq β] [LawfulBEq β] {f : α → β} (hn : (l.map f).Nodup)
    (hanti : ∀ b ∈ l, le a b → le b a → b = a) (ha : a ∈ l) :
    ((l.insertionSort le).map f).idxOf (f a) = (before le l a).length := by
  obtain ⟨p, q, hpq⟩ := List.append_of_mem ((List.mem_insertionSort le).2 ha)
  have hnot : f a ∉ p.map f := by
    have hnodup : ((p ++ a :: q).map f).Nodup :=
      hpq ▸ ((List.perm_insertionSort le l).map f).nodup_iff.2 hn
    rw [List.map_append, List.map_cons] at hnodup
    exact fun hp => (List.nodup_append.1 hnodup).2.2 (f a) hp (f a) (.head _) rfl
  rw [length_before hn.of_map hanti hpq, hpq, List.map_append, List.map_cons,
    List.idxOf_append_of_notMem hnot, List.idxOf_cons_self, Nat.add_zero, List.length_map]

end Rank

end Dendra
