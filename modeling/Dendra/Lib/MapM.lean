import Mathlib.Data.List.Forall2
import Mathlib.Data.List.Perm.Basic

/-!
# Reading a list item by item

`List.mapM` in `Option` reads a list as soon as it reads each item: `mapM_eq_some`. `mapM_perm`: the order
of the items does not matter to whether it does.
-/

namespace Dendra

variable {α β γ : Type} {l : List α} {ys : List β}

theorem mapM_eq_some {f : α → Option β} : l.mapM f = some ys ↔ List.Forall₂ (fun a b => f a = some b) l ys := by
  induction l generalizing ys with
  | nil =>
    rw [List.mapM_nil, List.forall₂_nil_left_iff]
    exact ⟨fun h => (Option.some.inj h).symm, fun h => by rw [h]; rfl⟩
  | cons a l ih =>
    rw [List.mapM_cons, List.forall₂_cons_left_iff]
    simp only [Option.bind_eq_bind, Option.bind_eq_some_iff, Option.pure_def, Option.some.injEq]
    constructor
    · rintro ⟨b, hb, bs, hbs, rfl⟩
      exact ⟨b, bs, hb, ih.1 hbs, rfl⟩
    · rintro ⟨b, bs, hb, hbs, rfl⟩
      exact ⟨b, hb, bs, ih.2 hbs, rfl⟩

/-- Where what reads is known in advance, a list reads as its map. -/
theorem mapM_eq_map {f : α → Option β} {P : α → Prop} {g : α → β} (h : ∀ a b, f a = some b ↔ P a ∧ b = g a) :
    l.mapM f = some ys ↔ (∀ a ∈ l, P a) ∧ ys = l.map g := by
  rw [mapM_eq_some]
  simp only [h]
  induction l generalizing ys with
  | nil => simp
  | cons a l ih =>
    rw [List.forall₂_cons_left_iff, List.forall_mem_cons, List.map_cons]
    constructor
    · rintro ⟨b, bs, ⟨ha, rfl⟩, hl, rfl⟩
      obtain ⟨hall, rfl⟩ := ih.1 hl
      exact ⟨⟨ha, hall⟩, rfl⟩
    · rintro ⟨⟨ha, hl⟩, rfl⟩
      exact ⟨g a, l.map g, ⟨ha, rfl⟩, ih.2 ⟨hl, rfl⟩, rfl⟩

theorem map_eq_of_forall₂ {R : α → β → Prop} {f : α → γ} {g : β → γ} (h : List.Forall₂ R l ys)
    (hR : ∀ a b, R a b → f a = g b) : l.map f = ys.map g := by
  induction h with
  | nil => rfl
  | cons hab _ ih => rw [List.map_cons, List.map_cons, ih, hR _ _ hab]

theorem exists_of_forall₂ {R : α → β → Prop} {b : β} (h : List.Forall₂ R l ys) (hb : b ∈ ys) :
    ∃ a ∈ l, R a b := by
  induction h with
  | nil => cases hb
  | @cons a c l ys hR _ ih =>
    obtain rfl | hb := List.mem_cons.1 hb
    · exact ⟨a, List.mem_cons_self, hR⟩
    · obtain ⟨a', ha', h'⟩ := ih hb
      exact ⟨a', List.mem_cons_of_mem _ ha', h'⟩

/-- A list that is read item by item is read in any order. -/
theorem mapM_perm {f : α → Option β} {l' : List α} (h : l.Perm l') :
    (∃ ys ys', l.mapM f = some ys ∧ l'.mapM f = some ys' ∧ ys.Perm ys') ∨
      (l.mapM f = none ∧ l'.mapM f = none) := by
  cases hl : l.mapM f with
  | none =>
    refine .inr ⟨rfl, ?_⟩
    cases hl' : l'.mapM f with
    | none => rfl
    | some ys' =>
      obtain ⟨ys, hys, -⟩ := List.perm_comp_forall₂ h (mapM_eq_some.1 hl')
      rw [mapM_eq_some.2 hys] at hl
      cases hl
  | some ys =>
    obtain ⟨ys', hys, hp⟩ := List.perm_comp_forall₂ h.symm (mapM_eq_some.1 hl)
    exact .inl ⟨ys, ys', rfl, mapM_eq_some.2 hys, hp.symm⟩

end Dendra
