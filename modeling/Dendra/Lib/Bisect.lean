import Mathlib

/-!
# Bisection

The search for the last place where a test holds, between a place where it holds and one where it does not.
The test may fail to answer.

* `bisect_spec`: with a test that, once false, stays false, the search ends on the last place where it holds.
-/

namespace Dendra

variable {ε : Type}

/-- The search between `a` and `b`: the test is never made at either. -/
def bisect (test : Int → Except ε Bool) (a b : Int) : Except ε Int :=
  if 1 < b - a then
    match test ((a + b) / 2) with
    | .error e => .error e
    | .ok true => bisect test ((a + b) / 2) b
    | .ok false => bisect test a ((a + b) / 2)
  else .ok a
termination_by (b - a).toNat
decreasing_by all_goals omega

theorem bisect_spec (test : Int → Except ε Bool) (q : Int → Bool) {a b : Int}
    (htest : ∀ m, a < m → m < b → test m = .ok (q m))
    (hq : ∀ m m', a < m → m ≤ m' → m' < b → q m' = true → q m = true) (hab : a < b) :
    ∃ r, bisect test a b = .ok r ∧ a ≤ r ∧ r < b ∧ (∀ m, a < m → m ≤ r → q m = true) ∧
      ∀ m, r < m → m < b → q m = false := by
  fun_induction bisect test a b with
  | case1 a b hlt e he =>
    rw [htest _ (by omega) (by omega)] at he
    cases he
  | case2 a b hlt htrue ih =>
    rw [htest _ (by omega) (by omega)] at htrue
    obtain ⟨r, hr, har, hrb, hbelow, habove⟩ := ih (fun m h h' => htest m (by omega) h')
      (fun m m' h => hq m m' (by omega)) (by omega)
    refine ⟨r, hr, by omega, hrb, fun m hm hmr => ?_, habove⟩
    obtain hle | hlt' := le_or_gt m ((a + b) / 2)
    · exact hq m _ hm hle (by omega) (Except.ok.inj htrue)
    · exact hbelow m hlt' hmr
  | case3 a b hlt hfalse ih =>
    rw [htest _ (by omega) (by omega)] at hfalse
    obtain ⟨r, hr, har, hrb, hbelow, habove⟩ := ih (fun m h h' => htest m h (by omega))
      (fun m m' h hle h' => hq m m' h hle (by omega)) (by omega)
    refine ⟨r, hr, har, by omega, hbelow, fun m hm hmb => ?_⟩
    obtain hlt' | hle := lt_or_ge m ((a + b) / 2)
    · exact habove m hm hlt'
    · by_contra hne
      rw [Bool.not_eq_false] at hne
      have := hq _ m (by omega) hle hmb hne
      rw [Except.ok.inj hfalse] at this
      cases this
  | case4 a b hle =>
    exact ⟨a, rfl, le_rfl, hab, fun m h h' => absurd h (by omega), fun m h h' => absurd h (by omega)⟩

end Dendra
