import Mathlib

/-!
# A linear layer on shares

`services/modea/mpc.py`: the client splits a vector into three shares modulo `P`, each party applies the public weights
to its own, and the client adds up the three results.

Vectors and weights are read as the integers `round(x * SCALE)`; a random vector is given.

* `linear_shared`: the client gets the product of the weights and the vector.
* `two_shares_blind`: what two parties see, they see under every vector, for one choice of the random vectors each.
-/

namespace Dendra.Mpc

def P : Int := 2 ^ 61 - 1

/-- `enc`, of the integer `round(x * SCALE)`. -/
def enc (x : Int) : Int := x % P

/-- `dec`, before the division by the scale. -/
def dec (v : Int) : Int :=
  let v := v % P
  if v > P / 2 then v - P else v

def encodeVec (xs : List Int) : List Int := xs.map enc

def encodeMat (W : List (List Int)) : List (List Int) := W.map encodeVec

/-- The last share: what the first two leave. -/
def thirdShare : List Int → List Int → List Int → List Int
  | v :: vec, a :: s0, b :: s1 => (v - a - b) % P :: thirdShare vec s0 s1
  | _, _, _ => []

/-- `share3`, with the random vectors that it drew. -/
def share3 (vec s0 s1 : List Int) : List (List Int) := [s0, s1, thirdShare vec s0 s1]

/-- `zip(*shares)`. -/
def columns : List (List Int) → List (List Int)
  | [] => []
  | [s] => s.map fun a => [a]
  | s :: shares => List.zipWith List.cons s (columns shares)

def reconstruct (shares : List (List Int)) : List Int := (columns shares).map fun col => col.sum % P

/-- `sum(row[j] * share[j] for j in range(len(share)))`. -/
def dot (row share : List Int) : Int := (List.zipWith (· * ·) row share).sum

/-- `linear_local`. A row that is too short is an error. -/
def linearLocal (W : List (List Int)) (share : List Int) : Option (List Int) :=
  W.mapM fun row => if row.length < share.length then none else some (dot row share % P)

/-- `secrets.randbelow(P)`, once for each component. -/
structure Drawn (n : Nat) (s : List Int) : Prop where
  length : s.length = n
  range : ∀ a ∈ s, 0 ≤ a ∧ a < P

/-! ## What the client gets -/

section Linear

variable {W : List (List Int)} {row share vec s0 s1 x : List Int} {n : Nat}

theorem linearLocal_eq (hW : ∀ row ∈ W, share.length ≤ row.length) :
    linearLocal W share = some (W.map fun row => dot row share % P) := by
  unfold linearLocal
  induction W with
  | nil => rfl
  | cons row W ih =>
    have hrow := hW row List.mem_cons_self
    rw [List.mapM_cons, if_neg (by omega), ih fun r hr => hW r (List.mem_cons_of_mem row hr)]
    rfl

theorem length_thirdShare (h0 : s0.length = vec.length) (h1 : s1.length = vec.length) :
    (thirdShare vec s0 s1).length = vec.length := by
  induction vec generalizing s0 s1 with
  | nil => rfl
  | cons v vec ih =>
    obtain ⟨a, s0, rfl⟩ := List.exists_cons_of_length_eq_add_one h0
    obtain ⟨b, s1, rfl⟩ := List.exists_cons_of_length_eq_add_one h1
    simp only [List.length_cons, Nat.add_right_cancel_iff] at h0 h1
    rw [thirdShare, List.length_cons, ih h0 h1, List.length_cons]

theorem dot_thirdShare (h0 : s0.length = vec.length) (h1 : s1.length = vec.length) :
    dot row (thirdShare vec s0 s1) ≡ dot row vec - dot row s0 - dot row s1 [ZMOD P] := by
  induction vec generalizing row s0 s1 with
  | nil =>
    rw [List.length_nil, List.length_eq_zero_iff] at h0 h1
    subst h0 h1
    simp [dot, thirdShare, Int.ModEq]
  | cons v vec ih =>
    obtain ⟨a, s0, rfl⟩ := List.exists_cons_of_length_eq_add_one h0
    obtain ⟨b, s1, rfl⟩ := List.exists_cons_of_length_eq_add_one h1
    simp only [List.length_cons, Nat.add_right_cancel_iff] at h0 h1
    cases row with
    | nil => simp [dot, Int.ModEq]
    | cons w row =>
      have hhead : w * ((v - a - b) % P) ≡ w * (v - a - b) [ZMOD P] := (Int.mod_modEq _ _).mul_left w
      have hall := hhead.add (@ih row s0 s1 h0 h1)
      simp only [dot, thirdShare, List.zipWith_cons_cons, List.sum_cons] at hall ⊢
      refine hall.trans (congrArg (· % P) ?_)
      ring

theorem dot_enc (row x : List Int) : dot (encodeVec row) (encodeVec x) ≡ dot row x [ZMOD P] := by
  induction x generalizing row with
  | nil => simp [dot, encodeVec, Int.ModEq]
  | cons a x ih =>
    cases row with
    | nil => simp [dot, encodeVec, Int.ModEq]
    | cons w row =>
      have hhead : enc w * enc a ≡ w * a [ZMOD P] := (Int.mod_modEq w P).mul (Int.mod_modEq a P)
      exact hhead.add (ih row)

theorem columns_three {α : Type} (f g h : α → Int) (l : List α) :
    columns [l.map f, l.map g, l.map h] = l.map fun r => [f r, g r, h r] := by
  simp only [columns]
  induction l with
  | nil => rfl
  | cons r l ih =>
    simp only [List.map_cons, List.zipWith_cons_cons]
    rw [ih]

theorem dec_of_modEq {v d : Int} (h : v ≡ d [ZMOD P]) (hlo : -(P / 2) ≤ d) (hhi : d ≤ P / 2) : dec v = d := by
  unfold Int.ModEq P at h
  unfold P at hlo hhi
  unfold dec P
  dsimp only
  split <;> omega

/-- Whatever the random vectors are: the three parties' results add up, and decode, to the product of the weights and
the vector, as long as that stays within half of `P`. -/
theorem linear_shared (h0 : Drawn x.length s0) (h1 : Drawn x.length s1) (hW : ∀ row ∈ W, x.length ≤ row.length)
    (hfit : ∀ row ∈ W, -(P / 2) ≤ dot row x ∧ dot row x ≤ P / 2) :
    ((share3 (encodeVec x) s0 s1).mapM (linearLocal (encodeMat W))).map (fun ys => (reconstruct ys).map dec) =
      some (W.map fun row => dot row x) := by
  have hlen : (encodeVec x).length = x.length := List.length_map _
  have h2 : (thirdShare (encodeVec x) s0 s1).length = x.length := by
    rw [length_thirdShare (h0.length.trans hlen.symm) (h1.length.trans hlen.symm), hlen]
  have hlocal (s : List Int) (hs : s.length = x.length) :
      linearLocal (encodeMat W) s = some (W.map fun row => dot (encodeVec row) s % P) := by
    rw [linearLocal_eq, encodeMat, List.map_map]
    · rfl
    · intro row hrow
      obtain ⟨r, hr, rfl⟩ := List.mem_map.1 hrow
      rw [hs, encodeVec, List.length_map]
      exact hW r hr
  have hall : (share3 (encodeVec x) s0 s1).mapM (linearLocal (encodeMat W)) =
      some [W.map fun row => dot (encodeVec row) s0 % P, W.map fun row => dot (encodeVec row) s1 % P,
        W.map fun row => dot (encodeVec row) (thirdShare (encodeVec x) s0 s1) % P] := by
    simp [share3, hlocal s0 h0.length, hlocal s1 h1.length, hlocal _ h2]
  rw [hall, Option.map_some, reconstruct, columns_three, List.map_map, List.map_map]
  refine congrArg some (List.map_congr_left fun row hrow => ?_)
  refine dec_of_modEq ?_ (hfit row hrow).1 (hfit row hrow).2
  have hthird := @dot_thirdShare (encodeVec row) (encodeVec x) s0 s1 (h0.length.trans hlen.symm) (h1.length.trans hlen.symm)
  have hsum : dot (encodeVec row) s0 % P + (dot (encodeVec row) s1 % P +
      dot (encodeVec row) (thirdShare (encodeVec x) s0 s1) % P) ≡ dot (encodeVec row) (encodeVec x) [ZMOD P] := by
    refine ((Int.mod_modEq _ P).add ((Int.mod_modEq _ P).add ((Int.mod_modEq _ P).trans hthird))).trans
      (congrArg (· % P) ?_)
    ring
  simp only [List.sum_cons, List.sum_nil, add_zero]
  exact (Int.mod_modEq _ P).trans (hsum.trans (dot_enc row x))

/-- Two weights on a negative and a positive component. -/
theorem linear_shared_pair : ((share3 (encodeVec [-3, 5]) [7, P - 1] [0, 11]).mapM (linearLocal (encodeMat [[2, -4]]))).map
    (fun ys => (reconstruct ys).map dec) = some [-26] :=
  linear_shared ⟨rfl, by decide⟩ ⟨rfl, by decide⟩ (by decide) (by decide)

end Linear

/-! ## What the parties see -/

section Secrecy

variable {vec a b : List Int} {n i j : Nat}

theorem thirdShare_comm (vec a b : List Int) : thirdShare vec a b = thirdShare vec b a := by
  induction vec generalizing a b with
  | nil => rfl
  | cons v vec ih =>
    cases a with
    | nil => cases b <;> rfl
    | cons a as =>
      cases b with
      | nil => rfl
      | cons b bs => rw [thirdShare, thirdShare, ih, sub_right_comm]

theorem drawn_thirdShare (hv : vec.length = n) (ha : a.length = n) (hb : b.length = n) :
    Drawn n (thirdShare vec a b) := by
  subst hv
  refine ⟨length_thirdShare ha hb, fun x hx => ?_⟩
  induction vec generalizing a b with
  | nil => cases hx
  | cons v vec ih =>
    obtain ⟨a, as, rfl⟩ := List.exists_cons_of_length_eq_add_one ha
    obtain ⟨b, bs, rfl⟩ := List.exists_cons_of_length_eq_add_one hb
    simp only [List.length_cons, Nat.add_right_cancel_iff] at ha hb
    rw [thirdShare, List.mem_cons] at hx
    rcases hx with rfl | hx
    · exact ⟨Int.emod_nonneg _ (by decide), Int.emod_lt_of_pos _ (by decide)⟩
    · exact ih ha hb hx

/-- Of the last two shares, each is what the other leaves. -/
theorem thirdShare_thirdShare (ha : a.length = vec.length) (hb : Drawn vec.length b) :
    thirdShare vec a (thirdShare vec a b) = b := by
  obtain ⟨hlen, hrange⟩ := hb
  induction vec generalizing a b with
  | nil =>
    rw [List.length_nil, List.length_eq_zero_iff] at hlen
    rw [hlen, thirdShare]
    exact fun _ _ _ _ _ _ h => by cases h
  | cons v vec ih =>
    obtain ⟨a, as, rfl⟩ := List.exists_cons_of_length_eq_add_one ha
    obtain ⟨b, bs, rfl⟩ := List.exists_cons_of_length_eq_add_one hlen
    simp only [List.length_cons, Nat.add_right_cancel_iff] at ha hlen
    have hb := hrange b List.mem_cons_self
    have hback : (v - a - (v - a - b) % P) % P = b := by
      unfold P at hb ⊢
      omega
    rw [thirdShare, thirdShare, hback, ih ha hlen fun x hx => hrange x (List.mem_cons_of_mem b hx)]

/-- Any two parties may see any two vectors, whatever the client's vector is, and there is exactly one choice of the
random vectors under which they do: what they see is independent of it. -/
theorem two_shares_blind (vec : List Int) (hij : i < j) (hj : j < 3) (ha : Drawn vec.length a)
    (hb : Drawn vec.length b) : ∃! r : List Int × List Int, (Drawn vec.length r.1 ∧ Drawn vec.length r.2) ∧
      (share3 vec r.1 r.2)[i]? = some a ∧ (share3 vec r.1 r.2)[j]? = some b := by
  have hthird (s t : List Int) (hs : s.length = vec.length) (ht : t.length = vec.length) :
      Drawn vec.length (thirdShare vec s t) := drawn_thirdShare rfl hs ht
  obtain rfl | rfl : j = 1 ∨ j = 2 := by omega
  · obtain rfl : i = 0 := by omega
    refine ⟨(a, b), ⟨⟨ha, hb⟩, rfl, rfl⟩, ?_⟩
    rintro ⟨s, t⟩ ⟨-, hs, ht⟩
    obtain rfl := Option.some.inj hs
    obtain rfl := Option.some.inj ht
    rfl
  · obtain rfl | rfl : i = 0 ∨ i = 1 := by omega
    · refine ⟨(a, thirdShare vec a b), ⟨⟨ha, hthird a b ha.length hb.length⟩, rfl, ?_⟩, ?_⟩
      · exact congrArg some (thirdShare_thirdShare ha.length hb)
      · rintro ⟨s, t⟩ ⟨⟨-, ht⟩, hs, hb'⟩
        obtain rfl := Option.some.inj hs
        obtain rfl := Option.some.inj hb'
        exact congrArg (Prod.mk s) (thirdShare_thirdShare ha.length ht).symm
    · refine ⟨(thirdShare vec a b, a), ⟨⟨hthird a b ha.length hb.length, ha⟩, rfl, ?_⟩, ?_⟩
      · refine congrArg some ?_
        rw [thirdShare_comm]
        exact thirdShare_thirdShare ha.length hb
      · rintro ⟨s, t⟩ ⟨⟨hs, -⟩, ht, hb'⟩
        obtain rfl := Option.some.inj ht
        obtain rfl := Option.some.inj hb'
        refine congrArg (Prod.mk · t) ?_
        rw [thirdShare_comm vec s t]
        exact (thirdShare_thirdShare ha.length hs).symm

/-- The second and the third party. -/
theorem two_shares_blind_last : ∃! r : List Int × List Int, (Drawn 1 r.1 ∧ Drawn 1 r.2) ∧
    (share3 [42] r.1 r.2)[1]? = some [0] ∧ (share3 [42] r.1 r.2)[2]? = some [7] :=
  two_shares_blind [42] (by decide) (by decide) ⟨rfl, by decide⟩ ⟨rfl, by decide⟩

end Secrecy

end Dendra.Mpc
