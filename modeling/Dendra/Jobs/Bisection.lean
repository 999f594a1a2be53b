import Dendra.Jobs.Chain
import Dendra.Reveal.Merkle

/-!
# The token chain of a dispute

`keeper/bisection.go`: a party posts the hashes of the prefixes of the tokens that it claims, and the first prefix on
which two parties disagree names the token to arbitrate.

* `divergence_located`: the index that is found is the one of the first token that differs; of the hash only this is
  used, that no two of the inputs hashed there collide.
-/

namespace Dendra.Jobs

open Reveal (NoCollision)

/-! ## The code -/

def bisectDomain : Str := "dendra/bisect/v1".toList

/-- What the first hash is taken of: the chain is bound to the job and the miner. -/
def chainSeed (jobId minerId : Str) : List UInt8 :=
  Str.utf8 (bisectDomain ++ '|' :: (jobId ++ '\x00' :: minerId))

/-- What the hash after `cur` is taken of. -/
def chainLink (cur : List UInt8) (tok : Str) : List UInt8 := cur ++ 0 :: tok.utf8

/-- The loop of `tokenPrefixHashes`. -/
def prefixHashesFrom (cur : List UInt8) : List Str → List (List UInt8)
  | [] => [cur]
  | tok :: tokens => cur :: prefixHashesFrom (Sha256.hash (chainLink cur tok)) tokens

/-- `tokenPrefixHashes`. -/
def tokenPrefixHashes (jobId minerId : Str) (tokens : List Str) : List (List UInt8) :=
  prefixHashesFrom (Sha256.hash (chainSeed jobId minerId)) tokens

/-- `tokenChainRoot`. -/
def tokenChainRoot (jobId minerId : Str) (tokens : List Str) : Str :=
  Str.hex ((tokenPrefixHashes jobId minerId tokens).getLastD [])

/-- `tokenPrefixHashAt`. -/
def tokenPrefixHashAt (jobId minerId : Str) (tokens : List Str) (i : Int) : Str :=
  if i < 0 then [] else Str.hex ((tokenPrefixHashes jobId minerId tokens).getD i.toNat [])

/-- The loop of `firstDivergentPrefix`, from an index. -/
def divergentFrom (i : Int) : List Str → List Str → Int
  | x :: a, y :: b => if x ≠ y then i else divergentFrom (i + 1) a b
  | [], [] => -1
  | _, _ => i

/-- `firstDivergentPrefix`. -/
def firstDivergentPrefix (a b : List Str) : Int := divergentFrom 0 a b

/-- What a party posts. -/
def posted (jobId minerId : Str) (tokens : List Str) : List Str := (tokenPrefixHashes jobId minerId tokens).map Str.hex

/-! ## The token that differs -/

/-- The first index at which two sequences differ, or at which one ends. -/
def firstDifference : List Str → List Str → Option Nat
  | x :: a, y :: b => if x ≠ y then some 0 else (firstDifference a b).map (· + 1)
  | [], [] => none
  | _, _ => some 0

section Difference

variable {a b : List Str} {k : Nat}

theorem firstDifference_eq_none : firstDifference a b = none ↔ a = b := by
  fun_induction firstDifference a b with
  | case1 x a y b hne => simpa using fun h => absurd h hne
  | case2 x a y b heq ih =>
    obtain rfl := not_not.1 heq
    simpa using ih
  | case3 => simp
  | case4 a b hcons hnil =>
    refine ⟨fun h => absurd h (Option.some_ne_none 0), ?_⟩
    rintro rfl
    cases a with
    | nil => exact absurd rfl (hnil rfl)
    | cons x a => exact (hcons x a x a rfl rfl).elim

theorem firstDifference_eq_some : firstDifference a b = some k ↔ a.take k = b.take k ∧ a[k]? ≠ b[k]? := by
  fun_induction firstDifference a b generalizing k with
  | case1 x a y b hne =>
    cases k with
    | zero => simpa using hne
    | succ k => simpa using fun h => absurd h hne
  | case2 x a y b heq ih =>
    obtain rfl := not_not.1 heq
    cases k with
    | zero => simp
    | succ k => simpa using ih (k := k)
  | case3 => simp
  | case4 a b hcons hnil =>
    cases a with
    | nil =>
      cases b with
      | nil => exact absurd rfl (hnil rfl)
      | cons y b => cases k <;> simp
    | cons x a =>
      cases b with
      | nil => cases k <;> simp
      | cons y b => exact (hcons x a y b rfl rfl).elim

end Difference

/-! ## What was hashed -/

def linksFrom (cur : List UInt8) : List Str → List (List UInt8)
  | [] => []
  | tok :: tokens => chainLink cur tok :: linksFrom (Sha256.hash (chainLink cur tok)) tokens

/-- All that a party hashes. -/
def hashedTokens (jobId minerId : Str) (tokens : List Str) : List (List UInt8) :=
  chainSeed jobId minerId :: linksFrom (Sha256.hash (chainSeed jobId minerId)) tokens

section Chain

variable {j j' m m' : Str} {a b : List Str} {cur cur' : List UInt8} {i : Int}

theorem chainLink_inj {x y : Str} (h : chainLink cur x = chainLink cur y) : x = y := by
  have htail := List.append_cancel_left h
  exact Judge.utf8_injective (List.cons.inj htail).2

theorem hex_prefixHashesFrom : (prefixHashesFrom cur a).map Str.hex =
    Str.hex cur :: ((prefixHashesFrom cur a).map Str.hex).tail := by
  cases a <;> rfl

/-- Two chains whose starts differ are told apart there. -/
theorem divergentFrom_of_ne (h : cur ≠ cur') : divergentFrom i ((prefixHashesFrom cur a).map Str.hex)
    ((prefixHashesFrom cur' b).map Str.hex) = i := by
  rw [hex_prefixHashesFrom, hex_prefixHashesFrom (a := b), divergentFrom, if_pos]
  exact fun heq => h (Judge.hex_injective heq)

/-- Two chains with one start diverge behind the first token that differs. -/
theorem divergentFrom_eq (hcol : NoCollision (linksFrom cur a ++ linksFrom cur b)) :
    divergentFrom i ((prefixHashesFrom cur a).map Str.hex) ((prefixHashesFrom cur b).map Str.hex) =
      match firstDifference a b with
      | none => -1
      | some k => i + k + 1 := by
  induction a generalizing b cur i with
  | nil =>
    cases b with
    | nil => simp [prefixHashesFrom, divergentFrom, firstDifference]
    | cons y b =>
      rw [prefixHashesFrom, prefixHashesFrom, List.map_cons, List.map_cons, divergentFrom, if_neg (not_not.2 rfl),
        hex_prefixHashesFrom]
      simp [divergentFrom, firstDifference]
  | cons x a ih =>
    cases b with
    | nil =>
      rw [prefixHashesFrom, prefixHashesFrom, List.map_cons, List.map_cons, divergentFrom, if_neg (not_not.2 rfl),
        hex_prefixHashesFrom]
      simp [divergentFrom, firstDifference]
    | cons y b =>
      rw [prefixHashesFrom, prefixHashesFrom, List.map_cons, List.map_cons, divergentFrom, if_neg (not_not.2 rfl),
        firstDifference]
      by_cases hxy : x = y
      · subst hxy
        rw [if_neg (not_not.2 rfl), ih]
        · cases firstDifference a b with
          | none => rfl
          | some k =>
            simp only [Option.map_some]
            push_cast
            ring
        · refine fun z hz w hw => hcol z ?_ w ?_
          · exact (List.mem_append.1 hz).elim (fun h => List.mem_append_left _ (List.mem_cons_of_mem _ h))
              fun h => List.mem_append_right _ (List.mem_cons_of_mem _ h)
          · exact (List.mem_append.1 hw).elim (fun h => List.mem_append_left _ (List.mem_cons_of_mem _ h))
              fun h => List.mem_append_right _ (List.mem_cons_of_mem _ h)
      · rw [if_pos hxy, divergentFrom_of_ne]
        · simp
        · intro heq
          refine hxy (chainLink_inj (hcol _ ?_ _ ?_ heq))
          · exact List.mem_append_left _ List.mem_cons_self
          · exact List.mem_append_right _ List.mem_cons_self

theorem WfMinerId.noNul (h : WfMinerId m) : '\x00' ∉ m := by
  intro hmem
  have hid := h.2 '\x00' hmem
  revert hid
  unfold IsIdChar
  decide

/-- The seed names the job and the miner. -/
theorem chainSeed_inj (hm : WfMinerId m) (hm' : WfMinerId m') (h : chainSeed j m = chainSeed j' m') :
    j = j' ∧ m = m' := by
  have htext := List.append_cancel_left (Judge.utf8_injective h)
  rcases List.append_eq_append_iff.1 (List.cons.inj htext).2 with ⟨as, rfl, hcut⟩ | ⟨as, rfl, hcut⟩
  · cases as with
    | nil => exact ⟨(List.append_nil _).symm, (List.cons.inj hcut).2⟩
    | cons d as =>
      refine absurd ?_ hm.noNul
      rw [(List.cons.inj hcut).2]
      exact List.mem_append_right as List.mem_cons_self
  · cases as with
    | nil => exact ⟨List.append_nil _, (List.cons.inj hcut).2.symm⟩
    | cons d as =>
      refine absurd ?_ hm'.noNul
      rw [(List.cons.inj hcut).2]
      exact List.mem_append_right as List.mem_cons_self

/-- Two parties' prefixes agree throughout exactly if job, miner and tokens do; they disagree from the start exactly if
the job or the miner differs; and the first prefix they disagree on is the one behind the first token that differs. -/
theorem divergence_located (hm : WfMinerId m) (hm' : WfMinerId m')
    (hcol : NoCollision (hashedTokens j m a ++ hashedTokens j' m' b)) :
    (firstDivergentPrefix (posted j m a) (posted j' m' b) = -1 ↔ (j, m) = (j', m') ∧ a = b) ∧
      (firstDivergentPrefix (posted j m a) (posted j' m' b) = 0 ↔ (j, m) ≠ (j', m')) ∧
      ∀ k : Nat, firstDivergentPrefix (posted j m a) (posted j' m' b) = k + 1 ↔
        (j, m) = (j', m') ∧ a.take k = b.take k ∧ a[k]? ≠ b[k]? := by
  by_cases hid : (j, m) = (j', m')
  · obtain ⟨rfl, rfl⟩ := Prod.mk.inj hid
    have hall : firstDivergentPrefix (posted j m a) (posted j m b) =
        match firstDifference a b with
        | none => -1
        | some k => 0 + k + 1 := by
      refine divergentFrom_eq fun z hz w hw => hcol z ?_ w ?_
      · exact (List.mem_append.1 hz).elim (fun h => List.mem_append_left _ (List.mem_cons_of_mem _ h))
          fun h => List.mem_append_right _ (List.mem_cons_of_mem _ h)
      · exact (List.mem_append.1 hw).elim (fun h => List.mem_append_left _ (List.mem_cons_of_mem _ h))
          fun h => List.mem_append_right _ (List.mem_cons_of_mem _ h)
    rw [hall, ← firstDifference_eq_none]
    simp only [← firstDifference_eq_some]
    cases firstDifference a b with
    | none => simp; omega
    | some k => simp; omega
  · have hne : Sha256.hash (chainSeed j m) ≠ Sha256.hash (chainSeed j' m') := by
      intro heq
      have hseed := hcol _ (List.mem_append_left _ List.mem_cons_self) _
        (List.mem_append_right _ List.mem_cons_self) heq
      obtain ⟨rfl, rfl⟩ := chainSeed_inj hm hm' hseed
      exact hid rfl
    have hzero : firstDivergentPrefix (posted j m a) (posted j' m' b) = 0 := divergentFrom_of_ne hne
    rw [hzero]
    refine ⟨⟨fun h => absurd h (by decide), fun h => absurd h.1 hid⟩, ⟨fun _ => hid, fun _ => rfl⟩, fun k => ?_⟩
    exact ⟨fun h => by omega, fun h => absurd h.1 hid⟩

/-- Two claims that differ in their second token. -/
theorem divergence_located_second : firstDivergentPrefix (posted ['j'] ['d', 'm', '1'] [['a'], ['b']])
    (posted ['j'] ['d', 'm', '1'] [['a'], ['c']]) = 2 := by
  have hm : WfMinerId ['d', 'm', '1'] := by
    refine ⟨by decide, fun x hx => List.mem_append_left _ ?_⟩
    simpa using hx
  have hcol : NoCollision (hashedTokens ['j'] ['d', 'm', '1'] [['a'], ['b']] ++
      hashedTokens ['j'] ['d', 'm', '1'] [['a'], ['c']]) := by
    unfold NoCollision
    decide
  have hat := ((divergence_located hm hm hcol).2.2 1).2 ⟨rfl, rfl, by decide⟩
  rw [hat]
  decide

end Chain

end Dendra.Jobs
