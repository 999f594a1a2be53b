import Dendra.Judge.Question
import Dendra.Relay.Attributed
import Dendra.Reveal.Marker

/-!
# The tree of a marker

A marker's root commits to the set of jobs that were revealed. A level pairs its nodes, an odd last node with itself;
a proof of membership is the path of siblings, and a verifier hashes it up from the leaf. Leaves and nodes are hashed
under different prefixes.

* `levels`, `proof`, `verify`: the code. `getLast_levels`: the root is the last level.
* `walk_path`: the path of a leaf leads to the root.
* `node_or_leaf`: what a node of the tree is the hash of. `mem_of_walk`: a walk that ends in the tree started there.
* `marker_commits`: the root commits to the set.
-/

namespace Dendra.Reveal

/-! ## The code -/

/-- The levels above some nodes, bottom up, as `_levels` builds them. -/
def levelsFrom (l : List (List UInt8)) : List (List (List UInt8)) :=
  match l with
  | [] => [[]]
  | [a] => [[a]]
  | a :: b :: l => (a :: b :: l) :: levelsFrom (levelUp (a :: b :: l))
termination_by l.length
decreasing_by
  have := length_levelUp_le l
  simp only [levelUp, List.length_cons]
  omega

/-- `_levels`. -/
def levels (jobs : List Str) : List (List (List UInt8)) := levelsFrom ((sortedSet jobs).map leaf)

/-- The sibling of a place: its side and its digest. A last place that has none is its own. -/
def sibling (lvl : List (List UInt8)) (idx : Nat) : Str × Str :=
  let sib := if idx ^^^ 1 ≥ lvl.length then idx else idx ^^^ 1
  (if sib > idx then ['R'] else ['L'], Str.hex (lvl.getD sib []))

/-- The loop of `proof`, from a place up through some levels. -/
def path : List (List (List UInt8)) → Nat → List (Str × Str)
  | [], _ => []
  | lvl :: rest, idx => sibling lvl idx :: path rest (idx / 2)

/-- `proof`. -/
def proof (jobs : List Str) (job : Str) : Option (List (Str × Str)) :=
  let uniq := sortedSet jobs
  if job ∉ uniq then none else some (path (levels uniq).dropLast (uniq.idxOf job))

def isHexDigit (a : Char) : Bool :=
  a.isDigit || (decide ('a' ≤ a) && decide (a ≤ 'f')) || (decide ('A' ≤ a) && decide (a ≤ 'F'))

/-- A blank of ASCII. -/
def isAsciiSpace (a : Char) : Bool := decide (a = ' ') || (decide (9 ≤ a.toNat) && decide (a.toNat ≤ 13))

/-- `bytes.fromhex`: pairs of hex digits, with blanks between them. -/
def fromHex : Str → Option (List UInt8)
  | [] => some []
  | a :: s =>
    if isAsciiSpace a then fromHex s
    else
      match s with
      | [] => none
      | b :: s =>
        if isHexDigit a && isHexDigit b then (fromHex s).map fun l => (16 * Str.hexValue a + Str.hexValue b) :: l
        else none

/-- What the next node of a walk is the hash of; `none` for an item that is no pair of texts, a side that is
neither, or a digest that is not of 32 bytes in hex. -/
def stepInput (cur : List UInt8) (item : Option (Str × Str)) : Option (List UInt8) := do
  let (side, hexval) ← item
  let sib ← fromHex hexval
  if sib.length ≠ 32 ∨ (side ≠ ['L'] ∧ side ≠ ['R']) then none
  else if side = ['L'] then some (nodePrefix ++ sib ++ cur)
  else some (nodePrefix ++ cur ++ sib)

def walk (cur : List UInt8) (items : List (Option (Str × Str))) : Option (List UInt8) :=
  items.foldlM (fun cur item => (stepInput cur item).map Sha256.hash) cur

/-- `verify`. -/
def verify (root job : Str) (prf : Option (List (Option (Str × Str)))) : Bool :=
  match prf with
  | none => false
  | some items => decide (root ≠ []) && (walk (leaf job) items).any fun cur => decide (Str.hex cur = lower root)

/-! ## What is hashed -/

def leafInput (job : Str) : List UInt8 := leafPrefix ++ markerDomain.utf8 ++ job.utf8

/-- What the nodes over a level are the hashes of. -/
def nodeInputs : List (List UInt8) → List (List UInt8)
  | a :: b :: l => (nodePrefix ++ a ++ b) :: nodeInputs l
  | [a] => [nodePrefix ++ a ++ a]
  | [] => []

/-- What is hashed for the root of some jobs. -/
def hashed (jobs : List Str) : List (List UInt8) :=
  (sortedSet jobs).map leafInput ++ (levels jobs).dropLast.flatMap nodeInputs

/-- What is hashed on a walk. -/
def walkInputs : List UInt8 → List (Option (Str × Str)) → List (List UInt8)
  | _, [] => []
  | cur, item :: items =>
    match stepInput cur item with
    | none => []
    | some x => x :: walkInputs (Sha256.hash x) items

/-- What `verify` hashes. -/
def hashedBy (job : Str) (prf : Option (List (Option (Str × Str)))) : List (List UInt8) :=
  leafInput job :: walkInputs (leaf job) (prf.getD [])

/-- No two of these have one hash. -/
def NoCollision (xs : List (List UInt8)) : Prop := ∀ x ∈ xs, ∀ y ∈ xs, Sha256.hash x = Sha256.hash y → x = y

section Levels

variable {l : List (List UInt8)} {a x : List UInt8} {jobs : List Str} {k : Nat}

theorem levelUp_eq (l : List (List UInt8)) : levelUp l = (nodeInputs l).map Sha256.hash := by
  induction l using levelUp.induct with
  | case1 a b l ih =>
    rw [levelUp, ih]
    rfl
  | case2 a => rfl
  | case3 => rfl

theorem levelsFrom_ne_nil (l : List (List UInt8)) : levelsFrom l ≠ [] := by
  unfold levelsFrom
  split <;> exact List.cons_ne_nil _ _

/-- The last level is the root, or empty. -/
theorem getLast_levelsFrom (l : List (List UInt8)) :
    (levelsFrom l).getLast (levelsFrom_ne_nil l) = if l = [] then [] else [top l] := by
  induction l using levelsFrom.induct with
  | case1 => simp [levelsFrom]
  | case2 a => simp [levelsFrom, top]
  | case3 a b l ih =>
    have hne : levelUp (a :: b :: l) ≠ [] := List.cons_ne_nil _ _
    rw [if_neg hne] at ih
    rw [if_neg (List.cons_ne_nil _ _), top]
    simp only [levelsFrom]
    rw [List.getLast_cons (levelsFrom_ne_nil _), ih]

/-- `merkle_root` reads the last level. -/
theorem getLast_levels (jobs : List Str) :
    merkleRoot jobs = Str.hex (((levels jobs).getLast (levelsFrom_ne_nil _)).headD []) := by
  unfold levels merkleRoot
  rw [getLast_levelsFrom]
  split
  · next h =>
    rw [h, top]
    rfl
  · rfl

theorem getElem?_nodeInputs (l : List (List UInt8)) (k : Nat) :
    (nodeInputs l)[k]? = l[2 * k]?.map fun a => nodePrefix ++ a ++ l[2 * k + 1]?.getD a := by
  induction l using nodeInputs.induct generalizing k with
  | case1 a b l ih =>
    cases k with
    | zero => rfl
    | succ k =>
      rw [nodeInputs, List.getElem?_cons_succ, ih, show 2 * (k + 1) = 2 * k + 1 + 1 by omega, List.getElem?_cons_succ,
        List.getElem?_cons_succ, List.getElem?_cons_succ, List.getElem?_cons_succ]
  | case2 a =>
    cases k with
    | zero => rfl
    | succ k =>
      rw [nodeInputs, show 2 * (k + 1) = 2 * k + 1 + 1 by omega]
      rfl
  | case3 => rfl

/-- Every node of the tree is one of the first, or the hash of two nodes of the tree. -/
theorem node_or_leaf (h : x ∈ (levelsFrom l).flatten) : x ∈ l ∨
    ∃ a ∈ (levelsFrom l).flatten, ∃ b ∈ (levelsFrom l).flatten, x = Sha256.hash (nodePrefix ++ a ++ b) ∧
      nodePrefix ++ a ++ b ∈ (levelsFrom l).dropLast.flatMap nodeInputs := by
  have hpair (l : List (List UInt8)) (y : List UInt8) (hy : y ∈ nodeInputs l) :
      ∃ a ∈ l, ∃ b ∈ l, y = nodePrefix ++ a ++ b := by
    induction l using nodeInputs.induct with
    | case1 a b l ih =>
      obtain rfl | hy := List.mem_cons.1 hy
      · exact ⟨a, by simp, b, by simp, rfl⟩
      · obtain ⟨a', ha', b', hb', rfl⟩ := ih hy
        exact ⟨a', by simp [ha'], b', by simp [hb'], rfl⟩
    | case2 a =>
      obtain rfl := List.mem_singleton.1 hy
      exact ⟨a, by simp, a, by simp, rfl⟩
    | case3 => cases hy
  induction l using levelsFrom.induct with
  | case1 => simp [levelsFrom] at h
  | case2 a => exact .inl (by simpa [levelsFrom] using h)
  | case3 a b l ih =>
    have hlevels : levelsFrom (a :: b :: l) = (a :: b :: l) :: levelsFrom (levelUp (a :: b :: l)) := by
      rw [levelsFrom]
    rw [hlevels, List.dropLast_cons_of_ne_nil (levelsFrom_ne_nil _), List.flatten_cons, List.flatMap_cons]
    rw [hlevels, List.flatten_cons, List.mem_append] at h
    obtain h | h := h
    · exact .inl h
    · right
      obtain h | ⟨c, hc, d, hd, rfl, hin⟩ := ih h
      · rw [levelUp_eq] at h
        obtain ⟨y, hy, rfl⟩ := List.mem_map.1 h
        obtain ⟨c, hc, d, hd, rfl⟩ := hpair _ y hy
        exact ⟨c, List.mem_append_left _ hc, d, List.mem_append_left _ hd, rfl, List.mem_append_left _ hy⟩
      · exact ⟨c, List.mem_append_right _ hc, d, List.mem_append_right _ hd, rfl, List.mem_append_right _ hin⟩

theorem top_mem (hl : l ≠ []) : top l ∈ (levelsFrom l).flatten := by
  have h := getLast_levelsFrom l
  rw [if_neg hl] at h
  exact List.mem_flatten.2 ⟨_, List.getLast_mem _, h ▸ List.mem_singleton_self _⟩

/-- The nodes of a tree of leaves are of 32 bytes. -/
theorem length_node (h : x ∈ (levels jobs).flatten) : x.length = 32 := by
  obtain h | ⟨a, -, b, -, rfl, -⟩ := node_or_leaf h
  · obtain ⟨j, -, rfl⟩ := List.mem_map.1 h
    exact Relay.length_hash _
  · exact Relay.length_hash _

end Levels

/-! ## Texts of digests -/

section Hex

theorem fromHex_hex (bs : List UInt8) : fromHex (Str.hex bs) = some bs := by
  have hdigit : ∀ n < 16, isAsciiSpace (Nat.digitChar n) = false ∧ isHexDigit (Nat.digitChar n) = true ∧
      Str.hexValue (Nat.digitChar n) = UInt8.ofNat n := by decide
  induction bs with
  | nil => rfl
  | cons b bs ih =>
    have hb := b.toNat_lt
    obtain ⟨hspace, hhigh, hhighv⟩ := hdigit (b.toNat / 16) (by omega)
    obtain ⟨-, hlow, hlowv⟩ := hdigit (b.toNat % 16) (by omega)
    change fromHex (Nat.digitChar (b.toNat / 16) :: Nat.digitChar (b.toNat % 16) :: Str.hex bs) = _
    rw [fromHex, hspace, if_neg Bool.false_ne_true, hhigh, hlow, Bool.and_true, if_pos rfl, ih, Option.map_some,
      hhighv, hlowv]
    congr 2
    rw [← UInt8.toNat_inj, UInt8.toNat_add, UInt8.toNat_mul, UInt8.toNat_ofNat', UInt8.toNat_ofNat']
    change (16 * _ % 256 + _) % 256 = _
    omega

theorem lower_hex (bs : List UInt8) : lower (Str.hex bs) = Str.hex bs := by
  have hdigit : ∀ n < 16, (Nat.digitChar n).toLower = Nat.digitChar n := by decide
  unfold lower
  rw [List.map_congr_left (g := id), List.map_id]
  intro c hc
  obtain ⟨b, -, hc⟩ := List.mem_flatMap.1 hc
  have hb := b.toNat_lt
  obtain rfl | hc := List.mem_cons.1 hc
  · exact hdigit _ (by omega)
  · obtain rfl := List.mem_singleton.1 hc
    exact hdigit _ (by omega)

theorem hex_ne_nil {bs : List UInt8} (h : bs.length = 32) : Str.hex bs ≠ [] := by
  cases bs with
  | nil => cases h
  | cons b bs => exact List.cons_ne_nil _ _

end Hex

/-! ## The path of a leaf -/

section Path

variable {l : List (List UInt8)} {cur a : List UInt8} {idx : Nat}

theorem stepInput_left {sib : List UInt8} (hsib : sib.length = 32) :
    stepInput cur (some (['L'], Str.hex sib)) = some (nodePrefix ++ sib ++ cur) := by
  simp [stepInput, fromHex_hex, hsib]

theorem stepInput_right {sib : List UInt8} (hsib : sib.length = 32) :
    stepInput cur (some (['R'], Str.hex sib)) = some (nodePrefix ++ cur ++ sib) := by
  simp [stepInput, fromHex_hex, hsib]

/-- The sibling of a place leads to the node above it. -/
theorem stepInput_sibling (h32 : ∀ x ∈ l, x.length = 32) (ha : l[idx]? = some a) :
    ∃ y, (nodeInputs l)[idx / 2]? = some y ∧ stepInput a (some (sibling l idx)) = some y := by
  have hlt : idx < l.length := (List.getElem?_eq_some_iff.1 ha).1
  have h32' {i : Nat} {x : List UInt8} (hx : l[i]? = some x) : x.length = 32 := h32 x (List.mem_of_getElem? hx)
  unfold sibling
  dsimp only
  rw [getElem?_nodeInputs]
  by_cases heven : idx % 2 = 0
  · have hxor : idx ^^^ 1 = idx + 1 := Nat.xor_one_of_even (Nat.even_iff.2 heven)
    rw [hxor, show 2 * (idx / 2) = idx by omega, ha, Option.map_some]
    by_cases hlast : idx + 1 ≥ l.length
    · rw [if_pos hlast, if_neg (lt_irrefl _), List.getElem?_eq_none hlast, List.getD_eq_getElem?_getD, ha]
      exact ⟨_, rfl, stepInput_left (h32' ha)⟩
    · obtain ⟨c, hc⟩ : ∃ c, l[idx + 1]? = some c := ⟨_, List.getElem?_eq_getElem (not_le.1 hlast)⟩
      rw [if_neg hlast, if_pos (Nat.lt_succ_self idx), hc, List.getD_eq_getElem?_getD, hc]
      exact ⟨_, rfl, stepInput_right (h32' hc)⟩
  · have hxor : idx ^^^ 1 = idx - 1 := Nat.xor_one_of_odd (Nat.odd_iff.2 (by omega))
    obtain ⟨c, hc⟩ : ∃ c, l[idx - 1]? = some c := ⟨_, List.getElem?_eq_getElem (by omega)⟩
    rw [hxor, show 2 * (idx / 2) = idx - 1 by omega, show idx - 1 + 1 = idx by omega, hc, ha,
      if_neg (show ¬ idx - 1 ≥ l.length by omega), if_neg (show ¬ idx - 1 > idx by omega),
      List.getD_eq_getElem?_getD, hc]
    exact ⟨_, rfl, stepInput_left (h32' hc)⟩

/-- A path leads from its leaf to the root, and hashes what the tree hashes. -/
theorem walk_path (h32 : ∀ x ∈ l, x.length = 32) (ha : l[idx]? = some a) :
    walk a ((path (levelsFrom l).dropLast idx).map some) = some (top l) ∧
      ∀ x ∈ walkInputs a ((path (levelsFrom l).dropLast idx).map some),
        x ∈ (levelsFrom l).dropLast.flatMap nodeInputs := by
  induction l using levelsFrom.induct generalizing idx a with
  | case1 => cases ha
  | case2 b =>
    obtain rfl : b = a := by
      cases idx with
      | zero => exact Option.some.inj ha
      | succ idx => cases ha
    simp [levelsFrom, path, walk, walkInputs, top]
  | case3 b c l ih =>
    have hlevels : (levelsFrom (b :: c :: l)).dropLast =
        (b :: c :: l) :: (levelsFrom (levelUp (b :: c :: l))).dropLast := by
      rw [levelsFrom, List.dropLast_cons_of_ne_nil (levelsFrom_ne_nil _)]
    obtain ⟨y, hy, hstep⟩ := stepInput_sibling h32 ha
    have hup : (levelUp (b :: c :: l))[idx / 2]? = some (Sha256.hash y) := by
      rw [levelUp_eq, List.getElem?_map, hy]
      rfl
    have hlen : ∀ x ∈ levelUp (b :: c :: l), x.length = 32 := by
      rw [levelUp_eq]
      intro x hx
      obtain ⟨z, -, rfl⟩ := List.mem_map.1 hx
      exact Relay.length_hash z
    obtain ⟨hwalk, hinputs⟩ := ih hlen hup
    rw [hlevels, path, List.map_cons, top]
    constructor
    · rw [walk, List.foldlM_cons, hstep]
      exact hwalk
    · rw [walkInputs, hstep, List.flatMap_cons]
      intro x hx
      obtain rfl | hx := List.mem_cons.1 hx
      · exact List.mem_append_left _ (List.mem_of_getElem? hy)
      · exact List.mem_append_right _ (hinputs x hx)

end Path

/-! ## What a walk proves -/

section Sound

variable {jobs : List Str} {job : Str} {cur root x : List UInt8} {items : List (Option (Str × Str))}

theorem leafInput_injective {j j' : Str} (h : leafInput j = leafInput j') : j = j' :=
  Judge.utf8_injective (List.append_cancel_left h)

/-- A leaf and a node are the hashes of different bytes. -/
theorem leafInput_ne (j : Str) (bs : List UInt8) : leafInput j ≠ nodePrefix ++ bs := by
  intro h
  exact absurd (List.cons.inj h).1 (by decide)

/-- What a step hashes holds the node that it comes from, on one side, and a digest of 32 bytes on the other. -/
theorem stepInput_eq_some {item : Option (Str × Str)} (h : stepInput cur item = some x) :
    ∃ sib : List UInt8, sib.length = 32 ∧ (x = nodePrefix ++ sib ++ cur ∨ x = nodePrefix ++ cur ++ sib) := by
  obtain ⟨⟨side, hexval⟩, -, h⟩ := Option.bind_eq_some_iff.1 h
  obtain ⟨sib, -, h⟩ := Option.bind_eq_some_iff.1 h
  split at h
  · cases h
  · next hok =>
    rw [not_or, not_not] at hok
    split at h
    · exact ⟨sib, hok.1, .inl (Option.some.inj h).symm⟩
    · exact ⟨sib, hok.1, .inr (Option.some.inj h).symm⟩

/-- Bytes that are hashed to a node of the tree are those of a leaf, or of two nodes. -/
theorem input_of_node (hcol : NoCollision (hashed jobs ++ [x])) (h : Sha256.hash x ∈ (levels jobs).flatten) :
    (∃ j ∈ jobs, x = leafInput j) ∨
      ∃ a ∈ (levels jobs).flatten, ∃ b ∈ (levels jobs).flatten, x = nodePrefix ++ a ++ b := by
  have hx : x ∈ hashed jobs ++ [x] := List.mem_append_right _ (List.mem_singleton_self x)
  obtain h | ⟨a, ha, b, hb, heq, hin⟩ := node_or_leaf h
  · obtain ⟨j, hj, heq⟩ := List.mem_map.1 h
    have hmem : leafInput j ∈ hashed jobs ++ [x] :=
      List.mem_append_left _ (List.mem_append_left _ (List.mem_map_of_mem hj))
    exact .inl ⟨j, mem_sortedSet.1 hj, (hcol _ hmem _ hx heq).symm⟩
  · exact .inr ⟨a, ha, b, hb, hcol _ hx _ (List.mem_append_left _ (List.mem_append_right _ hin)) heq⟩

theorem NoCollision.sub {xs ys : List (List UInt8)} (h : NoCollision xs) (hsub : ∀ y ∈ ys, y ∈ xs) : NoCollision ys :=
  fun y hy z hz => h y (hsub y hy) z (hsub z hz)

/-- A walk that ends at a node of the tree has gone through nodes of the tree. -/
theorem mem_of_walk (hcol : NoCollision (hashed jobs ++ walkInputs cur items)) (h32 : cur.length = 32)
    (h : walk cur items = some root) (hroot : root ∈ (levels jobs).flatten) : cur ∈ (levels jobs).flatten := by
  induction items generalizing cur with
  | nil =>
    obtain rfl := Option.some.inj h
    exact hroot
  | cons item items ih =>
    rw [walk, List.foldlM_cons] at h
    obtain ⟨next, hnext, h⟩ := Option.bind_eq_some_iff.1 h
    obtain ⟨y, hy, rfl⟩ := Option.map_eq_some_iff.1 hnext
    rw [walkInputs, hy] at hcol
    have hnode := ih (hcol.sub fun z hz => ?_) (Relay.length_hash y) h
    · have hone := input_of_node (hcol.sub fun z hz => ?_) hnode
      · obtain ⟨sib, hsib, hside⟩ := stepInput_eq_some hy
        obtain ⟨j, -, rfl⟩ | ⟨a, ha, b, hb, rfl⟩ := hone
        · rw [List.append_assoc, List.append_assoc] at hside
          obtain hside | hside := hside
          · exact absurd hside (leafInput_ne j _)
          · exact absurd hside (leafInput_ne j _)
        · rw [List.append_assoc, List.append_assoc, List.append_assoc] at hside
          obtain hside | hside := hside
          · have heq := List.append_inj (List.append_cancel_left hside) ((length_node ha).trans hsib.symm)
            exact heq.2 ▸ hb
          · have heq := List.append_inj (List.append_cancel_left hside) ((length_node ha).trans h32.symm)
            exact heq.1 ▸ ha
      · obtain hz | hz := List.mem_append.1 hz
        · exact List.mem_append_left _ hz
        · obtain rfl := List.mem_singleton.1 hz
          exact List.mem_append_right _ List.mem_cons_self
    · obtain hz | hz := List.mem_append.1 hz
      · exact List.mem_append_left _ hz
      · exact List.mem_append_right _ (List.mem_cons_of_mem _ hz)

theorem verify_eq_true {r : Str} {prf : Option (List (Option (Str × Str)))} : verify r job prf = true ↔
    r ≠ [] ∧ ∃ items cur, prf = some items ∧ walk (leaf job) items = some cur ∧ Str.hex cur = lower r := by
  cases prf with
  | none => exact ⟨nofun, nofun⟩
  | some items =>
    unfold verify
    cases hw : walk (leaf job) items <;> simp [hw]

theorem leaves_ne_nil (h : job ∈ jobs) : (sortedSet jobs).map leaf ≠ [] := by
  rw [ne_eq, List.map_eq_nil_iff]
  exact List.ne_nil_of_mem (mem_sortedSet.2 h)

/-- A proof that is accepted for a root is of a job under it. -/
theorem mem_of_verify {prf : Option (List (Option (Str × Str)))} (hcol : NoCollision (hashed jobs ++ hashedBy job prf))
    (h : verify (merkleRoot jobs) job prf = true) : job ∈ jobs := by
  obtain ⟨hne, items, cur, rfl, hwalk, hhex⟩ := verify_eq_true.1 h
  have hleaves : (sortedSet jobs).map leaf ≠ [] := by
    intro hnil
    rw [merkleRoot, hnil, top] at hne
    exact hne rfl
  rw [merkleRoot, lower_hex] at hhex
  obtain rfl := Judge.hex_injective hhex
  have hnode : leaf job ∈ (levels jobs).flatten := by
    refine mem_of_walk (hcol.sub fun z hz => ?_) (Relay.length_hash _) hwalk (top_mem hleaves)
    obtain hz | hz := List.mem_append.1 hz
    · exact List.mem_append_left _ hz
    · exact List.mem_append_right _ (List.mem_cons_of_mem _ hz)
  have hone : NoCollision (hashed jobs ++ [leafInput job]) := by
    refine hcol.sub fun z hz => ?_
    obtain hz | hz := List.mem_append.1 hz
    · exact List.mem_append_left _ hz
    · obtain rfl := List.mem_singleton.1 hz
      exact List.mem_append_right _ List.mem_cons_self
  obtain ⟨j, hj, heq⟩ | ⟨a, -, b, -, heq⟩ := input_of_node hone hnode
  · exact leafInput_injective heq ▸ hj
  · rw [List.append_assoc] at heq
    exact absurd heq (leafInput_ne job _)

/-- The proof of a job of a set, and what it hashes. -/
theorem proof_of_mem (h : job ∈ jobs) : ∃ items, proof jobs job = some items ∧
    walk (leaf job) (items.map some) = some (top ((sortedSet jobs).map leaf)) ∧
    ∀ x ∈ hashedBy job (some (items.map some)), x ∈ hashed jobs := by
  have hmem := mem_sortedSet.2 h
  have huniq : sortedSet (sortedSet jobs) = sortedSet jobs := by
    have hnodup : (sortedSet jobs).Nodup := (List.perm_insertionSort _ _).nodup_iff.2 (List.nodup_dedup _)
    have hsorted : (sortedSet jobs).Pairwise (· ≤ ·) := List.pairwise_insertionSort _ _
    rw [sortedSet, hnodup.dedup, hsorted.insertionSort_eq]
  have hleaf : ((sortedSet jobs).map leaf)[(sortedSet jobs).idxOf job]? = some (leaf job) := by
    rw [List.getElem?_map, List.getElem?_idxOf hmem]
    rfl
  have h32 : ∀ x ∈ (sortedSet jobs).map leaf, x.length = 32 := by
    intro x hx
    obtain ⟨j, -, rfl⟩ := List.mem_map.1 hx
    exact Relay.length_hash _
  obtain ⟨hwalk, hinputs⟩ := walk_path h32 hleaf
  refine ⟨path (levels jobs).dropLast ((sortedSet jobs).idxOf job), ?_, hwalk, fun x hx => ?_⟩
  · unfold proof levels
    dsimp only
    rw [if_neg (not_not.2 hmem), huniq]
  · obtain rfl | hx := List.mem_cons.1 hx
    · exact List.mem_append_left _ (List.mem_map_of_mem hmem)
    · exact List.mem_append_right _ (hinputs x hx)

theorem sortedSet_congr {jobs' : List Str} (h : ∀ j, j ∈ jobs ↔ j ∈ jobs') : sortedSet jobs = sortedSet jobs' := by
  have hperm : (sortedSet jobs).Perm (sortedSet jobs') := by
    refine ((List.perm_insertionSort _ _).trans ?_).trans (List.perm_insertionSort _ _).symm
    rw [List.perm_ext_iff_of_nodup (List.nodup_dedup _) (List.nodup_dedup _)]
    simpa using h
  exact hperm.eq_of_pairwise' (List.pairwise_insertionSort _ _) (List.pairwise_insertionSort _ _)

/-- **A marker's root commits to a set of jobs.** It does not depend on order and repetition; two sets have different
roots; every job of the set has a proof; and no proof whatever is accepted for another job. Of the hash only this is
used: no two of the inputs that are hashed there collide. -/
theorem marker_commits :
    (∀ jobs jobs' : List Str, (∀ j, j ∈ jobs ↔ j ∈ jobs') → merkleRoot jobs = merkleRoot jobs') ∧
    (∀ jobs jobs' : List Str, jobs ≠ [] → jobs' ≠ [] → NoCollision (hashed jobs ++ hashed jobs') →
      merkleRoot jobs = merkleRoot jobs' → ∀ j, j ∈ jobs ↔ j ∈ jobs') ∧
    (∀ jobs : List Str, ∀ j ∈ jobs, verify (merkleRoot jobs) j ((proof jobs j).map (List.map some)) = true) ∧
    (∀ (jobs : List Str) (j : Str) prf, NoCollision (hashed jobs ++ hashedBy j prf) →
      verify (merkleRoot jobs) j prf = true → j ∈ jobs) := by
  have hcomplete (jobs : List Str) (j : Str) (h : j ∈ jobs) :
      verify (merkleRoot jobs) j ((proof jobs j).map (List.map some)) = true := by
    obtain ⟨items, hproof, hwalk, -⟩ := proof_of_mem h
    have h32 : (top ((sortedSet jobs).map leaf)).length = 32 := length_node (top_mem (leaves_ne_nil h))
    rw [hproof]
    exact verify_eq_true.2 ⟨hex_ne_nil h32, _, _, rfl, hwalk, (lower_hex _).symm⟩
  have hsub (jobs jobs' : List Str) (hcol : NoCollision (hashed jobs ++ hashed jobs'))
      (hroot : merkleRoot jobs = merkleRoot jobs') (j : Str) (h : j ∈ jobs) : j ∈ jobs' := by
    obtain ⟨items, hproof, -, hinputs⟩ := proof_of_mem h
    have hv := hcomplete jobs j h
    rw [hproof, hroot] at hv
    refine mem_of_verify (hcol.sub fun z hz => ?_) hv
    obtain hz | hz := List.mem_append.1 hz
    · exact List.mem_append_right _ hz
    · exact List.mem_append_left _ (hinputs z hz)
  refine ⟨fun jobs jobs' h => ?_, fun jobs jobs' _ _ hcol hroot j => ⟨hsub jobs jobs' hcol hroot j, ?_⟩, hcomplete,
    fun jobs j prf => mem_of_verify⟩
  · unfold merkleRoot
    rw [sortedSet_congr h]
  · refine hsub jobs' jobs (hcol.sub fun z hz => ?_) hroot.symm j
    exact List.mem_append.2 (List.mem_append.1 hz).symm

end Sound

end Dendra.Reveal
