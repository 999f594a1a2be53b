import Mathlib
import Dendra.Lib.Sha256
import Dendra.Lib.Str

/-!
# The reveal marker

`reveal_marker.py`: one marker for an epoch and a miner, a Merkle root over the jobs revealed in the epoch; and what
`judge_worker.py` reads of it.

* `epochOf`, `coveringEpochs`: the epochs of a height and of a dispute.
* `merkleRoot`: the root of a set of jobs.
* `markerState`: has the primary a marker that covers the job? `none` is undecided.
-/

namespace Dendra.Reveal

/-! ## Epochs and keys -/

/-- `epoch_of`; `none` for its `ValueError`. -/
def epochOf (height : Nat) (epochBlocks : Int) : Option Nat :=
  if epochBlocks ≤ 0 then none else some (height / epochBlocks.toNat)

/-- `covering_epochs`. -/
def coveringEpochs (disputeHeight : Nat) (epochBlocks : Int) (span : Nat) : Option (List Nat) :=
  (epochOf disputeHeight epochBlocks).map fun e => (List.range (max 1 span)).map (e + ·)

def markerKey (epoch : Nat) (miner : Str) : Str := "e".toList ++ Str.formatUint epoch ++ "__reveals__".toList ++ miner

def listKey (epoch : Nat) (miner : Str) : Str := "markerlist__e".toList ++ Str.formatUint epoch ++ "__".toList ++ miner

/-! ## The root -/

/-- `DOMAIN`. -/
def markerDomain : Str := "dendra/revealmark/v1".toList

def leafPrefix : List UInt8 := [0]

def nodePrefix : List UInt8 := [1]

def leaf (job : Str) : List UInt8 := Sha256.hash (leafPrefix ++ markerDomain.utf8 ++ job.utf8)

/-- The next level; an odd last node is paired with itself. -/
def levelUp : List (List UInt8) → List (List UInt8)
  | a :: b :: l => Sha256.hash (nodePrefix ++ a ++ b) :: levelUp l
  | [a] => [Sha256.hash (nodePrefix ++ a ++ a)]
  | [] => []

theorem length_levelUp_le (l : List (List UInt8)) : (levelUp l).length ≤ l.length := by
  induction l using levelUp.induct with
  | case1 a b l ih =>
    simp only [levelUp, List.length_cons]
    omega
  | case2 a => exact le_refl _
  | case3 => exact le_refl _

/-- The last of `_levels`. -/
def top (l : List (List UInt8)) : List UInt8 :=
  match l with
  | [] => []
  | [a] => a
  | a :: b :: l => top (levelUp (a :: b :: l))
termination_by l.length
decreasing_by
  have := length_levelUp_le l
  simp only [levelUp, List.length_cons]
  omega

/-- `sorted(set(l))`. -/
def sortedSet (l : List Str) : List Str := l.dedup.insertionSort (· ≤ ·)

/-- `merkle_root`. -/
def merkleRoot (jobs : List Str) : Str := Str.hex (top ((sortedSet jobs).map leaf))

theorem mem_sortedSet {l : List Str} {j : Str} : j ∈ sortedSet l ↔ j ∈ l := by
  rw [sortedSet, (List.perm_insertionSort _ _).mem_iff, List.mem_dedup]

/-! ## The judge's reading -/

/-- `str.isspace` of a character. -/
def isBlank (a : Char) : Bool := Str.isSpace a || (0x1c ≤ a.toNat && a.toNat ≤ 0x1f)

/-- `str.strip`. -/
def strip (s : Str) : Str := ((s.dropWhile isBlank).reverse.dropWhile isBlank).reverse

/-- `str.lower`, as far as a root in hex can equal it. -/
def lower (s : Str) : Str := s.map Char.toLower

/-- The loop of `marker_state`. -/
def scan (job primary : Str) (getCommit : Str → Str) (getList : Str → Option (List Str)) : List Nat → Option Bool
  | [] => some false
  | e :: es =>
    let root := lower (strip (getCommit (markerKey e primary)))
    if root = [] then scan job primary getCommit getList es
    else
      match getList (listKey e primary) with
      | none => none
      | some jobs =>
        if merkleRoot jobs ≠ root then none
        else if jobs.contains job then some true
        else scan job primary getCommit getList es

/-- `marker_state`. A list that is not found, or is no list, is `none`; the outer `none` is an epoch of no length. -/
def markerState (job primary : Str) (disputeHeight : Nat) (getCommit : Str → Str) (getList : Str → Option (List Str))
    (epochBlocks : Int) (span : Nat) : Option (Option Bool) :=
  (coveringEpochs disputeHeight epochBlocks span).map (scan job primary getCommit getList)

/-- A marker that is read in one of the epochs, and whose list holds the job if it is read, spares the job. -/
theorem scan_spares {job primary : Str} {getCommit : Str → Str} {getList : Str → Option (List Str)} {e : Nat}
    (hroot : lower (strip (getCommit (markerKey e primary))) ≠ [])
    (hlist : ∀ jobs, getList (listKey e primary) = some jobs → job ∈ jobs) {es : List Nat} (he : e ∈ es) :
    scan job primary getCommit getList es ≠ some false := by
  induction es with
  | nil => cases he
  | cons x es ih =>
    unfold scan
    by_cases hx : x = e
    · subst hx
      rw [if_neg hroot]
      cases hl : getList (listKey x primary) with
      | none => exact nofun
      | some jobs =>
        have hin : jobs.contains job = true := by simpa using hlist jobs hl
        simp only [hin, if_true]
        split <;> simp
    · have hrest := ih ((List.mem_cons.1 he).resolve_left fun h => hx h.symm)
      dsimp only
      split
      · exact hrest
      · split
        · exact nofun
        · split
          · exact nofun
          · split
            · simp
            · exact hrest

/-! ## Counts -/

theorem isBlank_digit {a : Char} (h : a.isDigit = true) : isBlank a = false := by
  rw [Char.isDigit_iff_toNat] at h
  have h0 : '0'.toNat = 48 := rfl
  have h9 : '9'.toNat = 57 := rfl
  unfold isBlank Str.isSpace
  simp only [Bool.or_eq_false_iff, Bool.and_eq_false_iff, decide_eq_false_iff_not, beq_eq_false_iff_ne]
  omega

theorem strip_of_forall {s : Str} (h : ∀ a ∈ s, isBlank a = false) : strip s = s := by
  have hdrop : ∀ l : Str, (∀ a ∈ l, isBlank a = false) → l.dropWhile isBlank = l := by
    rintro (_ | ⟨a, l⟩) hl
    · rfl
    · rw [List.dropWhile_cons_of_neg]
      simp [hl a List.mem_cons_self]
  unfold strip
  rw [hdrop s h, hdrop s.reverse fun a ha => h a (List.mem_reverse.1 ha), List.reverse_reverse]

/-- The text of a number has no blank. -/
theorem strip_formatUint (n : Nat) : strip (Str.formatUint n) = Str.formatUint n :=
  strip_of_forall fun _ ha => isBlank_digit (Nat.isDigit_of_mem_toDigits (by omega) (by omega) ha)

end Dendra.Reveal
