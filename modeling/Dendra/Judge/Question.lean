import Dendra.Lib.Str
import Dendra.Lib.Sha256

/-!
# The question commitment

A primary anchors the hash of a salt, a bar and its question, and reveals the salt and the question to the jury.
A juror grades the answer against the question only if the two open the commitment.

* `promptCommitment`, `promptCheck`: what is anchored, and how a reveal is checked against it.
* `promptCheck_eq_match`: what an accepted reveal is.
* `question_binding`: two accepted reveals carry one question exactly if their salts are of one length.
  `question_chosen`: a bar in the question may be taken for the one after the salt.
-/

namespace Dendra.Judge

/-! ## The commitment -/

/-- The text that is hashed. -/
def opening (salt prompt : Str) : Str := salt ++ '|' :: prompt

/-- `prompt_commitment`. -/
def promptCommitment (salt prompt : Str) : Str := Str.hex (Sha256.hash (opening salt prompt).utf8)

/-- A field of a reveal: left out or `null`, a text, or anything else. -/
inductive Field
  | missing
  | text (s : Str)
  | other
  deriving DecidableEq

/-- The fields of a reveal that the check looks at. -/
structure Opened where
  psalt : Field
  prompt : Field

/-- `anchored_commit_fields`. -/
structure Anchored where
  prompt : Str
  result : Str

inductive Why
  | match | mismatch | noSalt | unreadable | noPromptCommit | legacy
  deriving DecidableEq

/-- The question that is graded: `rev["prompt"] or ""`. -/
def Opened.question : Opened → Str
  | ⟨_, .text q⟩ => q
  | _ => []

def Opened.salt : Opened → Str
  | ⟨.text s, _⟩ => s
  | _ => []

/-- `prompt_check`, on a reveal that is an object or not (`none`) and on the fields read on chain, if they were. -/
def promptCheck (rev : Option Opened) (fields : Option Anchored) : Option Bool × Why :=
  match rev with
  | none => (none, .noSalt)
  | some r =>
    if r.salt = [] ∨ r.prompt = .other then (none, .noSalt)
    else match fields with
      | none => (none, .unreadable)
      | some f =>
        if f.prompt = [] then (none, .noPromptCommit)
        else if f.result ≠ [] ∧ f.prompt = f.result then (none, .legacy)
        else if f.prompt = promptCommitment r.salt r.question then (some true, .match)
        else (some false, .mismatch)

/-! ## What is accepted -/

section Binding

variable {rev rev' : Opened} {f : Anchored}

/-- An accepted reveal opens the commitment. -/
theorem promptCheck_eq_match (h : (promptCheck (some rev) (some f)).1 = some true) :
    f.prompt = promptCommitment rev.salt rev.question := by
  unfold promptCheck at h
  dsimp only at h
  split at h
  · cases h
  · split at h
    · cases h
    · split at h
      · cases h
      · split at h
        · assumption
        · cases h

theorem utf8_injective {s t : Str} (h : s.utf8 = t.utf8) : s = t := by
  have henc : s.utf8Encode = t.utf8Encode := congrArg List.toByteArray h
  refine String.ofList_injective (String.toByteArray_inj.1 ?_)
  rw [String.toByteArray_ofList, String.toByteArray_ofList, henc]

theorem digitChar_injective : ∀ a < 16, ∀ b < 16, Nat.digitChar a = Nat.digitChar b → a = b := by decide

theorem hex_injective {as bs : List UInt8} (h : Str.hex as = Str.hex bs) : as = bs := by
  induction as generalizing bs with
  | nil =>
    cases bs with
    | nil => rfl
    | cons b bs => cases h
  | cons a as ih =>
    cases bs with
    | nil => cases h
    | cons b bs =>
      unfold Str.hex at h
      rw [List.flatMap_cons, List.flatMap_cons] at h
      obtain ⟨hhigh, h⟩ := List.cons.inj h
      obtain ⟨hlow, h⟩ := List.cons.inj h
      have ha := a.toNat_lt
      have hb := b.toNat_lt
      have hdiv := digitChar_injective _ (by omega) _ (by omega) hhigh
      have hmod := digitChar_injective _ (Nat.mod_lt _ (by decide)) _ (Nat.mod_lt _ (by decide)) hlow
      have hab : a = b := UInt8.toNat_inj.1 (by omega)
      rw [hab, ih h]

theorem promptCommitment_ne_nil (salt prompt : Str) : promptCommitment salt prompt ≠ [] := by
  unfold promptCommitment Sha256.hash
  simp [Str.hex, Sha256.bytes, List.range_succ]

/-- A reveal of what was committed is accepted. -/
theorem promptCheck_commitment {salt prompt : Str} (hs : salt ≠ []) (r : Opened) (hr : r.salt = salt)
    (hp : r.prompt ≠ .other) (hq : r.question = prompt) :
    (promptCheck (some r) (some ⟨promptCommitment salt prompt, []⟩)).1 = some true := by
  subst hr hq
  unfold promptCheck
  dsimp only
  rw [if_neg (not_or.2 ⟨hs, hp⟩), if_neg (promptCommitment_ne_nil _ _), if_neg fun h => h.1 rfl, if_pos rfl]

end Binding

/-- If the hash does not collide on the two texts, two accepted reveals carry the same question exactly if their
salts have the same length. -/
theorem question_binding (f : Anchored) (rev rev' : Opened)
    (h : (promptCheck (some rev) (some f)).1 = some true) (h' : (promptCheck (some rev') (some f)).1 = some true)
    (hhash : Sha256.hash (opening rev.salt rev.question).utf8 = Sha256.hash (opening rev'.salt rev'.question).utf8 →
      (opening rev.salt rev.question).utf8 = (opening rev'.salt rev'.question).utf8) :
    rev.question = rev'.question ↔ rev.salt.length = rev'.salt.length := by
  have hcommit := (promptCheck_eq_match h).symm.trans (promptCheck_eq_match h')
  have hopen : opening rev.salt rev.question = opening rev'.salt rev'.question :=
    utf8_injective (hhash (hex_injective hcommit))
  unfold opening at hopen
  constructor
  · intro hq
    have hlen := congrArg List.length hopen
    rw [List.length_append, List.length_append, List.length_cons, List.length_cons, hq] at hlen
    omega
  · intro hlen
    obtain ⟨-, hrest⟩ := List.append_inj hopen hlen
    exact (List.cons.inj hrest).2

/-- The reveal of a primary that kept to its question. -/
theorem question_binding_first : (⟨.text ['a'], .text ['?']⟩ : Opened).question = ['?'] ↔ ['a'].length = 1 :=
  have h := promptCheck_commitment (List.cons_ne_nil 'a' []) ⟨.text ['a'], .text ['?']⟩ rfl (by decide) rfl
  question_binding ⟨promptCommitment ['a'] ['?'], []⟩ ⟨.text ['a'], .text ['?']⟩ ⟨.text ['a'], .text ['?']⟩ h h fun _ => rfl

/-- The salt `a|b` with the question `c`, and the salt `a` with the question `b|c`, open one commitment. -/
theorem question_chosen : ∃ f rev rev', (promptCheck (some rev) (some f)).1 = some true ∧
    (promptCheck (some rev') (some f)).1 = some true ∧ rev.question ≠ rev'.question := by
  refine ⟨⟨promptCommitment "a|b".toList ['c'], []⟩, ⟨.text "a|b".toList, .text ['c']⟩, ⟨.text ['a'], .text "b|c".toList⟩,
    promptCheck_commitment (by decide) _ rfl (by decide) rfl, ?_, by decide⟩
  have hsame : promptCommitment "a|b".toList ['c'] = promptCommitment ['a'] "b|c".toList := rfl
  rw [hsame]
  exact promptCheck_commitment (by decide) _ rfl (by decide) rfl

end Dendra.Judge
