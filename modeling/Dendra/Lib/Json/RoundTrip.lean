import Dendra.Lib.Json.Scan

/-!
# Reading JSON texts back

* `parse_append`: what follows a text does not change how it is read, and neither does more fuel.
* `parseValue_dump`, `loads_dump`: a value is read back from its text.
* `eq_nil_of_loads`: no proper prefix of the text of an object reads.
* `isPrintable_dump`: a text in ASCII is printable.
-/

namespace Dendra.Json

/-! ## Values -/

section Values

variable {s r r' r'' t u : Str} {v : Json} {l : List Json} {n : Nat} {c : Char}

theorem parseValue_nil (n : Nat) : parseValue n [] = none := by
  cases n <;> rfl

/-- A token that opens nothing is an atom. -/
theorem parseValue_atom (h : s.head? ≠ some '"') (h' : s.head? ≠ some '[') (h'' : s.head? ≠ some '\x7b') :
    parseValue (n + 1) s = scanAtom s := by
  unfold parseValue
  split
  · exact absurd rfl h
  · exact absurd rfl h'
  · exact absurd rfl h''
  · rfl

theorem parseValue_quote (n : Nat) (r : Str) :
    parseValue (n + 1) ('"' :: r) = (scanString n r).map fun p => (str p.1, p.2) := rfl

theorem parseValue_bracket (n : Nat) (r : Str) : parseValue (n + 1) ('[' :: r) =
    if (skipBlank r).head? = some ']' then some (arr [], (skipBlank r).tail)
    else (parseItems n (skipBlank r)).map fun p => (arr p.1, p.2) := rfl

theorem parseValue_brace (n : Nat) (r : Str) : parseValue (n + 1) ('\x7b' :: r) =
    if (skipBlank r).head? = some '\x7d' then some (obj [], (skipBlank r).tail)
    else (parseFields n (skipBlank r)).map fun p => (obj (ofPairs p.1), p.2) := rfl

theorem parseItems_succ (n : Nat) (s : Str) : parseItems (n + 1) s = (do
    let (v, r) ← parseValue n s
    match skipBlank r with
    | ']' :: r => pure ([v], r)
    | ',' :: r => do
      let (l, r) ← parseItems n (skipBlank r)
      pure (v :: l, r)
    | _ => none) := rfl

theorem parseFields_succ (n : Nat) (s : Str) : parseFields (n + 1) s =
    match s with
    | '"' :: r => do
      let (k, r) ← scanString n r
      match skipBlank r with
      | ':' :: r => do
        let (v, r) ← parseValue n (skipBlank r)
        match skipBlank r with
        | '\x7d' :: r => pure ([(k, v)], r)
        | ',' :: r => do
          let (l, r) ← parseFields n (skipBlank r)
          pure ((k, v) :: l, r)
        | _ => none
      | _ => none
    | _ => none := rfl

theorem parseItems_last (hv : parseValue n s = some (v, r)) (hr : skipBlank r = ']' :: r') :
    parseItems (n + 1) s = some ([v], r') := by
  simp only [parseItems_succ, hv, hr, Option.bind_eq_bind, Option.bind_some, Option.pure_def]

theorem parseItems_cons (hv : parseValue n s = some (v, r)) (hr : skipBlank r = ',' :: r')
    (hl : parseItems n (skipBlank r') = some (l, r'')) : parseItems (n + 1) s = some (v :: l, r'') := by
  simp only [parseItems_succ, hv, hr, hl, Option.bind_eq_bind, Option.bind_some, Option.pure_def]

theorem parseItems_some (h : parseItems (n + 1) s = some (l, r')) :
    ∃ v r, parseValue n s = some (v, r) ∧
      (skipBlank r = ']' :: r' ∧ l = [v] ∨
        ∃ u l', skipBlank r = ',' :: u ∧ parseItems n (skipBlank u) = some (l', r') ∧ l = v :: l') := by
  rw [parseItems_succ, Option.bind_eq_bind, Option.bind_eq_some_iff] at h
  obtain ⟨⟨v, r⟩, hv, h⟩ := h
  refine ⟨v, r, hv, ?_⟩
  dsimp only at h
  split at h
  · next hr =>
    obtain ⟨rfl, rfl⟩ := Prod.mk.inj (Option.some.inj h)
    exact .inl ⟨hr, rfl⟩
  · next u hr =>
    rw [Option.bind_eq_bind, Option.bind_eq_some_iff] at h
    obtain ⟨⟨l', r''⟩, hl, h⟩ := h
    obtain ⟨rfl, rfl⟩ := Prod.mk.inj (Option.some.inj h)
    exact .inr ⟨u, l', hr, hl, rfl⟩
  · cases h

theorem parseItems_nil (n : Nat) : parseItems n [] = none := by
  cases n with
  | zero => rfl
  | succ n => rw [parseItems_succ, parseValue_nil, Option.bind_eq_bind, Option.bind_none]

theorem parseFields_nil (n : Nat) : parseFields n [] = none := by
  cases n <;> rfl

theorem parseFields_last {k : Str} {r₀ r₁ : Str} (hk : scanString n s = some (k, r₀))
    (hcolon : skipBlank r₀ = ':' :: r₁) (hv : parseValue n (skipBlank r₁) = some (v, r))
    (hr : skipBlank r = '\x7d' :: r') : parseFields (n + 1) ('"' :: s) = some ([(k, v)], r') := by
  simp only [parseFields_succ, hk, hcolon, hv, hr, Option.bind_eq_bind, Option.bind_some, Option.pure_def]

theorem parseFields_cons {k : Str} {r₀ r₁ : Str} {l : List (Str × Json)} (hk : scanString n s = some (k, r₀))
    (hcolon : skipBlank r₀ = ':' :: r₁) (hv : parseValue n (skipBlank r₁) = some (v, r))
    (hr : skipBlank r = ',' :: r') (hl : parseFields n (skipBlank r') = some (l, r'')) :
    parseFields (n + 1) ('"' :: s) = some ((k, v) :: l, r'') := by
  simp only [parseFields_succ, hk, hcolon, hv, hr, hl, Option.bind_eq_bind, Option.bind_some, Option.pure_def]

theorem parseFields_some {l : List (Str × Json)} (h : parseFields (n + 1) s = some (l, r')) :
    ∃ s' k r₀ r₁ v r, s = '"' :: s' ∧ scanString n s' = some (k, r₀) ∧ skipBlank r₀ = ':' :: r₁ ∧
      parseValue n (skipBlank r₁) = some (v, r) ∧
      (skipBlank r = '\x7d' :: r' ∧ l = [(k, v)] ∨
        ∃ u l', skipBlank r = ',' :: u ∧ parseFields n (skipBlank u) = some (l', r') ∧ l = (k, v) :: l') := by
  rw [parseFields_succ] at h
  split at h
  · next s' =>
    rw [Option.bind_eq_bind, Option.bind_eq_some_iff] at h
    obtain ⟨⟨k, r₀⟩, hk, h⟩ := h
    dsimp only at h
    split at h
    · next r₁ hcolon =>
      rw [Option.bind_eq_bind, Option.bind_eq_some_iff] at h
      obtain ⟨⟨v, r⟩, hv, h⟩ := h
      refine ⟨s', k, r₀, r₁, v, r, rfl, hk, hcolon, hv, ?_⟩
      dsimp only at h
      split at h
      · next hr =>
        obtain ⟨rfl, rfl⟩ := Prod.mk.inj (Option.some.inj h)
        exact .inl ⟨hr, rfl⟩
      · next u hr =>
        rw [Option.bind_eq_bind, Option.bind_eq_some_iff] at h
        obtain ⟨⟨l', r''⟩, hl, h⟩ := h
        obtain ⟨rfl, rfl⟩ := Prod.mk.inj (Option.some.inj h)
        exact .inr ⟨u, l', hr, hl, rfl⟩
      · cases h
    · cases h
  · cases h

/-- What may follow a value: something where a number stops, or anything after an object. -/
def Closed (s r : Str) : Prop := Stops r ∨ ∃ t, s = '\x7b' :: t

theorem skipBlank_append_of_ne_nil (h : skipBlank r ≠ []) (q : Str) : skipBlank (r ++ q) = skipBlank r ++ q := by
  obtain ⟨c, t, ht⟩ := List.exists_cons_of_ne_nil h
  rw [skipBlank_append ht, ht, List.cons_append]

/-- An array or an object that closes at once still does in a longer text. -/
theorem skipBlank_append_head (h : (skipBlank r).head? = some c) (q : Str) :
    (skipBlank (r ++ q)).head? = some c ∧ (skipBlank (r ++ q)).tail = (skipBlank r).tail ++ q := by
  have hne : skipBlank r ≠ [] := by
    intro heq
    rw [heq] at h
    cases h
  rw [skipBlank_append_of_ne_nil hne, List.head?_append_of_ne_nil _ hne, List.tail_append_of_ne_nil hne]
  exact ⟨h, rfl⟩

/-- What follows a text does not change how it is read, and neither does more fuel. -/
theorem parse_append (n : Nat) :
    (∀ s v r m q, parseValue n s = some (v, r) → n ≤ m → Closed s r → parseValue m (s ++ q) = some (v, r ++ q)) ∧
    (∀ s l r m q, parseItems n s = some (l, r) → n ≤ m → parseItems m (s ++ q) = some (l, r ++ q)) ∧
    ∀ s l r m q, parseFields n s = some (l, r) → n ≤ m → parseFields m (s ++ q) = some (l, r ++ q) := by
  induction n with
  | zero => refine ⟨?_, ?_, ?_⟩ <;> intro _ _ _ _ _ h <;> cases h
  | succ n ih =>
    obtain ⟨ihv, ihi, ihf⟩ := ih
    refine ⟨fun s v r m q h hle hc => ?_, fun s l r m q h hle => ?_, fun s l r m q h hle => ?_⟩
    · obtain ⟨m, rfl⟩ := Nat.exists_eq_succ_of_ne_zero (Nat.ne_of_gt (Nat.zero_lt_of_lt hle))
      have hle := Nat.le_of_succ_le_succ hle
      rw [Nat.succ_eq_add_one]
      unfold parseValue at h
      split at h
      · next r₀ =>
        rw [Option.map_eq_some_iff] at h
        obtain ⟨⟨t, r'⟩, ht, heq⟩ := h
        obtain ⟨rfl, rfl⟩ := Prod.mk.inj heq
        rw [List.cons_append, parseValue_quote, scanString_append ht hle]
        rfl
      · next r₀ =>
        rw [List.cons_append, parseValue_bracket]
        split at h
        · next hhead =>
          obtain ⟨rfl, rfl⟩ := Prod.mk.inj (Option.some.inj h)
          obtain ⟨hhead', htail⟩ := skipBlank_append_head hhead q
          rw [if_pos hhead', htail]
        · next hhead =>
          rw [Option.map_eq_some_iff] at h
          obtain ⟨⟨l, r'⟩, hl, heq⟩ := h
          obtain ⟨rfl, rfl⟩ := Prod.mk.inj heq
          have hne : skipBlank r₀ ≠ [] := by
            intro heq
            rw [heq, parseItems_nil] at hl
            cases hl
          rw [skipBlank_append_of_ne_nil hne, List.head?_append_of_ne_nil _ hne, if_neg hhead,
            ihi _ _ _ _ q hl hle]
          rfl
      · next r₀ =>
        rw [List.cons_append, parseValue_brace]
        split at h
        · next hhead =>
          obtain ⟨rfl, rfl⟩ := Prod.mk.inj (Option.some.inj h)
          obtain ⟨hhead', htail⟩ := skipBlank_append_head hhead q
          rw [if_pos hhead', htail]
        · next hhead =>
          rw [Option.map_eq_some_iff] at h
          obtain ⟨⟨l, r'⟩, hl, heq⟩ := h
          obtain ⟨rfl, rfl⟩ := Prod.mk.inj heq
          have hne : skipBlank r₀ ≠ [] := by
            intro heq
            rw [heq, parseFields_nil] at hl
            cases hl
          rw [skipBlank_append_of_ne_nil hne, List.head?_append_of_ne_nil _ hne, if_neg hhead,
            ihf _ _ _ _ q hl hle]
          rfl
      · next hquote hbracket hbrace =>
        have hstops : Stops r := by
          obtain hstops | ⟨t, rfl⟩ := hc
          · exact hstops
          · exact absurd rfl (hbrace t)
        have hs : s ≠ [] := by
          rintro rfl
          cases h
        have hhead {c : Char} (hno : ∀ t, s ≠ c :: t) : (s ++ q).head? ≠ some c := by
          rw [List.head?_append_of_ne_nil _ hs]
          obtain ⟨a, t, rfl⟩ := List.exists_cons_of_ne_nil hs
          intro heq
          exact hno t (by rw [Option.some.inj heq])
        rw [parseValue_atom (hhead hquote) (hhead hbracket) (hhead hbrace)]
        exact scanAtom_append h hstops q
    · obtain ⟨m, rfl⟩ := Nat.exists_eq_succ_of_ne_zero (Nat.ne_of_gt (Nat.zero_lt_of_lt hle))
      have hle := Nat.le_of_succ_le_succ hle
      obtain ⟨v, r₁, hv, ⟨hr, rfl⟩ | ⟨u, l', hr, hl, rfl⟩⟩ := parseItems_some h
      · exact parseItems_last (ihv _ _ _ _ q hv hle (.inl (stops_of_skipBlank hr (by decide)))) (skipBlank_append hr q)
      · refine parseItems_cons (ihv _ _ _ _ q hv hle (.inl (stops_of_skipBlank hr (by decide)))) (skipBlank_append hr q) ?_
        have hne : skipBlank u ≠ [] := by
          intro heq
          rw [heq, parseItems_nil] at hl
          cases hl
        rw [skipBlank_append_of_ne_nil hne]
        exact ihi _ _ _ _ q hl hle
    · obtain ⟨m, rfl⟩ := Nat.exists_eq_succ_of_ne_zero (Nat.ne_of_gt (Nat.zero_lt_of_lt hle))
      have hle := Nat.le_of_succ_le_succ hle
      obtain ⟨s', k, r₀, r₁, v, r₂, rfl, hk, hcolon, hv, hrest⟩ := parseFields_some h
      have hv' : skipBlank r₁ ≠ [] := by
        intro heq
        rw [heq, parseValue_nil] at hv
        cases hv
      have hk' := scanString_append hk hle q
      have hcolon' := skipBlank_append hcolon q
      rw [List.cons_append]
      obtain ⟨hr, rfl⟩ | ⟨u, l', hr, hl, rfl⟩ := hrest
      · refine parseFields_last hk' hcolon' ?_ (skipBlank_append hr q)
        rw [skipBlank_append_of_ne_nil hv']
        exact ihv _ _ _ _ q hv hle (.inl (stops_of_skipBlank hr (by decide)))
      · have hne : skipBlank u ≠ [] := by
          intro heq
          rw [heq, parseFields_nil] at hl
          cases hl
        refine parseFields_cons hk' hcolon' ?_ (skipBlank_append hr q) ?_
        · rw [skipBlank_append_of_ne_nil hv']
          exact ihv _ _ _ _ q hv hle (.inl (stops_of_skipBlank hr (by decide)))
        · rw [skipBlank_append_of_ne_nil hne]
          exact ihf _ _ _ _ q hl hle

end Values

/-! ## The round trip -/

mutual

/-- A value whose floats have the text of one, and whose objects name no key twice. -/
def Wf : Json → Prop
  | arr l => WfItems l
  | obj l => (l.map Prod.fst).Nodup ∧ WfFields l
  | float t => IsFloat t
  | _ => True

def WfItems : List Json → Prop
  | [] => True
  | v :: l => v.Wf ∧ WfItems l

def WfFields : List (Str × Json) → Prop
  | [] => True
  | (_, v) :: l => v.Wf ∧ WfFields l

end

section RoundTrip

variable {ascii : Bool} {r : Str} {n : Nat} {v : Json}

theorem formatInt_head (n : Int) : ∃ c t, Str.formatInt n = c :: t ∧ (c.isDigit = true ∨ c = '-') := by
  unfold Str.formatInt Str.formatUint
  split
  · exact ⟨'-', _, rfl, .inr rfl⟩
  · obtain ⟨c, t, heq⟩ := List.exists_cons_of_ne_nil (Nat.toDigits_ne_nil (n := n.natAbs) (b := 10))
    refine ⟨c, t, heq, .inl ?_⟩
    exact Nat.isDigit_of_mem_toDigits (b := 10) (n := n.natAbs) (by decide) (by decide) (heq ▸ List.mem_cons_self)

/-- What a number starts with is no blank, and closes nothing. -/
theorem isBlank_of_head {c : Char} (h : c.isDigit = true ∨ c = '-' ∨ c = 'N' ∨ c = 'I') :
    isBlank c = false ∧ c ≠ ']' := by
  constructor
  · by_contra hb
    rw [Bool.not_eq_false] at hb
    simp only [isBlank, Bool.or_eq_true, decide_eq_true_eq] at hb
    obtain ((rfl | rfl) | rfl) | rfl := hb <;> exact absurd h (by decide)
  · rintro rfl
    exact absurd h (by decide)

/-- The text of a value starts with no blank, and closes nothing. -/
theorem dump_head (ascii : Bool) (h : v.Wf) :
    ∃ c t, dump ascii v = c :: t ∧ isBlank c = false ∧ c ≠ ']' := by
  cases v with
  | null => exact ⟨_, _, rfl, by decide, by decide⟩
  | bool b => cases b <;> exact ⟨_, _, rfl, by decide, by decide⟩
  | int n =>
    obtain ⟨c, t, heq, hc⟩ := formatInt_head n
    exact ⟨c, t, heq, isBlank_of_head (hc.imp_right .inl)⟩
  | float t =>
    obtain ⟨c, u, heq, hc⟩ := h.head
    exact ⟨c, u, heq, isBlank_of_head hc⟩
  | str s => exact ⟨_, _, rfl, by decide, by decide⟩
  | arr l => exact ⟨_, _, rfl, by decide, by decide⟩
  | obj l => exact ⟨_, _, rfl, by decide, by decide⟩

theorem skipBlank_dump (ascii : Bool) (h : v.Wf) (r : Str) : skipBlank (dump ascii v ++ r) = dump ascii v ++ r := by
  obtain ⟨c, t, heq, hc, -⟩ := dump_head ascii h
  rw [heq, List.cons_append]
  exact skipBlank_of_head hc

theorem length_dump_pos (ascii : Bool) (h : v.Wf) : 0 < (dump ascii v).length := by
  obtain ⟨c, t, heq, -⟩ := dump_head ascii h
  rw [heq]
  exact Nat.succ_pos _

theorem dumpItems_cons (ascii : Bool) (v w : Json) (l : List Json) :
    dumpItems ascii (v :: w :: l) = dump ascii v ++ ',' :: dumpItems ascii (w :: l) := rfl

theorem dumpFields_cons (ascii : Bool) (k : Str) (v : Json) (e : Str × Json) (l : List (Str × Json)) :
    dumpFields ascii ((k, v) :: e :: l) = quote ascii k ++ ':' :: (dump ascii v ++ ',' :: dumpFields ascii (e :: l)) :=
  rfl

theorem dumpItems_one (ascii : Bool) (v : Json) : dumpItems ascii [v] = dump ascii v := List.append_nil _

theorem dumpFields_one (ascii : Bool) (k : Str) (v : Json) :
    dumpFields ascii [(k, v)] = quote ascii k ++ ':' :: dump ascii v := by
  simp [dumpFields]

theorem length_le_flatMap_escape (ascii : Bool) (s : Str) : s.length ≤ (s.flatMap (escape ascii)).length := by
  induction s with
  | nil => exact le_rfl
  | cons c s ih =>
    obtain ⟨d, t, heq, -⟩ := escape_head ascii c
    rw [List.flatMap_cons, heq, List.length_append, List.length_cons, List.length_cons]
    omega

/-- A dict whose keys differ is that of its pairs. -/
theorem ofPairs_of_nodup {l : List (Str × Json)} (h : (l.map Prod.fst).Nodup) : ofPairs l = l := by
  have hfold (d l : List (Str × Json)) (h : ((d ++ l).map Prod.fst).Nodup) :
      l.foldl (fun d e => setField d e.1 e.2) d = d ++ l := by
    induction l generalizing d with
    | nil => exact (List.append_nil d).symm
    | cons e l ih =>
      have hnew : e.1 ∉ d.map Prod.fst := by
        intro hmem
        rw [List.map_append, List.nodup_append] at h
        exact h.2.2 e.1 hmem e.1 List.mem_cons_self rfl
      rw [List.foldl_cons, setField, if_neg hnew, ih _ (by simpa using h), List.append_assoc]
      rfl
  exact hfold [] l h

theorem quote_append (ascii : Bool) (k r : Str) :
    quote ascii k ++ r = '"' :: (k.flatMap (escape ascii) ++ '"' :: r) := by
  simp [quote]

theorem scanString_of_length {k : Str} (h : (quote ascii k).length ≤ n + 1) (r : Str) :
    scanString n (k.flatMap (escape ascii) ++ '"' :: r) = some (k, r) := by
  refine scanString_quoted ascii k r ?_
  have := length_le_flatMap_escape ascii k
  simp only [quote, List.length_cons, List.length_append, List.length_nil] at h
  omega

theorem ends_cons {c : Char} (h : isNumeric c = false) (r : Str) : Ends (c :: r) := by
  intro d hd
  obtain rfl := Option.some.inj hd
  exact h

/-- The text of a field starts with a quote. -/
theorem dumpFields_head (ascii : Bool) (e : Str × Json) (l : List (Str × Json)) (r : Str) :
    ∃ t, dumpFields ascii (e :: l) ++ r = '"' :: t := by
  unfold dumpFields
  rw [List.append_assoc, quote_append]
  exact ⟨_, rfl⟩

theorem skipBlank_dumpItems {l : List Json} (h : v.Wf) (r : Str) :
    skipBlank (dumpItems ascii (v :: l) ++ r) = dumpItems ascii (v :: l) ++ r := by
  unfold dumpItems
  rw [List.append_assoc]
  exact skipBlank_dump ascii h _

theorem skipBlank_dumpFields (ascii : Bool) (e : Str × Json) (l : List (Str × Json)) (r : Str) :
    skipBlank (dumpFields ascii (e :: l) ++ r) = dumpFields ascii (e :: l) ++ r := by
  obtain ⟨t, ht⟩ := dumpFields_head ascii e l r
  rw [ht]
  exact skipBlank_of_head (by decide)

/-- A number opens nothing. -/
theorem parseValue_number {s t : Str} {c : Char} (heq : s = c :: t)
    (hc : c.isDigit = true ∨ c = '-' ∨ c = 'N' ∨ c = 'I') : parseValue (n + 1) (s ++ r) = scanAtom (s ++ r) := by
  have hhead (d : Char) (hd : ¬(d.isDigit = true ∨ d = '-' ∨ d = 'N' ∨ d = 'I')) : (s ++ r).head? ≠ some d := by
    rw [heq]
    intro h
    obtain rfl := Option.some.inj h
    exact hd hc
  exact parseValue_atom (hhead _ (by decide)) (hhead _ (by decide)) (hhead _ (by decide))

mutual

/-- A value is read back from its text. -/
theorem parseValue_dump : ∀ (v : Json) (n : Nat) (r : Str), v.Wf → 2 * (dump ascii v).length ≤ n → Ends r →
    parseValue n (dump ascii v ++ r) = some (v, r)
  | null, n + 1, r, _, _, _ => rfl
  | bool true, n + 1, r, _, _, _ => rfl
  | bool false, n + 1, r, _, _, _ => rfl
  | int i, n + 1, r, _, _, hr => by
    obtain ⟨c, t, heq, hc⟩ := formatInt_head i
    change parseValue (n + 1) (Str.formatInt i ++ r) = some (int i, r)
    rw [parseValue_number heq (hc.imp_right .inl)]
    exact scanAtom_of_number (scanNumber_formatInt i hr)
  | float t, n + 1, r, h, _, hr => by
    obtain ⟨c, u, heq, hc⟩ := IsFloat.head h
    change parseValue (n + 1) (t ++ r) = some (float t, r)
    rw [parseValue_number heq hc]
    exact scanAtom_float h hr
  | str s, n + 1, r, _, hn, _ => by
    change parseValue (n + 1) (quote ascii s ++ r) = some (str s, r)
    have hlen : (quote ascii s).length ≤ n + 1 := by
      have : 2 * (quote ascii s).length ≤ n + 1 := hn
      omega
    rw [quote_append, parseValue_quote, scanString_of_length hlen]
    rfl
  | arr [], n + 1, r, _, _, _ => rfl
  | arr (v :: l), n + 1, r, h, hn, _ => by
    have hlen : 2 * ((dumpItems ascii (v :: l)).length + 2) ≤ n + 1 := by simpa [dump] using hn
    have hitems := parseItems_dump (v :: l) n r (List.cons_ne_nil v l) h (by omega)
    have hhead : (dumpItems ascii (v :: l) ++ ']' :: r).head? ≠ some ']' := by
      obtain ⟨c, t, heq, -, hc⟩ := dump_head ascii h.1
      unfold dumpItems
      rw [heq]
      simpa using hc
    change parseValue (n + 1) ('[' :: (dumpItems ascii (v :: l) ++ [']'] ++ r)) = some (arr (v :: l), r)
    rw [List.append_assoc, List.singleton_append, parseValue_bracket, skipBlank_dumpItems h.1,
      if_neg hhead, hitems]
    rfl
  | obj [], n + 1, r, _, _, _ => rfl
  | obj ((k, v) :: l), n + 1, r, h, hn, _ => by
    have hlen : 2 * ((dumpFields ascii ((k, v) :: l)).length + 2) ≤ n + 1 := by simpa [dump] using hn
    have hfields := parseFields_dump ((k, v) :: l) n r (List.cons_ne_nil (k, v) l) h.2 (by omega)
    have hhead : (dumpFields ascii ((k, v) :: l) ++ '\x7d' :: r).head? ≠ some '\x7d' := by
      obtain ⟨t, ht⟩ := dumpFields_head ascii (k, v) l ('\x7d' :: r)
      rw [ht]
      simp
    change parseValue (n + 1) ('\x7b' :: (dumpFields ascii ((k, v) :: l) ++ ['\x7d'] ++ r)) =
      some (obj ((k, v) :: l), r)
    rw [List.append_assoc, List.singleton_append, parseValue_brace, skipBlank_dumpFields, if_neg hhead,
      hfields, Option.map_some, ofPairs_of_nodup h.1]
  | null, 0, _, h, hn, _ => absurd (length_dump_pos ascii h) (by omega)
  | bool _, 0, _, h, hn, _ => absurd (length_dump_pos ascii h) (by omega)
  | int _, 0, _, h, hn, _ => absurd (length_dump_pos ascii h) (by omega)
  | float _, 0, _, h, hn, _ => absurd (length_dump_pos ascii h) (by omega)
  | str _, 0, _, h, hn, _ => absurd (length_dump_pos ascii h) (by omega)
  | arr _, 0, _, h, hn, _ => absurd (length_dump_pos ascii h) (by omega)
  | obj _, 0, _, h, hn, _ => absurd (length_dump_pos ascii h) (by omega)

theorem parseItems_dump : ∀ (l : List Json) (n : Nat) (r : Str), l ≠ [] → WfItems l →
    2 * (dumpItems ascii l).length + 1 ≤ n → parseItems n (dumpItems ascii l ++ ']' :: r) = some (l, r)
  | [], _, _, h, _, _ => absurd rfl h
  | [v], n + 1, r, _, h, hn => by
    rw [dumpItems_one] at hn ⊢
    have hv := parseValue_dump v n (']' :: r) h.1 (by omega) (ends_cons (by decide) r)
    exact parseItems_last hv (skipBlank_of_head (by decide))
  | v :: w :: l, n + 1, r, _, h, hn => by
    rw [dumpItems_cons, List.length_append, List.length_cons] at hn
    rw [dumpItems_cons, List.append_assoc, List.cons_append]
    have hv := parseValue_dump v n (',' :: (dumpItems ascii (w :: l) ++ ']' :: r)) h.1 (by omega) (ends_cons (by decide) _)
    have hl := parseItems_dump (w :: l) n r (List.cons_ne_nil w l) h.2 (by omega)
    refine parseItems_cons hv (skipBlank_of_head (by decide)) ?_
    rw [skipBlank_dumpItems h.2.1]
    exact hl

theorem parseFields_dump : ∀ (l : List (Str × Json)) (n : Nat) (r : Str), l ≠ [] → WfFields l →
    2 * (dumpFields ascii l).length + 1 ≤ n → parseFields n (dumpFields ascii l ++ '\x7d' :: r) = some (l, r)
  | [], _, _, h, _, _ => absurd rfl h
  | [(k, v)], n + 1, r, _, h, hn => by
    rw [dumpFields_one, List.length_append, List.length_cons] at hn
    rw [dumpFields_one, List.append_assoc, quote_append, List.cons_append]
    have hv := parseValue_dump v n ('\x7d' :: r) h.1 (by omega) (ends_cons (by decide) r)
    refine parseFields_last (scanString_of_length (by omega) _) (skipBlank_of_head (by decide)) ?_
      (skipBlank_of_head (by decide))
    rw [skipBlank_dump ascii h.1]
    exact hv
  | (k, v) :: e :: l, n + 1, r, _, h, hn => by
    rw [dumpFields_cons, List.length_append, List.length_cons, List.length_append, List.length_cons] at hn
    rw [dumpFields_cons, List.append_assoc, quote_append, List.cons_append, List.append_assoc, List.cons_append]
    have hv := parseValue_dump v n (',' :: (dumpFields ascii (e :: l) ++ '\x7d' :: r)) h.1 (by omega) (ends_cons (by decide) _)
    have hl := parseFields_dump (e :: l) n r (List.cons_ne_nil e l) h.2 (by omega)
    have hcomma : skipBlank (',' :: (dumpFields ascii (e :: l) ++ '\x7d' :: r)) =
        ',' :: (dumpFields ascii (e :: l) ++ '\x7d' :: r) := skipBlank_of_head (by decide)
    refine parseFields_cons (scanString_of_length (by omega) _) (skipBlank_of_head (by decide)) ?_ hcomma ?_
    · rw [skipBlank_dump ascii h.1]
      exact hv
    · rw [skipBlank_dumpFields]
      exact hl

end

/-- **The round trip.** A value is read back from its text. -/
theorem loads_dump (ascii : Bool) (h : v.Wf) : loads (dump ascii v) = some v := by
  have hskip := skipBlank_dump ascii h []
  have hread : parseValue (2 * (dump ascii v).length + 2) (dump ascii v ++ []) = some (v, []) :=
    parseValue_dump v _ [] h (by omega) fun _ hc => nomatch hc
  rw [List.append_nil] at hskip hread
  unfold loads
  rw [hskip, hread]
  rfl

/-- No text that goes on after a part that reads is an object's. -/
theorem eq_nil_of_loads {s q : Str} {w : Json} {l : List (Str × Json)} (h : (obj l).Wf)
    (htext : s ++ q = dump ascii (obj l)) (hread : loads s = some w) : q = [] := by
  cases s with
  | nil => cases hread
  | cons c s =>
    obtain ⟨rfl, -⟩ := List.cons.inj htext
    have hskip : skipBlank ('\x7b' :: s) = '\x7b' :: s := skipBlank_of_head (by decide)
    unfold loads at hread
    rw [hskip] at hread
    split at hread
    · next v r hv =>
      split at hread
      · next hr =>
        have hlong := (parse_append _).1 _ _ _ (2 * ('\x7b' :: s ++ q).length + 2) q hv
          (by rw [List.length_append]; omega) (.inr ⟨s, rfl⟩)
        have hfull : parseValue (2 * ('\x7b' :: s ++ q).length + 2) (dump ascii (obj l) ++ []) = some (obj l, []) :=
          parseValue_dump (obj l) _ [] h (by rw [htext]; omega) fun _ hc => nomatch hc
        rw [List.append_nil, ← htext, hlong] at hfull
        exact (List.append_eq_nil_iff.1 (Prod.mk.inj (Option.some.inj hfull)).2).2
      · cases hread
    · cases hread

end RoundTrip

/-! ## Printable ASCII -/

/-- A blank, or a visible character of ASCII. -/
def isPrintable (c : Char) : Bool := decide (32 ≤ c.toNat ∧ c.toNat < 127)

section Printable

theorem isPrintable_digitChar : ∀ d < 16, isPrintable (Nat.digitChar d) = true := by decide

theorem isPrintable_hex4 (n : Nat) : ∀ c ∈ hex4 n, isPrintable c = true := by
  have hd (k : Nat) : isPrintable (Nat.digitChar (k % 16)) = true :=
    isPrintable_digitChar _ (Nat.mod_lt _ (by decide))
  intro c hc
  simp only [hex4, List.mem_cons, List.not_mem_nil, or_false] at hc
  obtain rfl | rfl | rfl | rfl := hc <;> exact hd _

theorem isPrintable_unicodeEscape (n : Nat) : ∀ c ∈ unicodeEscape n, isPrintable c = true := by
  intro c hc
  obtain rfl | hc := List.mem_cons.1 hc
  · rfl
  · obtain rfl | hc := List.mem_cons.1 hc
    · rfl
    · exact isPrintable_hex4 n c hc

theorem isPrintable_escape (c : Char) : ∀ d ∈ escape true c, isPrintable d = true := by
  unfold escape
  intro d hd
  split at hd
  · next e he =>
    obtain rfl | hd := List.mem_cons.1 hd
    · rfl
    · obtain rfl := List.mem_singleton.1 hd
      exact decide_eq_true (unescape_of_shortEscape he).2.2
  · split at hd
    · exact isPrintable_unicodeEscape _ d hd
    · next hlow =>
      split at hd
      · next hascii =>
        obtain rfl := List.mem_singleton.1 hd
        have hhigh := hascii.resolve_left (by decide)
        exact decide_eq_true ⟨not_lt.1 hlow, hhigh⟩
      · split at hd
        · exact isPrintable_unicodeEscape _ d hd
        · obtain hd | hd := List.mem_append.1 hd <;> exact isPrintable_unicodeEscape _ d hd

theorem isPrintable_quote (s : Str) : ∀ c ∈ quote true s, isPrintable c = true := by
  intro c hc
  obtain rfl | hc := List.mem_cons.1 hc
  · rfl
  · obtain hc | hc := List.mem_append.1 hc
    · obtain ⟨d, -, hd⟩ := List.mem_flatMap.1 hc
      exact isPrintable_escape d c hd
    · obtain rfl := List.mem_singleton.1 hc
      rfl

theorem isPrintable_of_isDigit {c : Char} (h : c.isDigit = true) : isPrintable c = true := by
  rw [Char.isDigit, Bool.and_eq_true, decide_eq_true_eq, decide_eq_true_eq] at h
  have h1 : 48 ≤ c.toNat := h.1
  have h2 : c.toNat ≤ 57 := h.2
  exact decide_eq_true ⟨by omega, by omega⟩

theorem isPrintable_toDigits (n : Nat) : ∀ c ∈ Nat.toDigits 10 n, isPrintable c = true := fun c hc =>
  isPrintable_of_isDigit (Nat.isDigit_of_mem_toDigits (by decide) (by decide) hc)

theorem isPrintable_formatInt (n : Int) : ∀ c ∈ Str.formatInt n, isPrintable c = true := by
  unfold Str.formatInt Str.formatUint
  split
  · intro c hc
    obtain rfl | hc := List.mem_cons.1 hc
    · rfl
    · exact isPrintable_toDigits _ c hc
  · exact isPrintable_toDigits _

theorem IsFloat.isPrintable {t : Str} (h : IsFloat t) : ∀ c ∈ t, isPrintable c = true := by
  cases h with
  | nan => simp [Json.isPrintable]
  | infinity => simp [Json.isPrintable, infinityTail]
  | negInfinity => simp [Json.isPrintable, infinityTail]
  | finite neg n f e hf he hne =>
    intro c hc
    rw [List.mem_append, List.mem_append, List.mem_append] at hc
    obtain ((hc | hc) | hc) | hc := hc
    · cases neg with
      | true =>
        obtain rfl := List.mem_singleton.1 hc
        rfl
      | false => cases hc
    · exact isPrintable_toDigits n c hc
    · obtain rfl | ⟨ds, ⟨-, hds⟩, rfl⟩ := hf
      · cases hc
      · obtain rfl | hc := List.mem_cons.1 hc
        · rfl
        · exact isPrintable_of_isDigit (hds c hc)
    · obtain rfl | ⟨sign, ds, hsign, ⟨-, hds⟩, rfl⟩ := he
      · cases hc
      · obtain rfl | hc := List.mem_cons.1 hc
        · rfl
        · obtain rfl | hc := List.mem_cons.1 hc
          · obtain rfl | rfl := hsign <;> rfl
          · exact isPrintable_of_isDigit (hds c hc)

theorem mem_enclosed {c a b : Char} {s : Str} (h : c ∈ a :: (s ++ [b])) : c = a ∨ c ∈ s ∨ c = b := by
  simpa using h

mutual

/-- The text in ASCII of a value is printable. -/
theorem isPrintable_dump : ∀ v : Json, v.Wf → ∀ c ∈ dump true v, isPrintable c = true
  | null, _ => by
    change ∀ c ∈ ['n', 'u', 'l', 'l'], isPrintable c = true
    simp [isPrintable]
  | bool true, _ => by
    change ∀ c ∈ ['t', 'r', 'u', 'e'], isPrintable c = true
    simp [isPrintable]
  | bool false, _ => by
    change ∀ c ∈ ['f', 'a', 'l', 's', 'e'], isPrintable c = true
    simp [isPrintable]
  | int n, _ => isPrintable_formatInt n
  | float _, h => IsFloat.isPrintable h
  | str s, _ => isPrintable_quote s
  | arr l, h => fun c hc => by
    obtain rfl | hc | rfl := mem_enclosed hc
    · rfl
    · exact isPrintable_dumpItems l h c hc
    · rfl
  | obj l, h => fun c hc => by
    obtain rfl | hc | rfl := mem_enclosed hc
    · rfl
    · exact isPrintable_dumpFields l h.2 c hc
    · rfl

theorem isPrintable_dumpItems : ∀ l : List Json, WfItems l → ∀ c ∈ dumpItems true l, isPrintable c = true
  | [], _, c, hc => by cases hc
  | [v], h, c, hc => isPrintable_dump v h.1 c (dumpItems_one true v ▸ hc)
  | v :: w :: l, h, c, hc => by
    rw [dumpItems_cons, List.mem_append, List.mem_cons] at hc
    obtain hc | rfl | hc := hc
    · exact isPrintable_dump v h.1 c hc
    · rfl
    · exact isPrintable_dumpItems (w :: l) h.2 c hc

theorem isPrintable_dumpFields : ∀ l : List (Str × Json), WfFields l → ∀ c ∈ dumpFields true l, isPrintable c = true
  | [], _, c, hc => by cases hc
  | [(k, v)], h, c, hc => by
    rw [dumpFields_one, List.mem_append, List.mem_cons] at hc
    obtain hc | rfl | hc := hc
    · exact isPrintable_quote k c hc
    · rfl
    · exact isPrintable_dump v h.1 c hc
  | (k, v) :: e :: l, h, c, hc => by
    rw [dumpFields_cons, List.mem_append, List.mem_cons, List.mem_append, List.mem_cons] at hc
    obtain hc | rfl | hc | rfl | hc := hc
    · exact isPrintable_quote k c hc
    · rfl
    · exact isPrintable_dump v h.1 c hc
    · rfl
    · exact isPrintable_dumpFields (e :: l) h.2 c hc

end

end Printable

/-! ## Keys in order -/

section Keys

theorem wfFields_iff {l : List (Str × Json)} : WfFields l ↔ ∀ e ∈ l, e.2.Wf := by
  induction l with
  | nil => simp [WfFields]
  | cons e l ih => simp [WfFields, ih]

theorem map_fst_sortFields (l : List (Str × Json)) : (sortFields l).map Prod.fst = l.map Prod.fst := by
  induction l with
  | nil => rfl
  | cons e l ih => simp [sortFields, ih]

mutual

/-- The order of the keys is no part of what makes a value well formed. -/
theorem wf_sortKeys : ∀ v : Json, v.Wf → v.sortKeys.Wf
  | null, _ => trivial
  | bool _, _ => trivial
  | int _, _ => trivial
  | float _, h => h
  | str _, _ => trivial
  | arr l, h => wf_sortItems l h
  | obj l, h => by
    have hperm := List.perm_insertionSort (fun e e' : Str × Json => e.1 ≤ e'.1) (sortFields l)
    refine ⟨(hperm.map Prod.fst).nodup_iff.2 ?_, wfFields_iff.2 fun e he => ?_⟩
    · rw [map_fst_sortFields]
      exact h.1
    · exact wfFields_iff.1 (wf_sortFields l h.2) e (hperm.mem_iff.1 he)

theorem wf_sortItems : ∀ l : List Json, WfItems l → WfItems (sortItems l)
  | [], _ => trivial
  | v :: l, h => ⟨wf_sortKeys v h.1, wf_sortItems l h.2⟩

theorem wf_sortFields : ∀ l : List (Str × Json), WfFields l → WfFields (sortFields l)
  | [], _ => trivial
  | (_, v) :: l, h => ⟨wf_sortKeys v h.1, wf_sortFields l h.2⟩

end

theorem wf_setField {d : List (Str × Json)} {k : Str} {v : Json} (h : (obj d).Wf) (hv : v.Wf) :
    (obj (setField d k v)).Wf := by
  unfold setField
  split
  · refine ⟨?_, wfFields_iff.2 fun e he => ?_⟩
    · have hkeys : (d.map fun e => if e.1 = k then (k, v) else e).map Prod.fst = d.map Prod.fst := by
        rw [List.map_map]
        refine List.map_congr_left fun e _ => ?_
        by_cases hk : e.1 = k <;> simp [hk]
      rw [hkeys]
      exact h.1
    · obtain ⟨e', he', rfl⟩ := List.mem_map.1 he
      split
      · exact hv
      · exact wfFields_iff.1 h.2 e' he'
  · next hnew =>
    refine ⟨?_, wfFields_iff.2 fun e he => ?_⟩
    · rw [List.map_append, List.nodup_append]
      refine ⟨h.1, List.nodup_singleton _, fun k' hk' k'' hk'' heq => ?_⟩
      obtain rfl := List.mem_singleton.1 hk''
      exact hnew (heq ▸ hk')
    · obtain he | he := List.mem_append.1 he
      · exact wfFields_iff.1 h.2 e he
      · obtain rfl := List.mem_singleton.1 he
        exact hv

end Keys

end Dendra.Json
