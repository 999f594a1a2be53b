import Dendra.Lib.Str

/-!
# JSON texts

Values, their texts with no blank between tokens, and the parser. A number that has a fraction or an exponent,
or that is no finite number, is kept as its text.

* `dump`, `sortKeys`: the text of a value, in ASCII or not, and the value with its keys in order.
* `parseValue`, `loads`: the parser, by recursion on fuel.
-/

namespace Dendra

inductive Json
  | null
  | bool (b : Bool)
  | int (n : Int)
  | float (text : Str)
  | str (s : Str)
  | arr (l : List Json)
  | obj (l : List (Str × Json))

namespace Json

/-! ## Texts -/

/-- The four hex digits of a code unit. -/
def hex4 (n : Nat) : Str :=
  [Nat.digitChar (n / 4096 % 16), Nat.digitChar (n / 256 % 16), Nat.digitChar (n / 16 % 16), Nat.digitChar (n % 16)]

def unicodeEscape (n : Nat) : Str := '\\' :: 'u' :: hex4 n

/-- The letter of a character that has an escape of its own. -/
def shortEscape : Char → Option Char
  | '"' => some '"'
  | '\\' => some '\\'
  | '\n' => some 'n'
  | '\r' => some 'r'
  | '\t' => some 't'
  | '\x08' => some 'b'
  | '\x0c' => some 'f'
  | _ => none

/-- The text of a character in a string. With `ascii`, what is not printable ASCII is escaped, in two surrogates
where it takes more than 16 bits. -/
def escape (ascii : Bool) (c : Char) : Str :=
  match shortEscape c with
  | some d => ['\\', d]
  | none =>
    if c.toNat < 32 then unicodeEscape c.toNat
    else if ascii = false ∨ c.toNat < 127 then [c]
    else if c.toNat < 65536 then unicodeEscape c.toNat
    else unicodeEscape (0xd800 + (c.toNat - 65536) / 1024) ++ unicodeEscape (0xdc00 + (c.toNat - 65536) % 1024)

def quote (ascii : Bool) (s : Str) : Str := '"' :: (s.flatMap (escape ascii) ++ ['"'])

mutual

/-- `json.dumps(v, separators=(",", ":"))`, of the keys in the order that they have. -/
def dump (ascii : Bool) : Json → Str
  | null => ['n', 'u', 'l', 'l']
  | bool b => if b then ['t', 'r', 'u', 'e'] else ['f', 'a', 'l', 's', 'e']
  | int n => Str.formatInt n
  | float t => t
  | str s => quote ascii s
  | arr l => '[' :: (dumpItems ascii l ++ [']'])
  | obj l => '{' :: (dumpFields ascii l ++ ['}'])

def dumpItems (ascii : Bool) : List Json → Str
  | [] => []
  | v :: l => dump ascii v ++ if l.isEmpty then [] else ',' :: dumpItems ascii l

def dumpFields (ascii : Bool) : List (Str × Json) → Str
  | [] => []
  | (k, v) :: l =>
    quote ascii k ++ ':' :: (dump ascii v ++ if l.isEmpty then [] else ',' :: dumpFields ascii l)

end

mutual

/-- The value with the keys of its objects in order (`sort_keys`). -/
def sortKeys : Json → Json
  | arr l => arr (sortItems l)
  | obj l => obj ((sortFields l).insertionSort fun e e' => e.1 ≤ e'.1)
  | v => v

def sortItems : List Json → List Json
  | [] => []
  | v :: l => v.sortKeys :: sortItems l

def sortFields : List (Str × Json) → List (Str × Json)
  | [] => []
  | (k, v) :: l => (k, v.sortKeys) :: sortFields l

end

/-! ## The parser -/

def isBlank (c : Char) : Bool := c = ' ' || c = '\t' || c = '\n' || c = '\r'

def skipBlank (s : Str) : Str := s.dropWhile isBlank

def hexDigit (c : Char) : Option Nat :=
  if c.isDigit then some (c.toNat - '0'.toNat)
  else if 'a' ≤ c ∧ c ≤ 'f' then some (c.toNat - 'a'.toNat + 10)
  else if 'A' ≤ c ∧ c ≤ 'F' then some (c.toNat - 'A'.toNat + 10)
  else none

/-- The code unit of four hex digits. -/
def scanHex4 : Str → Option (Nat × Str)
  | a :: b :: c :: d :: r => do
    let a ← hexDigit a
    let b ← hexDigit b
    let c ← hexDigit c
    let d ← hexDigit d
    pure (a * 4096 + b * 256 + c * 16 + d, r)
  | _ => none

/-- A code unit, or two that are a pair of surrogates. -/
def scanUnicode (s : Str) : Option (Char × Str) := do
  let (u, r) ← scanHex4 s
  if 0xd800 ≤ u ∧ u < 0xdc00 then
    match r with
    | '\\' :: 'u' :: r => do
      let (w, r) ← scanHex4 r
      if 0xdc00 ≤ w ∧ w < 0xe000 then pure (Char.ofNat (65536 + (u - 0xd800) * 1024 + (w - 0xdc00)), r)
      else none
    | _ => none
  else if 0xdc00 ≤ u ∧ u < 0xe000 then none
  else pure (Char.ofNat u, r)

/-- The character of an escape's letter. -/
def unescape : Char → Option Char
  | '"' => some '"'
  | '\\' => some '\\'
  | '/' => some '/'
  | 'n' => some '\n'
  | 'r' => some '\r'
  | 't' => some '\t'
  | 'b' => some '\x08'
  | 'f' => some '\x0c'
  | _ => none

/-- One character of a string, after its quote. -/
def scanChar : Str → Option (Char × Str)
  | '\\' :: 'u' :: r => scanUnicode r
  | '\\' :: d :: r => (unescape d).map fun c => (c, r)
  | c :: r => if c = '\\' ∨ c = '"' ∨ c.toNat < 32 then none else some (c, r)
  | [] => none

/-- A string, after its quote. -/
def scanString : Nat → Str → Option (Str × Str)
  | 0, _ => none
  | n + 1, s =>
    match s with
    | '"' :: r => some ([], r)
    | s => do
      let (c, r) ← scanChar s
      let (t, r) ← scanString n r
      pure (c :: t, r)

/-- The digits after a point, and the point. -/
def scanFraction : Str → Str × Str
  | '.' :: r =>
    if r.takeWhile Char.isDigit = [] then ([], '.' :: r)
    else ('.' :: r.takeWhile Char.isDigit, r.dropWhile Char.isDigit)
  | r => ([], r)

def scanSign : Str → Str × Str
  | '+' :: r => (['+'], r)
  | '-' :: r => (['-'], r)
  | r => ([], r)

/-- An exponent. -/
def scanExponent : Str → Str × Str
  | c :: r =>
    if (c = 'e' ∨ c = 'E') ∧ (scanSign r).2.takeWhile Char.isDigit ≠ [] then
      (c :: ((scanSign r).1 ++ (scanSign r).2.takeWhile Char.isDigit), (scanSign r).2.dropWhile Char.isDigit)
    else ([], c :: r)
  | [] => ([], [])

/-- The digits of an integer: a zero, or digits that do not start with one. -/
def scanDigits : Str → Option (Str × Str)
  | '0' :: r => some (['0'], r)
  | r => if r.takeWhile Char.isDigit = [] then none else some (r.takeWhile Char.isDigit, r.dropWhile Char.isDigit)

/-- A number: an integer, or the text of another one. -/
def scanNumber (s : Str) : Option (Json × Str) :=
  let neg := decide (s.head? = some '-')
  match scanDigits (if neg then s.tail else s) with
  | none => none
  | some (ds, r) =>
    let n : Int := Nat.ofDigitChars 10 ds 0
    if (scanFraction r).1 = [] ∧ (scanExponent (scanFraction r).2).1 = [] then
      some (int (if neg then -n else n), (scanExponent (scanFraction r).2).2)
    else
      some (float ((if neg then ['-'] else []) ++ ds ++ (scanFraction r).1 ++ (scanExponent (scanFraction r).2).1),
        (scanExponent (scanFraction r).2).2)

/-- The rest of a word that stands for a value. -/
def scanWord (w : Str) (v : Json) (s : Str) : Option (Json × Str) := (Str.cutPrefix s w).map fun r => (v, r)

def infinityTail : Str := ['n', 'f', 'i', 'n', 'i', 't', 'y']

/-- A word, or a number. -/
def scanAtom : Str → Option (Json × Str)
  | 'n' :: r => scanWord ['u', 'l', 'l'] null r
  | 't' :: r => scanWord ['r', 'u', 'e'] (bool true) r
  | 'f' :: r => scanWord ['a', 'l', 's', 'e'] (bool false) r
  | 'N' :: r => scanWord ['a', 'N'] (float ['N', 'a', 'N']) r
  | 'I' :: r => scanWord infinityTail (float ('I' :: infinityTail)) r
  | '-' :: 'I' :: r => scanWord infinityTail (float ('-' :: 'I' :: infinityTail)) r
  | s => scanNumber s

/-- A dict of the pairs in the order that they come: of a key that comes again, the last value counts. -/
def setField (d : List (Str × Json)) (k : Str) (v : Json) : List (Str × Json) :=
  if k ∈ d.map Prod.fst then d.map fun e => if e.1 = k then (k, v) else e else d ++ [(k, v)]

def ofPairs (l : List (Str × Json)) : List (Str × Json) := l.foldl (fun d e => setField d e.1 e.2) []

mutual

def parseValue : Nat → Str → Option (Json × Str)
  | 0, _ => none
  | n + 1, s =>
    match s with
    | '"' :: r => (scanString n r).map fun p => (str p.1, p.2)
    | '[' :: r =>
      if (skipBlank r).head? = some ']' then some (arr [], (skipBlank r).tail)
      else (parseItems n (skipBlank r)).map fun p => (arr p.1, p.2)
    | '{' :: r =>
      if (skipBlank r).head? = some '}' then some (obj [], (skipBlank r).tail)
      else (parseFields n (skipBlank r)).map fun p => (obj (ofPairs p.1), p.2)
    | s => scanAtom s

/-- The items of an array, after its bracket. -/
def parseItems : Nat → Str → Option (List Json × Str)
  | 0, _ => none
  | n + 1, s => do
    let (v, r) ← parseValue n s
    match skipBlank r with
    | ']' :: r => pure ([v], r)
    | ',' :: r => do
      let (l, r) ← parseItems n (skipBlank r)
      pure (v :: l, r)
    | _ => none

/-- The fields of an object, after its brace. -/
def parseFields : Nat → Str → Option (List (Str × Json) × Str)
  | 0, _ => none
  | n + 1, s =>
    match s with
    | '"' :: r => do
      let (k, r) ← scanString n r
      match skipBlank r with
      | ':' :: r => do
        let (v, r) ← parseValue n (skipBlank r)
        match skipBlank r with
        | '}' :: r => pure ([(k, v)], r)
        | ',' :: r => do
          let (l, r) ← parseFields n (skipBlank r)
          pure ((k, v) :: l, r)
        | _ => none
      | _ => none
    | _ => none

end

/-- `json.loads`: the value of a text, blanks around it. -/
def loads (s : Str) : Option Json :=
  match parseValue (2 * s.length + 2) (skipBlank s) with
  | some (v, r) => if skipBlank r = [] then some v else none
  | none => none

/-- `bs.decode("utf-8")`. -/
def decodeUtf8 (bs : List UInt8) : Option Str := bs.toByteArray.utf8Decode?.map Array.toList

theorem decodeUtf8_utf8 (s : Str) : decodeUtf8 s.utf8 = some s := by
  unfold decodeUtf8 Str.utf8
  exact congrArg (Option.map Array.toList) List.utf8Decode?_utf8Encode

/-- `d.get(k)`. -/
def get? (d : List (Str × Json)) (k : Str) : Option Json := (d.find? fun e => e.1 = k).map Prod.snd

end Json

end Dendra
