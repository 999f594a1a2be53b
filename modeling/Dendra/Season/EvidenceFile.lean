import Dendra.Lib.Json.RoundTrip
import Dendra.Season.Answers

/-!
# The file of a day

The evidence of a day is a file of JSON lines. A record is appended to it; a last line that a crash has torn is
closed first. Three programs read it, and split it into lines in ways of their own.

* `append`: what is written, and how far. `evidenceRead`, `records`, `evidenceFile`: the three readers.
* `Plain`: what a file holds after any appends. `texts_write`: what one append adds to its lines.
* `evidence_survives`: what is read after any appends and crashes.
-/

namespace Dendra.Season.EvidenceFile

/-! ## Appending -/

/-- A dict of what JSON has: no key twice, and a float by the text that it is written with. -/
structure Record where
  fields : List (Str × Json)
  wf : (Json.obj fields).Wf

/-- `TYPES`. -/
def types : List Str :=
  ["payout".toList, "work_answer".toList, "work_grade".toList, "work_sealed".toList, "capacity".toList]

/-- The type of the record is one that the evidence has. -/
def Record.known (r : Record) : Bool :=
  match Json.get? r.fields "type".toList with
  | some (.str t) => decide (t ∈ types)
  | _ => false

/-- `dict(record, day=int(day))`, as it is written and read: its keys in order. -/
def Record.filed (r : Record) (day : Int) : Json := (Json.obj (Json.setField r.fields "day".toList (.int day))).sortKeys

/-- The text of a line. -/
def Record.text (r : Record) (day : Int) : Str := Json.dump true (r.filed day)

def newline : UInt8 := 10

/-- What closes a last line that was torn. -/
def repair (file : List UInt8) : List UInt8 :=
  if file = [] then [] else if file.getLast? = some newline then [] else [newline]

/-- How an append ends: it is complete; the service dies before it writes anything; or it dies after some bytes of
the line, with the torn line before it closed. -/
inductive Fate
  | completed
  | lost
  | cut (n : Nat)
  deriving DecidableEq

/-- What of the line is written. -/
def Fate.written {α : Type} (fate : Fate) (line : List α) : List α :=
  match fate with
  | .completed => line
  | .lost => []
  | .cut n => line.take n

/-- The file after an append. -/
def write (fate : Fate) (file line : List UInt8) : List UInt8 :=
  match fate with
  | .lost => file
  | _ => file ++ repair file ++ fate.written line

/-- The whole text of the line was written, its newline or not. -/
def Fate.whole (fate : Fate) (length : Nat) : Bool :=
  match fate with
  | .completed => true
  | .lost => false
  | .cut n => decide (length ≤ n)

/-- A call of `Evidence.append`. -/
structure Append where
  day : Int
  record : Record
  fate : Fate

/-- The record that the call leaves in the file of a day: that of a complete append, or one whose text was written. -/
def Append.kept (day : Int) (a : Append) : Option Json :=
  if a.day = day ∧ a.record.known = true ∧ a.fate.whole (a.record.text a.day).length = true then
    some (a.record.filed a.day)
  else none

/-- The call leaves a cut line in the file of a day, not empty and no complete JSON. -/
def Append.torn (day : Int) (a : Append) : Bool :=
  match a.fate with
  | .cut n =>
    decide (a.day = day) && a.record.known && decide ((a.record.text a.day).take n ≠ []) &&
      (Json.loads ((a.record.text a.day).take n)).isNone
  | _ => false

/-- `Evidence.append`. A record of no known type is refused. -/
def append (files : Int → List UInt8) (a : Append) : Int → List UInt8 :=
  if a.record.known then
    Function.update files a.day (write a.fate (files a.day) ((a.record.text a.day).utf8 ++ [newline]))
  else files

/-- The files after some calls. -/
def run (calls : List Append) : Int → List UInt8 := calls.foldl append fun _ => []

/-! ## Reading -/

/-- `str.isspace`, of one character. -/
def isSpace (c : Char) : Bool := Str.isSpace c || decide (0x1c ≤ c.toNat ∧ c.toNat ≤ 0x1f)

/-- `s.strip()`. -/
def strip (s : Str) : Str := ((s.dropWhile isSpace).reverse.dropWhile isSpace).reverse

/-- The ends of lines as text mode reads them. -/
def universalNewlines : Str → Str
  | '\r' :: '\n' :: s => '\n' :: universalNewlines s
  | '\r' :: s => '\n' :: universalNewlines s
  | c :: s => c :: universalNewlines s
  | [] => []

/-- The lines of a file in text mode. -/
def textLines (s : Str) : List Str := (universalNewlines s).splitOn '\n'

/-- The characters that end a line for `splitlines`. -/
def isLineBreak (c : Char) : Bool :=
  decide (c = '\n' ∨ c = '\x0b' ∨ c = '\x0c' ∨ c = '\x1c' ∨ c = '\x1d' ∨ c = '\x1e' ∨ c = '\u0085' ∨
    c = '\u2028' ∨ c = '\u2029')

/-- `s.splitlines()`, but for an empty line at the end, which no reader counts. -/
def splitLines (s : Str) : List Str := (universalNewlines s).splitOnP isLineBreak

/-- The record that says how many lines could not be read. -/
def unreadableLines (day : Int) (count : Nat) : Json :=
  .obj [("type".toList, .str "_unreadable_lines".toList), ("count".toList, .int count), ("day".toList, .int day)]

/-- The records of some lines, and how many of them could not be read. -/
def readLines (day : Int) (lines : List Str) : List Json :=
  let texts := (lines.map strip).filter fun t => decide (t ≠ [])
  let bad := texts.countP fun t => (Json.loads t).isNone
  texts.filterMap Json.loads ++ if bad = 0 then [] else [unreadableLines day bad]

/-- `Evidence.read`. -/
def evidenceRead (day : Int) (file : List UInt8) : Option (List Json) :=
  (Json.decodeUtf8 file).map fun s => readLines day (textLines s)

/-- `_records`, of one file. -/
def records (day : Int) (file : List UInt8) : Option (List Json) :=
  (Json.decodeUtf8 file).map fun s => readLines day (splitLines s)

/-- `_evidence_file`, of a file that exists. -/
def evidenceFile (day : Int) (file : List UInt8) : Option (List Json) :=
  (Json.decodeUtf8 file).map fun s => readLines day (textLines s)

/-! ## Plain files -/

section Plain

variable {s t : Str}

/-- What a file of the evidence holds: printable ASCII and newlines. -/
def Plain (s : Str) : Prop := ∀ c ∈ s, c = '\n' ∨ Json.isPrintable c = true

theorem Plain.append (hs : Plain s) (ht : Plain t) : Plain (s ++ t) := by
  intro c hc
  obtain hc | hc := List.mem_append.1 hc
  · exact hs c hc
  · exact ht c hc

theorem plain_newline : Plain ['\n'] := fun _ hc => .inl (List.mem_singleton.1 hc)

/-- A plain character is one byte. -/
theorem Plain.utf8 (hs : Plain s) : s.utf8 = s.map fun c => UInt8.ofNat c.toNat := by
  induction s with
  | nil => rfl
  | cons c s ih =>
    have hc : c.toNat < 127 := by
      obtain rfl | hc := hs c List.mem_cons_self
      · decide
      · exact (of_decide_eq_true hc).2
    have hsize : c.utf8Size = 1 := Char.utf8Size_eq_one_iff.2 (UInt32.le_iff_toNat_le.2 (by
      change c.toNat ≤ 127
      omega))
    rw [Str.utf8, List.flatMap_cons, String.utf8EncodeChar_eq_singleton hsize]
    exact congrArg (_ :: ·) (ih fun d hd => hs d (List.mem_cons_of_mem c hd))

theorem utf8_append (s t : Str) : (s ++ t).utf8 = s.utf8 ++ t.utf8 := List.flatMap_append

theorem universalNewlines_of_plain (hs : Plain s) : universalNewlines s = s := by
  induction s with
  | nil => rfl
  | cons c s ih =>
    have hc : c ≠ '\r' := by
      rintro rfl
      obtain h | h := hs _ List.mem_cons_self <;> exact absurd h (by decide)
    have hstep : universalNewlines (c :: s) = c :: universalNewlines s := by
      conv_lhs => unfold universalNewlines
      split
      · next heq => exact absurd (List.cons.inj heq).1 hc
      · next heq => exact absurd (List.cons.inj heq).1 hc
      · next heq =>
        obtain ⟨rfl, rfl⟩ := List.cons.inj heq
        rfl
      · next heq => cases heq
    rw [hstep, ih fun d hd => hs d (List.mem_cons_of_mem c hd)]

theorem splitOnP_congr {p q : Char → Bool} (h : ∀ c ∈ s, p c = q c) : s.splitOnP p = s.splitOnP q := by
  induction s with
  | nil => rfl
  | cons c s ih =>
    rw [List.splitOnP_cons_eq_if_modifyHead, List.splitOnP_cons_eq_if_modifyHead, h c List.mem_cons_self,
      ih fun d hd => h d (List.mem_cons_of_mem c hd)]

/-- All readers split a plain file into the same lines. -/
theorem splitLines_of_plain (hs : Plain s) : splitLines s = textLines s := by
  unfold splitLines textLines
  rw [universalNewlines_of_plain hs, List.splitOn]
  refine splitOnP_congr fun c hc => ?_
  obtain rfl | hc := hs c hc
  · rfl
  · obtain ⟨hlow, hhigh⟩ := of_decide_eq_true hc
    have hne (d : Char) (hd : d.toNat < 32 ∨ 127 ≤ d.toNat) : c ≠ d := by
      rintro rfl
      omega
    have hbreak : isLineBreak c = false := by
      refine decide_eq_false ?_
      rintro (h | h | h | h | h | h | h | h | h) <;> exact hne _ (by decide) h
    rw [hbreak]
    exact (beq_eq_false_iff_ne.2 (hne '\n' (by decide))).symm

/-! ## The texts of a file -/

/-- The lines of a file that are not empty. -/
def texts (s : Str) : List Str := ((s.splitOn '\n').map strip).filter fun t => decide (t ≠ [])

theorem readLines_textLines (day : Int) (hs : Plain s) : readLines day (textLines s) =
    (texts s).filterMap Json.loads ++
      if (texts s).countP (fun t => (Json.loads t).isNone) = 0 then []
      else [unreadableLines day ((texts s).countP fun t => (Json.loads t).isNone)] := by
  unfold textLines
  rw [universalNewlines_of_plain hs]
  rfl

theorem texts_nil : texts [] = [] := rfl

/-- A newline ends the lines before it. -/
theorem texts_append (s t : Str) : texts (s ++ '\n' :: t) = texts s ++ texts t := by
  unfold texts
  rw [List.splitOn_append_cons_self, List.map_append, List.filter_append]

/-- The one line of a text with no newline. -/
theorem texts_line (h : '\n' ∉ t) : texts t = if strip t = [] then [] else [strip t] := by
  have hone : t.splitOn '\n' = [t] := by
    refine List.splitOnP_eq_singleton fun c hc => ?_
    rw [beq_eq_false_iff_ne]
    rintro rfl
    exact h hc
  unfold texts
  rw [hone]
  by_cases hs : strip t = []
  · rw [if_pos hs, List.map_singleton, List.filter_singleton, hs]
    rfl
  · rw [if_neg hs, List.map_singleton, List.filter_singleton, decide_eq_true hs]
    rfl

/-- What closes a torn last line, as text. -/
def closing (s : Str) : Str := if s = [] then [] else if s.getLast? = some '\n' then [] else ['\n']

theorem repair_utf8 (hs : Plain s) : repair s.utf8 = (closing s).utf8 := by
  unfold repair closing
  by_cases hnil : s = []
  · subst hnil
    rfl
  · have hnil' : s.utf8 ≠ [] := by
      rw [hs.utf8]
      simpa using hnil
    rw [if_neg hnil', if_neg hnil]
    have hlast : s.utf8.getLast? = some newline ↔ s.getLast? = some '\n' := by
      rw [hs.utf8, List.getLast?_map]
      obtain ⟨c, hc⟩ : ∃ c, s.getLast? = some c := ⟨_, List.getLast?_eq_some_getLast hnil⟩
      rw [hc, Option.map_some, Option.some.injEq, Option.some.injEq]
      constructor
      · intro heq
        obtain h | h := hs c (List.mem_of_getLast? hc)
        · exact h
        · obtain ⟨hlow, hhigh⟩ := of_decide_eq_true h
          have hval := congrArg UInt8.toNat heq
          rw [UInt8.toNat_ofNat'] at hval
          change c.toNat % 256 = 10 at hval
          omega
      · rintro rfl
        rfl
    by_cases hl : s.getLast? = some '\n'
    · rw [if_pos (hlast.2 hl), if_pos hl]
      rfl
    · rw [if_neg (fun h => hl (hlast.1 h)), if_neg hl]
      rfl

theorem plain_closing (s : Str) : Plain (closing s) := by
  unfold closing
  split_ifs
  · exact fun _ hc => nomatch hc
  · exact fun _ hc => nomatch hc
  · exact plain_newline

/-- After its torn line is closed, a file is empty or ends in a newline. -/
theorem closed_cases (s : Str) : s ++ closing s = [] ∧ texts s = [] ∨
    ∃ u, s ++ closing s = u ++ ['\n'] ∧ texts u = texts s := by
  unfold closing
  by_cases hnil : s = []
  · subst hnil
    exact .inl ⟨rfl, rfl⟩
  · rw [if_neg hnil]
    by_cases hl : s.getLast? = some '\n'
    · rw [if_pos hl, List.append_nil]
      obtain ⟨u, rfl⟩ := List.getLast?_eq_some_iff.1 hl
      refine .inr ⟨u, rfl, ?_⟩
      rw [texts_append, texts_nil, List.append_nil]
    · rw [if_neg hl]
      exact .inr ⟨s, rfl, rfl⟩

/-- **What an append adds.** The lines of a file that is closed and added to are those that it had and those that are
added. -/
theorem texts_write (s t : Str) : texts (s ++ closing s ++ t) = texts s ++ texts t := by
  obtain ⟨hnil, htexts⟩ | ⟨u, hu, htexts⟩ := closed_cases s
  · rw [hnil, htexts]
    rfl
  · rw [hu, List.append_assoc, List.singleton_append, texts_append, htexts]

theorem Plain.take (hs : Plain s) (n : Nat) : Plain (s.take n) := fun c hc => hs c (List.mem_of_mem_take hc)

theorem Plain.utf8_take (hs : Plain s) (n : Nat) : s.utf8.take n = Str.utf8 (s.take n) := by
  rw [hs.utf8, (hs.take n).utf8, List.map_take]

/-- A text that starts with no blank is stripped at its end. -/
theorem strip_of_head {c : Char} (h : isSpace c = false) (t : Str) : ∃ w, c :: t = strip (c :: t) ++ w := by
  refine ⟨((c :: t).reverse.takeWhile isSpace).reverse, ?_⟩
  unfold strip
  rw [List.dropWhile_cons_of_neg (by simpa using h), ← List.reverse_append, List.takeWhile_append_dropWhile,
    List.reverse_reverse]

theorem strip_ne_nil {c : Char} (h : isSpace c = false) (t : Str) : strip (c :: t) ≠ [] := by
  unfold strip
  rw [List.dropWhile_cons_of_neg (by simpa using h)]
  intro hnil
  rw [List.reverse_eq_nil_iff, List.dropWhile_eq_nil_iff] at hnil
  exact absurd (hnil c (List.mem_reverse.2 List.mem_cons_self)) (by simp [h])

end Plain

/-! ## The text of a record -/

section Text

variable {r : Record} {day : Int} {n : Nat}

theorem Record.wf_filed (r : Record) (day : Int) : (r.filed day).Wf :=
  Json.wf_sortKeys _ (Json.wf_setField r.wf trivial)

theorem Record.printable (r : Record) (day : Int) : ∀ c ∈ r.text day, Json.isPrintable c = true :=
  Json.isPrintable_dump _ (r.wf_filed day)

theorem Record.plain_text (r : Record) (day : Int) : Plain (r.text day) := fun c hc => .inr (r.printable day c hc)

theorem Record.newline_notMem (r : Record) (day : Int) : '\n' ∉ r.text day := fun h =>
  absurd (r.printable day _ h) (by decide)

/-- The text is that of an object. -/
theorem Record.text_eq (r : Record) (day : Int) : ∃ t, r.text day = '\x7b' :: (t ++ ['\x7d']) := ⟨_, rfl⟩

theorem Record.strip_text (r : Record) (day : Int) : strip (r.text day) = r.text day := by
  obtain ⟨t, ht⟩ := r.text_eq day
  rw [ht]
  unfold strip
  rw [List.dropWhile_cons_of_neg (by decide), List.reverse_cons, List.reverse_append, List.reverse_singleton,
    List.singleton_append, List.cons_append, List.dropWhile_cons_of_neg (by decide)]
  simp

theorem Record.loads_text (r : Record) (day : Int) : Json.loads (r.text day) = some (r.filed day) :=
  Json.loads_dump true (r.wf_filed day)

/-- A part of the text, and blanks cut off it, is no JSON. -/
theorem Record.loads_part {p q : Str} (h : p ++ q = r.text day) (hq : q ≠ []) : Json.loads p = none := by
  by_contra hne
  obtain ⟨w, hw⟩ := Option.ne_none_iff_exists'.1 hne
  exact hq (Json.eq_nil_of_loads (r.wf_filed day) h hw)

/-- What is read of a text that is cut. -/
theorem Record.texts_take (r : Record) (day : Int) (n : Nat) :
    (texts ((r.text day).take n)).filterMap Json.loads =
        (if (r.text day).length ≤ n then [r.filed day] else []) ∧
      (texts ((r.text day).take n)).countP (fun t => (Json.loads t).isNone) =
        if (r.text day).take n ≠ [] ∧ Json.loads ((r.text day).take n) = none then 1 else 0 := by
  have hline (n : Nat) : texts ((r.text day).take n) =
      if strip ((r.text day).take n) = [] then [] else [strip ((r.text day).take n)] :=
    texts_line fun h => r.newline_notMem day (List.mem_of_mem_take h)
  obtain ⟨t, ht⟩ := r.text_eq day
  by_cases hlen : (r.text day).length ≤ n
  · have hwhole : (r.text day).take n = r.text day := List.take_of_length_le hlen
    have hne : r.text day ≠ [] := by
      rw [ht]
      exact List.cons_ne_nil _ _
    rw [hline n, hwhole, r.strip_text, if_neg hne, if_pos hlen, r.loads_text]
    simp [r.loads_text]
  · rw [if_neg hlen, hline n]
    cases n with
    | zero => exact ⟨rfl, rfl⟩
    | succ n =>
      -- the text starts, and does not end
      have hq : (r.text day).drop (n + 1) ≠ [] := by
        rw [ne_eq, List.drop_eq_nil_iff]
        exact hlen
      have hcut := List.take_append_drop (n + 1) (r.text day)
      have hpart := Record.loads_part hcut hq
      have hhead : (r.text day).take (n + 1) = '\x7b' :: (t ++ ['\x7d']).take n := by rw [ht, List.take_succ_cons]
      obtain ⟨w, hw⟩ := strip_of_head (c := '\x7b') (by decide) ((t ++ ['\x7d']).take n)
      have hstrip : Json.loads (strip ((r.text day).take (n + 1))) = none := by
        have hwhole : strip ((r.text day).take (n + 1)) ++ (w ++ (r.text day).drop (n + 1)) = r.text day := by
          rw [← List.append_assoc, hhead, ← hw, ← hhead, hcut]
        exact Record.loads_part hwhole (by simp [hq])
      have hne : strip ((r.text day).take (n + 1)) ≠ [] := by
        rw [hhead]
        exact strip_ne_nil (by decide) _
      rw [if_neg hne]
      refine ⟨by simp [hstrip], ?_⟩
      rw [if_pos ⟨by rw [hhead]; exact List.cons_ne_nil _ _, hpart⟩]
      simp [hstrip]

/-- The newline of a line ends its text. -/
theorem texts_written (fate : Fate) (t : Str) : texts (fate.written (t ++ ['\n'])) = texts (fate.written t) := by
  cases fate with
  | completed => exact (texts_append t []).trans (List.append_nil _)
  | lost => rfl
  | cut n =>
    change texts ((t ++ ['\n']).take n) = texts (t.take n)
    by_cases hn : n ≤ t.length
    · rw [List.take_append_of_le_length hn]
    · rw [List.take_of_length_le (by simp; omega), List.take_of_length_le (by omega), texts_append, texts_nil,
        List.append_nil]

theorem plain_written (fate : Fate) {t : Str} (ht : Plain t) : Plain (fate.written t) := by
  cases fate with
  | completed => exact ht
  | lost => exact fun _ hc => nomatch hc
  | cut n => exact ht.take n

theorem written_utf8 (fate : Fate) {t : Str} (ht : Plain t) : fate.written t.utf8 = Str.utf8 (fate.written t) := by
  cases fate with
  | completed => rfl
  | lost => rfl
  | cut n => exact ht.utf8_take n

/-- What is read of what an append writes. -/
theorem Append.texts_written (a : Append) (h : a.record.known = true) :
    (texts (a.fate.written (a.record.text a.day))).filterMap Json.loads = (a.kept a.day).toList ∧
      (texts (a.fate.written (a.record.text a.day))).countP (fun t => (Json.loads t).isNone) =
        if a.torn a.day then 1 else 0 := by
  obtain ⟨day, r, fate⟩ := a
  unfold Append.kept Append.torn
  dsimp only at h ⊢
  cases fate with
  | completed =>
    have hlen := r.texts_take day (r.text day).length
    rw [List.take_length, if_pos le_rfl] at hlen
    refine ⟨?_, ?_⟩
    · rw [if_pos ⟨rfl, h, rfl⟩]
      exact hlen.1
    · refine hlen.2.trans ?_
      rw [r.loads_text, if_neg (fun hand => nomatch hand.2)]
      rfl
  | lost =>
    refine ⟨?_, rfl⟩
    rw [if_neg (fun hand => nomatch hand.2.2)]
    rfl
  | cut n =>
    obtain ⟨hkept, htorn⟩ := r.texts_take day n
    refine ⟨hkept.trans ?_, htorn.trans ?_⟩
    · by_cases hn : (r.text day).length ≤ n
      · rw [if_pos hn, if_pos ⟨rfl, h, decide_eq_true hn⟩]
        rfl
      · rw [if_neg hn, if_neg (fun hand => hn (of_decide_eq_true hand.2.2))]
        rfl
    · simp [h]

end Text

/-! ## Any appends -/

/-- The file of a day says what its appends left. -/
structure Says (day : Int) (calls : List Append) (s : Str) : Prop where
  plain : Plain s
  kept : (texts s).filterMap Json.loads = calls.filterMap (Append.kept day)
  torn : (texts s).countP (fun t => (Json.loads t).isNone) = calls.countP (Append.torn day)

section Runs

variable {day : Int} {calls : List Append} {s : Str}

/-- A call that leaves nothing in the file of the day. -/
theorem Says.other (h : Says day calls s) {a : Append} (hkept : a.kept day = none) (htorn : a.torn day = false) :
    Says day (calls ++ [a]) s := by
  refine ⟨h.plain, ?_, ?_⟩
  · rw [h.kept, List.filterMap_append, List.filterMap_cons_none hkept, List.filterMap_nil, List.append_nil]
  · rw [h.torn, List.countP_append, List.countP_singleton, htorn]
    rfl

/-- The file after an append, as text. -/
def writeText (fate : Fate) (s line : Str) : Str :=
  match fate with
  | .lost => s
  | _ => s ++ closing s ++ fate.written line

theorem writeText_cases (fate : Fate) (s line : Str) : fate = .lost ∧ writeText fate s line = s ∨
    writeText fate s line = s ++ closing s ++ fate.written line := by
  cases fate with
  | lost => exact .inl ⟨rfl, rfl⟩
  | completed => exact .inr rfl
  | cut n => exact .inr rfl

theorem write_utf8 (fate : Fate) {line : Str} (hs : Plain s) (hline : Plain line) :
    write fate s.utf8 line.utf8 = (writeText fate s line).utf8 := by
  have hwrite : s.utf8 ++ repair s.utf8 ++ fate.written line.utf8 =
      Str.utf8 (s ++ closing s ++ fate.written line) := by
    rw [repair_utf8 hs, written_utf8 fate hline, utf8_append, utf8_append]
  cases fate with
  | lost => rfl
  | completed => exact hwrite
  | cut n => exact hwrite

/-- What one append leaves. -/
theorem Says.write {a : Append} (h : Says a.day calls s) (hknown : a.record.known = true) :
    Says a.day (calls ++ [a]) (writeText a.fate s (a.record.text a.day ++ ['\n'])) := by
  have hline := (a.record.plain_text a.day).append plain_newline
  have htexts : texts (writeText a.fate s (a.record.text a.day ++ ['\n'])) =
      texts s ++ texts (a.fate.written (a.record.text a.day)) := by
    obtain ⟨hlost, heq⟩ | heq := writeText_cases a.fate s (a.record.text a.day ++ ['\n'])
    · rw [heq, hlost]
      exact (List.append_nil _).symm
    · rw [heq, texts_write, EvidenceFile.texts_written]
  have hplain : Plain (writeText a.fate s (a.record.text a.day ++ ['\n'])) := by
    obtain ⟨-, heq⟩ | heq := writeText_cases a.fate s (a.record.text a.day ++ ['\n'])
    · rw [heq]
      exact h.plain
    · rw [heq]
      exact (h.plain.append (plain_closing s)).append (plain_written a.fate hline)
  obtain ⟨hkept, htorn⟩ := a.texts_written hknown
  refine ⟨hplain, ?_, ?_⟩
  · rw [htexts, List.filterMap_append, h.kept, hkept, List.filterMap_append]
    cases hk : a.kept a.day <;> simp [hk]
  · rw [htexts, List.countP_append, h.torn, htorn, List.countP_append, List.countP_singleton]

/-- What any appends leave. -/
theorem says_run (calls : List Append) (day : Int) : ∃ s : Str, run calls day = s.utf8 ∧ Says day calls s := by
  induction calls using List.reverseRecOn with
  | nil => exact ⟨[], rfl, fun _ hc => (nomatch hc), rfl, rfl⟩
  | append_singleton l a ih =>
    obtain ⟨s, hs, hsays⟩ := ih
    rw [run, List.foldl_append]
    change ∃ s : Str, append (run l) a day = s.utf8 ∧ Says day (l ++ [a]) s
    unfold append
    by_cases hknown : a.record.known = true
    · rw [if_pos hknown]
      by_cases hday : a.day = day
      · subst hday
        refine ⟨writeText a.fate s (a.record.text a.day ++ ['\n']), ?_, hsays.write hknown⟩
        have hline := (a.record.plain_text a.day).append plain_newline
        rw [Function.update_self, hs, ← write_utf8 a.fate hsays.plain hline, utf8_append]
        rfl
      · refine ⟨s, ?_, hsays.other ?_ ?_⟩
        · rw [Function.update_of_ne (Ne.symm hday), hs]
        · exact if_neg fun hand => hday hand.1
        · unfold Append.torn
          split
          · simp [hday]
          · rfl
    · rw [if_neg hknown]
      refine ⟨s, hs, hsays.other ?_ ?_⟩
      · exact if_neg fun hand => hknown hand.2.1
      · unfold Append.torn
        split
        · simp [hknown]
        · rfl

/-- **The evidence survives crashes.** After any appends, any of them cut after any number of bytes, all three readers
of a day find the records of the complete appends, in order, and those whose whole text was written before the cut;
and they count the cut lines that are neither empty nor complete JSON. -/
theorem evidence_survives (calls : List Append) (day : Int) :
    let kept := calls.filterMap (Append.kept day)
    let count := calls.countP (Append.torn day)
    let found := kept ++ if count = 0 then [] else [unreadableLines day count]
    evidenceRead day (run calls day) = some found ∧ records day (run calls day) = some found ∧
      evidenceFile day (run calls day) = some found := by
  obtain ⟨s, hs, hsays⟩ := says_run calls day
  have hread : readLines day (textLines s) = calls.filterMap (Append.kept day) ++
      if calls.countP (Append.torn day) = 0 then [] else [unreadableLines day (calls.countP (Append.torn day))] := by
    rw [readLines_textLines day hsays.plain, hsays.kept, hsays.torn]
  dsimp only
  rw [hs]
  unfold evidenceRead records evidenceFile
  rw [Json.decodeUtf8_utf8, Option.map_some, Option.map_some, splitLines_of_plain hsays.plain, hread]
  exact ⟨rfl, rfl, rfl⟩

end Runs

end Dendra.Season.EvidenceFile
