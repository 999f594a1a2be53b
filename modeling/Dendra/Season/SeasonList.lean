import Dendra.Season.Payer
import Dendra.Lib.Tally

/-!
# The season's list

Once the season is ranked to its end, its payments are read back from the chain and reconciled with the rankings
and with the frozen amendments: the list of what each address was paid is written, or nothing is.

* `bookParts`, `checkParts`: the parts on chain, none twice, against the parts of one plan.
* `seasonList`: the weeks, the amendments, and the two sums.
* `PartPaid`, `plannedWeeks`, `plannedAmendments`: a part with its transfers, and those that are planned.
* `seasonList_exact`: a list is written only of a season that was paid exactly as planned, and says what was sent.
-/

namespace Dendra.Season.SeasonList

/-! ## The code -/

/-- A transaction of the payout account whose memo names a week, or an amendment: its number, the digest of its plan
and its part, with the transfers in the order of the messages. -/
structure Transfer where
  number : Nat
  plan : Str
  part : Nat
  txhash : Str
  sends : List (Str × Int)
  deriving DecidableEq

/-- A frozen amendment: `(id, doc, digest)`, and the decision that its file names. -/
structure Frozen where
  doc : Amendment
  digest : Str
  decision : Str

/-- Why no list is written. -/
inductive ListRefusal
  | day (v : Violation)
  | doubledFrom
  | notAWeek (week : Nat)
  | paidTwice (number part : Nat)
  | noAddress (week : Nat)
  | otherPlan (number : Nat) (parts : List Nat)
  | notAsPlanned (number : Nat) (missing extra : List Nat)
  | altered (number part : Nat)
  | stray (amendments : List Nat)
  | amendment (number : Nat) (why : AmendRefusal)
  | sent
  | ranked

abbrev OnChain : Type := Ordered (Nat × Nat) Transfer

/-- `on_chain`: the transactions by number and part. -/
def bookParts (known : Nat → Bool) : List Transfer → OnChain → Except ListRefusal OnChain
  | [], onChain => .ok onChain
  | t :: l, onChain =>
    if !known t.number then .error (.notAWeek t.number)
    else if onChain.has (t.number, t.part) then .error (.paidTwice t.number t.part)
    else bookParts known l (onChain.set (t.number, t.part) t)

/-- The transfers of the parts, one by one: the hashes of the transactions. -/
def readParts (number : Nat) (onChain : OnChain) : Nat → List (List (Str × Int)) → Except ListRefusal (List Str)
  | _, [] => .ok []
  | i, chunk :: chunks =>
    match onChain.get? (number, i) with
    | none => .error (.notAsPlanned number [i] [])
    | some t =>
      if t.sends ≠ chunk then .error (.altered number i)
      else (readParts number onChain (i + 1) chunks).map (t.txhash :: ·)

/-- The parts on chain of a week or an amendment, against `chunks`, its parts, under its digest. -/
def checkParts (number : Nat) (digest : Str) (chunks : List (List (Str × Int))) (onChain : OnChain) :
    Except ListRefusal (List Str) :=
  let found := onChain.items.filter fun e => decide (e.1.1 = number)
  let other := found.filter fun e => decide (e.2.plan ≠ digest)
  let missing := (List.range chunks.length).filter fun i => !onChain.has (number, i)
  let extra := found.filter fun e => decide (chunks.length ≤ e.1.2)
  if other ≠ [] then .error (.otherPlan number ((other.map fun e => e.1.2).insertionSort (· ≤ ·)))
  else if missing ≠ [] ∨ extra ≠ [] then
    .error (.notAsPlanned number missing ((extra.map fun e => e.1.2).insertionSort (· ≤ ·)))
  else readParts number onChain 0 chunks

structure WeekPayment where
  week : Nat
  plan : Str
  txs : List Str

structure AmendmentPayment where
  id : Nat
  plan : Str
  decision : Str
  total : Int
  txs : List Str

/-- What the loops add up. -/
structure Sums where
  listed : Ordered Str Int
  aside : Ordered Str Int
  payments : List WeekPayment
  amended : Int
  amendments : List AmendmentPayment

def Sums.zero : Sums := ⟨.empty, .empty, [], 0, []⟩

/-- The list. -/
structure Document where
  payer : Str
  seasonEndHeight : Int
  lastDay : Int
  paid : List (Str × Int)
  totalPaid : Int
  setAside : List (Str × Int)
  totalSetAside : Int
  rankingsTotalPaid : Int
  rankingsSha256 : List (Str × Str)
  payments : List WeekPayment
  amendments : List AmendmentPayment
  totalAmended : Int

/-- `for a, v in l.items(): out[a] = out.get(a, 0) + v`. -/
def addAll (out : Ordered Str Int) (l : List (Str × Int)) : Ordered Str Int := l.foldl addTo out

/-- The dictionaries are equal. -/
def sameDict (d e : Ordered Str Int) : Bool :=
  d.items.all (fun x => decide (e.get? x.1 = some x.2)) && e.items.all fun x => decide (d.get? x.1 = some x.2)

/-- The weeks of the season: `last // 7 + 1`. -/
def weeksOf (days : List DayResult) : Nat := (((days.length : Int) - 1) / 7 + 1).toNat

/-- The plan of a week: what is sent, and what is set aside. -/
def planOf (payableAddress : Str → Bool) (days : List DayResult) (k : Nat) :
    Option (List (Str × Int) × List (Str × Int)) :=
  (weekDays k (some (days.length - 1))).bind fun wd => weekPlan payableAddress (wd.filterMap fun d => days[d]?)

variable (keys : Keys) (payableAddress : Str → Bool) (planDigest : List (Str × Int) → Str)

/-- One week. -/
def weekStep (days : List DayResult) (onChain : OnChain) (s : Sums) (k : Nat) : Except ListRefusal Sums :=
  match planOf payableAddress days k with
  | none => .error (.noAddress k)
  | some (payable, aside) =>
    (checkParts k (planDigest payable) (partsOf payable) onChain).map fun txs =>
      { s with
        listed := addAll s.listed payable
        aside := addAll s.aside aside
        payments := s.payments ++ [⟨k, planDigest payable, txs⟩] }

/-- One amendment. The last of an id counts, as in the dictionary that the code makes of them. -/
def amendStep (days : List DayResult) (amendments : List Frozen) (onChain : OnChain) (s : Sums) (a : Frozen) :
    Except ListRefusal Sums :=
  match amendmentRefusal keys a.doc.id (amendments.map Frozen.doc).reverse days with
  | some why => .error (.amendment a.doc.id why)
  | none =>
    (checkParts a.doc.id a.digest (partsOf (amendmentPayable a.doc)) onChain).map fun txs =>
      { s with
        listed := addAll s.listed (amendmentPayable a.doc)
        amended := s.amended + total (amendmentPayable a.doc)
        amendments := s.amendments ++ [⟨a.doc.id, a.digest, a.decision, total (amendmentPayable a.doc), txs⟩] }

/-- `_amendments_paid`. -/
def amendmentsPaid (days : List DayResult) (amendments : List Frozen) (amended : List Transfer) (s : Sums) :
    Except ListRefusal Sums := do
  let onChain ← bookParts (fun _ => true) amended .empty
  let stray := onChain.items.filter fun e => decide (e.1.1 ∉ amendments.map fun a => a.doc.id)
  if stray ≠ [] then .error (.stray ((stray.map fun e => e.1.1).dedup.insertionSort (· ≤ ·)))
  else amendments.foldlM (amendStep keys days amendments onChain) s

/-- What some transactions sent, transfer by transfer. -/
def sendsOf (l : List Transfer) : List (Str × Int) := l.flatMap Transfer.sends

/-- `season_list`. -/
def seasonList (days : List DayResult) (digests : List (Str × Str)) (endHeight : Int) (transfers : List Transfer)
    (doubledFrom : Option Nat) (payer : Str) (amendments : List Frozen) (amended : List Transfer) :
    Except ListRefusal Document :=
  match checkDays keys days with
  | some v => .error (.day v)
  | none =>
    if !doubledFromOk keys days doubledFrom then .error .doubledFrom
    else do
      let onChain ← bookParts (fun n => decide (n < weeksOf days)) transfers .empty
      let weeks ← (List.range (weeksOf days)).foldlM (weekStep payableAddress planDigest days onChain) .zero
      let s ← amendmentsPaid keys days amendments amended weeks
      let sent := byAddress (sendsOf (transfers ++ amended))
      let ranked := (days.map DayResult.totalPaid).sum
      if total s.listed.items ≠ total sent.items ∨ !sameDict sent s.listed then .error .sent
      else if total s.listed.items - s.amended + total s.aside.items ≠ ranked then .error .ranked
      else
        .ok
          { payer
            seasonEndHeight := endHeight
            lastDay := (days.length : Int) - 1
            paid := sortItems s.listed.items
            totalPaid := total s.listed.items
            setAside := sortItems s.aside.items
            totalSetAside := total s.aside.items
            rankingsTotalPaid := ranked
            rankingsSha256 := digests.insertionSort fun a b => a.1 ≤ b.1
            payments := s.payments
            amendments := s.amendments
            totalAmended := s.amended }

/-! ## What is planned -/

/-- A part of a week, or of an amendment: its plan and its transfers. -/
structure PartPaid where
  number : Nat
  plan : Str
  part : Nat
  sends : List (Str × Int)

def Transfer.asPart (t : Transfer) : PartPaid := ⟨t.number, t.plan, t.part, t.sends⟩

def Transfer.key (t : Transfer) : Nat × Nat := (t.number, t.part)

/-- The parts of one plan. -/
def plannedParts (number : Nat) (digest : Str) (chunks : List (List (Str × Int))) : List PartPaid :=
  chunks.zipIdx.map fun e => ⟨number, digest, e.2, e.1⟩

structure WeekPlan where
  week : Nat
  payable : List (Str × Int)
  aside : List (Str × Int)

/-- The plans of the weeks. `none` where a row is paid with no address. -/
def weekPlans (days : List DayResult) : Option (List WeekPlan) :=
  (List.range (weeksOf days)).mapM fun k => (planOf payableAddress days k).map fun p => ⟨k, p.1, p.2⟩

def WeekPlan.parts (w : WeekPlan) : List PartPaid := plannedParts w.week (planDigest w.payable) (partsOf w.payable)

def Frozen.parts (a : Frozen) : List PartPaid := plannedParts a.doc.id a.digest (partsOf (amendmentPayable a.doc))

/-- What `l` has for an address. -/
def amountOf (l : List (Str × Int)) (address : Str) : Int :=
  ((l.filter fun e => decide (e.1 = address)).map Prod.snd).sum

/-! ## The parts on chain -/

section Parts

variable {number : Nat} {digest : Str} {chunks : List (List (Str × Int))} {onChain onChain' : OnChain}
  {l : List Transfer} {known : Nat → Bool} {txs : List Str} {p : PartPaid}

theorem mem_plannedParts : p ∈ plannedParts number digest chunks ↔
    p.number = number ∧ p.plan = digest ∧ chunks[p.part]? = some p.sends := by
  unfold plannedParts
  rw [List.mem_map]
  constructor
  · rintro ⟨⟨chunk, i⟩, he, rfl⟩
    exact ⟨rfl, rfl, List.mem_zipIdx_iff_getElem?.1 he⟩
  · rintro ⟨rfl, rfl, hp⟩
    exact ⟨(p.sends, p.part), List.mem_zipIdx_iff_getElem?.2 hp, rfl⟩

/-- What is booked: transactions of known numbers, no part twice. -/
theorem bookParts_ok (h : bookParts known l onChain = .ok onChain') :
    (∀ t ∈ l, known t.number = true) ∧ (l.map Transfer.key).Nodup ∧
      (∀ t ∈ l, onChain.get? t.key = none) ∧
      ∀ k t, onChain'.get? k = some t ↔ onChain.get? k = some t ∨ t ∈ l ∧ t.key = k := by
  induction l generalizing onChain with
  | nil =>
    cases h
    simp
  | cons t l ih =>
    unfold bookParts at h
    split at h
    · cases h
    next hknown =>
      split at h
      · cases h
      next hhas =>
        obtain ⟨hall, hnodup, hfree, hget⟩ := ih h
        have hnone : onChain.get? t.key = none := by
          rw [Ordered.has_eq_isSome] at hhas
          simpa [Transfer.key] using hhas
        have hset (k : Nat × Nat) : (onChain.set (t.number, t.part) t).get? k =
            if k = t.key then some t else onChain.get? k := Ordered.get?_set
        refine ⟨List.forall_mem_cons.2 ⟨by simpa using hknown, hall⟩, ?_, ?_, fun k t' => ?_⟩
        · rw [List.map_cons, List.nodup_cons]
          refine ⟨fun hmem => ?_, hnodup⟩
          obtain ⟨t', ht', hkey⟩ := List.mem_map.1 hmem
          have hfree' := hfree t' ht'
          rw [hset, if_pos hkey] at hfree'
          cases hfree'
        · refine List.forall_mem_cons.2 ⟨hnone, fun t' ht' => ?_⟩
          have hfree' := hfree t' ht'
          rw [hset] at hfree'
          split at hfree'
          · cases hfree'
          · exact hfree'
        · rw [hget, hset]
          by_cases hk : k = t.key
          · subst hk
            rw [if_pos rfl, hnone]
            simp only [Option.some.injEq, List.mem_cons, reduceCtorEq, false_or]
            constructor
            · rintro (rfl | ⟨hmem, hkey⟩)
              · exact ⟨.inl rfl, rfl⟩
              · exact ⟨.inr hmem, hkey⟩
            · rintro ⟨rfl | hmem, hkey⟩
              · exact .inl rfl
              · exact .inr ⟨hmem, hkey⟩
          · rw [if_neg hk]
            simp only [List.mem_cons]
            constructor
            · rintro (hget | ⟨hmem, hkey⟩)
              · exact .inl hget
              · exact .inr ⟨.inr hmem, hkey⟩
            · rintro (hget | ⟨rfl | hmem, hkey⟩)
              · exact .inl hget
              · exact absurd hkey.symm hk
              · exact .inr ⟨hmem, hkey⟩

theorem readParts_ok {i : Nat} (h : readParts number onChain i chunks = .ok txs) :
    ∀ j chunk, chunks[j]? = some chunk → ∃ t, onChain.get? (number, i + j) = some t ∧ t.sends = chunk := by
  induction chunks generalizing i txs with
  | nil => simp
  | cons c chunks ih =>
    unfold readParts at h
    split at h
    · cases h
    next t hget =>
      split at h
      · cases h
      next hsends =>
        cases hrest : readParts number onChain (i + 1) chunks with
        | error why =>
          rw [hrest] at h
          cases h
        | ok rest =>
          rintro (_ | j) chunk hj
          · obtain rfl : c = chunk := by simpa using hj
            exact ⟨t, hget, not_not.1 hsends⟩
          · obtain ⟨t', ht', hsends'⟩ := ih hrest j chunk (by simpa using hj)
            rw [Nat.add_assoc, Nat.add_comm 1] at ht'
            exact ⟨t', ht', hsends'⟩

/-- The parts on chain of a number are the parts of its plan. -/
theorem checkParts_ok (h : checkParts number digest chunks onChain = .ok txs)
    (hbook : ∀ k t, onChain.get? k = some t ↔ t ∈ l ∧ t.key = k) (hp : p.number = number) :
    p ∈ l.map Transfer.asPart ↔ p ∈ plannedParts number digest chunks := by
  unfold checkParts at h
  dsimp only at h
  split at h
  · cases h
  next hother =>
    split at h
    · cases h
    next hextra =>
      rw [not_not] at hother
      obtain ⟨-, hextra⟩ := not_or.1 hextra
      rw [not_not] at hextra
      have hread := readParts_ok h
      simp only [Nat.zero_add] at hread
      have hitem (t : Transfer) (ht : t ∈ l) (hnumber : t.number = number) :
          (t.key, t) ∈ onChain.items.filter fun e => decide (e.1.1 = number) :=
        List.mem_filter.2 ⟨Ordered.get?_eq_some.1 ((hbook _ _).2 ⟨ht, rfl⟩), decide_eq_true hnumber⟩
      have hplan (t : Transfer) (ht : t ∈ l) (hnumber : t.number = number) : t.plan = digest := by
        have hno := List.filter_eq_nil_iff.1 hother _ (hitem t ht hnumber)
        simpa using hno
      rw [mem_plannedParts, List.mem_map]
      constructor
      · rintro ⟨t, ht, rfl⟩
        have hpart : t.part < chunks.length := by
          have hno := List.filter_eq_nil_iff.1 hextra _ (hitem t ht hp)
          exact not_le.1 fun hle => hno (decide_eq_true hle)
        refine ⟨hp, hplan t ht hp, ?_⟩
        obtain ⟨t', ht', hsends⟩ := hread t.part chunks[t.part] (List.getElem?_eq_getElem hpart)
        have hkey : (number, t.part) = t.key := Prod.ext hp.symm rfl
        rw [hkey, (hbook _ _).2 ⟨ht, rfl⟩] at ht'
        obtain rfl := Option.some.inj ht'
        exact (List.getElem?_eq_getElem hpart).trans (congrArg some hsends.symm)
      · rintro ⟨-, hdigest, hchunk⟩
        obtain ⟨t, ht, hsends⟩ := hread p.part p.sends hchunk
        obtain ⟨hmem, hkey⟩ := (hbook _ _).1 ht
        obtain ⟨hnumber, hpart⟩ := Prod.mk.inj hkey
        refine ⟨t, hmem, ?_⟩
        unfold Transfer.asPart
        rw [hnumber, hplan t hmem hnumber, hpart, hsends, ← hp, ← hdigest]

end Parts

/-! ## The parts of a plan -/

section Amounts

variable {payable l : List (Str × Int)} {L : List (List (Str × Int))} {n b : Nat} {digest : Str} {p : PartPaid}

theorem total_append (l l' : List (Str × Int)) : total (l ++ l') = total l + total l' := by
  rw [total, List.map_append, List.sum_append]
  rfl

theorem total_flatten : total L.flatten = (L.map total).sum := by
  induction L with
  | nil => rfl
  | cons l L ih => rw [List.flatten_cons, total_append, ih, List.map_cons, List.sum_cons]

/-- Slices of `b` items, one after the other. -/
theorem flatten_slices (hl : l.length ≤ n * b) :
    ((List.range n).map fun i => (l.drop (i * b)).take b).flatten = l := by
  induction n generalizing l with
  | zero => exact (List.eq_nil_of_length_eq_zero (by omega)).symm
  | succ n ih =>
    have hrest : (l.drop b).length ≤ n * b := by
      rw [List.length_drop]
      rw [Nat.succ_mul] at hl
      omega
    rw [List.range_succ_eq_map, List.map_cons, List.flatten_cons, List.map_map]
    have hshift : ((fun i => (l.drop (i * b)).take b) ∘ Nat.succ) = fun i => ((l.drop b).drop (i * b)).take b := by
      funext i
      simp only [Function.comp, List.drop_drop, Nat.succ_eq_add_one, Nat.add_mul, Nat.one_mul, Nat.add_comm]
    rw [hshift, ih hrest, Nat.zero_mul, List.drop_zero, List.take_append_drop]

theorem flatten_partsOf (payable : List (Str × Int)) : (partsOf payable).flatten = payable := by
  refine flatten_slices ?_
  unfold batch
  omega

theorem total_plannedParts : ((plannedParts n digest (partsOf payable)).map fun p => total p.sends).sum =
    total payable := by
  conv_rhs => rw [← flatten_partsOf payable, total_flatten]
  unfold plannedParts
  rw [List.map_map]
  congr 1
  have h : ((fun p => total p.sends) ∘ fun e : List (Str × Int) × Nat => (⟨n, digest, e.2, e.1⟩ : PartPaid)) =
      total ∘ Prod.fst := rfl
  rw [h, ← List.map_map, List.zipIdx_map_fst]

/-- A part of a plan that pays something to everyone sends something. -/
theorem total_sends_pos (hpos : ∀ e ∈ payable, 0 < e.2) (hp : p ∈ plannedParts n digest (partsOf payable)) :
    0 < total p.sends := by
  obtain ⟨-, -, hchunk⟩ := mem_plannedParts.1 hp
  obtain ⟨i, hi, hsends⟩ := List.mem_map.1 (List.mem_of_getElem? hchunk)
  rw [List.mem_range, Nat.lt_div_iff_mul_lt (by decide)] at hi
  have hne : p.sends ≠ [] := by
    rw [← hsends]
    have hlen : ((payable.drop (i * batch)).take batch).length ≠ 0 := by
      rw [List.length_take, List.length_drop]
      unfold batch at *
      omega
    exact fun hnil => hlen (by rw [hnil]; rfl)
  refine List.sum_pos _ (fun v hv => ?_) (by simpa using hne)
  obtain ⟨e, he, rfl⟩ := List.mem_map.1 hv
  rw [← hsends] at he
  exact hpos e (List.mem_of_mem_drop (List.mem_of_mem_take he))

theorem byAddress_pos (h : ∀ e ∈ l, 0 < e.2) : ∀ e ∈ sortItems (byAddress l).items, 0 < e.2 := by
  intro e he
  rw [sortItems, List.mem_insertionSort] at he
  exact Ordered.forall_tally (P := fun v : Int => 0 < v) (fun _ _ => add_pos) h e he

theorem amendmentPayable_pos (a : Amendment) : ∀ e ∈ amendmentPayable a, 0 < e.2 := by
  refine byAddress_pos fun e he => ?_
  obtain ⟨row, hrow, rfl⟩ := List.mem_map.1 he
  exact a.udndr_pos row hrow

theorem planOf_pos {payableAddress : Str → Bool} {days : List DayResult} {k : Nat} {aside : List (Str × Int)}
    (h : planOf payableAddress days k = some (payable, aside)) : ∀ e ∈ payable, 0 < e.2 := by
  obtain ⟨wd, -, hplan⟩ := Option.bind_eq_some_iff.1 h
  obtain ⟨items, hitems, heq⟩ := Option.map_eq_some_iff.1 hplan
  obtain ⟨rows, hrows, rfl⟩ := Option.map_eq_some_iff.1 hitems
  obtain ⟨rfl, -⟩ := Prod.mk.inj heq
  intro e he
  refine byAddress_pos (fun e he => ?_) e (List.mem_filter.1 he).1
  rw [paidRows, mapM_eq_some] at hrows
  obtain ⟨x, hx, hxe⟩ := exists_of_forall₂ hrows he
  split at hxe
  · cases hxe
  · obtain rfl := Option.some.inj hxe
    exact of_decide_eq_true (List.mem_filter.1 hx).2

theorem amountOf_append (l l' : List (Str × Int)) (a : Str) : amountOf (l ++ l') a = amountOf l a + amountOf l' a := by
  rw [amountOf, List.filter_append, List.map_append, List.sum_append]
  rfl

/-- What a dictionary has for an address. -/
theorem amountOf_items (d : Ordered Str Int) (a : Str) : amountOf d.items a = (d.get? a).getD 0 := by
  cases h : d.get? a with
  | none =>
    have hnone : d.items.filter (fun e => decide (e.1 = a)) = [] := by
      rw [List.filter_eq_nil_iff]
      intro e he
      have hkeys := Ordered.get?_eq_none.1 h
      simpa using fun heq : e.1 = a => hkeys (heq ▸ Ordered.mem_keys_of_mem he)
    rw [amountOf, hnone]
    rfl
  | some v =>
    obtain ⟨p, q, hd, hp, hq⟩ := Ordered.exists_split h
    have hout : ∀ r : List (Str × Int), (∀ e ∈ r, e.1 ≠ a) → amountOf r a = 0 := by
      intro r hr
      have hnil : r.filter (fun e => decide (e.1 = a)) = [] :=
        List.filter_eq_nil_iff.2 fun e he => by simpa using hr e he
      rw [amountOf, hnil]
      rfl
    rw [hd, amountOf_append, hout p hp, ← List.singleton_append, amountOf_append, hout q hq]
    simp [amountOf]

theorem amountOf_sortItems (l : List (Str × Int)) (a : Str) : amountOf (sortItems l) a = amountOf l a :=
  (((List.perm_insertionSort _ l).filter _).map Prod.snd).sum_eq

theorem amountOf_byAddress (l : List (Str × Int)) (a : Str) : amountOf (byAddress l).items a = amountOf l a :=
  (amountOf_items _ a).trans Ordered.get?_tally

theorem get?_of_sameDict {d e : Ordered Str Int} (h : sameDict d e = true) (a : Str) : d.get? a = e.get? a := by
  unfold sameDict at h
  rw [Bool.and_eq_true, List.all_eq_true, List.all_eq_true] at h
  cases hd : d.get? a with
  | some v => exact (of_decide_eq_true (h.1 _ (Ordered.get?_eq_some.1 hd))).symm
  | none =>
    cases he : e.get? a with
    | none => rfl
    | some v =>
      have hsome : d.get? a = some v := of_decide_eq_true (h.2 _ (Ordered.get?_eq_some.1 he))
      rw [hd] at hsome
      cases hsome

theorem total_addAll (out : Ordered Str Int) (l : List (Str × Int)) :
    total (addAll out l).items = total out.items + total l := by
  unfold addAll
  induction l generalizing out with
  | nil => simp [total]
  | cons e l ih =>
    rw [List.foldl_cons, ih, total_addTo]
    simp only [total, List.map_cons, List.sum_cons]
    ring

end Amounts

/-! ## The loops -/

section Loops

variable {keys payableAddress planDigest} {days : List DayResult} {onChain : OnChain} {l : List Transfer} {s s' : Sums}
  {amendments rest : List Frozen}

/-- The parts on chain of a number are those of `parts`. -/
def PaidAs (l : List Transfer) (number : Nat) (parts : List PartPaid) : Prop :=
  ∀ p : PartPaid, p.number = number → (p ∈ l.map Transfer.asPart ↔ p ∈ parts)

theorem bind_eq_ok {ε α β : Type} {x : Except ε α} {f : α → Except ε β} {b : β} :
    (x >>= f) = .ok b ↔ ∃ a, x = .ok a ∧ f a = .ok b := by
  cases x <;> simp [bind, Except.bind]

theorem map_eq_ok {ε α β : Type} {x : Except ε α} {f : α → β} {b : β} :
    x.map f = .ok b ↔ ∃ a, x = .ok a ∧ f a = b := by
  cases x <;> simp [Except.map]

/-- The weeks: each is planned, and paid as planned. -/
theorem foldlM_weekStep {ks : List Nat} (hbook : ∀ k t, onChain.get? k = some t ↔ t ∈ l ∧ t.key = k)
    (h : ks.foldlM (weekStep payableAddress planDigest days onChain) s = .ok s') :
    ∃ plans, (ks.mapM fun k => (planOf payableAddress days k).map fun p => (⟨k, p.1, p.2⟩ : WeekPlan)) = some plans ∧
      plans.map WeekPlan.week = ks ∧ (∀ w ∈ plans, ∀ e ∈ w.payable, 0 < e.2) ∧
      (∀ w ∈ plans, PaidAs l w.week (w.parts planDigest)) ∧
      total s'.listed.items = total s.listed.items + (plans.map fun w => total w.payable).sum ∧
      total s'.aside.items = total s.aside.items + (plans.map fun w => total w.aside).sum ∧ s'.amended = s.amended := by
  induction ks generalizing s with
  | nil =>
    cases h
    exact ⟨[], rfl, rfl, by simp, by simp, by simp, by simp, rfl⟩
  | cons k ks ih =>
    rw [List.foldlM_cons, bind_eq_ok] at h
    obtain ⟨s₁, hstep, h⟩ := h
    unfold weekStep at hstep
    split at hstep
    · cases hstep
    next payable aside hplan =>
      obtain ⟨txs, hcheck, rfl⟩ := map_eq_ok.1 hstep
      obtain ⟨plans, hplans, hweeks, hpos, hpaid, hlisted, haside, hamended⟩ := ih h
      refine ⟨⟨k, payable, aside⟩ :: plans, ?_, ?_, ?_, ?_, ?_, ?_, hamended⟩
      · rw [List.mapM_cons, hplan, hplans]
        rfl
      · rw [List.map_cons, hweeks]
      · exact List.forall_mem_cons.2 ⟨planOf_pos hplan, hpos⟩
      · exact List.forall_mem_cons.2 ⟨fun p hp => checkParts_ok hcheck hbook hp, hpaid⟩
      · rw [hlisted, total_addAll, List.map_cons, List.sum_cons, add_assoc]
      · rw [haside, total_addAll, List.map_cons, List.sum_cons, add_assoc]

/-- The amendments: each is paid as it is frozen. -/
theorem foldlM_amendStep (hbook : ∀ k t, onChain.get? k = some t ↔ t ∈ l ∧ t.key = k)
    (h : rest.foldlM (amendStep keys days amendments onChain) s = .ok s') :
    (∀ a ∈ rest, PaidAs l a.doc.id a.parts) ∧
      total s'.listed.items = total s.listed.items + (rest.map fun a => total (amendmentPayable a.doc)).sum ∧
      s'.amended = s.amended + (rest.map fun a => total (amendmentPayable a.doc)).sum ∧ s'.aside = s.aside := by
  induction rest generalizing s with
  | nil =>
    cases h
    simp
  | cons a rest ih =>
    rw [List.foldlM_cons, bind_eq_ok] at h
    obtain ⟨s₁, hstep, h⟩ := h
    unfold amendStep at hstep
    split at hstep
    · cases hstep
    · obtain ⟨txs, hcheck, rfl⟩ := map_eq_ok.1 hstep
      obtain ⟨hpaid, hlisted, hamended, haside⟩ := ih h
      refine ⟨List.forall_mem_cons.2 ⟨fun p hp => checkParts_ok hcheck hbook hp, hpaid⟩, ?_, ?_, haside⟩
      · rw [hlisted, total_addAll, List.map_cons, List.sum_cons, add_assoc]
      · rw [hamended, List.map_cons, List.sum_cons, add_assoc]

end Loops

/-! ## The list -/

/-- A list without repetition inside another one: what is left over weighs something, unless nothing is. -/
theorem exists_rest {α : Type} {w : α → Int} {A P : List α} (hA : A.Nodup) (hAP : A ⊆ P) (hP : ∀ x ∈ P, 0 < w x) :
    ∃ R, P.Perm (A ++ R) ∧ (P.map w).sum = (A.map w).sum + (R.map w).sum ∧ 0 ≤ (R.map w).sum ∧
      ((R.map w).sum = 0 → R = []) := by
  obtain ⟨A', hperm, hsub⟩ := List.Nodup.subperm hA hAP
  obtain ⟨R, hR⟩ := hsub.exists_perm_append
  have hPR : P.Perm (A ++ R) := hR.trans (hperm.append_right R)
  have hpos : ∀ v ∈ R.map w, 0 < v := by
    intro v hv
    obtain ⟨x, hx, rfl⟩ := List.mem_map.1 hv
    exact hP x (hPR.mem_iff.2 (List.mem_append_right A hx))
  refine ⟨R, hPR, ?_, List.sum_nonneg fun v hv => (hpos v hv).le, fun h0 => ?_⟩
  · rw [(hPR.map w).sum_eq, List.map_append, List.sum_append]
  · by_contra hne
    exact (List.sum_pos _ hpos (by simpa using hne)).ne' h0

variable {keys payableAddress planDigest} {days : List DayResult} {digests : List (Str × Str)} {endHeight : Int}
  {transfers amended : List Transfer} {doubledFrom : Option Nat} {payer : Str} {amendments : List Frozen}
  {doc : Document}

theorem nodup_asPart {l : List Transfer} (h : (l.map Transfer.key).Nodup) : (l.map Transfer.asPart).Nodup := by
  have hkey : l.map Transfer.key = (l.map Transfer.asPart).map fun p => (p.number, p.part) := by
    rw [List.map_map]
    rfl
  rw [hkey] at h
  exact h.of_map _

theorem total_sendsOf (l : List Transfer) :
    total (sendsOf l) = ((l.map Transfer.asPart).map fun p => total p.sends).sum := by
  rw [sendsOf, List.flatMap_def, total_flatten, List.map_map, List.map_map]
  rfl

/-- A list is written only of a season that was paid exactly as it is planned: the transactions are, up to their
order, one for each part of each week and of each frozen amendment, with its transfers. Each address is listed with
what those transactions sent it, and the weeks and what is set aside are what the rankings paid. -/
theorem seasonList_exact (h : seasonList keys payableAddress planDigest days digests endHeight transfers doubledFrom
      payer amendments amended = .ok doc) :
    ∃ plans, weekPlans payableAddress days = some plans ∧
      (transfers.map Transfer.asPart).Perm (plans.flatMap fun w => w.parts planDigest) ∧
      (amended.map Transfer.asPart).Perm (amendments.flatMap Frozen.parts) ∧
      (∀ a, amountOf doc.paid a = amountOf (sendsOf (transfers ++ amended)) a) ∧
      (plans.map fun w => total w.payable).sum + total doc.setAside = (days.map DayResult.totalPaid).sum := by
  unfold seasonList at h
  split at h
  · cases h
  split at h
  · cases h
  obtain ⟨onChain, hbook, h⟩ := bind_eq_ok.1 h
  obtain ⟨weeks, hweeks, h⟩ := bind_eq_ok.1 h
  obtain ⟨s, hs, h⟩ := bind_eq_ok.1 h
  unfold amendmentsPaid at hs
  obtain ⟨onChain', hbook', hs⟩ := bind_eq_ok.1 hs
  dsimp only at h hs
  split at hs
  · cases hs
  rename_i hstray
  split at h
  · cases h
  rename_i hsent
  split at h
  · cases h
  rename_i hranked
  cases h
  rw [not_or, not_not, Bool.not_eq_true, Bool.not_eq_false'] at hsent
  rw [not_not] at hstray hranked
  obtain ⟨hknown, hnodup, -, hget⟩ := bookParts_ok hbook
  obtain ⟨-, hnodup', -, hget'⟩ := bookParts_ok hbook'
  have hget (k : Nat × Nat) (t : Transfer) : onChain.get? k = some t ↔ t ∈ transfers ∧ t.key = k :=
    (hget k t).trans (or_iff_right (by rintro ⟨⟩))
  have hget' (k : Nat × Nat) (t : Transfer) : onChain'.get? k = some t ↔ t ∈ amended ∧ t.key = k :=
    (hget' k t).trans (or_iff_right (by rintro ⟨⟩))
  obtain ⟨plans, hplans, hnumbers, hpos, hpaid, hlisted, haside, hzero⟩ := foldlM_weekStep hget hweeks
  obtain ⟨hpaid', hlisted', hamended, haside'⟩ := foldlM_amendStep hget' hs
  have hweek : transfers.map Transfer.asPart ⊆ plans.flatMap fun w => w.parts planDigest := by
    intro p hp
    obtain ⟨t, ht, rfl⟩ := List.mem_map.1 hp
    have hmem : t.number ∈ plans.map WeekPlan.week := by
      rw [hnumbers, List.mem_range]
      exact of_decide_eq_true (hknown t ht)
    obtain ⟨w, hw, hnumber⟩ := List.mem_map.1 hmem
    exact List.mem_flatMap.2 ⟨w, hw, (hpaid w hw _ hnumber.symm).1 hp⟩
  have hamend : amended.map Transfer.asPart ⊆ amendments.flatMap Frozen.parts := by
    intro p hp
    obtain ⟨t, ht, rfl⟩ := List.mem_map.1 hp
    have hitem := Ordered.get?_eq_some.1 ((hget' t.key t).2 ⟨ht, rfl⟩)
    have hmem : t.number ∈ amendments.map fun a => a.doc.id := by
      have hno := List.filter_eq_nil_iff.1 hstray _ hitem
      exact not_not.1 fun hout => hno (decide_eq_true hout)
    obtain ⟨a, ha, hnumber⟩ := List.mem_map.1 hmem
    exact List.mem_flatMap.2 ⟨a, ha, (hpaid' a ha _ hnumber.symm).1 hp⟩
  -- What the transactions sent in all is what is planned in all: nothing that is planned is left over.
  have hplanned : ((plans.flatMap fun w => w.parts planDigest).map fun p => total p.sends).sum =
      (plans.map fun w => total w.payable).sum := by
    rw [List.map_flatMap, List.flatMap_def, List.sum_flatten, List.map_map]
    exact congrArg List.sum (List.map_congr_left fun _ _ => total_plannedParts)
  have hfrozen : ((amendments.flatMap Frozen.parts).map fun p => total p.sends).sum =
      (amendments.map fun a => total (amendmentPayable a.doc)).sum := by
    rw [List.map_flatMap, List.flatMap_def, List.sum_flatten, List.map_map]
    exact congrArg List.sum (List.map_congr_left fun _ _ => total_plannedParts)
  obtain ⟨R, hR, hsumR, hR0, hRnil⟩ := exists_rest (w := fun p => total p.sends) (nodup_asPart hnodup) hweek
    fun p hp => by
      obtain ⟨w, hw, hp⟩ := List.mem_flatMap.1 hp
      exact total_sends_pos (hpos w hw) hp
  obtain ⟨R', hR', hsumR', hR'0, hR'nil⟩ := exists_rest (w := fun p => total p.sends) (nodup_asPart hnodup') hamend
    fun p hp => by
      obtain ⟨a, ha, hp⟩ := List.mem_flatMap.1 hp
      exact total_sends_pos (amendmentPayable_pos a.doc) hp
  have htotal := hsent.1
  rw [total_byAddress, sendsOf, List.flatMap_append, total_append, ← sendsOf, ← sendsOf, total_sendsOf, total_sendsOf,
    hlisted', hlisted] at htotal
  rw [hplanned] at hsumR
  rw [hfrozen] at hsumR'
  have hzeroListed : total Sums.zero.listed.items = 0 := rfl
  have hnil : R = [] := hRnil (by omega)
  have hnil' : R' = [] := hR'nil (by omega)
  subst hnil hnil'
  rw [List.append_nil] at hR hR'
  refine ⟨plans, hplans, hR.symm, hR'.symm, fun a => ?_, ?_⟩
  · rw [amountOf_sortItems, amountOf_items, ← get?_of_sameDict hsent.2 a, ← amountOf_items, amountOf_byAddress]
  · have hsort : total (sortItems s.aside.items) = total s.aside.items :=
      total_perm (List.perm_insertionSort _ _)
    have hzero' : Sums.zero.amended = 0 := rfl
    rw [hsort]
    omega

/-- The season of one day, paid in one part. -/
def firstTransfer : Transfer := ⟨0, ['d'], 0, ['h'], [(['a'], 106000)]⟩

theorem seasonList_exact_first : ∃ plans, weekPlans (fun _ => true) [firstDay] = some plans ∧
    ([firstTransfer].map Transfer.asPart).Perm (plans.flatMap fun w => w.parts fun _ => ['d']) := by
  have hpaid : (seasonList someKeys (fun _ => true) (fun _ => ['d']) [firstDay] [] 17280 [firstTransfer] none
      ['p'] [] []).toOption.map Document.paid = some [(['a'], 106000)] := by decide +kernel
  cases hlist : seasonList someKeys (fun _ => true) (fun _ => ['d']) [firstDay] [] 17280 [firstTransfer] none
      ['p'] [] [] with
  | error why =>
    rw [hlist] at hpaid
    cases hpaid
  | ok doc =>
    obtain ⟨plans, hplans, hweeks, -⟩ := seasonList_exact hlist
    exact ⟨plans, hplans, hweeks⟩

end Dendra.Season.SeasonList
