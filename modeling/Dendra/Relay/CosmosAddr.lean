import Dendra.Lib.Bech32.Checksum
import Dendra.Lib.Bits
import Dendra.Lib.MapM

/-!
# The bech32 codec (`services/modea/cosmos_addr.py`)

The addresses the services compare are written and read here: a readable part, a `1`, values of five
bits by their characters, and a checksum; the values are bytes regrouped.

* `convertbits_pad`, `convertbits_strict`: both directions of the regrouping, by the bits they keep.
* `codec_spec`: both directions of both codings, and that no single substitution goes unseen.
-/

namespace Dendra.Relay.CosmosAddr

/-! ## The code -/

/-- The accumulator of `_convertbits`. -/
structure Acc where
  acc : Nat
  bits : Nat
  ret : List Nat

/-- The inner loop: every whole digit leaves the accumulator. It turns at most `fuel` times, which is the
number of bits it starts with. -/
def drain (acc tobits : Nat) : Nat → Nat → List Nat → Nat × List Nat
  | 0, bits, ret => (bits, ret)
  | fuel + 1, bits, ret =>
    if bits ≥ tobits then drain acc tobits fuel (bits - tobits) (ret ++ [acc >>> (bits - tobits) % 2 ^ tobits])
    else (bits, ret)

/-- The body of the outer loop. -/
def feed (frombits tobits : Nat) (s : Acc) (b : Int) : Option Acc :=
  if b < 0 ∨ b.toNat >>> frombits ≠ 0 then none
  else
    let acc := (s.acc <<< frombits ||| b.toNat) % 2 ^ (frombits + tobits - 1)
    let bits := s.bits + frombits
    let drained := drain acc tobits bits bits s.ret
    some ⟨acc, drained.1, drained.2⟩

/-- `_convertbits`. -/
def convertbits (data : List Int) (frombits tobits : Nat) (pad : Bool) : Option (List Nat) := do
  let s ← data.foldlM (feed frombits tobits) ⟨0, 0, []⟩
  let last := s.acc <<< (tobits - s.bits) % 2 ^ tobits
  if pad then some (if s.bits ≠ 0 then s.ret ++ [last] else s.ret)
  else if s.bits ≥ frombits ∨ last ≠ 0 then none
  else some s.ret

/-- `bech32_encode`. It raises at a value that has no character. -/
def bech32Encode (hrp : Str) (data : List Nat) : Option Str := do
  let chars ← (data ++ Bech32.checksum hrp data).mapM fun d => Bech32.charset[d]?
  some (hrp ++ '1' :: chars)

/-- `str.lower` and `str.upper` of ASCII. -/
def lower (s : Str) : Str := s.map Char.toLower

def upper (s : Str) : Str := s.map Char.toUpper

/-- `bech32_decode`: the readable part and the values. -/
def bech32Decode (addr : Str) : Option (Str × List Nat) :=
  if addr.any fun c => c.toNat < 33 || c.toNat > 126 then none
  else if lower addr ≠ addr ∧ upper addr ≠ addr then none
  else do
    let (hrp, data) ← Str.splitLast ['1'] (lower addr)
    if hrp = [] ∨ data.length < 6 ∨ addr.length > 90 then none
    else
      let dec ← Bech32.values data
      if Bech32.polymod (Bech32.expand hrp ++ dec) ≠ 1 then none
      else some (hrp, dec.take (dec.length - 6))

/-- Bytes as the numbers of a Python `bytes`. -/
def octets (bz : List UInt8) : List Int := bz.map fun b => (b.toNat : Int)

/-! ## The regrouping -/

/-- What the loop has when it is between two elements: the bits of what it has read are the digits it has
made and the bits it still holds. -/
structure AccInv (f t : Nat) (read : List Nat) (s : Acc) : Prop where
  short : s.bits < t
  digits : ∀ d ∈ s.ret, d < 2 ^ t
  bits : s.ret.flatMap (Bits.bits t) ++ Bits.bits s.bits s.acc = read.flatMap (Bits.bits f)

theorem drain_spec {t : Nat} (ht : 0 < t) (acc fuel bits : Nat) (ret : List Nat) (hfuel : bits ≤ fuel)
    (hret : ∀ d ∈ ret, d < 2 ^ t) :
    (drain acc t fuel bits ret).1 < t ∧ (∀ d ∈ (drain acc t fuel bits ret).2, d < 2 ^ t) ∧
      (drain acc t fuel bits ret).2.flatMap (Bits.bits t) ++ Bits.bits (drain acc t fuel bits ret).1 acc =
        ret.flatMap (Bits.bits t) ++ Bits.bits bits acc := by
  induction fuel generalizing bits ret with
  | zero =>
    obtain rfl : bits = 0 := by omega
    exact ⟨ht, hret, rfl⟩
  | succ fuel ih =>
    unfold drain
    split
    · have hdigit : ∀ d ∈ ret ++ [acc >>> (bits - t) % 2 ^ t], d < 2 ^ t := by
        intro d hd
        rcases List.mem_append.1 hd with hd | hd
        · exact hret d hd
        · exact List.mem_singleton.1 hd ▸ Nat.mod_lt _ (Nat.two_pow_pos t)
      obtain ⟨hshort, hdigits, hbits⟩ := ih (bits - t) _ (by omega) hdigit
      refine ⟨hshort, hdigits, hbits.trans ?_⟩
      have hsplit := Bits.bits_add t (bits - t) acc
      rw [Nat.add_sub_cancel' ‹bits ≥ t›] at hsplit
      rw [hsplit, List.flatMap_append, List.flatMap_cons, List.flatMap_nil, List.append_nil,
        Bits.bits_mod le_rfl, List.append_assoc]
    · exact ⟨by omega, hret, rfl⟩

theorem feed_natCast {f t b : Nat} (s : Acc) :
    feed f t s b = if b < 2 ^ f then
        some ⟨(s.acc <<< f ||| b) % 2 ^ (f + t - 1),
          (drain ((s.acc <<< f ||| b) % 2 ^ (f + t - 1)) t (s.bits + f) (s.bits + f) s.ret).1,
          (drain ((s.acc <<< f ||| b) % 2 ^ (f + t - 1)) t (s.bits + f) (s.bits + f) s.ret).2⟩
      else none := by
  have hguard : ((b : Int) < 0 ∨ b >>> f ≠ 0) ↔ ¬ b < 2 ^ f := by
    rw [Nat.shiftRight_eq_div_pow, Ne, Nat.div_eq_zero_iff]
    have := Nat.two_pow_pos f
    omega
  simp only [feed, Int.toNat_natCast, hguard, ite_not]

theorem AccInv.feed {f t : Nat} (ht : 0 < t) {read : List Nat} {s s' : Acc} {b : Nat}
    (h : AccInv f t read s) (hs : feed f t s b = some s') : b < 2 ^ f ∧ AccInv f t (read ++ [b]) s' := by
  rw [feed_natCast] at hs
  split at hs
  case isFalse => cases hs
  case isTrue hb =>
    cases hs
    obtain ⟨hshort, hdigits, hbits⟩ := drain_spec ht ((s.acc <<< f ||| b) % 2 ^ (f + t - 1)) (s.bits + f)
      (s.bits + f) s.ret le_rfl h.digits
    refine ⟨hb, hshort, hdigits, hbits.trans ?_⟩
    -- the mask of the accumulator is wider than what it holds
    rw [Bits.bits_mod (by have := h.short; omega), Bits.bits_or _ hb, ← List.append_assoc, h.bits,
      List.flatMap_append, List.flatMap_cons, List.flatMap_nil, List.append_nil]

theorem AccInv.run {f t : Nat} (ht : 0 < t) {read data : List Nat} {s s' : Acc} (h : AccInv f t read s)
    (hs : (data.map Nat.cast).foldlM (CosmosAddr.feed f t) s = some s') :
    (∀ d ∈ data, d < 2 ^ f) ∧ AccInv f t (read ++ data) s' := by
  induction data generalizing read s with
  | nil =>
    cases hs
    exact ⟨by simp, by simpa using h⟩
  | cons b data ih =>
    rw [List.map_cons, List.foldlM_cons, Option.bind_eq_bind, Option.bind_eq_some_iff] at hs
    obtain ⟨s₁, h₁, hs⟩ := hs
    obtain ⟨hb, hinv⟩ := h.feed ht h₁
    obtain ⟨hdata, hrun⟩ := ih hinv hs
    exact ⟨List.forall_mem_cons.2 ⟨hb, hdata⟩, by simpa using hrun⟩

theorem foldlM_feed_isSome {f t : Nat} {data : List Nat} (h : ∀ d ∈ data, d < 2 ^ f) (s : Acc) :
    ∃ s', (data.map Nat.cast).foldlM (feed f t) s = some s' := by
  induction data generalizing s with
  | nil => exact ⟨s, rfl⟩
  | cons b data ih =>
    obtain ⟨hb, hdata⟩ := List.forall_mem_cons.1 h
    rw [List.map_cons, List.foldlM_cons, feed_natCast, if_pos hb]
    exact ih hdata _

theorem exists_padded {f t : Nat} {data : List Nat} (h : ∀ d ∈ data, d < 2 ^ f) :
    ∃ out, convertbits (data.map Nat.cast) f t true = some out := by
  obtain ⟨s, hs⟩ := foldlM_feed_isSome (t := t) h ⟨0, 0, []⟩
  rw [convertbits, hs]
  exact ⟨_, rfl⟩

theorem accInv_start {f t : Nat} (ht : 0 < t) : AccInv f t [] ⟨0, 0, []⟩ := ⟨ht, by simp, rfl⟩

theorem bits_last {t b : Nat} (h : b < t) (acc : Nat) :
    Bits.bits t (acc <<< (t - b) % 2 ^ t) = Bits.bits b acc ++ List.replicate (t - b) false := by
  have hsplit := Bits.bits_shiftLeft b (t - b) acc
  rw [Nat.add_sub_cancel' h.le] at hsplit
  rw [Bits.bits_mod le_rfl, hsplit]

private theorem eq_of_near {t a b : Nat} (h₁ : t * a < t * b + t) (h₂ : t * b < t * a + t) : a = b := by
  have hab : a < b + 1 := Nat.lt_of_mul_lt_mul_left (a := t) (by rwa [Nat.mul_succ])
  have hba : b < a + 1 := Nat.lt_of_mul_lt_mul_left (a := t) (by rwa [Nat.mul_succ])
  omega

/-- The padded direction: the bits of the digits are those that were read, and less than a digit of
zeros. -/
theorem convertbits_pad {f t : Nat} (ht : 0 < t) {data out : List Nat} :
    convertbits (data.map Nat.cast) f t true = some out ↔
      (∀ d ∈ data, d < 2 ^ f) ∧ (∀ d ∈ out, d < 2 ^ t) ∧
        ∃ k < t, out.flatMap (Bits.bits t) = data.flatMap (Bits.bits f) ++ List.replicate k false := by
  have hsome : ∀ {out}, convertbits (data.map Nat.cast) f t true = some out →
      (∀ d ∈ data, d < 2 ^ f) ∧ (∀ d ∈ out, d < 2 ^ t) ∧
        ∃ k < t, out.flatMap (Bits.bits t) = data.flatMap (Bits.bits f) ++ List.replicate k false := by
    intro out h
    simp only [convertbits, Option.bind_eq_bind, Option.bind_eq_some_iff, ↓reduceIte, Option.some.injEq] at h
    obtain ⟨s, hs, rfl⟩ := h
    obtain ⟨hdata, hinv⟩ := (accInv_start ht).run ht hs
    have hbits := hinv.bits
    refine ⟨hdata, ?_⟩
    split
    · refine ⟨fun d hd => ?_, t - s.bits, by omega, ?_⟩
      · rcases List.mem_append.1 hd with hd | hd
        · exact hinv.digits d hd
        · exact List.mem_singleton.1 hd ▸ Nat.mod_lt _ (Nat.two_pow_pos t)
      · rw [List.flatMap_append, List.flatMap_cons, List.flatMap_nil, List.append_nil, bits_last hinv.short,
          ← List.append_assoc, hbits, List.nil_append]
    · have hzero : s.bits = 0 := by omega
      rw [hzero, Bits.bits_zero, List.append_nil] at hbits
      exact ⟨hinv.digits, 0, ht, by rw [hbits]; simp⟩
  refine ⟨hsome, ?_⟩
  rintro ⟨hdata, hout, k, hk, hbits⟩
  obtain ⟨out', heq⟩ := exists_padded (t := t) hdata
  obtain ⟨-, hout', k', hk', hbits'⟩ := hsome heq
  -- the number of digits is the one that the bits fill
  have hlen := congrArg List.length hbits
  have hlen' := congrArg List.length hbits'
  rw [List.length_append, Bits.length_flatMap_bits, List.length_replicate] at hlen hlen'
  have hsame : out.length = out'.length := eq_of_near (t := t) (by omega) (by omega)
  obtain rfl : k = k' := by
    rw [hsame] at hlen
    omega
  rw [heq, (Bits.flatMap_bits_injective (r := []) (s := []) hsame hout hout' (by rw [hbits, hbits'])).1]

/-- The strict direction: the bits that were read are those of the digits, and less than one element of
zeros. -/
theorem convertbits_strict {f t : Nat} (ht : 0 < t) {data out : List Nat} :
    convertbits (data.map Nat.cast) f t false = some out ↔
      (∀ d ∈ data, d < 2 ^ f) ∧ (∀ d ∈ out, d < 2 ^ t) ∧ ∃ k < t, k < f ∧
        data.flatMap (Bits.bits f) = out.flatMap (Bits.bits t) ++ List.replicate k false := by
  have hzero (s : Acc) (hshort : s.bits < t) : s.acc <<< (t - s.bits) % 2 ^ t = 0 ↔
      Bits.bits s.bits s.acc = List.replicate s.bits false := by
    have hlast := bits_last hshort s.acc
    constructor
    · intro h
      rw [h, Bits.bits_of_zero] at hlast
      have hrep : List.replicate t false = List.replicate s.bits false ++ List.replicate (t - s.bits) false := by
        rw [List.replicate_append_replicate, Nat.add_sub_cancel' hshort.le]
      exact (List.append_inj (hlast.symm.trans hrep) (by simp)).1
    · intro h
      rw [h, List.replicate_append_replicate, Nat.add_sub_cancel' hshort.le, ← Bits.bits_of_zero] at hlast
      exact Bits.bits_injective (Nat.mod_lt _ (Nat.two_pow_pos t)) (Nat.two_pow_pos t) hlast
  constructor
  · intro h
    simp only [convertbits, Option.bind_eq_bind, Option.bind_eq_some_iff, Bool.false_eq_true, ↓reduceIte] at h
    obtain ⟨s, hs, h⟩ := h
    obtain ⟨hdata, hinv⟩ := (accInv_start ht).run ht hs
    split at h
    case isTrue => cases h
    case isFalse hok =>
      cases h
      obtain ⟨hshort, hlast⟩ := not_or.1 hok
      refine ⟨hdata, hinv.digits, s.bits, hinv.short, by omega, ?_⟩
      rw [← (hzero s hinv.short).1 (not_not.1 hlast), hinv.bits, List.nil_append]
  · rintro ⟨hdata, hout, k, hk, hkf, hbits⟩
    obtain ⟨s, hs⟩ := foldlM_feed_isSome (t := t) hdata ⟨0, 0, []⟩
    obtain ⟨-, hinv⟩ := (accInv_start ht).run ht hs
    have hboth := hinv.bits.trans hbits
    have hlen := congrArg List.length hboth
    rw [List.length_append, List.length_append, Bits.length_flatMap_bits, Bits.length_flatMap_bits,
      Bits.length_bits, List.length_replicate] at hlen
    have hshort := hinv.short
    have hsame : s.ret.length = out.length := eq_of_near (t := t) (by omega) (by omega)
    obtain ⟨hret, hrest⟩ := Bits.flatMap_bits_injective hsame hinv.digits hout hboth
    obtain rfl : s.bits = k := by simpa using congrArg List.length hrest
    have hlast := (hzero s hshort).2 hrest
    simp [convertbits, hs, hlast, hkf, hret]

/-- Regrouping into smaller digits with padding and regrouping back without are inverse. -/
theorem convertbits_inverse {f t : Nat} (ht : 0 < t) (hft : t ≤ f) {data out : List Nat} :
    convertbits (out.map Nat.cast) t f false = some data ↔
      convertbits (data.map Nat.cast) f t true = some out := by
  rw [convertbits_strict (ht.trans_le hft), convertbits_pad ht]
  constructor
  · rintro ⟨hout, hdata, k, -, hk, hbits⟩
    exact ⟨hdata, hout, k, hk, hbits⟩
  · rintro ⟨hdata, hout, k, hk, hbits⟩
    exact ⟨hout, hdata, k, hk.trans_le hft, hk, hbits⟩

/-! ## The characters -/

theorem charset_mem {c : Char} (h : c ∈ Bech32.charset) :
    c.toLower = c ∧ 33 ≤ c.toNat ∧ c.toNat ≤ 126 ∧ c ≠ '1' := by
  have hall : Bech32.charset.all fun c =>
      decide (c.toLower = c ∧ 33 ≤ c.toNat ∧ c.toNat ≤ 126 ∧ c ≠ '1') := by decide
  exact of_decide_eq_true (List.all_eq_true.1 hall c h)

theorem charset_nodup : Bech32.charset.Nodup := by decide

/-- A value has a character exactly when the character has the value. -/
theorem charset_getElem? {d : Nat} {c : Char} : Bech32.charset[d]? = some c ↔
    (if c ∈ Bech32.charset then some (List.idxOf c Bech32.charset) else none) = some d := by
  constructor
  · intro h
    obtain ⟨hd, rfl⟩ := List.getElem?_eq_some_iff.1 h
    rw [if_pos (List.getElem_mem hd), charset_nodup.idxOf_getElem]
  · intro h
    split at h
    case isTrue hc =>
      cases h
      exact List.getElem?_idxOf hc
    case isFalse => cases h

theorem charset_getElem?_mem {d : Nat} {c : Char} (h : Bech32.charset[d]? = some c) :
    d < 32 ∧ c ∈ Bech32.charset :=
  ⟨(List.getElem?_eq_some_iff.1 h).1, List.mem_of_getElem? h⟩

theorem values_eq_some {data : List Nat} {chars : Str} :
    Bech32.values chars = some data ↔ data.mapM (fun d => Bech32.charset[d]?) = some chars := by
  rw [Bech32.values, mapM_eq_some, mapM_eq_some]
  simp only [← charset_getElem?]
  exact ⟨fun h => h.flip, fun h => h.flip⟩

theorem exists_chars {data : List Nat} (h : ∀ d ∈ data, d < 32) :
    ∃ chars, data.mapM (fun d => Bech32.charset[d]?) = some chars := by
  induction data with
  | nil => exact ⟨[], rfl⟩
  | cons d data ih =>
    obtain ⟨hd, hdata⟩ := List.forall_mem_cons.1 h
    obtain ⟨chars, hchars⟩ := ih hdata
    have hd' : d < Bech32.charset.length := hd
    exact ⟨Bech32.charset[d] :: chars, by simp [List.mapM_cons, hchars, List.getElem?_eq_getElem hd']⟩

theorem lt_of_values {chars : Str} {dec : List Nat} (h : Bech32.values chars = some dec) :
    ∀ d ∈ dec, d < 32 := by
  intro d hd
  obtain ⟨c, -, hc⟩ := exists_of_forall₂ (mapM_eq_some.1 (values_eq_some.1 h)).flip hd
  exact (charset_getElem?_mem hc).1

theorem mem_of_values {chars : Str} {dec : List Nat} (h : Bech32.values chars = some dec) :
    ∀ c ∈ chars, c ∈ Bech32.charset := by
  intro c hc
  obtain ⟨d, -, hd⟩ := exists_of_forall₂ (mapM_eq_some.1 (values_eq_some.1 h)) hc
  exact (charset_getElem?_mem hd).2

theorem length_values {chars : Str} {dec : List Nat} (h : Bech32.values chars = some dec) :
    dec.length = chars.length :=
  (mapM_eq_some.1 (values_eq_some.1 h)).length_eq

theorem length_checksum (hrp : Str) (data : List Nat) : (Bech32.checksum hrp data).length = 6 :=
  Bech32.length_digits 5 6 _

theorem checksum_lt {hrp : Str} {data : List Nat} : ∀ d ∈ Bech32.checksum hrp data, d < 32 :=
  fun _ hd => Bech32.digits_lt (w := 5) hd

theorem toLower_lt {c : Char} (h : c.toNat ≤ 126) : c.toLower.toNat < 1024 := by
  unfold Char.toLower
  split
  · rename_i hupper
    have hle : c.val.toNat ≤ 90 := UInt32.le_iff_toNat_le.1 hupper.2
    simp only [Char.toNat, UInt32.toNat_add]
    exact (Nat.mod_le _ _).trans_lt (by simp; omega)
  · omega

theorem values_append {q r : Str} {a : Char} {dec : List Nat} (h : Bech32.values (q ++ a :: r) = some dec) :
    ∃ dq v dr, dec = dq ++ v :: dr ∧ Bech32.values q = some dq ∧ Bech32.charset[v]? = some a ∧
      Bech32.values r = some dr := by
  rw [Bech32.values, List.mapM_append, List.mapM_cons] at h
  simp only [Option.bind_eq_bind, Option.bind_eq_some_iff, Option.pure_def, Option.some.injEq] at h
  obtain ⟨dq, hq, _, ⟨v, hv, dr, hr, rfl⟩, rfl⟩ := h
  exact ⟨dq, v, dr, rfl, hq, charset_getElem?.2 hv, hr⟩

/-! ## The addresses -/

/-- What is asked of a string that is accepted. -/
structure Accepted (addr hrp chars : Str) (dec : List Nat) : Prop where
  printable : ∀ c ∈ addr, 33 ≤ c.toNat ∧ c.toNat ≤ 126
  case : lower addr = addr ∨ upper addr = addr
  parts : Str.splitLast ['1'] (lower addr) = some (hrp, chars)
  hrp_ne : hrp ≠ []
  long : 6 ≤ chars.length
  short : addr.length ≤ 90
  values : Bech32.values chars = some dec
  valid : Bech32.polymod (Bech32.expand hrp ++ dec) = 1

theorem bech32Decode_eq_some {addr hrp : Str} {data : List Nat} :
    bech32Decode addr = some (hrp, data) ↔
      ∃ chars dec, Accepted addr hrp chars dec ∧ data = dec.take (dec.length - 6) := by
  have hprint : addr.any (fun c => c.toNat < 33 || c.toNat > 126) = false ↔
      ∀ c ∈ addr, 33 ≤ c.toNat ∧ c.toNat ≤ 126 := by
    simp [List.any_eq_false]
  constructor
  · intro h
    unfold bech32Decode at h
    split at h
    · cases h
    split at h
    · cases h
    rename_i hany hcase
    simp only [Option.bind_eq_bind, Option.bind_eq_some_iff] at h
    obtain ⟨⟨hrp', chars⟩, hparts, h⟩ := h
    split at h
    · cases h
    rename_i hsize
    obtain ⟨dec, hdec, h⟩ := Option.bind_eq_some_iff.1 h
    split at h
    · cases h
    rename_i hvalid
    cases h
    simp only [not_or, not_lt, not_and_or, not_not] at hsize hcase hvalid
    exact ⟨chars, dec, ⟨hprint.1 (Bool.eq_false_iff.2 hany), hcase, hparts, hsize.1, hsize.2.1, hsize.2.2,
      hdec, hvalid⟩, rfl⟩
  · rintro ⟨chars, dec, h, rfl⟩
    have hsize : ¬ (hrp = [] ∨ chars.length < 6 ∨ addr.length > 90) := by
      have := h.hrp_ne
      have := h.long
      have := h.short
      simp_all
    have hcase : ¬ (lower addr ≠ addr ∧ upper addr ≠ addr) := by
      rw [not_and_or, not_not, not_not]
      exact h.case
    simp [bech32Decode, hprint.2 h.printable, hcase, h.parts, hsize, h.values, h.valid]

theorem splitLast_one {l r : Str} (h : '1' ∉ r) : Str.splitLast ['1'] (l ++ '1' :: r) = some (l, r) := by
  have hlast : ¬ ['1'] <:+: (['1'] ++ r).tail := by
    rw [List.cons_append, List.tail_cons, List.nil_append, List.singleton_infix_iff]
    exact h
  rw [← Str.splitLast_of_last (by decide) hlast, List.append_assoc]
  rfl

theorem lower_append (s t : Str) : lower (s ++ t) = lower s ++ lower t := List.map_append

theorem lower_chars {chars : Str} (h : ∀ c ∈ chars, c ∈ Bech32.charset) : lower chars = chars := by
  rw [lower, List.map_congr_left fun c hc => (charset_mem (h c hc)).1, List.map_id']

/-- What is encoded is accepted, if it is short enough. -/
theorem decode_encode {hrp : Str} {data : List Nat} (hne : hrp ≠ [])
    (hprint : ∀ c ∈ hrp, 33 ≤ c.toNat ∧ c.toNat ≤ 126) (hlower : lower hrp = hrp)
    (hdata : ∀ d ∈ data, d < 32) :
    ∃ s, bech32Encode hrp data = some s ∧ (s.length ≤ 90 → bech32Decode s = some (hrp, data)) := by
  have hall : ∀ d ∈ data ++ Bech32.checksum hrp data, d < 32 := fun d hd =>
    (List.mem_append.1 hd).elim (hdata d) (checksum_lt d)
  obtain ⟨chars, hchars⟩ := exists_chars hall
  have hvalues := values_eq_some.2 hchars
  have hmem := mem_of_values hvalues
  have hlen : chars.length = data.length + 6 := by
    rw [← length_values hvalues, List.length_append, length_checksum]
  refine ⟨hrp ++ '1' :: chars, by simp [bech32Encode, hchars], fun hshort => ?_⟩
  have hlow : lower (hrp ++ '1' :: chars) = hrp ++ '1' :: chars := by
    rw [lower_append, hlower, show lower ('1' :: chars) = '1' :: lower chars from rfl, lower_chars hmem]
  have hone : '1' ∉ chars := fun h => (charset_mem (hmem _ h)).2.2.2 rfl
  refine bech32Decode_eq_some.2 ⟨chars, _, ⟨?_, .inl hlow, ?_, hne, by omega, hshort, hvalues, ?_⟩, ?_⟩
  · intro c hc
    rcases List.mem_append.1 hc with hc | hc
    · exact hprint c hc
    · rcases List.mem_cons.1 hc with rfl | hc
      · decide
      · exact ⟨(charset_mem (hmem c hc)).2.1, (charset_mem (hmem c hc)).2.2.1⟩
  · rw [hlow, splitLast_one hone]
  · rw [← List.append_assoc]
    exact (Bech32.polymod_append_iff (fun c hc => by have := hprint c hc; omega) hdata (length_checksum _ _)
      checksum_lt).2 rfl
  · rw [List.length_append, length_checksum, Nat.add_sub_cancel, List.take_left]

/-- What is accepted is an encoding. -/
theorem encode_decode {s hrp : Str} {data : List Nat} (h : bech32Decode s = some (hrp, data)) :
    bech32Encode hrp data = some (lower s) := by
  obtain ⟨chars, dec, hacc, rfl⟩ := bech32Decode_eq_some.1 h
  have hlt := lt_of_values hacc.values
  have hlen := length_values hacc.values
  have hlong := hacc.long
  have hparts := (Str.splitLast_eq_some (by decide) hacc.parts).1
  have hhrp : ∀ c ∈ hrp, c.toNat < 1024 := by
    intro c hc
    have hmem : c ∈ lower s := by
      rw [hparts]
      simp [hc]
    obtain ⟨c', hc', rfl⟩ := List.mem_map.1 hmem
    exact toLower_lt (hacc.printable c' hc').2
  have hsum : dec.drop (dec.length - 6) = Bech32.checksum hrp (dec.take (dec.length - 6)) := by
    refine (Bech32.polymod_append_iff hhrp (fun d hd => hlt d (List.mem_of_mem_take hd)) ?_
      fun d hd => hlt d (List.mem_of_mem_drop hd)).1 ?_
    · rw [List.length_drop]
      omega
    · rw [List.append_assoc, List.take_append_drop]
      exact hacc.valid
  rw [bech32Encode, ← hsum, List.take_append_drop, values_eq_some.1 hacc.values, hparts]
  simp

/-- One character for another changes the checksum. -/
theorem substitute_rejected {hrp q r : Str} {a b : Char} (hlow : lower (hrp ++ '1' :: (q ++ a :: r)) =
      hrp ++ '1' :: (q ++ a :: r)) (hone : '1' ∉ q ++ a :: r)
    (h : (bech32Decode (hrp ++ '1' :: (q ++ a :: r))).isSome) (hb : b ∈ Bech32.charset) (hne : b ≠ a) :
    bech32Decode (hrp ++ '1' :: (q ++ b :: r)) = none := by
  obtain ⟨⟨hrp₁, data₁⟩, h₁⟩ := Option.isSome_iff_exists.1 h
  obtain ⟨chars₁, dec₁, hacc₁, -⟩ := bech32Decode_eq_some.1 h₁
  obtain ⟨rfl, rfl⟩ : hrp = hrp₁ ∧ q ++ a :: r = chars₁ := by
    have hparts := hacc₁.parts
    rw [hlow, splitLast_one hone] at hparts
    exact Prod.mk.inj (Option.some.inj hparts)
  obtain ⟨dq, v, dr, rfl, hq, hv, hr⟩ := values_append hacc₁.values
  have hmem : ∀ c ∈ q ++ b :: r, c ∈ Bech32.charset := by
    intro c hc
    rcases List.mem_append.1 hc with hc | hc
    · exact mem_of_values hq c hc
    · rcases List.mem_cons.1 hc with rfl | hc
      exacts [hb, mem_of_values hr c hc]
  have hlow' : lower (hrp ++ '1' :: (q ++ b :: r)) = hrp ++ '1' :: (q ++ b :: r) := by
    have hhrp : lower hrp = hrp := by
      rw [lower_append] at hlow
      exact (List.append_inj hlow (by simp [lower])).1
    rw [lower_append, hhrp]
    exact congrArg (hrp ++ '1' :: ·) (lower_chars hmem)
  by_contra hsome
  obtain ⟨⟨hrp₂, data₂⟩, h₂⟩ := Option.ne_none_iff_exists'.1 hsome
  obtain ⟨chars₂, dec₂, hacc₂, -⟩ := bech32Decode_eq_some.1 h₂
  obtain ⟨rfl, rfl⟩ : hrp = hrp₂ ∧ q ++ b :: r = chars₂ := by
    have hparts := hacc₂.parts
    rw [hlow', splitLast_one fun hmem' => (charset_mem (hmem _ hmem')).2.2.2 rfl] at hparts
    exact Prod.mk.inj (Option.some.inj hparts)
  obtain ⟨dq', w, dr', rfl, hq', hw, hr'⟩ := values_append hacc₂.values
  obtain rfl : dq = dq' := Option.some.inj (hq.symm.trans hq')
  obtain rfl : dr = dr' := Option.some.inj (hr.symm.trans hr')
  have hvw : v ≠ w := by
    rintro rfl
    exact hne (Option.some.inj (hw.symm.trans hv))
  refine Bech32.polymod_substitute (l := Bech32.expand hrp ++ dq) (r := dr) (charset_getElem?_mem hv).1
    (charset_getElem?_mem hw).1 hvw ?_
  rw [List.append_assoc, List.append_assoc, hacc₁.valid, hacc₂.valid]

/-- Both directions of both codings are inverse to one another, and a string in which one character has
been replaced is refused. -/
theorem codec_spec :
    (∀ hrp data, hrp ≠ [] → (∀ c ∈ hrp, 33 ≤ c.toNat ∧ c.toNat ≤ 126) → lower hrp = hrp →
      (∀ d ∈ data, d < 32) →
      ∃ s, bech32Encode hrp data = some s ∧ (s.length ≤ 90 → bech32Decode s = some (hrp, data))) ∧
    (∀ s hrp data, bech32Decode s = some (hrp, data) → bech32Encode hrp data = some (lower s)) ∧
    (∀ (hrp q r : Str) (a b : Char), lower (hrp ++ '1' :: (q ++ a :: r)) = hrp ++ '1' :: (q ++ a :: r) →
      '1' ∉ q ++ a :: r → (bech32Decode (hrp ++ '1' :: (q ++ a :: r))).isSome → b ∈ Bech32.charset →
      b ≠ a → bech32Decode (hrp ++ '1' :: (q ++ b :: r)) = none) ∧
    (∀ bz : List UInt8, ∃ five, convertbits (octets bz) 8 5 true = some five ∧
      convertbits (five.map Nat.cast) 5 8 false = some (bz.map UInt8.toNat)) ∧
    (∀ l : List Nat, (∀ d ∈ l, d < 32) → (convertbits (l.map Nat.cast) 5 8 false = none ↔
      ¬ ∃ bz : List UInt8, convertbits (octets bz) 8 5 true = some l)) := by
  have hoctets (bz : List UInt8) : octets bz = (bz.map UInt8.toNat).map Nat.cast := by
    rw [octets, List.map_map]
    rfl
  refine ⟨fun hrp data => decode_encode, fun s hrp data => encode_decode,
    fun hrp q r a b => substitute_rejected, fun bz => ?_, fun l hl => ?_⟩
  · have hbytes : ∀ d ∈ bz.map UInt8.toNat, d < 2 ^ 8 := by
      intro d hd
      obtain ⟨b, -, rfl⟩ := List.mem_map.1 hd
      exact b.toNat_lt
    obtain ⟨five, hfive⟩ := exists_padded (t := 5) hbytes
    rw [hoctets]
    exact ⟨five, hfive, (convertbits_inverse (by decide) (by decide)).2 hfive⟩
  · rw [← not_iff_not, not_not, ← Ne, Option.ne_none_iff_exists']
    constructor
    · rintro ⟨data, hdata⟩
      have hbytes := ((convertbits_strict (by decide)).1 hdata).2.1
      refine ⟨data.map UInt8.ofNat, ?_⟩
      have hback : (data.map UInt8.ofNat).map UInt8.toNat = data := by
        rw [List.map_map]
        refine (List.map_congr_left fun d hd => ?_).trans (List.map_id _)
        exact UInt8.toNat_ofNat_of_lt (hbytes d hd)
      rw [hoctets, hback]
      exact (convertbits_inverse (by decide) (by decide)).1 hdata
    · rintro ⟨bz, hbz⟩
      rw [hoctets] at hbz
      exact ⟨_, (convertbits_inverse (by decide) (by decide)).2 hbz⟩

/-- The five values of three bytes, written as an address and read back. -/
theorem codec_spec_dendra :
    ∃ s, bech32Encode "dendra".toList [0, 4, 1, 0, 6] = some s ∧
      (s.length ≤ 90 → bech32Decode s = some ("dendra".toList, [0, 4, 1, 0, 6])) :=
  codec_spec.1 "dendra".toList [0, 4, 1, 0, 6] (by decide) (by simp) rfl (by decide)

/-- Without a readable part, what is encoded is refused: the separator may not stand first. -/
theorem codec_headless : ∃ s, bech32Encode [] [] = some s ∧ s.length ≤ 90 ∧ bech32Decode s = none :=
  ⟨"10a06t8".toList, by decide, by decide, by decide⟩

end Dendra.Relay.CosmosAddr
