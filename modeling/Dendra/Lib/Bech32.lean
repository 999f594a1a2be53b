import Dendra.Lib.Str

/-!
# Bech32

The encoding of BIP 173: a readable prefix, a `1`, and characters of five bits each, the last six of
them a checksum. The length limit is the one of `bech32.DecodeAndConvert` (1023).

* `encode_eq`: what an encoded string looks like.
-/

namespace Dendra.Bech32

/-- The characters of the data part, by value. -/
def charset : Str := "qpzry9x8gf2tvdw0s3jn54khce6mua7l".toList

/-- The number of a list of digits, the first one the most significant. -/
def ofDigits (w : Nat) (l : List Nat) : Nat := l.foldl (fun n d => n <<< w ||| d) 0

/-- The `n` lowest digits of `w` bits of a number, the first one the most significant. -/
def digits (w n x : Nat) : List Nat := (List.range n).map fun i => x >>> (w * (n - 1 - i)) % 2 ^ w

/-- One step of the checksum. -/
def polymodStep (chk v : Nat) : Nat :=
  let b := chk >>> 25
  let chk := (chk % 2 ^ 25) <<< 5 ^^^ v
  [0x3b6a57b2, 0x26508e6d, 0x1ea119fa, 0x3d4233dd, 0x2a1462b3].zipIdx.foldl
    (fun c (g, i) => if b.testBit i then c ^^^ g else c) chk

def polymod (l : List Nat) : Nat := l.foldl polymodStep 1

def expand (hrp : Str) : List Nat :=
  hrp.map (fun a => a.toNat >>> 5) ++ 0 :: hrp.map fun a => a.toNat % 32

/-- The six checksum digits. -/
def checksum (hrp : Str) (data : List Nat) : List Nat :=
  digits 5 6 (polymod (expand hrp ++ data ++ List.replicate 6 0) ^^^ 1)

/-- Bytes as digits of five bits, padded with zeros. -/
def toFive (bz : List UInt8) : List Nat :=
  let n := (8 * bz.length + 4) / 5
  digits 5 n (ofDigits 8 (bz.map UInt8.toNat) <<< (5 * n - 8 * bz.length))

/-- Digits of five bits as bytes, when the padding is short and of zeros. -/
def ofFive (l : List Nat) : Option (List UInt8) :=
  let x := ofDigits 5 l
  let rest := 5 * l.length % 8
  if rest ≥ 5 ∨ x % 2 ^ rest ≠ 0 then none
  else some ((digits 8 (5 * l.length / 8) (x >>> rest)).map UInt8.ofNat)

/-- `bech32.ConvertAndEncode`. -/
def encode (hrp : Str) (bz : List UInt8) : Str :=
  let data := toFive bz
  hrp ++ '1' :: (data ++ checksum hrp data).map fun d => charset.getD d 'q'

theorem encode_eq (hrp : Str) (bz : List UInt8) :
    ∃ d, encode hrp bz = hrp ++ '1' :: d ∧ ∀ a ∈ d, a ∈ charset := by
  refine ⟨_, rfl, fun a ha => ?_⟩
  obtain ⟨d, -, rfl⟩ := List.mem_map.1 ha
  rw [List.getD_eq_getElem?_getD]
  cases h : charset[d]? with
  | none => decide
  | some a => exact List.mem_of_getElem? h

/-- The values of data characters. -/
def values (s : Str) : Option (List Nat) :=
  s.mapM fun (a : Char) => if a ∈ charset then some (List.idxOf a charset) else none

/-- The prefix and the bytes of a lower-case string. -/
def decodeLower (s : Str) : Option (Str × List UInt8) := do
  let (hrp, d) ← Str.splitLast ['1'] s
  if hrp = [] ∨ d.length < 6 ∨ s.length < 8 ∨ s.length > 1023 then none
  else
    let l ← values d
    if polymod (expand hrp ++ l) ≠ 1 then none
    else
      let bz ← ofFive (l.take (l.length - 6))
      pure (hrp, bz)

/-- `bech32.DecodeAndConvert`: printable, and not of mixed case. -/
def decode (s : Str) : Option (Str × List UInt8) :=
  if s.any fun a => a.toNat < 33 || a.toNat > 126 then none
  else if s.any Char.isUpper && s.any Char.isLower then none
  else decodeLower (s.map Char.toLower)

/-- An encoded string reads back. -/
example : decode (encode "dm".toList [1, 2, 3, 250, 251]) = some ("dm".toList, [1, 2, 3, 250, 251]) := by
  decide +kernel

end Dendra.Bech32
