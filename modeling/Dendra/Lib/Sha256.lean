import Mathlib

/-!
# SHA-256

The hash of FIPS 180-4 on lists of bytes. Words are natural numbers below `2 ^ 32`, so that the
kernel computes with them.
-/

namespace Dendra.Sha256

/-- The modulus of the words. -/
def word : Nat := 2 ^ 32

def rotr (n x : Nat) : Nat := (x >>> n) ||| ((x <<< (32 - n)) % word)

def bigSigma0 (x : Nat) : Nat := rotr 2 x ^^^ rotr 13 x ^^^ rotr 22 x

def bigSigma1 (x : Nat) : Nat := rotr 6 x ^^^ rotr 11 x ^^^ rotr 25 x

def smallSigma0 (x : Nat) : Nat := rotr 7 x ^^^ rotr 18 x ^^^ (x >>> 3)

def smallSigma1 (x : Nat) : Nat := rotr 17 x ^^^ rotr 19 x ^^^ (x >>> 10)

def choice (x y z : Nat) : Nat := (x &&& y) ^^^ ((word - 1 - x) &&& z)

def majority (x y z : Nat) : Nat := (x &&& y) ^^^ (x &&& z) ^^^ (y &&& z)

/-- The round constants. -/
def constants : List Nat := [
  0x428a2f98, 0x71374491, 0xb5c0fbcf, 0xe9b5dba5, 0x3956c25b, 0x59f111f1, 0x923f82a4, 0xab1c5ed5,
  0xd807aa98, 0x12835b01, 0x243185be, 0x550c7dc3, 0x72be5d74, 0x80deb1fe, 0x9bdc06a7, 0xc19bf174,
  0xe49b69c1, 0xefbe4786, 0x0fc19dc6, 0x240ca1cc, 0x2de92c6f, 0x4a7484aa, 0x5cb0a9dc, 0x76f988da,
  0x983e5152, 0xa831c66d, 0xb00327c8, 0xbf597fc7, 0xc6e00bf3, 0xd5a79147, 0x06ca6351, 0x14292967,
  0x27b70a85, 0x2e1b2138, 0x4d2c6dfc, 0x53380d13, 0x650a7354, 0x766a0abb, 0x81c2c92e, 0x92722c85,
  0xa2bfe8a1, 0xa81a664b, 0xc24b8b70, 0xc76c51a3, 0xd192e819, 0xd6990624, 0xf40e3585, 0x106aa070,
  0x19a4c116, 0x1e376c08, 0x2748774c, 0x34b0bcb5, 0x391c0cb3, 0x4ed8aa4a, 0x5b9cca4f, 0x682e6ff3,
  0x748f82ee, 0x78a5636f, 0x84c87814, 0x8cc70208, 0x90befffa, 0xa4506ceb, 0xbef9a3f7, 0xc67178f2]

/-- The working variables. -/
structure Regs where
  a : Nat
  b : Nat
  c : Nat
  d : Nat
  e : Nat
  f : Nat
  g : Nat
  h : Nat

def start : Regs :=
  ⟨0x6a09e667, 0xbb67ae85, 0x3c6ef372, 0xa54ff53a, 0x510e527f, 0x9b05688c, 0x1f83d9ab, 0x5be0cd19⟩

/-- One round, with its constant and its word of the schedule. -/
def round (r : Regs) (k w : Nat) : Regs :=
  let t₁ := (r.h + bigSigma1 r.e + choice r.e r.f r.g + k + w) % word
  let t₂ := (bigSigma0 r.a + majority r.a r.b r.c) % word
  ⟨(t₁ + t₂) % word, r.a, r.b, r.c, (r.d + t₁) % word, r.e, r.f, r.g⟩

/-- The word of the schedule that follows a window of sixteen. -/
def next (ws : List Nat) : Nat :=
  (smallSigma1 (ws.getD 14 0) + ws.getD 9 0 + smallSigma0 (ws.getD 1 0) + ws.getD 0 0) % word

/-- The rounds of a block; the window holds the next sixteen words of the schedule. -/
def rounds : List Nat → List Nat → Regs → Regs
  | [], _, r => r
  | k :: ks, ws, r => rounds ks (ws.tail ++ [next ws]) (round r k (ws.headD 0))

def compress (r : Regs) (ws : List Nat) : Regs :=
  let s := rounds constants ws r
  ⟨(r.a + s.a) % word, (r.b + s.b) % word, (r.c + s.c) % word, (r.d + s.d) % word,
    (r.e + s.e) % word, (r.f + s.f) % word, (r.g + s.g) % word, (r.h + s.h) % word⟩

/-- The big-endian bytes of a number. -/
def bytes (n x : Nat) : List UInt8 :=
  (List.range n).map fun i => UInt8.ofNat (x >>> (8 * (n - 1 - i)) % 256)

/-- The message up to a multiple of 64 bytes: a one bit, zeros, and its length in bits. -/
def pad (m : List UInt8) : List UInt8 :=
  m ++ 0x80 :: List.replicate ((119 - m.length % 64) % 64) 0 ++ bytes 8 (8 * m.length)

/-- Bytes as big-endian words. -/
def words : List UInt8 → List Nat
  | a :: b :: c :: d :: l =>
    (((a.toNat * 256 + b.toNat) * 256 + c.toNat) * 256 + d.toNat) :: words l
  | _ => []

/-- The first `n` blocks. -/
def blocks : Nat → List Nat → Regs → Regs
  | 0, _, r => r
  | n + 1, ws, r => blocks n (ws.drop 16) (compress r (ws.take 16))

/-- `sha256.Sum256`. -/
def hash (m : List UInt8) : List UInt8 :=
  let ws := words (pad m)
  let r := blocks (ws.length / 16) ws start
  [r.a, r.b, r.c, r.d, r.e, r.f, r.g, r.h].flatMap (bytes 4)

/-- The vector of the standard for `abc`. -/
example : hash [0x61, 0x62, 0x63] =
    bytes 32 0xba7816bf8f01cfea414140de5dae2223b00361a396177a9cb410ff61f20015ad := by
  decide

end Dendra.Sha256
