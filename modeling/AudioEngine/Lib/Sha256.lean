import Mathlib.Data.BitVec

/-!
# AudioEngine.Lib.Sha256

SHA-256 on byte lists, with the hexadecimal digest. Everything is structural recursion over lists
and bit vectors, so a digest can be evaluated by the kernel.
-/

namespace Sha256

abbrev Word := BitVec 32

/-- The eight chaining variables. -/
structure Chain where
  a : Word
  b : Word
  c : Word
  d : Word
  e : Word
  f : Word
  g : Word
  h : Word

def roundConstants : List Nat :=
  [0x428a2f98, 0x71374491, 0xb5c0fbcf, 0xe9b5dba5, 0x3956c25b, 0x59f111f1, 0x923f82a4, 0xab1c5ed5,
   0xd807aa98, 0x12835b01, 0x243185be, 0x550c7dc3, 0x72be5d74, 0x80deb1fe, 0x9bdc06a7, 0xc19bf174,
   0xe49b69c1, 0xefbe4786, 0x0fc19dc6, 0x240ca1cc, 0x2de92c6f, 0x4a7484aa, 0x5cb0a9dc, 0x76f988da,
   0x983e5152, 0xa831c66d, 0xb00327c8, 0xbf597fc7, 0xc6e00bf3, 0xd5a79147, 0x06ca6351, 0x14292967,
   0x27b70a85, 0x2e1b2138, 0x4d2c6dfc, 0x53380d13, 0x650a7354, 0x766a0abb, 0x81c2c92e, 0x92722c85,
   0xa2bfe8a1, 0xa81a664b, 0xc24b8b70, 0xc76c51a3, 0xd192e819, 0xd6990624, 0xf40e3585, 0x106aa070,
   0x19a4c116, 0x1e376c08, 0x2748774c, 0x34b0bcb5, 0x391c0cb3, 0x4ed8aa4a, 0x5b9cca4f, 0x682e6ff3,
   0x748f82ee, 0x78a5636f, 0x84c87814, 0x8cc70208, 0x90befffa, 0xa4506ceb, 0xbef9a3f7, 0xc67178f2]

def initial : Chain :=
  ⟨0x6a09e667, 0xbb67ae85, 0x3c6ef372, 0xa54ff53a, 0x510e527f, 0x9b05688c, 0x1f83d9ab, 0x5be0cd19⟩

def smallSigma0 (x : Word) : Word := x.rotateRight 7 ^^^ x.rotateRight 18 ^^^ x >>> 3
def smallSigma1 (x : Word) : Word := x.rotateRight 17 ^^^ x.rotateRight 19 ^^^ x >>> 10
def bigSigma0 (x : Word) : Word := x.rotateRight 2 ^^^ x.rotateRight 13 ^^^ x.rotateRight 22
def bigSigma1 (x : Word) : Word := x.rotateRight 6 ^^^ x.rotateRight 11 ^^^ x.rotateRight 25
def choose (x y z : Word) : Word := (x &&& y) ^^^ (~~~x &&& z)
def majority (x y z : Word) : Word := (x &&& y) ^^^ (x &&& z) ^^^ (y &&& z)

def round (s : Chain) (k w : Word) : Chain :=
  let t₁ := s.h + bigSigma1 s.e + choose s.e s.f s.g + k + w
  let t₂ := bigSigma0 s.a + majority s.a s.b s.c
  ⟨t₁ + t₂, s.a, s.b, s.c, s.d + t₁, s.e, s.f, s.g⟩

/-- The rounds of one block. `window` is the next sixteen words of the message schedule; each
round uses the first and appends the word sixteen places later. -/
def rounds : List Nat → List Word → Chain → Chain
  | [], _, s => s
  | k :: ks, window, s =>
    let w := window.headD 0
    let next := smallSigma1 (window.getD 14 0) + window.getD 9 0 + smallSigma0 (window.getD 1 0) + w
    rounds ks (window.tail ++ [next]) (round s (BitVec.ofNat 32 k) w)

def compress (s : Chain) (block : List Word) : Chain :=
  let r := rounds roundConstants block s
  ⟨s.a + r.a, s.b + r.b, s.c + r.c, s.d + r.d, s.e + r.e, s.f + r.f, s.g + r.g, s.h + r.h⟩

/-- Message bytes, the bit `1`, zeros, and the bit length on 64 bits. -/
def pad (bytes : List Nat) : List Nat :=
  bytes ++ 0x80 :: List.replicate ((119 - bytes.length % 64) % 64) 0 ++
    (List.range 8).map fun i => (8 * bytes.length) >>> (8 * (7 - i)) % 256

def toWords : List Nat → List Word
  | a :: b :: c :: d :: rest => BitVec.ofNat 32 (a * 2 ^ 24 + b * 2 ^ 16 + c * 2 ^ 8 + d) :: toWords rest
  | _ => []

def absorb : Nat → List Word → Chain → Chain
  | 0, _, s => s
  | n + 1, ws, s => absorb n (ws.drop 16) (compress s (ws.take 16))

def digest (bytes : List Nat) : Chain :=
  let ws := toWords (pad bytes)
  absorb (ws.length / 16) ws initial

def hexWord (w : Word) : List Char :=
  (List.range 8).map fun i => Nat.digitChar (w.toNat >>> (4 * (7 - i)) % 16)

/-- The lowercase 64-character digest of a byte array. -/
def hexdigest (bytes : ByteArray) : String :=
  let d := digest (bytes.toList.map UInt8.toNat)
  String.ofList ([d.a, d.b, d.c, d.d, d.e, d.f, d.g, d.h].flatMap hexWord)

set_option maxRecDepth 4000 in
example : hexdigest "abc".toUTF8 =
    "ba7816bf8f01cfea414140de5dae2223b00361a396177a9cb410ff61f20015ad" := by decide +kernel

end Sha256
