import Diffz.Lib.Text

/-!
# SHA-256

The hash itself is a parameter of the model, since every result holds for any function or names
what it needs of one. This is the function the program links, for the places where a result is
evaluated on a concrete input. Words are naturals below `2 ^ 32`, which the kernel computes with
directly.
-/

set_option autoImplicit false

namespace Diffz
namespace Sha256

def word : Nat := 4294967296

def rotr (n x : Nat) : Nat := (x >>> n) ||| ((x <<< (32 - n)) % word)

/-- The round constants. -/
def constants : List Nat :=
  [0x428a2f98, 0x71374491, 0xb5c0fbcf, 0xe9b5dba5, 0x3956c25b, 0x59f111f1, 0x923f82a4, 0xab1c5ed5,
   0xd807aa98, 0x12835b01, 0x243185be, 0x550c7dc3, 0x72be5d74, 0x80deb1fe, 0x9bdc06a7, 0xc19bf174,
   0xe49b69c1, 0xefbe4786, 0x0fc19dc6, 0x240ca1cc, 0x2de92c6f, 0x4a7484aa, 0x5cb0a9dc, 0x76f988da,
   0x983e5152, 0xa831c66d, 0xb00327c8, 0xbf597fc7, 0xc6e00bf3, 0xd5a79147, 0x06ca6351, 0x14292967,
   0x27b70a85, 0x2e1b2138, 0x4d2c6dfc, 0x53380d13, 0x650a7354, 0x766a0abb, 0x81c2c92e, 0x92722c85,
   0xa2bfe8a1, 0xa81a664b, 0xc24b8b70, 0xc76c51a3, 0xd192e819, 0xd6990624, 0xf40e3585, 0x106aa070,
   0x19a4c116, 0x1e376c08, 0x2748774c, 0x34b0bcb5, 0x391c0cb3, 0x4ed8aa4a, 0x5b9cca4f, 0x682e6ff3,
   0x748f82ee, 0x78a5636f, 0x84c87814, 0x8cc70208, 0x90befffa, 0xa4506ceb, 0xbef9a3f7, 0xc67178f2]

structure State where
  a : Nat
  b : Nat
  c : Nat
  d : Nat
  e : Nat
  f : Nat
  g : Nat
  h : Nat

def initial : State :=
  ⟨0x6a09e667, 0xbb67ae85, 0x3c6ef372, 0xa54ff53a, 0x510e527f, 0x9b05688c, 0x1f83d9ab, 0x5be0cd19⟩

def State.add (s t : State) : State :=
  ⟨(s.a + t.a) % word, (s.b + t.b) % word, (s.c + t.c) % word, (s.d + t.d) % word,
   (s.e + t.e) % word, (s.f + t.f) % word, (s.g + t.g) % word, (s.h + t.h) % word⟩

def round (s : State) (kw : Nat × Nat) : State :=
  let s1 := rotr 6 s.e ^^^ rotr 11 s.e ^^^ rotr 25 s.e
  let ch := (s.e &&& s.f) ^^^ ((word - 1 - s.e) &&& s.g)
  let t1 := s.h + s1 + ch + kw.1 + kw.2
  let s0 := rotr 2 s.a ^^^ rotr 13 s.a ^^^ rotr 22 s.a
  let maj := (s.a &&& s.b) ^^^ (s.a &&& s.c) ^^^ (s.b &&& s.c)
  ⟨(t1 + s0 + maj) % word, s.a, s.b, s.c, (s.d + t1) % word, s.e, s.f, s.g⟩

/-- `n` further words of the schedule, the latest word first. -/
def extend : Nat → List Nat → List Nat
  | 0, w => w
  | n + 1, w =>
    let x := w.getD 14 0
    let y := w.getD 1 0
    let s0 := rotr 7 x ^^^ rotr 18 x ^^^ (x >>> 3)
    let s1 := rotr 17 y ^^^ rotr 19 y ^^^ (y >>> 10)
    extend n ((w.getD 15 0 + s0 + w.getD 6 0 + s1) % word :: w)

def words : Bytes → List Nat
  | a :: b :: c :: d :: rest =>
    (((a.toNat * 256 + b.toNat) * 256 + c.toNat) * 256 + d.toNat) :: words rest
  | _ => []

def compress (s : State) (block : Bytes) : State :=
  let w := (extend 48 (words block).reverse).reverse
  s.add ((constants.zip w).foldl round s)

/-- The big-endian bytes of a number, `n` of them. -/
def toBeBytes (n x : Nat) : Bytes :=
  (List.range n).map fun i => UInt8.ofNat (x >>> (8 * (n - 1 - i)))

def pad (v : Bytes) : Bytes :=
  v ++ [0x80] ++ List.replicate ((119 - v.length % 64) % 64) 0 ++ toBeBytes 8 (8 * v.length)

def blocks : Nat → Bytes → List Bytes
  | 0, _ => []
  | n + 1, v => v.take 64 :: blocks n (v.drop 64)

def sha256 (v : Bytes) : Bytes :=
  let s := (blocks ((pad v).length / 64) (pad v)).foldl compress initial
  [s.a, s.b, s.c, s.d, s.e, s.f, s.g, s.h].flatMap (toBeBytes 4)

end Sha256
end Diffz
