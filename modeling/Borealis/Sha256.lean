-- SHA-256: a digest of 32 bytes.
import Borealis.Text

namespace Borealis.Sha256

/-- The eight words that a digest is made of. -/
structure State where
  a : UInt32
  b : UInt32
  c : UInt32
  d : UInt32
  e : UInt32
  f : UInt32
  g : UInt32
  h : UInt32

/-- The state before the first block. -/
def initial : State :=
  ⟨0x6a09e667, 0xbb67ae85, 0x3c6ef372, 0xa54ff53a, 0x510e527f, 0x9b05688c, 0x1f83d9ab, 0x5be0cd19⟩

/-- The constant of each round. -/
def constants : List UInt32 :=
  [0x428a2f98, 0x71374491, 0xb5c0fbcf, 0xe9b5dba5, 0x3956c25b, 0x59f111f1, 0x923f82a4, 0xab1c5ed5,
   0xd807aa98, 0x12835b01, 0x243185be, 0x550c7dc3, 0x72be5d74, 0x80deb1fe, 0x9bdc06a7, 0xc19bf174,
   0xe49b69c1, 0xefbe4786, 0x0fc19dc6, 0x240ca1cc, 0x2de92c6f, 0x4a7484aa, 0x5cb0a9dc, 0x76f988da,
   0x983e5152, 0xa831c66d, 0xb00327c8, 0xbf597fc7, 0xc6e00bf3, 0xd5a79147, 0x06ca6351, 0x14292967,
   0x27b70a85, 0x2e1b2138, 0x4d2c6dfc, 0x53380d13, 0x650a7354, 0x766a0abb, 0x81c2c92e, 0x92722c85,
   0xa2bfe8a1, 0xa81a664b, 0xc24b8b70, 0xc76c51a3, 0xd192e819, 0xd6990624, 0xf40e3585, 0x106aa070,
   0x19a4c116, 0x1e376c08, 0x2748774c, 0x34b0bcb5, 0x391c0cb3, 0x4ed8aa4a, 0x5b9cca4f, 0x682e6ff3,
   0x748f82ee, 0x78a5636f, 0x84c87814, 0x8cc70208, 0x90befffa, 0xa4506ceb, 0xbef9a3f7, 0xc67178f2]

/-- Turns a word to the right. -/
def rotate (x : UInt32) (n : UInt32) : UInt32 := (x >>> n) ||| (x <<< (32 - n))

/-- One round with a word of the block and its constant. -/
def round (s : State) (w k : UInt32) : State :=
  let t1 := s.h + (rotate s.e 6 ^^^ rotate s.e 11 ^^^ rotate s.e 25)
    + ((s.e &&& s.f) ^^^ (~~~s.e &&& s.g)) + k + w
  let t2 := (rotate s.a 2 ^^^ rotate s.a 13 ^^^ rotate s.a 22)
    + ((s.a &&& s.b) ^^^ (s.a &&& s.c) ^^^ (s.b &&& s.c))
  ⟨t1 + t2, s.a, s.b, s.c, s.d + t1, s.e, s.f, s.g⟩

/-- The word that follows sixteen others. -/
def nextWord : List UInt32 → UInt32
  | [w0, w1, _, _, _, _, _, _, _, w9, _, _, _, _, w14, _] =>
    w0 + (rotate w1 7 ^^^ rotate w1 18 ^^^ (w1 >>> 3)) + w9
      + (rotate w14 17 ^^^ rotate w14 19 ^^^ (w14 >>> 10))
  | _ => 0

/-- Goes through rounds, with the next sixteen words at hand. -/
def rounds : List UInt32 → List UInt32 → State → State
  | [], _, s => s
  | k :: ks, ws, s => rounds ks (ws.tail ++ [nextWord ws]) (round s (ws.headD 0) k)

/-- Takes a block of sixteen words into the state. -/
def compress (s : State) (words : List UInt32) : State :=
  let t := rounds constants words s
  ⟨s.a + t.a, s.b + t.b, s.c + t.c, s.d + t.d, s.e + t.e, s.f + t.f, s.g + t.g, s.h + t.h⟩

/-- Four bytes are a word, the first one highest. -/
def words : Text → List UInt32
  | a :: b :: c :: d :: rest =>
    ((a.toUInt32 <<< 24) ||| (b.toUInt32 <<< 16) ||| (c.toUInt32 <<< 8) ||| d.toUInt32)
      :: words rest
  | _ => []

/-- The lowest bytes of a number, the highest of them first. -/
def lowBytes : (count : Nat) → Nat → Text
  | 0, _ => []
  | count + 1, n => lowBytes count (n / 256) ++ [UInt8.ofNat (n % 256)]

/-- The message up to a full block: a one bit, zeros, and its length in bits. -/
def padded (t : Text) : Text :=
  t ++ 0x80 :: List.replicate ((119 - t.length % 64) % 64) 0 ++ lowBytes 8 (8 * t.length)

/-- Takes words into the state, sixteen at a time. -/
def absorb : Nat → List UInt32 → State → State
  | 0, _, s => s
  | n + 1, ws, s => absorb n (ws.drop 16) (compress s (ws.take 16))

/-- The digest of a message. -/
def digest (t : Text) : Text :=
  let ws := words (padded t)
  let s := absorb (ws.length / 16) ws initial
  [s.a, s.b, s.c, s.d, s.e, s.f, s.g, s.h].flatMap fun w => lowBytes 4 w.toNat

end Borealis.Sha256
