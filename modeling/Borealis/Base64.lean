-- Bytes as letters: three bytes are four letters of six bits each.
import Borealis.Text

namespace Borealis.Base64

/-- The letter for six bits. -/
def letter (n : Nat) : UInt8 :=
  if n < 26 then UInt8.ofNat (n + 65)
  else if n < 52 then UInt8.ofNat (n + 71)
  else if n < 62 then UInt8.ofNat (n - 4)
  else if n = 62 then Text.byte '+'
  else Text.byte '/'

/-- The six bits of a letter. -/
def value? (b : UInt8) : Option Nat :=
  let n := b.toNat
  if 65 ≤ n ∧ n ≤ 90 then some (n - 65)
  else if 97 ≤ n ∧ n ≤ 122 then some (n - 71)
  else if 48 ≤ n ∧ n ≤ 57 then some (n + 4)
  else if b = Text.byte '+' then some 62
  else if b = Text.byte '/' then some 63
  else none

/-- The byte that fills up the last four letters. -/
def pad : UInt8 := Text.byte '='

/-- The letters of bytes. -/
def encode : Text → Text
  | [] => []
  | [a] =>
    let n := a.toNat * 16
    [letter (n / 64), letter (n % 64), pad, pad]
  | [a, b] =>
    let n := (a.toNat * 256 + b.toNat) * 4
    [letter (n / 4096), letter (n / 64 % 64), letter (n % 64), pad]
  | a :: b :: c :: rest =>
    let n := (a.toNat * 256 + b.toNat) * 256 + c.toNat
    letter (n / 262144) :: letter (n / 4096 % 64) :: letter (n / 64 % 64) :: letter (n % 64)
      :: encode rest

/-- The bytes of letters without line ends among them. -/
def decodeLetters? : Text → Option Text
  | [] => some []
  | [a, b, c, d] => do
    let x ← value? a
    let y ← value? b
    if c = pad ∧ d = pad then return [UInt8.ofNat ((x * 64 + y) / 16)]
    let z ← value? c
    if d = pad then
      let n := ((x * 64 + y) * 64 + z) / 4
      return [UInt8.ofNat (n / 256), UInt8.ofNat (n % 256)]
    let w ← value? d
    let n := ((x * 64 + y) * 64 + z) * 64 + w
    return [UInt8.ofNat (n / 65536), UInt8.ofNat (n / 256 % 256), UInt8.ofNat (n % 256)]
  | a :: b :: c :: d :: rest => do
    let n := (((← value? a) * 64 + (← value? b)) * 64 + (← value? c)) * 64 + (← value? d)
    let more ← decodeLetters? rest
    return UInt8.ofNat (n / 65536) :: UInt8.ofNat (n / 256 % 256) :: UInt8.ofNat (n % 256) :: more
  | _ => none

/-- The bytes of letters. Line ends among them count for nothing. -/
def decode? (t : Text) : Option Text :=
  decodeLetters? (t.filter fun b => b != Text.byte '\n' && b != Text.byte '\r')

/-- Lines of at most so many bytes, each with its end. -/
def lines (width : Nat) : Nat → Text → Text
  | 0, _ => []
  | n + 1, t =>
    if t.isEmpty then [] else t.take width ++ (Text.byte '\n' :: lines width n (t.drop width))

/-- The letters of bytes, on one line if they are few, else on lines of 70. -/
def encodeLines (t : Text) : Text :=
  let e := encode t
  if e.length < 70 then e else lines 70 e.length e

end Borealis.Base64
