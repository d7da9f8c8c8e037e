-- The text of a number: the fewest digits that read back to it.
import Borealis.Double

namespace Borealis

namespace Double

/-- A positive multiple of a power of two: `count * 2 ^ power`. -/
structure Multiple where
  count : Nat
  power : Int

/-- Whether `digits * 10 ^ scale` is at most the multiple. -/
def atMost (digits : Nat) (scale : Int) (x : Multiple) : Bool :=
  digits * tenTo scale * twoTo (-x.power) ≤ x.count * twoTo x.power * tenTo (-scale)

/-- Whether `digits * 10 ^ scale` is at least the multiple. -/
def atLeast (digits : Nat) (scale : Int) (x : Multiple) : Bool :=
  x.count * twoTo x.power * tenTo (-scale) ≤ digits * tenTo scale * twoTo (-x.power)

/-- How often `10 ^ scale` goes into the multiple. -/
def wholeTimes (scale : Int) (x : Multiple) : Nat :=
  x.count * twoTo x.power * tenTo (-scale) / (tenTo scale * twoTo (-x.power))

/-- The power of ten of the first digit of a multiple. -/
def leadingPower (x : Multiple) : Int :=
  let guess : Int := ((Nat.log2 x.count : Int) + x.power) * 30103 / 100000
  if atMost 1 (guess + 1) x then guess + 1
  else if atMost 1 guess x then guess
  else guess - 1

/-- Digits times `10 ^ scale` with so many digits, if they read back to the number: of the two
next to it the nearer one, or the even one. -/
def withDigits? (m : Nat) (e : Int) (first : Int) (count : Nat) : Option (Nat × Int) :=
  let scale := first + 1 - count
  let value : Multiple := ⟨4 * m, e - 2⟩
  let low : Multiple := ⟨if m = twoTo 52 ∧ leastPower < e then 4 * m - 1 else 4 * m - 2, e - 2⟩
  let high : Multiple := ⟨4 * m + 2, e - 2⟩
  let inside (d : Nat) : Bool :=
    if m % 2 = 0 then atLeast d scale low && atMost d scale high
    else !atMost d scale low && !atLeast d scale high
  let below := wholeTimes scale value
  let above := below + 1
  let twice : Multiple := ⟨value.count * 2, value.power⟩
  let middle := below + above
  match inside below, inside above with
  | true, true =>
    if atMost middle scale twice && atLeast middle scale twice then
      some (if below % 2 = 0 then below else above, scale)
    else some (if atMost middle scale twice then above else below, scale)
  | true, false => some (below, scale)
  | false, true => some (above, scale)
  | false, false => none

/-- The fewest digits that read back to a positive number `m * 2 ^ e`, times a power of ten. -/
def shortest (m : Nat) (e : Int) : Nat × Int :=
  let first := leadingPower ⟨m, e⟩
  ((List.range 17).findSome? fun n => withDigits? m e first (n + 1)).getD (m, 0)

/-- Drops the zeros at the end of digits. -/
def dropZeros : Nat → Nat × Int → Nat × Int
  | 0, d => d
  | n + 1, (digits, scale) =>
    if digits % 10 = 0 ∧ digits ≠ 0 then dropZeros n (digits / 10, scale + 1) else (digits, scale)

/-- A power of ten in at least two digits, with its sign. -/
def powerText (p : Int) : Text :=
  let size := Text.ofNat p.natAbs
  (if p < 0 then "-" else "+") ++ (if size.length < 2 then "0" ++ size else size)

/-- Positional below a million and from a ten-thousandth on, otherwise with a power of ten. -/
def sizeText (m : Nat) (e : Int) : Text :=
  if m = 0 then "0"
  else
    let (digits, scale) := dropZeros 20 (shortest m e)
    let ds := Text.ofNat digits
    let first := scale + ds.length - 1
    if first < -4 ∨ 6 ≤ first then
      (match ds with
        | [] => []
        | [d] => [d]
        | d :: more => d :: (Text.byte '.' :: more)) ++ "e" ++ powerText first
    else if 0 ≤ scale then ds ++ List.replicate scale.toNat (Text.byte '0')
    else
      let places := (-scale).toNat
      if places < ds.length then
        ds.take (ds.length - places) ++ "." ++ ds.drop (ds.length - places)
      else "0." ++ List.replicate (places - ds.length) (Text.byte '0') ++ ds

/-- The text of a number. -/
def render : Double → Text
  | finite negative m e => (if negative then "-" else "") ++ sizeText m e
  | infinite negative => if negative then "-Inf" else "+Inf"
  | undefined => "NaN"

end Double

end Borealis
