-- Numbers with a binary fraction of 53 bits. A decimal is read as the number
-- nearest to it, and of two that are equally near as the one whose last bit
-- is 0.
import Borealis.Text

namespace Borealis

/-- A number `m * 2 ^ e` with a sign, or one that is out of reach. -/
inductive Double where
  | finite (negative : Bool) (m : Nat) (e : Int)
  | infinite (negative : Bool)
  | undefined
  deriving DecidableEq, Repr

/-- A decimal as it is written: a sign, digits, and the power of ten that they are times. -/
structure Decimal where
  negative : Bool
  digits : Nat
  power : Int
  deriving DecidableEq, Repr

namespace Double

/-- The least power of two that a number can be a multiple of. -/
def leastPower : Int := -1074

/-- The greatest power of two that the last bit of a number can stand for. -/
def greatestPower : Int := 971

/-- Two to a power, or 1 if the power is negative. -/
def twoTo (power : Int) : Nat := Nat.pow 2 power.toNat

/-- Ten to a power, or 1 if the power is negative. -/
def tenTo (power : Int) : Nat := Nat.pow 10 power.toNat

/-- The quotient rounded to the nearest whole number, a half to the even one. -/
def roundDiv (num den : Nat) : Nat :=
  let q := num / den
  let r := 2 * (num % den)
  if r < den then q else if den < r then q + 1 else q + q % 2

/-- The quotient `num / (den * 2 ^ e)` rounded to the nearest whole number. -/
def roundScaled (num den : Nat) (e : Int) : Nat :=
  if 0 ≤ e then roundDiv num (den * twoTo e) else roundDiv (num * twoTo (-e)) den

/-- Whether `num / den` is below `2 ^ k`. -/
def belowPower (num den : Nat) (k : Int) : Bool :=
  if 0 ≤ k then num < den * twoTo k else num * twoTo (-k) < den

/-- The number nearest to a quotient of whole numbers, or nothing if it is too large. -/
def ofRatio? (negative : Bool) (num den : Nat) : Option Double :=
  if num = 0 then some (finite negative 0 0)
  else
    let guess : Int := Nat.log2 num - Nat.log2 den
    let top : Int := if belowPower num den guess then guess - 1 else guess
    let e := max (top - 52) leastPower
    let m := roundScaled num den e
    let (m, e) := if m = twoTo 53 then (twoTo 52, e + 1) else (m, e)
    if greatestPower < e then none else some (finite negative m e)

/-- The number of decimal digits. -/
def digitCount (n : Nat) : Nat := (Nat.toDigits 10 n).length

/-- The number nearest to a decimal, or nothing if it is too large. -/
def ofDecimal? (d : Decimal) : Option Double :=
  let size := (digitCount d.digits : Int) + d.power
  if d.digits = 0 ∨ size < -330 then some (finite d.negative 0 0)
  else if 330 < size then none
  else if 0 ≤ d.power then ofRatio? d.negative (d.digits * tenTo d.power) 1
  else ofRatio? d.negative d.digits (tenTo (-d.power))

/-- The whole number below or at the size of a number, with its sign. -/
def truncated : Double → Option Int
  | finite negative m e =>
    let size : Nat := if 0 ≤ e then m * twoTo e else m / twoTo (-e)
    some (if negative then -(size : Int) else size)
  | _ => none

/-- A number cut to an integer of 64 bits. What does not fit gives the least one. -/
def toInt64 (d : Double) : Int64 :=
  match d.truncated with
  | some i =>
    if Int64.minValue.toInt ≤ i ∧ i ≤ Int64.maxValue.toInt then Int64.ofInt i else Int64.minValue
  | none => Int64.minValue

end Double

namespace Decimal

/-- The number that digits spell, after those read before. -/
def readDigits (value : Nat) (t : Text) : Nat :=
  t.foldl (fun n b => n * 10 + (b - Text.byte '0').toNat) value

/-- Reads what may follow a decimal: a mark and a power of ten. -/
def readPower? : Text → Option Int
  | [] => some 0
  | b :: rest =>
    if b = Text.byte 'e' ∨ b = Text.byte 'E' then
      let (negative, ds) := match rest with
        | s :: ds =>
          if s = Text.byte '-' then (true, ds)
          else if s = Text.byte '+' then (false, ds)
          else (false, rest)
        | [] => (false, [])
      if !ds.isEmpty && ds.all Text.isDigit then
        let n : Int := readDigits 0 ds
        some (if negative then -n else n)
      else none
    else none

/-- Reads a decimal: digits with a point before, between or after them, and a power of ten. -/
def readUnsigned? (negative : Bool) (t : Text) : Option Decimal :=
  let whole := t.takeWhile Text.isDigit
  let rest := t.drop whole.length
  let (fraction, rest) := match rest with
    | b :: more =>
      if b = Text.byte '.' then
        let fraction := more.takeWhile Text.isDigit
        (fraction, more.drop fraction.length)
      else ([], rest)
    | [] => ([], [])
  if whole.isEmpty && fraction.isEmpty then none
  else (readPower? rest).map fun power =>
    ⟨negative, readDigits (readDigits 0 whole) fraction, power - fraction.length⟩

/-- Reads a decimal with an optional sign. -/
def ofText? : Text → Option Decimal
  | [] => none
  | b :: rest =>
    if b = Text.byte '-' then readUnsigned? true rest
    else if b = Text.byte '+' then readUnsigned? false rest
    else readUnsigned? false (b :: rest)

end Decimal

end Borealis
