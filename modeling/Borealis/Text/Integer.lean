-- Reading decimal integers of 64 bits.
import Borealis.Text

namespace Borealis

/-- Why a text is no integer of 64 bits. -/
inductive IntegerError where
  | malformed
  | outOfRange
  deriving DecidableEq, Repr

namespace Text

/-- The number that digits spell, going on from `value`. It has to stay below `2 ^ 64`; the
first digit that takes it out of range, or that is none, decides which error it is. -/
def digitsFrom (value : Nat) : Text → Except IntegerError Nat
  | [] => .ok value
  | b :: rest =>
    if isDigit b then
      let next := value * 10 + (b - byte '0').toNat
      if next < UInt64.size then digitsFrom next rest else .error .outOfRange
    else .error .malformed

/-- At least one digit. -/
def digits (t : Text) : Except IntegerError Nat :=
  if t.isEmpty then .error .malformed else digitsFrom 0 t

/-- An integer that lies between `-2 ^ 63` and `2 ^ 63 - 1`. -/
def fitInt64 (i : Int) : Except IntegerError Int64 :=
  if Int64.minValue.toInt ≤ i ∧ i ≤ Int64.maxValue.toInt then .ok (Int64.ofInt i)
  else .error .outOfRange

/-- Reads an optional sign and decimal digits as an integer of 64 bits. -/
def toInt64 : Text → Except IntegerError Int64
  | [] => .error .malformed
  | b :: rest =>
    if b = byte '-' then (digits rest).bind fun n => fitInt64 (-(n : Int))
    else if b = byte '+' then (digits rest).bind fun n => fitInt64 n
    else (digits (b :: rest)).bind fun n => fitInt64 n

/-! ## Other bases -/

/-- The value of a digit or letter. -/
def digitValue? (b : UInt8) : Option Nat :=
  if isDigit b then some (b - byte '0').toNat
  else if byte 'a' ≤ b ∧ b ≤ byte 'z' then some ((b - byte 'a').toNat + 10)
  else if byte 'A' ≤ b ∧ b ≤ byte 'Z' then some ((b - byte 'A').toNat + 10)
  else none

/-- The number that digits of a base spell, going on from `value`, below `2 ^ 64`. Underscores
count for nothing. -/
def digitsIn (base value : Nat) : Text → Except IntegerError Nat
  | [] => .ok value
  | b :: rest =>
    if b = byte '_' then digitsIn base value rest
    else match digitValue? b with
      | none => .error .malformed
      | some d =>
        if base ≤ d then .error .malformed
        else if value * base + d < UInt64.size then digitsIn base (value * base + d) rest
        else .error .outOfRange

/-- The base that the front of a number tells, and its digits. -/
def based (t : Text) : Nat × Text :=
  match t with
  | z :: x :: d :: rest =>
    if z = byte '0' then
      if x = byte 'b' ∨ x = byte 'B' then (2, d :: rest)
      else if x = byte 'o' ∨ x = byte 'O' then (8, d :: rest)
      else if x = byte 'x' ∨ x = byte 'X' then (16, d :: rest)
      else (8, x :: d :: rest)
    else (10, t)
  | z :: rest => if z = byte '0' then (8, rest) else (10, t)
  | [] => (10, [])

/-- Whether each underscore stands between digits. `after` tells whether a digit or the mark of
a base came last, and `open_` whether an underscore did. -/
def underscoresFit (hex : Bool) : (after open_ : Bool) → Text → Bool
  | _, open_, [] => !open_
  | after, open_, b :: rest =>
    if isDigit b || (hex && (digitValue? b).any (· < 16)) then underscoresFit hex true false rest
    else if b = byte '_' then after && underscoresFit hex false true rest
    else !open_ && underscoresFit hex false false rest

/-- A number without sign. The front `0x`, `0o`, `0b` or `0` tells its base. -/
def numeral (t : Text) : Except IntegerError Nat :=
  if t.isEmpty then .error .malformed
  else
    let (base, ds) := based t
    match digitsIn base 0 ds with
    | .error e => .error e
    | .ok n =>
      if t.contains (byte '_') then
        let marked := ds.length + 2 == t.length
        if underscoresFit (base == 16) marked false (if marked then ds else t) then .ok n
        else .error .malformed
      else .ok n

/-- Reads an optional sign and a number in the base that its front tells. -/
def toInt64Based : Text → Except IntegerError Int64
  | [] => .error .malformed
  | b :: rest =>
    if b = byte '-' then (numeral rest).bind fun n => fitInt64 (-(n : Int))
    else if b = byte '+' then (numeral rest).bind fun n => fitInt64 n
    else (numeral (b :: rest)).bind fun n => fitInt64 n

end Text

end Borealis
