-- Text is a sequence of bytes. Source files, tokens and messages need not be
-- valid UTF-8, and columns count bytes, so nothing here assumes characters.

namespace Borealis

/-- A text: its bytes, in order. -/
abbrev Text := List UInt8

namespace Text

/-- The UTF-8 bytes of a string. -/
def ofString (s : String) : Text := s.toList.flatMap String.utf8EncodeChar

instance : Coe String Text := ⟨ofString⟩

/-- The one-byte text of an ASCII character. -/
def ofChar (c : Char) : Text := String.utf8EncodeChar c

/-- The byte of an ASCII character. -/
def byte (c : Char) : UInt8 := c.toUInt8

/-! ## Numbers -/

/-- The decimal digits of a number. -/
def ofNat (n : Nat) : Text := (Nat.toDigits 10 n).map Char.toUInt8

/-- The decimal digits of an integer, after a minus sign if it is negative. -/
def ofInt : Int → Text
  | .ofNat n => ofNat n
  | .negSucc n => byte '-' :: ofNat (n + 1)

/-- The lower-case hexadecimal digit of a number below 16. -/
def hexDigit (n : Nat) : UInt8 := (Nat.digitChar n).toUInt8

/-- The lowest `width` hexadecimal digits of a number. -/
def hexPadded : (width : Nat) → Nat → Text
  | 0, _ => []
  | width + 1, n => hexPadded width (n / 16) ++ [hexDigit (n % 16)]

/-- Two hexadecimal digits for each byte. -/
def hex (t : Text) : Text := t.flatMap fun b => hexPadded 2 b.toNat

/-- The value of a hexadecimal digit. -/
def hexValue? (b : UInt8) : Option Nat :=
  if byte '0' ≤ b ∧ b ≤ byte '9' then some (b - byte '0').toNat
  else if byte 'a' ≤ b ∧ b ≤ byte 'f' then some ((b - byte 'a').toNat + 10)
  else if byte 'A' ≤ b ∧ b ≤ byte 'F' then some ((b - byte 'A').toNat + 10)
  else none

/-- The bytes that a text of hexadecimal digits stands for. -/
def ofHex? : Text → Option Text
  | [] => some []
  | a :: b :: rest => do
    let hi ← hexValue? a
    let lo ← hexValue? b
    let bytes ← ofHex? rest
    return UInt8.ofNat (16 * hi + lo) :: bytes
  | [_] => none

/-! ## Byte classes -/

/-- An ASCII digit. -/
def isDigit (b : UInt8) : Bool := byte '0' ≤ b && b ≤ byte '9'

/-- An ASCII letter or an underscore. -/
def isLetter (b : UInt8) : Bool :=
  byte 'a' ≤ b && b ≤ byte 'z' || byte 'A' ≤ b && b ≤ byte 'Z' || b == byte '_'

/-! ## Parts of a text -/

/-- The text after `front`, if the text starts with it. -/
def after? (t front : Text) : Option Text :=
  if front.isPrefixOf t then some (t.drop front.length) else none

/-- Whether the text starts with `front`. -/
def startsWith (t front : Text) : Bool := front.isPrefixOf t

/-- Whether the text ends with `back`. -/
def endsWith (t back : Text) : Bool := back.isSuffixOf t

/-- The texts one after the other with `sep` between them. -/
def join (sep : Text) : List Text → Text
  | [] => []
  | [t] => t
  | t :: rest => t ++ sep ++ join sep rest

/-- The pieces of a text between the bytes equal to `sep`. -/
def split (sep : UInt8) : Text → List Text
  | [] => [[]]
  | b :: rest =>
    if b = sep then [] :: split sep rest
    else match split sep rest with
      | [] => [[b]]
      | piece :: more => (b :: piece) :: more

/-- Every byte equal to `old` becomes `new`. -/
def replaceByte (old new : UInt8) (t : Text) : Text := t.map fun b => if b = old then new else b

/-- What follows the last byte equal to `sep`, if there is one. -/
def afterLast? (sep : UInt8) (t : Text) : Option Text :=
  if t.contains sep then some (t.reverse.takeWhile (· != sep)).reverse else none

/-- Replaces every occurrence of `old`, left to right, without overlap. -/
def replaceAll (t old new : Text) : Text := go t.length t
where
  /-- Each round passes at least one byte, so the length bounds the rounds. -/
  go : Nat → Text → Text
    | 0, t => t
    | n + 1, t =>
      if old.isEmpty then t
      else match after? t old, t with
        | some rest, _ => new ++ go n rest
        | none, b :: rest => b :: go n rest
        | none, [] => []

/-- The order of texts byte by byte, as a test. -/
def le (a b : Text) : Bool := decide (a ≤ b)

/-- Sorts texts byte by byte. -/
def sort (ts : List Text) : List Text := ts.mergeSort le

end Text

end Borealis
