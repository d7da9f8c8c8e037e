-- A text read as UTF-8: a list of runes, where a rune is a character or a
-- byte that starts no character. No byte is lost: the runes of a text spell
-- it again.
import Borealis.Text

namespace Borealis

/-- A character of a text, or a byte at which no character starts. -/
inductive Rune where
  | char (c : Char)
  | bad (b : UInt8)
  deriving DecidableEq, Repr

namespace Rune

/-- The bytes that the rune is spelled with. -/
def bytes : Rune → Text
  | .char c => String.utf8EncodeChar c
  | .bad b => [b]

/-- The code point of the rune. A bad byte counts as the replacement character. -/
def code : Rune → Nat
  | .char c => c.toNat
  | .bad _ => 0xFFFD

/-- The replacement character, which stands for what is no character. -/
def replacement : Char := Char.ofNat 0xFFFD

/-- The character of the rune, where a bad byte becomes the replacement character. -/
def toChar : Rune → Char
  | .char c => c
  | .bad _ => replacement

end Rune

namespace Text

/-- A byte that goes on with a character of several bytes. -/
def isContinuation (b : UInt8) : Bool := b &&& 0xC0 == 0x80

/-- The six bits that a continuation byte carries. -/
def low6 (b : UInt8) : Nat := (b &&& 0x3F).toNat

/-- The character of two bytes, if they spell one in the shortest way. -/
def char2? (a b : UInt8) : Option Char :=
  if a &&& 0xE0 == 0xC0 && isContinuation b then
    let code := (a &&& 0x1F).toNat * 64 + low6 b
    if 0x80 ≤ code then some (Char.ofNat code) else none
  else none

/-- The character of three bytes, if they spell one in the shortest way. -/
def char3? (a b c : UInt8) : Option Char :=
  if a &&& 0xF0 == 0xE0 && isContinuation b && isContinuation c then
    let code := (a &&& 0x0F).toNat * 4096 + low6 b * 64 + low6 c
    if 0x800 ≤ code ∧ ¬ (0xD800 ≤ code ∧ code ≤ 0xDFFF) then some (Char.ofNat code) else none
  else none

/-- The character of four bytes, if they spell one in the shortest way. -/
def char4? (a b c d : UInt8) : Option Char :=
  if a &&& 0xF8 == 0xF0 && isContinuation b && isContinuation c && isContinuation d then
    let code := (a &&& 0x07).toNat * 262144 + low6 b * 4096 + low6 c * 64 + low6 d
    if 0x10000 ≤ code ∧ code ≤ 0x10FFFF then some (Char.ofNat code) else none
  else none

/-- The runes of a text, from the front. A byte that starts no character is
a rune of its own. -/
def runes : Text → List Rune
  | [] => []
  | a :: r0 =>
    if a < 0x80 then .char (Char.ofUInt8 a) :: runes r0
    else match r0 with
      | [] => [.bad a]
      | b :: r1 =>
        match char2? a b with
        | some x => .char x :: runes r1
        | none => match r1 with
          | [] => .bad a :: runes (b :: [])
          | c :: r2 =>
            match char3? a b c with
            | some x => .char x :: runes r2
            | none => match r2 with
              | [] => .bad a :: runes (b :: c :: [])
              | d :: r3 =>
                match char4? a b c d with
                | some x => .char x :: runes r3
                | none => .bad a :: runes (b :: c :: d :: r3)

/-- The text that the runes spell. -/
def ofRunes (rs : List Rune) : Text := rs.flatMap Rune.bytes

/-- The characters of a text, if it is valid UTF-8. -/
def chars? (t : Text) : Option (List Char) :=
  t.runes.mapM fun
    | .char c => some c
    | .bad _ => none

/-- The characters of a text, with the replacement character for each bad byte. -/
def chars (t : Text) : List Char := t.runes.map Rune.toChar

/-- The text of the characters. -/
def ofChars (cs : List Char) : Text := cs.flatMap String.utf8EncodeChar

/-- Whether the text is valid UTF-8. -/
def isValid (t : Text) : Bool := t.chars?.isSome

/-- The string of a text, if it is valid UTF-8. -/
def toString? (t : Text) : Option String := t.chars?.map String.ofList

end Text

end Borealis
