-- Quoted text, as messages show it: in double quotes, with an escape for
-- what is not printable and for each byte that is no character.
import Borealis.Text.Rune
import Borealis.Text.Printable

namespace Borealis

namespace Text

/-- The escape of a character that has one of its own. -/
def namedEscape? (c : Char) : Option Text :=
  match c.toNat with
  | 0x07 => some "\\a"
  | 0x08 => some "\\b"
  | 0x0C => some "\\f"
  | 0x0A => some "\\n"
  | 0x0D => some "\\r"
  | 0x09 => some "\\t"
  | 0x0B => some "\\v"
  | 0x22 => some "\\\""
  | 0x5C => some "\\\\"
  | _ => none

/-- A rune inside quotes: as it is if printable, else as the shortest escape
of two, four or eight hexadecimal digits that holds it. -/
def quotedRune : Rune → Text
  | .bad b => "\\x" ++ hexPadded 2 b.toNat
  | .char c =>
    match namedEscape? c with
    | some e => e
    | none =>
      if isPrintableCode c.toNat then String.utf8EncodeChar c
      else if c.toNat < 0x80 then "\\x" ++ hexPadded 2 c.toNat
      else if c.toNat < 0x10000 then "\\u" ++ hexPadded 4 c.toNat
      else "\\U" ++ hexPadded 8 c.toNat

/-- The text in double quotes. -/
def quoted (t : Text) : Text := "\"" ++ t.runes.flatMap quotedRune ++ "\""

end Text

end Borealis
