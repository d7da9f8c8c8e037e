-- Blank characters, and texts without the blanks around them.
import Borealis.Text.Rune

namespace Borealis

/-- The code points with the white space property. -/
def isBlankCode (n : Nat) : Bool :=
  (9 ≤ n && n ≤ 13) || n == 0x20 || n == 0x85 || n == 0xA0 || n == 0x1680
    || (0x2000 ≤ n && n ≤ 0x200A) || n == 0x2028 || n == 0x2029 || n == 0x202F
    || n == 0x205F || n == 0x3000

/-- A blank rune. A bad byte is none. -/
def Rune.isBlank : Rune → Bool
  | .char c => isBlankCode c.toNat
  | .bad _ => false

namespace Text

/-- The text without the blank characters at its two ends. -/
def trim (t : Text) : Text :=
  ofRunes ((t.runes.dropWhile Rune.isBlank).reverse.dropWhile Rune.isBlank).reverse

/-- Whether the text has blank characters only. -/
def isBlank (t : Text) : Bool := t.runes.all Rune.isBlank

/-- A name as packages spell it: no blanks around it, and an underscore for each hyphen. -/
def packageName (t : Text) : Text := t.trim.replaceByte (byte '-') (byte '_')

end Text

end Borealis
