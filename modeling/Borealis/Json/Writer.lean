-- Writing JSON text, on one line or indented.
import Borealis.Json
import Borealis.Text.Rune

namespace Borealis

namespace Json

/-- A rune inside a string. Angle brackets, ampersands and line separators are written as
escapes, so that the text may stand in other formats. -/
def writtenRune : Rune → Text
  | .bad _ => "\\ufffd"
  | .char c =>
    match c with
    | '"' => "\\\""
    | '\\' => "\\\\"
    | '\n' => "\\n"
    | '\r' => "\\r"
    | '\t' => "\\t"
    | _ =>
      let n := c.toNat
      if n == 8 then "\\b"
      else if n == 12 then "\\f"
      else if n < 0x20 || n == 0x3C || n == 0x3E || n == 0x26 || n == 0x2028 || n == 0x2029 then
        "\\u" ++ Text.hexPadded 4 n
      else String.utf8EncodeChar c

/-- A string in its quotes. -/
def writtenString (t : Text) : Text := "\"" ++ t.runes.flatMap writtenRune ++ "\""

mutual

/-- The value on one line, without blanks. -/
def compact : Json → Text
  | null => "null"
  | bool b => if b then "true" else "false"
  | num literal => literal
  | str t => writtenString t
  | arr items => "[" ++ compactItems items ++ "]"
  | obj fields => "\x7b" ++ compactFields fields ++ "\x7d"

/-- Items with commas between them. -/
def compactItems : List Json → Text
  | [] => []
  | [j] => j.compact
  | j :: rest => j.compact ++ "," ++ compactItems rest

/-- Fields with commas between them. -/
def compactFields : List (Text × Json) → Text
  | [] => []
  | [(k, v)] => writtenString k ++ ":" ++ v.compact
  | (k, v) :: rest => writtenString k ++ ":" ++ v.compact ++ "," ++ compactFields rest

end

/-- A new line at a level, two blanks for each. -/
def newLine : Nat → Text
  | 0 => "\n"
  | n + 1 => newLine n ++ "  "

mutual

/-- The value with a line for each item and field. -/
def indented (level : Nat) (j : Json) : Text :=
  match j with
  | null => "null"
  | bool b => if b then "true" else "false"
  | num literal => literal
  | str t => writtenString t
  | arr items =>
    if items.isEmpty then "[]"
    else "[" ++ indentedItems (level + 1) items ++ newLine level ++ "]"
  | obj fields =>
    if fields.isEmpty then "\x7b\x7d"
    else "\x7b" ++ indentedFields (level + 1) fields ++ newLine level ++ "\x7d"
termination_by structural j

/-- Items, each on a line of its own. -/
def indentedItems (level : Nat) (items : List Json) : Text :=
  match items with
  | [] => []
  | [j] => newLine level ++ j.indented level
  | j :: rest => newLine level ++ j.indented level ++ "," ++ indentedItems level rest
termination_by structural items

/-- Fields, each on a line of its own. -/
def indentedFields (level : Nat) (fields : List (Text × Json)) : Text :=
  match fields with
  | [] => []
  | [(k, v)] => newLine level ++ writtenString k ++ ": " ++ v.indented level
  | (k, v) :: rest =>
    newLine level ++ writtenString k ++ ": " ++ v.indented level ++ ","
      ++ indentedFields level rest
termination_by structural fields

end

/-- The value as a text of its own. -/
def pretty (j : Json) : Text := j.indented 0 ++ "\n"

end Json

end Borealis
