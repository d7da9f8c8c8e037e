-- Text as a YAML scalar. The plainest form that reads back as the same text
-- is taken: plain, in single quotes, in double quotes, or a block of lines.
import Borealis.Base64
import Borealis.Text.Rune
import Borealis.Yaml.Input
import Borealis.Yaml.Meaning

namespace Borealis.Yaml

/-! ## Words that older readers take for something else -/

/-- The truth values of older readers. -/
def oldTruthValues : List Text :=
  ["y", "Y", "yes", "Yes", "YES", "on", "On", "ON", "n", "N", "no", "No", "NO", "off", "Off", "OFF"]

/-- Groups of up to two digits, the first below 6, each after a colon, and perhaps a fraction. -/
def sixtieths : Nat → Text → Bool
  | 0, _ => false
  | n + 1, t =>
    match t with
    | c :: a :: rest =>
      if c = Text.byte ':' ∧ Text.isDigit a then
        match rest with
        | b :: more =>
          if Text.isDigit b then a ≤ Text.byte '5' && sixtiethsEnd n more else sixtiethsEnd n rest
        | [] => true
      else false
    | _ => false
where
  /-- What follows a group: the end, a fraction, or another group. -/
  sixtiethsEnd (n : Nat) (t : Text) : Bool :=
    match t with
    | [] => true
    | p :: rest =>
      if p = Text.byte '.' then rest.all fun b => Text.isDigit b || b == Text.byte '_'
      else sixtieths n t

/-- A number of base 60: a sign, digits, and groups after colons. -/
def isSexagesimal (t : Text) : Bool :=
  let body := match t with
    | s :: rest => if s = Text.byte '+' ∨ s = Text.byte '-' then rest else t
    | [] => []
  match body with
  | d :: rest =>
    Text.isDigit d
      && sixtieths rest.length (rest.dropWhile fun b => Text.isDigit b || b == Text.byte '_')
  | [] => false

/-! ## Forms -/

/-- A character that is written as it is. -/
def isWritable (c : Char) : Bool :=
  let n := c.toNat
  n == 0x0A || (0x20 ≤ n && n ≤ 0x7E) || (0xA0 ≤ n && n ≤ 0xD7FF)
    || (0xE000 ≤ n && n ≤ 0xFFFD && n != 0xFEFF)

/-- Whether a pair of characters stands somewhere. -/
def hasPair (p : Char → Char → Bool) : List Char → Bool
  | a :: b :: rest => p a b || hasPair p (b :: rest)
  | _ => false

/-- Whether a plain scalar with these characters would read as something else. -/
def hasIndicator (cs : List Char) : Bool :=
  ("---".toList.isPrefixOf cs || "...".toList.isPrefixOf cs)
    || (match cs with
      | [] => false
      | c :: rest =>
        "#,[]\x7b\x7d&*!|>'\"%@\x60".toList.contains c
          || ((c == '?' || c == ':' || c == '-') && blankOrEnd rest))
    || hasPair (fun a b => a == ':' && isBlank b) cs
    || (1 < cs.length && cs.getLast? == some ':')
    || hasPair (fun a b => (isBlank a || isBreak a) && b == '#') cs
where
  /-- A blank or the end follows. -/
  blankOrEnd : List Char → Bool
    | [] => true
    | c :: _ => isBlank c

/-- How a scalar is written. -/
inductive Form where
  | plain
  | single
  | double
  | block
  deriving DecidableEq, Repr

/-- Whether the characters start or end with one of a class. -/
def edged (p : Char → Bool) (cs : List Char) : Bool := cs.head?.any p || cs.getLast?.any p

/-- The form of a scalar. `wanted` is the form that its meaning asks for. -/
def form (wanted : Form) (cs : List Char) : Form :=
  let special := cs.any fun c => c != '\t' && !isWritable c
  let tab := cs.contains '\t'
  let breaks := cs.any isBreak
  let spaceBreak := hasPair (fun a b => a == ' ' && isBreak b) cs
  let breakSpace := hasPair (fun a b => isBreak a && b == ' ') cs
  let singleOk := !(spaceBreak || breakSpace || tab || special)
  let plainOk := singleOk && !breaks && !edged (fun c => c == ' ' || isBreak c) cs
    && !hasIndicator cs
  let blockOk := !(spaceBreak || special || cs.getLast? == some ' ')
  match wanted with
  | .plain => if plainOk then .plain else if singleOk then .single else .double
  | .single => if singleOk then .single else .double
  | .block => if blockOk then .block else .double
  | .double => .double

/-! ## Writing -/

/-- Spaces. -/
def spaces (n : Nat) : List Char := List.replicate n ' '

/-- Characters in single quotes. After an end of a line comes the depth of the scalar. -/
def writeSingle (depth : Nat) : (broken : Bool) → List Char → List Char
  | _, [] => []
  | broken, c :: rest =>
    if isBreak c then c :: writeSingle depth true rest
    else
      (if broken && c != ' ' then spaces depth else [])
        ++ (if c == '\'' then ['\'', '\''] else [c]) ++ writeSingle depth (broken && c == ' ') rest

/-- An upper-case hexadecimal digit. -/
def upperHex (n : Nat) : Char := (Nat.digitChar n).toUpper

/-- The lowest hexadecimal digits of a number. -/
def upperHexDigits : (width : Nat) → Nat → List Char
  | 0, _ => []
  | width + 1, n => upperHexDigits width (n / 16) ++ [upperHex (n % 16)]

/-- The letter of an escape that has one. -/
def escapeLetter? (n : Nat) : Option Char :=
  match n with
  | 0x00 => some '0'
  | 0x07 => some 'a'
  | 0x08 => some 'b'
  | 0x09 => some 't'
  | 0x0A => some 'n'
  | 0x0B => some 'v'
  | 0x0C => some 'f'
  | 0x0D => some 'r'
  | 0x1B => some 'e'
  | 0x22 => some '"'
  | 0x5C => some '\\'
  | 0x85 => some 'N'
  | 0xA0 => some '_'
  | 0x2028 => some 'L'
  | 0x2029 => some 'P'
  | _ => none

/-- A character in double quotes. -/
def writeDouble (c : Char) : List Char :=
  let n := c.toNat
  if isWritable c && !isBreak c && c != '"' && c != '\\' then [c]
  else match escapeLetter? n with
    | some e => ['\\', e]
    | none =>
      if n ≤ 0xFF then '\\' :: 'x' :: upperHexDigits 2 n
      else if n ≤ 0xFFFF then '\\' :: 'u' :: upperHexDigits 4 n
      else '\\' :: 'U' :: upperHexDigits 8 n

/-- The lines of a block, each that is not empty at its depth. -/
def writeBlock (depth : Nat) : (fresh : Bool) → List Char → List Char
  | _, [] => []
  | fresh, c :: rest =>
    if isBreak c then c :: writeBlock depth true rest
    else (if fresh then spaces depth else []) ++ c :: writeBlock depth false rest

/-- The first line of a block: how deep it is, if that cannot be seen, and what becomes of the
ends of lines after it. -/
def blockHead (cs : List Char) : List Char :=
  let depth := if cs.head?.any (fun c => c == ' ' || isBreak c) then ['2'] else []
  let ends := (cs.reverse.takeWhile isBreak).length
  let chomp := if ends == 0 then ['-'] else if ends == 1 && 1 < cs.length then [] else ['+']
  '|' :: depth ++ chomp ++ ['\n']

/-- A scalar as it follows a key at a column, with the end of its last line. -/
def writeForm (column : Nat) (cs : List Char) : Form → List Char
  | .plain => cs ++ ['\n']
  | .single => '\'' :: writeSingle (column + 2) false cs ++ ['\'', '\n']
  | .double => '"' :: cs.flatMap writeDouble ++ ['"', '\n']
  | .block =>
    blockHead cs ++ writeBlock (column + 2) true cs
      ++ (if cs.getLast?.any isBreak then [] else ['\n'])

/-- The form that the meaning of a text asks for. -/
def wantedForm (t : Text) : Form :=
  if t.contains (Text.byte '\n') then .block
  else if (Meaning.ofPlain t).tag ≠ .str || isSexagesimal t || oldTruthValues.contains t then
    .double
  else .plain

/-- A text as it follows a key at a column. Bytes that are no characters are written in
letters. -/
def scalarText (column : Nat) (t : Text) : Text :=
  match t.chars? with
  | some cs => Text.ofChars (writeForm column cs (form (wantedForm t) cs))
  | none =>
    let e := Base64.encodeLines t
    let cs := e.chars
    "!!binary " ++ Text.ofChars
      (writeForm column cs (form (if e.contains (Text.byte '\n') then .block else .plain) cs))

/-- A key with its value at a column. -/
def fieldText (column : Nat) (name : Text) (value : Text) : Text :=
  name ++ ": " ++ scalarText column value

end Borealis.Yaml
