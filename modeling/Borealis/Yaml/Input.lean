-- A place in a YAML stream: the characters that follow and where they stand.

namespace Borealis.Yaml

/-! ## Classes of characters -/

/-- A space or a tab. -/
def isBlank (c : Char) : Bool := c == ' ' || c == '\t'

/-- A character that ends a line. -/
def isBreak (c : Char) : Bool :=
  c == '\n' || c == '\r' || c.toNat == 0x85 || c.toNat == 0x2028 || c.toNat == 0x2029

/-- A character of names: of anchors, of directives and of tag handles. -/
def isWordChar (c : Char) : Bool := c.isAlphanum || c == '_' || c == '-'

/-- Whether the characters start with a blank or a break, or are at their end. -/
def gapAhead : List Char → Bool
  | [] => true
  | c :: _ => isBlank c || isBreak c

/-- Whether the characters start with a break or are at their end. -/
def lineEndAhead : List Char → Bool
  | [] => true
  | c :: _ => isBreak c

/-- Whether a line of three equal characters and a gap is ahead, as it divides documents. -/
def markerAhead (c : Char) : List Char → Bool
  | a :: b :: d :: rest => a == c && b == c && d == c && gapAhead rest
  | _ => false

/-! ## Places -/

/-- What is left of a stream, the number of characters before it, the line and column, and
how many lines have ended since the last character that is neither blank nor break. -/
structure Input where
  rest : List Char
  index : Nat
  line : Nat
  column : Nat
  breaks : Nat
  deriving Inhabited

namespace Input

/-- The start of a stream. -/
def start (cs : List Char) : Input := ⟨cs, 0, 0, 0, 0⟩

/-- The next character. -/
def head? (i : Input) : Option Char := i.rest.head?

/-- Whether the next character is this one. -/
def sees (i : Input) (c : Char) : Bool := i.rest.head? == some c

/-- Passes one character of a line. -/
def skip (i : Input) : Input :=
  match i.rest with
  | [] => i
  | c :: rest => ⟨rest, i.index + 1, i.line, i.column + 1, if isBlank c then i.breaks else 0⟩

/-- Passes some characters of a line. -/
def skipMany : Nat → Input → Input
  | 0, i => i
  | n + 1, i => skipMany n i.skip

/-- Passes the end of a line and gives what it reads as: a line feed, or itself if it is a
separator of lines or paragraphs. A carriage return and a line feed are one end. -/
def readBreak (i : Input) : List Char × Input :=
  match i.rest with
  | '\r' :: '\n' :: rest => (['\n'], ⟨rest, i.index + 2, i.line + 1, 0, i.breaks + 1⟩)
  | c :: rest =>
    if isBreak c then
      let reads := if c.toNat == 0x2028 || c.toNat == 0x2029 then c else '\n'
      ([reads], ⟨rest, i.index + 1, i.line + 1, 0, i.breaks + 1⟩)
    else ([], i)
  | [] => ([], i)

/-- Passes the end of a line. -/
def skipBreak (i : Input) : Input := i.readBreak.2

/-- Passes characters of a line as long as they are of a class, and gives them. -/
def takeWhile (p : Char → Bool) (i : Input) : List Char × Input :=
  let taken := i.rest.takeWhile p
  (taken, skipMany taken.length i)

/-- Passes characters of a line as long as they are of a class. -/
def dropWhile (p : Char → Bool) (i : Input) : Input := (i.takeWhile p).2

/-- Passes spaces and tabs. -/
def skipBlanks (i : Input) : Input := i.dropWhile isBlank

/-- Passes all that is left of a line. -/
def skipLine (i : Input) : Input := i.dropWhile fun c => !isBreak c

/-! ## Comments -/

/-- How far a comment is looked for behind the end of another. -/
def commentReach : Nat := 512

/-- How many characters stand before a comment on one of the next lines, if only blanks and
ends of lines do. -/
def commentAhead? : Nat → List Char → Option Nat
  | 0, _ => none
  | n + 1, c :: rest =>
    if c == '#' then some 0
    else if isBlank c || c == '\n' || c == '\r' then (commentAhead? n rest).map (· + 1)
    else none
  | _, [] => none

/-- Passes some characters, with the ends of lines among them. -/
def skipOver : Nat → Input → Input
  | 0, i => i
  | n + 1, i =>
    match i.rest with
    | '\r' :: '\n' :: rest => skipOver n { i with rest := '\n' :: rest, index := i.index + 1 }
    | c :: _ => skipOver n (if isBreak c then i.skipBreak else i.skip)
    | [] => i

/-- Passes a comment and those that follow it with blanks and empty lines between. -/
def skipComments : Nat → Input → Input
  | 0, i => i
  | n + 1, i =>
    let i := i.skipLine
    match i.rest with
    | [] => i
    | c :: rest =>
      match if c == '\n' || c == '\r' then commentAhead? (commentReach - 1) rest else none with
      | some k => skipComments n (skipOver (k + 1) i)
      | none => i

/-- Passes a comment that follows on the same line, with the blanks before it. -/
def skipLineComment (i : Input) : Input :=
  if i.breaks > 0 then i
  else
    match (i.rest.dropWhile isBlank).head? with
    | some '#' => i.skipBlanks.skipLine
    | _ => i

end Input

end Borealis.Yaml
