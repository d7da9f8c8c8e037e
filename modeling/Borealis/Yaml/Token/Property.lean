-- Directives, anchors, aliases and tags.
import Borealis.Yaml.Input
import Borealis.Yaml.Token

namespace Borealis.Yaml

/-! ## Anchors and aliases -/

/-- Whether a name may end here: at a gap, or before one of a few indicators. -/
def nameEndAhead (cs : List Char) : Bool :=
  gapAhead cs || cs.head?.any fun c => "?:,]\x7d%@\x60".toList.contains c

/-- Reads the name of an anchor or alias, of which the indicator is the next character. -/
def anchorName (i : Input) : Except Malformed (List Char × Input) :=
  let (name, i) := i.skip.takeWhile isWordChar
  if name.isEmpty || !nameEndAhead i.rest then .error .malformed else .ok (name, i)

/-! ## Tags -/

/-- A character that may stand in a tag. -/
def isTagChar (c : Char) : Bool := isWordChar c || ";/?:@&=+$,.!~*'()[]%".toList.contains c

/-- The number of bytes of the character that starts with this byte. -/
def tagCharWidth? (b : Nat) : Option Nat :=
  if b < 0x80 then some 1
  else if 0xC0 ≤ b && b < 0xE0 then some 2
  else if 0xE0 ≤ b && b < 0xF0 then some 3
  else if 0xF0 ≤ b && b < 0xF8 then some 4
  else none

/-- Reads bytes that are written as a percent sign and two digits each. -/
def percentBytes : Nat → Input → Except Malformed (List Nat × Input)
  | 0, i => .ok ([], i)
  | n + 1, i =>
    match i.rest with
    | '%' :: a :: b :: _ =>
      match a.isHexDigit && b.isHexDigit with
      | true => do
        let (bs, j) ← percentBytes n (Input.skipMany 3 i)
        return (hexPair a b :: bs, j)
      | false => .error .malformed
    | _ => .error .malformed
where
  /-- The value of one hexadecimal digit. -/
  hexDigit (c : Char) : Nat :=
    if c.isDigit then c.toNat - '0'.toNat
    else if c.toNat < 'a'.toNat then c.toNat - 'A'.toNat + 10
    else c.toNat - 'a'.toNat + 10
  /-- The value of two hexadecimal digits. -/
  hexPair (a b : Char) : Nat := hexDigit a * 16 + hexDigit b

/-- Reads a character that is written byte by byte. -/
def percentChar (i : Input) : Except Malformed (Char × Input) := do
  let (first, _) ← percentBytes 1 i
  match first.head?.bind tagCharWidth? with
  | none => throw .malformed
  | some width =>
    let (bs, j) ← percentBytes width i
    if (bs.drop 1).all fun b => 0x80 ≤ b && b < 0xC0 then
      let lead := (bs.headD 0) % (if width == 1 then 0x80 else 1 <<< (7 - width))
      return (Char.ofNat ((bs.drop 1).foldl (fun n b => n * 64 + b % 64) lead), j)
    else throw .malformed

/-- Reads the characters of a tag, after those in `text`, which is backwards. -/
def tagText : Nat → List Char → Input → Except Malformed (List Char × Input)
  | 0, text, i => .ok (text.reverse, i)
  | n + 1, text, i =>
    match i.head? with
    | some '%' => do
      let (c, i) ← percentChar i
      tagText n (c :: text) i
    | some c => if isTagChar c then tagText n (c :: text) i.skip else .ok (text.reverse, i)
    | none => .ok (text.reverse, i)

/-- Reads the characters of a tag. There is at least one, or `lead` came before. -/
def tagRest (lead : List Char) (i : Input) : Except Malformed (List Char × Input) := do
  let (text, j) ← tagText (i.rest.length + 1) (lead.drop 1).reverse i
  if lead.isEmpty && j.index == i.index then throw .malformed else return (text, j)

/-- Reads a handle: an exclamation mark, a word, and perhaps another mark. -/
def tagHandle (i : Input) : Except Malformed (List Char × Input) :=
  if i.sees '!' then
    let (word, i) := i.skip.takeWhile isWordChar
    if i.sees '!' then .ok ('!' :: word ++ ['!'], i.skip) else .ok ('!' :: word, i)
  else .error .malformed

/-- Reads a tag, of which the exclamation mark is the next character, as handle and suffix. -/
def tagToken (i : Input) : Except Malformed (Token × Input) := do
  let (handle, suffix, i) ←
    if i.skip.sees '<' then do
      let (suffix, i) ← tagRest [] i.skip.skip
      if i.sees '>' then pure (([] : List Char), suffix, i.skip) else throw .malformed
    else do
      let (handle, i) ← tagHandle i
      if 1 < handle.length && handle.getLast? == some '!' then do
        let (suffix, i) ← tagRest [] i
        pure (handle, suffix, i)
      else do
        let (suffix, i) ← tagRest handle i
        if suffix.isEmpty then pure ([], handle, i) else pure (['!'], suffix, i)
  if gapAhead i.rest then return (.tag handle suffix, i) else throw .malformed

/-! ## Directives -/

/-- Reads a number of one digit or two. -/
def versionNumber (i : Input) : Except Malformed (Nat × Input) :=
  let (digits, i) := i.takeWhile Char.isDigit
  if digits.isEmpty || 2 < digits.length then .error .malformed
  else .ok (digits.foldl (fun n c => n * 10 + (c.toNat - '0'.toNat)) 0, i)

/-- Reads what a directive says. -/
def directiveValue (name : List Char) (i : Input) : Except Malformed (Token × Input) :=
  if name == "YAML".toList then do
    let (major, i) ← versionNumber i.skipBlanks
    if !i.sees '.' then throw .malformed
    let (minor, i) ← versionNumber i.skip
    return (.version major minor, i)
  else if name == "TAG".toList then do
    let (handle, i) ← tagHandle i.skipBlanks
    if handle != ['!'] && (handle.length < 2 || handle.getLast? != some '!') then throw .malformed
    if !blankNext i then throw .malformed
    let (stem, i) ← tagRest [] i.skipBlanks
    if !gapAhead i.rest then throw .malformed
    return (.tagDirective handle stem, i)
  else .error .malformed
where
  /-- Whether a blank comes next. -/
  blankNext (i : Input) : Bool := i.head?.any isBlank

/-- Reads a directive, of which the percent sign is the next character, with its line. -/
def directiveToken (i : Input) : Except Malformed (Token × Input) := do
  let (name, i) := i.skip.takeWhile isWordChar
  if name.isEmpty || !gapAhead i.rest then throw .malformed
  let (t, i) ← directiveValue name i
  let i := i.skipBlanks
  let i := if i.sees '#' then i.skipLine else i
  if lineEndAhead i.rest then return (t, i.skipBreak) else throw .malformed

end Borealis.Yaml
