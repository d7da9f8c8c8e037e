-- Reading JSON text. Bytes that are no characters, and halves of surrogate
-- pairs, are read as the replacement character.
import Borealis.Json
import Borealis.Text.Rune

namespace Borealis

namespace Json

/-- How deeply arrays and objects may nest in a text. -/
def maxDepth : Nat := 10000

/-- A blank between the parts of a JSON text. -/
def isSpace (c : Char) : Bool := c == ' ' || c == '\t' || c == '\n' || c == '\r'

/-- The text without the blanks in front. -/
def skipSpace (cs : List Char) : List Char := cs.dropWhile isSpace

/-- What follows a given word. -/
def word (w : List Char) (cs : List Char) : Option (List Char) :=
  if w.isPrefixOf cs then some (cs.drop w.length) else none

/-! ## Strings -/

/-- A part of a string: a character, or a code unit that an escape gives by its number. -/
inductive StringPart where
  | char (c : Char)
  | unit (n : Nat)

/-- The number that four hexadecimal digits spell. -/
def hex4? (a b c d : Char) : Option Nat := do
  let digit (x : Char) := Text.hexValue? (if x.toNat < 128 then x.toUInt8 else 0)
  return (((← digit a) * 16 + (← digit b)) * 16 + (← digit c)) * 16 + (← digit d)

/-- The character of an escape of one letter. -/
def escape? : Char → Option Char
  | '"' => some '"'
  | '\\' => some '\\'
  | '/' => some '/'
  | 'b' => some (Char.ofNat 8)
  | 'f' => some (Char.ofNat 12)
  | 'n' => some '\n'
  | 'r' => some '\r'
  | 't' => some '\t'
  | _ => none

/-- The parts of a string up to its closing quote, and what follows. -/
def stringParts : List Char → Option (List StringPart × List Char)
  | '"' :: rest => some ([], rest)
  | '\\' :: 'u' :: a :: b :: c :: d :: rest => do
    let n ← hex4? a b c d
    let (parts, rest) ← stringParts rest
    return (.unit n :: parts, rest)
  | '\\' :: e :: rest => do
    let c ← escape? e
    let (parts, rest) ← stringParts rest
    return (.char c :: parts, rest)
  | c :: rest =>
    if c.toNat < 0x20 || c == '\\' then none
    else do
      let (parts, rest) ← stringParts rest
      return (.char c :: parts, rest)
  | [] => none

/-- Whether a code unit is the first half of a pair. -/
def isHighHalf (n : Nat) : Bool := 0xD800 ≤ n && n ≤ 0xDBFF

/-- Whether a code unit is the second half of a pair. -/
def isLowHalf (n : Nat) : Bool := 0xDC00 ≤ n && n ≤ 0xDFFF

/-- The character of a code unit by itself: a half has none. -/
def unitChar (n : Nat) : Char :=
  if isHighHalf n || isLowHalf n then Rune.replacement else Char.ofNat n

/-- Puts the halves of pairs together. -/
def joinParts : List StringPart → List Char
  | [] => []
  | .char c :: rest => c :: joinParts rest
  | .unit n :: .unit m :: rest =>
    if isHighHalf n && isLowHalf m then
      Char.ofNat (0x10000 + (n - 0xD800) * 0x400 + (m - 0xDC00)) :: joinParts rest
    else unitChar n :: joinParts (.unit m :: rest)
  | .unit n :: rest => unitChar n :: joinParts rest

/-- A string, from behind its opening quote. -/
def readString (cs : List Char) : Option (Text × List Char) := do
  let (parts, rest) ← stringParts cs
  return (Text.ofChars (joinParts parts), rest)

/-! ## Numbers -/

/-- Digits, and what follows them. There has to be one. -/
def digits1 (cs : List Char) : Option (List Char × List Char) :=
  let ds := cs.takeWhile Char.isDigit
  if ds.isEmpty then none else some (ds, cs.dropWhile Char.isDigit)

/-- The digits before the point: a zero alone, or digits that start with another one. -/
def wholePart : List Char → Option (List Char × List Char)
  | '0' :: rest => some (['0'], rest)
  | cs => digits1 cs

/-- The point and the digits after it, if there is a point. -/
def fractionPart : List Char → Option (List Char × List Char)
  | '.' :: rest => do
    let (ds, rest) ← digits1 rest
    return ('.' :: ds, rest)
  | cs => some ([], cs)

/-- The exponent, if there is one. -/
def exponentPart : List Char → Option (List Char × List Char)
  | e :: rest =>
    if e == 'e' || e == 'E' then
      match rest with
      | s :: rest' =>
        if s == '+' || s == '-' then do
          let (ds, rest) ← digits1 rest'
          return (e :: s :: ds, rest)
        else do
          let (ds, rest) ← digits1 rest
          return (e :: ds, rest)
      | [] => none
    else some ([], e :: rest)
  | [] => some ([], [])

/-- A number, kept as it is written. -/
def readNumber (cs : List Char) : Option (Json × List Char) := do
  let (sign, cs) := match cs with
    | '-' :: rest => (['-'], rest)
    | _ => ([], cs)
  let (whole, cs) ← wholePart cs
  let (fraction, cs) ← fractionPart cs
  let (exponent, cs) ← exponentPart cs
  return (num (Text.ofChars (sign ++ whole ++ fraction ++ exponent)), cs)

/-! ## Values -/

/-- The items of an array, the first one included. Each round reads at least one character. -/
def readItems (inner : List Char → Option (Json × List Char)) :
    Nat → List Char → Option (List Json × List Char)
  | 0, _ => none
  | rounds + 1, cs => do
    let (item, cs) ← inner cs
    match skipSpace cs with
    | ',' :: cs =>
      let (items, cs) ← readItems inner rounds cs
      return (item :: items, cs)
    | ']' :: cs => return ([item], cs)
    | _ => none

/-- The fields of an object, the first one included. -/
def readFields (inner : List Char → Option (Json × List Char)) :
    Nat → List Char → Option (List (Text × Json) × List Char)
  | 0, _ => none
  | rounds + 1, cs =>
    match skipSpace cs with
    | '"' :: cs => do
      let (key, cs) ← readString cs
      match skipSpace cs with
      | ':' :: cs =>
        let (value, cs) ← inner cs
        match skipSpace cs with
        | ',' :: cs =>
          let (fields, cs) ← readFields inner rounds cs
          return ((key, value) :: fields, cs)
        | '}' :: cs => return ([(key, value)], cs)
        | _ => none
      | _ => none
    | _ => none

/-- A value at the front of a text, with `room` for that many levels of
arrays and objects. -/
def readValue : (room : Nat) → List Char → Option (Json × List Char)
  | room, cs =>
    match skipSpace cs with
    | '"' :: cs => do
      let (s, cs) ← readString cs
      return (str s, cs)
    | '{' :: cs =>
      match room with
      | 0 => none
      | room + 1 =>
        match skipSpace cs with
        | '}' :: cs => some (obj [], cs)
        | cs => do
          let (fields, cs) ← readFields (readValue room) cs.length cs
          return (obj fields, cs)
    | '[' :: cs =>
      match room with
      | 0 => none
      | room + 1 =>
        match skipSpace cs with
        | ']' :: cs => some (arr [], cs)
        | cs => do
          let (items, cs) ← readItems (readValue room) cs.length cs
          return (arr items, cs)
    | cs =>
      match word "null".toList cs, word "true".toList cs, word "false".toList cs with
      | some rest, _, _ => some (null, rest)
      | _, some rest, _ => some (bool true, rest)
      | _, _, some rest => some (bool false, rest)
      | none, none, none => readNumber cs

/-- The first value of a text. What follows it is not looked at. -/
def firstOf? (t : Text) : Option Json := (readValue maxDepth t.chars).map Prod.fst

/-- The one value of a text. -/
def ofText? (t : Text) : Option Json :=
  match readValue maxDepth t.chars with
  | some (j, rest) => if (skipSpace rest).isEmpty then some j else none
  | none => none

end Json

end Borealis
