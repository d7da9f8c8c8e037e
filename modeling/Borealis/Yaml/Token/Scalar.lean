-- Scalars: plain, in quotes, and as blocks of lines. Each reader starts at
-- the first character of the scalar and gives its text and the place after.
import Borealis.Yaml.Input
import Borealis.Yaml.Token

namespace Borealis.Yaml

/-! ## Gaps inside a scalar -/

/-- Blanks and ends of lines between two characters of a scalar: whether a line has ended,
the blanks before that, the first end of a line and those after it. -/
structure Gap where
  broken : Bool
  blanks : List Char
  first : List Char
  more : List Char

namespace Gap

/-- No gap. -/
def none : Gap := ⟨false, [], [], []⟩

/-- What a gap reads as. One end of a line becomes a space, of several the first is dropped. -/
def text (g : Gap) : List Char :=
  if !g.broken then g.blanks
  else if g.first.head? == some '\n' then (if g.more.isEmpty then [' '] else g.more)
  else g.first ++ g.more

/-- Reads on in a gap. On a new line no tab may stand before the column `limit`. -/
def read (limit : Nat) : Nat → Gap → Input → Except Malformed (Gap × Input)
  | 0, g, i => .ok (g, i)
  | n + 1, g, i =>
    match i.head? with
    | Option.none => .ok (g, i)
    | some c =>
      if isBlank c then
        if g.broken && c == '\t' && i.column < limit then .error .malformed
        else read limit n (if g.broken then g else { g with blanks := g.blanks ++ [c] }) i.skip
      else if isBreak c then
        let (b, j) := i.readBreak
        read limit n
          (if g.broken then { g with more := g.more ++ b } else ⟨true, [], g.first ++ b, g.more⟩) j
      else .ok (g, i)

end Gap

/-! ## Scalars in quotes -/

/-- The value of hexadecimal digits. -/
def hexNumber? (cs : List Char) : Option Nat :=
  cs.foldl (fun n c => do
    let n ← n
    if c.isDigit then some (n * 16 + (c.toNat - '0'.toNat))
    else if 'a' ≤ c && c ≤ 'f' then some (n * 16 + (c.toNat - 'a'.toNat + 10))
    else if 'A' ≤ c && c ≤ 'F' then some (n * 16 + (c.toNat - 'A'.toNat + 10))
    else none) (some 0)

/-- The character of an escape with a number of so many digits. -/
def numberedEscape (digits : Nat) (i : Input) : Except Malformed (Char × Input) :=
  let ds := i.rest.take digits
  if ds.length < digits then .error .malformed
  else match hexNumber? ds with
    | none => .error .malformed
    | some n =>
      if (0xD800 ≤ n ∧ n ≤ 0xDFFF) ∨ 0x10FFFF < n then .error .malformed
      else .ok (Char.ofNat n, Input.skipMany digits i)

/-- The character that an escape of one letter stands for. -/
def letterEscape? : Char → Option Char
  | '0' => some (Char.ofNat 0)
  | 'a' => some (Char.ofNat 7)
  | 'b' => some (Char.ofNat 8)
  | 't' => some '\t'
  | '\t' => some '\t'
  | 'n' => some '\n'
  | 'v' => some (Char.ofNat 11)
  | 'f' => some (Char.ofNat 12)
  | 'r' => some '\r'
  | 'e' => some (Char.ofNat 27)
  | ' ' => some ' '
  | '"' => some '"'
  | '\'' => some '\''
  | '\\' => some '\\'
  | 'N' => some (Char.ofNat 0x85)
  | '_' => some (Char.ofNat 0xA0)
  | 'L' => some (Char.ofNat 0x2028)
  | 'P' => some (Char.ofNat 0x2029)
  | _ => none

/-- Reads an escape, of which the backslash is already passed. -/
def escape (i : Input) : Except Malformed (Char × Input) :=
  match i.head? with
  | none => .error .malformed
  | some 'x' => numberedEscape 2 i.skip
  | some 'u' => numberedEscape 4 i.skip
  | some 'U' => numberedEscape 8 i.skip
  | some c =>
    match letterEscape? c with
    | some e => .ok (e, i.skip)
    | none => .error .malformed

/-- Reads the characters before the next gap or the closing quote, and tells whether a
backslash at the end of a line stopped it. The text so far is backwards. -/
def quotedWord (quote : Char) : Nat → List Char → Input →
    Except Malformed (List Char × Bool × Input)
  | 0, text, i => .ok (text, false, i)
  | n + 1, text, i =>
    match i.rest with
    | [] => .ok (text, false, i)
    | c :: rest =>
      if isBlank c || isBreak c then .ok (text, false, i)
      else if quote == '\'' && c == '\'' && rest.head? == some '\'' then
        quotedWord quote n ('\'' :: text) i.skip.skip
      else if c == quote then .ok (text, false, i)
      else if quote == '"' && c == '\\' then
        match rest with
        | [] => .error .malformed
        | d :: _ =>
          if isBreak d then .ok (text, true, i.skip.skipBreak)
          else do
            let (e, i) ← escape i.skip
            quotedWord quote n (e :: text) i
      else quotedWord quote n (c :: text) i.skip

/-- Reads the lines of a scalar in quotes, up to the closing one. -/
def quotedLines (quote : Char) : Nat → List Char → Input → Except Malformed (List Char × Input)
  | 0, _, _ => .error .malformed
  | n + 1, text, i => do
    if i.column == 0 && (markerAhead '-' i.rest || markerAhead '.' i.rest) then
      throw .malformed
    if i.rest.isEmpty then throw .malformed
    let (text, escaped, i) ← quotedWord quote (i.rest.length + 1) text i
    if i.sees quote then return (text.reverse, i.skip)
    let (g, i) ← Gap.read 0 (i.rest.length + 1) ⟨escaped, [], [], []⟩ i
    quotedLines quote n (g.text.reverse ++ text) i

/-- Reads a scalar in quotes. -/
def quotedScalar (quote : Char) (i : Input) : Except Malformed (List Char × Input) :=
  quotedLines quote (i.rest.length + 1) [] i.skip

/-! ## Plain scalars -/

/-- A character that cannot stand in a plain scalar inside brackets. -/
def isFlowMark (c : Char) : Bool :=
  c == ',' || c == '?' || c == '[' || c == ']' || c == '\x7b' || c == '\x7d'

/-- Reads the characters before the next gap or the end of the scalar. What the gap before
them reads as comes first. -/
def plainWord (flow : Bool) : Nat → List Char → Gap → Input → List Char × Gap × Input
  | 0, text, g, i => (text, g, i)
  | n + 1, text, g, i =>
    match i.rest with
    | [] => (text, g, i)
    | c :: rest =>
      if isBlank c || isBreak c then (text, g, i)
      else if c == ':' && gapAhead rest then (text, g, i)
      else if flow && isFlowMark c then (text, g, i)
      else plainWord flow n (c :: (g.text.reverse ++ text)) Gap.none i.skip

/-- Reads the lines of a plain scalar. Outside brackets they stand at `indent` or deeper. -/
def plainLines (flow : Bool) (indent : Nat) : Nat → List Char → Gap → Input →
    Except Malformed (List Char × Gap × Input)
  | 0, text, g, i => .ok (text.reverse, g, i)
  | n + 1, text, g, i =>
    if i.column == 0 && (markerAhead '-' i.rest || markerAhead '.' i.rest) then
      .ok (text.reverse, g, i)
    else if i.sees '#' then .ok (text.reverse, g, i)
    else
      let (text, g, i) := plainWord flow (i.rest.length + 1) text g i
      match i.rest with
      | [] => .ok (text.reverse, g, i)
      | c :: _ =>
        if isBlank c || isBreak c then do
          let (g, i) ← Gap.read indent (i.rest.length + 1) g i
          if !flow && i.column < indent then return (text.reverse, g, i)
          else plainLines flow indent n text g i
        else .ok (text.reverse, g, i)

/-- Reads a plain scalar, and tells whether a line ended after it. -/
def plainScalar (flow : Bool) (indent : Nat) (i : Input) :
    Except Malformed (List Char × Bool × Input) := do
  let (text, g, i) ← plainLines flow indent (i.rest.length + 1) [] Gap.none i
  return (text, g.broken, i)

/-! ## Blocks -/

/-- What becomes of the ends of lines after a block. -/
inductive Chomping where
  | strip
  | clip
  | keep
  deriving DecidableEq

/-- How the first line of a block says to treat the ends of lines after it. -/
def chomping? : Option Char → Option Chomping
  | some '+' => some .keep
  | some '-' => some .strip
  | _ => none

/-- Reads the digit that says how much deeper a block stands. -/
def blockDepth (i : Input) : Except Malformed (Nat × Input) :=
  match i.head? with
  | some c =>
    if c == '0' then .error .malformed
    else if c.isDigit then .ok (c.toNat - '0'.toNat, i.skip)
    else .ok (0, i)
  | none => .ok (0, i)

/-- Reads the first line of a block after its indicator. -/
def blockHeader (i : Input) : Except Malformed (Chomping × Nat × Input) := do
  let (c, d, i) ←
    match chomping? i.head? with
    | some c => do
      let (d, i) ← blockDepth i.skip
      pure (c, d, i)
    | none => do
      let (d, j) ← blockDepth i
      if d == 0 then pure (Chomping.clip, 0, i)
      else match chomping? j.head? with
        | some c => pure (c, d, j.skip)
        | none => pure (Chomping.clip, d, j)
  let i := i.skipBlanks
  let i := if i.sees '#' then i.skipLine else i
  if lineEndAhead i.rest then return (c, d, i.skipBreak) else throw .malformed

/-- Reads spaces up to the column `indent`, or all of them if it is 0, and empty lines. It gives
the ends of the lines and the largest column that was reached. -/
def blockGap (indent : Nat) : Nat → Nat → List Char → Input →
    Except Malformed (Nat × List Char × Input)
  | 0, deepest, ends, i => .ok (deepest, ends, i)
  | n + 1, deepest, ends, i =>
    let spaces := (i.rest.takeWhile (· == ' ')).length
    let i := Input.skipMany (if indent == 0 then spaces else min spaces (indent - i.column)) i
    let deepest := max deepest i.column
    if (indent == 0 || i.column < indent) && i.sees '\t' then .error .malformed
    else match i.head? with
      | some c =>
        if isBreak c then
          let (b, i) := i.readBreak
          blockGap indent n deepest (ends ++ b) i
        else .ok (deepest, ends, i)
      | none => .ok (deepest, ends, i)

/-- Whether the next character is a blank. -/
def blankAhead (i : Input) : Bool := i.head?.any isBlank

/-- Reads the lines of a block that stand at `indent`. `wasBlank` tells whether the line before
started with a blank, `last` is its end, and `ends` are those of the empty lines after it. -/
def blockLines (literal : Bool) (indent : Nat) : Nat → List Char → Bool → List Char → List Char →
    Input → Except Malformed (List Char × List Char × List Char × Input)
  | 0, text, _, last, ends, i => .ok (text, last, ends, i)
  | n + 1, text, wasBlank, last, ends, i =>
    if i.column == indent && !i.rest.isEmpty then
      let blank := blankAhead i
      let text :=
        if !literal && !wasBlank && !blank && last.head? == some '\n' then
          (if ends.isEmpty then ' ' :: text else text)
        else last.reverse ++ text
      let text := ends.reverse ++ text
      let (line, i) := i.takeWhile fun c => !isBreak c
      let (last, i) := i.readBreak
      do
        let (_, ends, i) ← blockGap indent (i.rest.length + 1) 0 [] i
        blockLines literal indent n (line.reverse ++ text) blank last ends i
    else .ok (text, last, ends, i)

/-- Reads a block, of which the indicator is the next character, inside a collection at the
column `outer`, or below 0 if there is none. -/
def blockScalar (literal : Bool) (outer : Int) (i : Input) :
    Except Malformed (List Char × Input) := do
  let (chomp, depth, i) ← blockHeader i.skip
  let indent := if depth == 0 then 0 else outer.toNat + depth
  let (deepest, ends, i) ← blockGap indent (i.rest.length + 1) 0 [] i
  let indent := if indent == 0 then max deepest (max (outer + 1).toNat 1) else indent
  let (text, last, ends, i) ← blockLines literal indent (i.rest.length + 1) [] false [] ends i
  let text := text.reverse
  match chomp with
  | .strip => return (text, i)
  | .clip => return (text ++ last, i)
  | .keep => return (text ++ last ++ ends, i)

end Borealis.Yaml
