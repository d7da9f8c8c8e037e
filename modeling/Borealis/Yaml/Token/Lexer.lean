-- From characters to tokens. Depth is told by columns, and whether a node is
-- the key of a mapping is known only when a colon follows it. So tokens wait
-- in a queue, and a node that may be a key is kept in mind until its line
-- ends.
import Borealis.Yaml.Encoding
import Borealis.Yaml.Token.Scalar
import Borealis.Yaml.Token.Property

namespace Borealis.Yaml

/-- A node that may turn out to be the key of a mapping, and where its tokens start. -/
structure KeyCandidate where
  possible : Bool
  /-- It stands where only a key can stand. -/
  required : Bool
  /-- The number of its first token, counted from the start of the stream. -/
  number : Nat
  index : Nat
  line : Nat
  column : Nat

/-- No candidate. -/
def KeyCandidate.none : KeyCandidate := ⟨false, false, 0, 0, 0, 0⟩

/-- The state between two tokens. -/
structure Lexer where
  input : Input
  /-- Where the input ends, the stream ends. Otherwise a fault follows. -/
  whole : Bool
  /-- How many brackets are open. -/
  flow : Nat
  /-- A key may start here. -/
  keyAllowed : Bool
  /-- The candidate of the innermost brackets. -/
  candidate : KeyCandidate
  /-- The candidates outside of them, from the inside out. -/
  outer : List KeyCandidate
  /-- The column of the innermost block collection, or -1. -/
  indent : Int
  /-- The columns outside of it, from the inside out. -/
  indents : List Int
  /-- Tokens that are not handed out yet. -/
  queue : List Token
  /-- How many tokens have been handed out. -/
  handed : Nat

namespace Lexer

/-- The deepest nesting that is read. -/
def maxDepth : Nat := 10000

/-- The longest distance between a key and its colon. -/
def maxKeyLength : Nat := 1024

/-- The state at the start of a stream. -/
def start (s : Stream) : Lexer :=
  ⟨.start s.chars, s.whole, 0, true, .none, [], -1, [], [], 0⟩

/-! ## Queue, keys and depth -/

/-- Adds a token at the end of the queue. -/
def push (l : Lexer) (t : Token) : Lexer := { l with queue := l.queue ++ [t] }

/-- Adds a token before the one with the given number. -/
def pushBefore (l : Lexer) (number : Nat) (t : Token) : Lexer :=
  { l with queue := l.queue.insertIdx (number - l.handed) t }

/-- Whether a colon may still follow the candidate. A candidate that had to be a key and
cannot be one any more is an error. -/
def stillKey (l : Lexer) (k : KeyCandidate) : Except Malformed Bool :=
  if !k.possible then .ok false
  else if k.line < l.input.line || k.index + maxKeyLength < l.input.index then
    if k.required then .error .malformed else .ok false
  else .ok true

/-- Forgets the candidate, which must not have to be a key. -/
def dropKey (l : Lexer) : Except Malformed Lexer :=
  if l.candidate.possible && l.candidate.required then .error .malformed
  else .ok { l with candidate := { l.candidate with possible := false } }

/-- The node that starts here is the candidate, if a key may start here. -/
def markKey (l : Lexer) : Except Malformed Lexer :=
  if l.keyAllowed then do
    let required := l.flow == 0 && l.indent == (l.input.column : Int)
    let k : KeyCandidate :=
      ⟨true, required, l.handed + l.queue.length, l.input.index, l.input.line, l.input.column⟩
    let l ← l.dropKey
    return { l with candidate := k }
  else .ok l

/-- Starts a block collection at a column that is deeper than the current one. Its token goes
before the one with the given number, or at the end. -/
def deepen (l : Lexer) (column : Nat) (number : Option Nat) (t : Token) :
    Except Malformed Lexer :=
  if l.flow > 0 || (column : Int) ≤ l.indent then .ok l
  else if maxDepth ≤ l.indents.length then .error .malformed
  else
    let l := { l with indents := l.indent :: l.indents, indent := column }
    match number with
    | some n => .ok (l.pushBefore n t)
    | none => .ok (l.push t)

/-- Ends the block collections that are deeper than a column. -/
def leaveTo (column : Int) : List Int → Lexer → Lexer
  | [], l => l
  | up :: ups, l =>
    if column < l.indent then
      leaveTo column ups { l.push .blockEnd with indent := up, indents := ups }
    else l

/-- Ends the block collections that are deeper than a column, outside brackets. -/
def leave (l : Lexer) (column : Int) : Lexer :=
  if l.flow > 0 then l else leaveTo column l.indents l

/-! ## Gaps between tokens -/

/-- Passes blanks, comments and empty lines. After the end of a line a key may start. Where a
key may start, a tab is no blank. -/
def skipGap : Nat → Lexer → Lexer
  | 0, l => l
  | n + 1, l =>
    let i := l.input
    let i := if i.column == 0 && i.sees byteOrderMark then i.skip else i
    let tabs := l.flow > 0 || !l.keyAllowed
    let i := i.dropWhile fun c => c == ' ' || (tabs && c == '\t')
    let i := if i.sees '#' then Input.skipComments (i.rest.length + 1) i else i
    match i.head? with
    | some c =>
      if isBreak c then
        skipGap n { l with input := i.skipBreak, keyAllowed := l.keyAllowed || l.flow == 0 }
      else { l with input := i }
    | none => { l with input := i }
where
  /-- A mark that may stand at the start of any line. -/
  byteOrderMark : Char := Char.ofNat 0xFEFF

/-! ## Tokens -/

/-- Ends the stream. -/
def endStream (l : Lexer) : Except Malformed Lexer := do
  let i := l.input
  let i := if i.column == 0 then i else { i with column := 0, line := i.line + 1 }
  let l ← ({ l with input := i }.leave (-1)).dropKey
  return { l with keyAllowed := false }.push .streamEnd

/-- Reads a directive. -/
def directive (l : Lexer) : Except Malformed Lexer := do
  let l ← (l.leave (-1)).dropKey
  let (t, i) ← directiveToken l.input
  return { l with keyAllowed := false, input := i }.push t

/-- Reads a line that divides documents. -/
def documentMark (l : Lexer) (t : Token) : Except Malformed Lexer := do
  let l ← (l.leave (-1)).dropKey
  return { l with keyAllowed := false, input := Input.skipMany 3 l.input }.push t

/-- Reads an opening bracket. -/
def openFlow (l : Lexer) (t : Token) : Except Malformed Lexer := do
  let l ← l.markKey
  if maxDepth ≤ l.flow then throw .malformed
  return { l with
    outer := l.candidate :: l.outer, candidate := .none, flow := l.flow + 1,
    keyAllowed := true, input := l.input.skip }.push t

/-- Reads a closing bracket. -/
def closeFlow (l : Lexer) (t : Token) : Except Malformed Lexer := do
  let l ← l.dropKey
  let l := match l.outer with
    | k :: ks => { l with candidate := k, outer := ks, flow := l.flow - 1 }
    | [] => l
  return { l with keyAllowed := false, input := l.input.skip }.push t

/-- Reads the comma between entries. -/
def flowEntry (l : Lexer) : Except Malformed Lexer := do
  let l ← l.dropKey
  return { l with keyAllowed := true, input := l.input.skip }.push .flowEntry

/-- Reads the dash before an entry. -/
def blockEntry (l : Lexer) : Except Malformed Lexer := do
  if l.flow == 0 && !l.keyAllowed then throw .malformed
  let l ← l.deepen l.input.column none .blockSequence
  let l ← l.dropKey
  return { l with keyAllowed := true, input := l.input.skip }.push .blockEntry

/-- Reads the question mark before a key. -/
def keyMark (l : Lexer) : Except Malformed Lexer := do
  if l.flow == 0 && !l.keyAllowed then throw .malformed
  let l ← l.deepen l.input.column none .blockMapping
  let l ← l.dropKey
  return { l with keyAllowed := l.flow == 0, input := l.input.skip }.push .key

/-- Reads the colon before a value. If a node on its line can be the key, it is one, and its
token comes before those of the node. -/
def valueMark (l : Lexer) : Except Malformed Lexer := do
  let k := l.candidate
  let l ←
    if ← l.stillKey k then do
      let l ← (l.pushBefore k.number .key).deepen k.column (some k.number) .blockMapping
      pure { l with candidate := { k with possible := false }, keyAllowed := false }
    else do
      if l.flow == 0 && !l.keyAllowed then throw .malformed
      let l ← l.deepen l.input.column none .blockMapping
      pure { l with candidate := { k with possible := false }, keyAllowed := l.flow == 0 }
  return { l with input := l.input.skip }.push .value

/-- Reads an anchor, an alias, a tag or a scalar, which may start a key. -/
def leaf (l : Lexer) (read : Input → Except Malformed (Token × Input)) :
    Except Malformed Lexer := do
  let l ← l.markKey
  let (t, i) ← read l.input
  return { l with keyAllowed := false, input := i }.push t

/-- Reads a block of lines, after which a key may start. -/
def block (l : Lexer) (literal : Bool) : Except Malformed Lexer := do
  let l ← l.dropKey
  let (text, i) ← blockScalar literal l.indent l.input
  return { l with keyAllowed := true, input := i }.push (.scalar .quoted text)

/-- Reads a plain scalar. If a line ended after it, a key may start. -/
def plain (l : Lexer) : Except Malformed Lexer := do
  let l ← l.markKey
  let (text, broken, i) ← plainScalar (l.flow > 0) (l.indent + 1).toNat l.input
  return { l with keyAllowed := broken, input := i }.push (.scalar .plain text)

/-- Whether a plain scalar may start with the characters ahead. -/
def plainAhead (flow : Bool) : List Char → Bool
  | [] => false
  | c :: rest =>
    (!(isBlank c || isBreak c) && !"-?:,[]\x7b\x7d#&*!|>'\"%@\x60".toList.contains c)
      || (c == '-' && !rest.head?.any isBlank)
      || (!flow && (c == '?' || c == ':') && !gapAhead rest)

/-- Reads the next token inside a document. -/
def content (l : Lexer) (c : Char) : Except Malformed Lexer :=
  let gap := gapAhead l.input.rest.tail
  let flow := l.flow > 0
  if c == '[' then l.openFlow .flowSequence
  else if c == '\x7b' then l.openFlow .flowMapping
  else if c == ']' then l.closeFlow .flowSequenceEnd
  else if c == '\x7d' then l.closeFlow .flowMappingEnd
  else if c == ',' then l.flowEntry
  else if c == '-' && gap then l.blockEntry
  else if c == '?' && (flow || gap) then l.keyMark
  else if c == ':' && (flow || gap) then l.valueMark
  else if c == '*' then l.leaf fun i => do
    let (name, i) ← anchorName i
    return (.reference name, i)
  else if c == '&' then l.leaf fun i => do
    let (name, i) ← anchorName i
    return (.anchor name, i)
  else if c == '!' then l.leaf tagToken
  else if c == '|' && !flow then l.block true
  else if c == '>' && !flow then l.block false
  else if c == '\'' || c == '"' then l.leaf fun i => do
    let (text, i) ← quotedScalar c i
    return (.scalar .quoted text, i)
  else if plainAhead flow l.input.rest then l.plain
  else .error .malformed

/-- A comment on the same line belongs to the token before it, unless that is a dash. -/
def skipLineComment (l : Lexer) : Lexer :=
  if l.queue.getLast? == some .blockEntry then l
  else { l with input := l.input.skipLineComment }

/-- Looks at the next `n` characters. It is an error if they reach into a fault. -/
def need (n : Nat) (l : Lexer) : Except Malformed Unit :=
  if l.whole || n ≤ l.input.rest.length then .ok () else .error .malformed

/-- Passes what may follow a token on its line. After the blanks there, one character is looked
at. -/
def endToken (l : Lexer) : Except Malformed Lexer := do
  if l.queue.getLast? != some .blockEntry then
    l.need (min 512 ((l.input.rest.takeWhile isBlank).length + 1))
  return l.skipLineComment

/-- Reads the next token, with those that it implies. It takes four characters to tell which it
is. -/
def next (l : Lexer) : Except Malformed Lexer := do
  let l := skipGap (l.input.rest.length + 1) l
  l.need 4
  let l := l.leave l.input.column
  let i := l.input
  match i.head? with
  | none => l.endStream
  | some c =>
    if i.column == 0 && c == '%' then l.directive
    else if i.column == 0 && markerAhead '-' i.rest then l.documentMark .documentStart
    else if i.column == 0 && markerAhead '.' i.rest then l.documentMark .documentEnd
    else (← l.content c).endToken

/-! ## The stream -/

/-- Whether the first token in the queue may belong to a key that is not known yet. -/
def undecided (l : Lexer) : Except Malformed Bool :=
  match (l.candidate :: l.outer).find? fun k => k.possible && k.number == l.handed with
  | some k => l.stillKey k
  | none => .ok false

/-- Reads tokens until the queue holds three and the first of them is decided. -/
def fill : Nat → Lexer → Except Malformed Lexer
  | 0, l => .ok l
  | n + 1, l =>
    if 2 < l.queue.length then do
      if ← l.undecided then fill n (← l.next) else return l
    else do fill n (← l.next)

/-- Hands out tokens until the stream ends. If it is malformed, the tokens stop before its end. -/
def tokens : Nat → Lexer → List Token
  | 0, _ => []
  | n + 1, l =>
    match fill (l.input.rest.length + 4) l with
    | .error _ => []
    | .ok l =>
      match l.queue with
      | [] => []
      | .streamEnd :: _ => [.streamEnd]
      | t :: queue => t :: tokens n { l with queue := queue, handed := l.handed + 1 }

end Lexer

/-- The tokens of a stream. Only a stream without faults ends with its end. -/
def Token.ofStream (s : Stream) : List Token :=
  Lexer.tokens (4 * s.chars.length + 16) (Lexer.start s)

end Borealis.Yaml
