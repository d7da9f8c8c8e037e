-- From source text to tokens. A lexer is a place and the text from there on;
-- each step skips blanks and cuts one lexeme off the front. The spelling of
-- the lexeme and the rest are what the text was, so nothing is lost.
import Borealis.Token

namespace Borealis

/-- A blank byte between tokens. -/
def isGap (b : UInt8) : Bool :=
  b == Text.byte ' ' || b == Text.byte '\t' || b == Text.byte '\n' || b == Text.byte '\r'

/-! ## Lexemes -/

/-- One token cut off the front of a text: its kind, its literal, the bytes
it is spelled with and the text after them. -/
structure Lexeme where
  kind : TokenKind
  literal : Text
  spelling : Text
  rest : Text
  deriving DecidableEq, Repr

namespace Lexeme

/-- The kind of a byte that is a token of its own. -/
def symbol? (b : UInt8) : Option TokenKind :=
  match Char.ofUInt8 b with
  | '=' => some .assign
  | '!' => some .bang
  | '+' => some .plus
  | '-' => some .minus
  | '*' => some .asterisk
  | '/' => some .slash
  | '<' => some .less
  | '>' => some .greater
  | ',' => some .comma
  | ';' => some .semicolon
  | '(' => some .leftParen
  | ')' => some .rightParen
  | '{' => some .leftBrace
  | '}' => some .rightBrace
  | _ => none

/-- The kind of two bytes that are one token together. -/
def pair? (a b : UInt8) : Option TokenKind :=
  if b = Text.byte '=' then
    if a = Text.byte '=' then some .equal
    else if a = Text.byte '!' then some .notEqual
    else none
  else none

/-- The longest run of bytes of a class, and what follows it. -/
def run (kindOf : Text → TokenKind) (p : UInt8 → Bool) (t : Text) : Lexeme :=
  let word := t.takeWhile p
  ⟨kindOf word, word, word, t.dropWhile p⟩

/-- A quoted string, `t` being the text after the opening quote. Without a closing quote the
rest of the text is one illegal token. -/
def quoted (t : Text) : Lexeme :=
  let quote := Text.byte '"'
  let body := t.takeWhile (· != quote)
  match t.dropWhile (· != quote) with
  | _ :: rest => ⟨.string, body, quote :: body ++ [quote], rest⟩
  | [] => ⟨.illegal, quote :: body, quote :: body, []⟩

/-- A byte that starts no token. Its literal is the character of that code. -/
def stray (b : UInt8) (rest : Text) : Lexeme :=
  ⟨.illegal, String.utf8EncodeChar (Char.ofUInt8 b), [b], rest⟩

/-- A token of one byte, or the stray byte. -/
def single (b : UInt8) (rest : Text) : Lexeme :=
  match symbol? b with
  | some k => ⟨k, [b], [b], rest⟩
  | none => stray b rest

/-- The lexeme at the front of the text `b :: rest`, where `b` is no blank. -/
def read (b : UInt8) (rest : Text) : Lexeme :=
  if Text.isLetter b then
    run TokenKind.ofWord (fun c => Text.isLetter c || Text.isDigit c) (b :: rest)
  else if Text.isDigit b then run (fun _ => .int) Text.isDigit (b :: rest)
  else if b = Text.byte '"' then quoted rest
  else match rest with
    | c :: rest' =>
      match pair? b c with
      | some k => ⟨k, [b, c], [b, c], rest'⟩
      | none => single b rest
    | [] => single b rest

end Lexeme

/-! ## The lexer -/

/-- A lexer stands at a place of a text and holds what is left of it. -/
structure Lexer where
  pos : Position
  rest : Text
  deriving DecidableEq, Repr

namespace Lexer

/-- At the start of a text. -/
def ofText (t : Text) : Lexer := ⟨Position.start, t⟩

/-- Past the blanks in front. -/
def skipGap (l : Lexer) : Lexer :=
  ⟨l.pos.advance (l.rest.takeWhile isGap), l.rest.dropWhile isGap⟩

/-- The next token, and the lexer behind it. At the end of the text this is
the end token, again and again. -/
def next (l : Lexer) : Token × Lexer :=
  let l := l.skipGap
  match l.rest with
  | [] => (⟨.eof, [], l.pos⟩, l)
  | b :: rest =>
    let x := Lexeme.read b rest
    (⟨x.kind, x.literal, l.pos⟩, ⟨l.pos.advance x.spelling, x.rest⟩)

/-- Every token up to the end token, and the lexer behind it. Each token but the last
takes a byte of the text, so the length of the text bounds the rounds. -/
def drain : Nat → Lexer → List Token × Lexer
  | 0, l => let (t, l) := l.next; ([t], l)
  | n + 1, l =>
    let (t, l) := l.next
    if t.kind = .eof then ([t], l)
    else
      let (ts, l) := drain n l
      (t :: ts, l)

/-- The next `n` tokens. -/
def take : Nat → Lexer → List Token
  | 0, _ => []
  | n + 1, l =>
    let (t, l) := l.next
    t :: take n l

end Lexer

/-- The tokens of a text. The last one, and only the last one, is the end token. -/
def lex (t : Text) : List Token := (Lexer.drain t.length (Lexer.ofText t)).1

end Borealis
