-- Tokens of the language: their kinds, where they stand, and how tightly an
-- operator binds.
import Borealis.Text.Quoted

namespace Borealis

/-! ## Kinds -/

/-- The kind of a token. A token list from outside may name kinds that the
language does not have: those are `other`. -/
inductive TokenKind where
  | illegal | eof
  | ident | int | string
  | assign | plus | minus | bang | asterisk | slash
  | less | greater | equal | notEqual
  | comma | semicolon | leftParen | rightParen | leftBrace | rightBrace
  | functionWord | letWord | ifWord | elseWord | trueWord | falseWord | returnWord
  | other (name : Text)
  deriving DecidableEq, Repr

namespace TokenKind

/-- The name of a kind. Operators and brackets are named as they are spelled. -/
def name : TokenKind → Text
  | illegal => "ILLEGAL"
  | eof => "EOF"
  | ident => "IDENT"
  | int => "INT"
  | string => "STRING"
  | assign => "="
  | plus => "+"
  | minus => "-"
  | bang => "!"
  | asterisk => "*"
  | slash => "/"
  | less => "<"
  | greater => ">"
  | equal => "=="
  | notEqual => "!="
  | comma => ","
  | semicolon => ";"
  | leftParen => "("
  | rightParen => ")"
  | leftBrace => "\x7b"
  | rightBrace => "\x7d"
  | functionWord => "FUNCTION"
  | letWord => "LET"
  | ifWord => "IF"
  | elseWord => "ELSE"
  | trueWord => "TRUE"
  | falseWord => "FALSE"
  | returnWord => "RETURN"
  | other n => n

/-- The kinds of the language. -/
def all : List TokenKind :=
  [illegal, eof, ident, int, string, assign, plus, minus, bang, asterisk, slash, less, greater,
    equal, notEqual, comma, semicolon, leftParen, rightParen, leftBrace, rightBrace,
    functionWord, letWord, ifWord, elseWord, trueWord, falseWord, returnWord]

/-- The kind of that name. -/
def ofName (n : Text) : TokenKind := (all.find? fun k => k.name == n).getD (other n)

/-- The words that are no identifiers. -/
def keywords : List (Text × TokenKind) :=
  [("fn", functionWord), ("let", letWord), ("if", ifWord), ("else", elseWord), ("true", trueWord),
    ("false", falseWord), ("return", returnWord)]

/-- The kind of a word: its keyword, or an identifier. -/
def ofWord (word : Text) : TokenKind := (keywords.lookup word).getD ident

end TokenKind

/-! ## Binding strengths -/

namespace Binding

/-- The weakest strength, of what is no operator. -/
def lowest : Nat := 1

/-- The strength of an operator in front of its operand. -/
def unary : Nat := 6

/-- The strength of a call. -/
def call : Nat := 7

/-- The strength of what has no operator at all. -/
def atom : Nat := 8

end Binding

/-- How tightly a kind of token binds the expression before it. -/
def TokenKind.binding : TokenKind → Nat
  | .equal | .notEqual => 2
  | .less | .greater => 3
  | .plus | .minus => 4
  | .asterisk | .slash => 5
  | .leftParen => Binding.call
  | _ => Binding.lowest

/-! ## Tokens -/

/-- A place in a source text. Lines and columns count from 1, columns in bytes. -/
structure Position where
  line : Int
  column : Int
  deriving DecidableEq, Repr

namespace Position

/-- The first place of a text. -/
def start : Position := ⟨1, 1⟩

/-- A place that was never set. -/
def unset : Position := ⟨0, 0⟩

/-- Whether the place was never set. -/
def isUnset (p : Position) : Bool := p.line == 0 && p.column == 0

/-- The place as line and column with a colon between them. -/
def render (p : Position) : Text := Text.ofInt p.line ++ ":" ++ Text.ofInt p.column

/-- The place after one more byte. -/
def step (p : Position) (b : UInt8) : Position :=
  if b = Text.byte '\n' then ⟨p.line + 1, 1⟩ else ⟨p.line, p.column + 1⟩

/-- The place after some more bytes. -/
def advance (p : Position) (t : Text) : Position := t.foldl step p

end Position

/-- A token: its kind, its literal and the place of its first byte. -/
structure Token where
  kind : TokenKind
  literal : Text
  pos : Position
  deriving DecidableEq, Repr

/-- A token as listings show it. -/
def Token.render (t : Token) : Text :=
  t.kind.name ++ "(" ++ t.literal.quoted ++ ")@" ++ t.pos.render

end Borealis
