-- What is wrong with a source text, and where. Reading goes on after a
-- complaint, so a text may have many.
import Borealis.Token

namespace Borealis

/-- How deeply expressions may nest. -/
def maxNesting : Nat := 1000

/-- What a diagnostic complains about. -/
inductive Complaint where
  /-- Another token should stand here. -/
  | expected (want got : TokenKind)
  /-- No expression starts with this token. -/
  | noExpression (kind : TokenKind)
  /-- A byte or string that is no token. -/
  | illegal (literal : Text)
  /-- A number that does not fit. -/
  | badInteger (literal : Text)
  /-- Expressions nest too deeply. -/
  | tooDeep
  deriving DecidableEq, Repr

/-- The wording of a complaint. -/
def Complaint.message : Complaint → Text
  | .expected want got => "expected token " ++ want.name ++ ", got " ++ got.name
  | .noExpression kind => "no prefix parse function for " ++ kind.name ++ " found"
  | .illegal literal => "illegal token " ++ literal.quoted
  | .badInteger literal => "could not parse " ++ literal.quoted ++ " as integer"
  | .tooDeep => "expression nested deeper than " ++ Text.ofNat maxNesting ++ " levels"

/-- A complaint, with the place and the kind of the token it is about. -/
structure Diagnostic where
  complaint : Complaint
  pos : Position
  got : TokenKind
  deriving DecidableEq, Repr

namespace Diagnostic

/-- The wording without the place. -/
def message (d : Diagnostic) : Text := d.complaint.message

/-- The wording after the place, if there is one. -/
def render (d : Diagnostic) : Text :=
  if d.pos.isUnset then d.message else d.pos.render ++ ": " ++ d.message

/-- Whether every diagnostic is about the end of the text, so that more text
could mend it. -/
def incomplete (ds : List Diagnostic) : Bool := !ds.isEmpty && ds.all fun d => d.got == .eof

end Diagnostic

end Borealis
