-- A cursor walks over the tokens of a source and collects diagnostics. A rule
-- moves the cursor and gives a result or none; what it found wrong stays in
-- the cursor.
import Borealis.Diagnostic
import Borealis.Token.Source

namespace Borealis

/-- A cursor stands on a token, sees the one after it, and takes further ones
from a source. -/
structure Cursor (σ : Type) where
  current : Token
  peek : Token
  source : σ
  diagnostics : Array Diagnostic
  /-- Reading was given up: there are no more complaints. -/
  abandoned : Bool

namespace Cursor

variable {σ : Type} [TokenSource σ]

/-- The cursor on the first token of a source. -/
def ofSource (source : σ) : Cursor σ :=
  let (current, source) := TokenSource.next source
  let (peek, source) := TokenSource.next source
  ⟨current, peek, source, #[], false⟩

/-- One token further. -/
def advance (c : Cursor σ) : Cursor σ :=
  let (next, source) := TokenSource.next c.source
  { c with current := c.peek, peek := next, source := source }

/-- A bound on the tokens up to the end token: the current one, the next one, those of the
source, and the end token itself. -/
def remaining (c : Cursor σ) : Nat := TokenSource.bound c.source + 3

/-- Notes a complaint about a token, unless reading was given up. -/
def complain {σ : Type} (c : Cursor σ) (about : Token) (what : Complaint) : Cursor σ :=
  if c.abandoned then c
  else { c with diagnostics := c.diagnostics.push ⟨what, about.pos, about.kind⟩ }

/-- Goes to the end token, which is at most so many tokens away. -/
def toEnd : Nat → Cursor σ → Cursor σ
  | 0, c => c
  | n + 1, c => if c.current.kind = .eof then c else toEnd n c.advance

/-- Notes a last complaint about the current token and goes to the end. -/
def abandon (c : Cursor σ) (what : Complaint) : Cursor σ :=
  toEnd c.remaining { c.complain c.current what with abandoned := true }

end Cursor

/-! ## Rules -/

/-- A rule reads from a cursor: it gives a result, or none if it failed, and
the cursor where it stopped. -/
def Rule (σ α : Type) := Cursor σ → Option α × Cursor σ

namespace Rule

variable {σ α β : Type}

/-- Gives a result without reading. -/
def succeed (a : α) : Rule σ α := fun c => (some a, c)

/-- Fails without reading. -/
def fail : Rule σ α := fun c => (none, c)

/-- Reads with one rule, then with the next, unless the first failed. -/
def andThen (r : Rule σ α) (next : α → Rule σ β) : Rule σ β := fun c =>
  match r c with
  | (some a, c) => next a c
  | (none, c) => (none, c)

instance : Monad (Rule σ) where
  pure := succeed
  bind := andThen

/-- The result or its absence, as a result. -/
def attempt (r : Rule σ α) : Rule σ (Option α) := fun c =>
  let (a, c) := r c
  (some a, c)

/-- The token that the cursor stands on. -/
def current : Rule σ Token := fun c => (some c.current, c)

/-- The token after that. -/
def peek : Rule σ Token := fun c => (some c.peek, c)

/-- Complains about a token and fails. -/
def reject (about : Token) (what : Complaint) : Rule σ α := fun c =>
  (none, c.complain about what)

variable [TokenSource σ]

/-- A bound on the tokens up to the end, and so on the rounds of a loop that reads one in
each. -/
def remaining : Rule σ Nat := fun c => (some c.remaining, c)

/-- Goes one token further. -/
def advance : Rule σ Unit := fun c => (some (), c.advance)

/-- Complains, goes to the end and fails. -/
def giveUp (what : Complaint) : Rule σ α := fun c => (none, c.abandon what)

/-- Goes to the next token if it is of that kind, else complains about it. -/
def expect (kind : TokenKind) : Rule σ Token := fun c =>
  if c.peek.kind = kind then (some c.peek, c.advance)
  else (none, c.complain c.peek (.expected kind c.peek.kind))

/-- Goes to the next token if it is of that kind. -/
def skip (kind : TokenKind) : Rule σ Unit := fun c =>
  if c.peek.kind = kind then (some (), c.advance) else (some (), c)

end Rule

end Borealis
