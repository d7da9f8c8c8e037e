-- Where tokens come from: a lexer that scans on demand, or a list that was
-- made before. Both give the end token for ever once nothing is left.
import Borealis.Token.Lexer

namespace Borealis

/-- A source gives one token after the other. -/
class TokenSource (σ : Type) where
  /-- The next token, and the source behind it. -/
  next : σ → Token × σ
  /-- A bound on the tokens that come before the end token. -/
  bound : σ → Nat

/-- A lexer scans on demand. Each token takes at least one byte. -/
instance : TokenSource Lexer where
  next := Lexer.next
  bound l := l.rest.length

/-- A token list, with the place of the token before it. -/
structure TokenList where
  tokens : List Token
  before : Position

namespace TokenList

/-- A list from which nothing was taken. -/
def ofList (ts : List Token) : TokenList := ⟨ts, Position.unset⟩

/-- The next token. A missing end token is put where the last token stands, and nothing is
taken from behind the first end token. -/
def next (l : TokenList) : Token × TokenList :=
  match l.tokens with
  | [] => (⟨.eof, [], l.before⟩, l)
  | t :: rest => if t.kind = .eof then (t, ⟨[], t.pos⟩) else (t, ⟨rest, t.pos⟩)

end TokenList

instance : TokenSource TokenList where
  next := TokenList.next
  bound l := l.tokens.length

end Borealis
