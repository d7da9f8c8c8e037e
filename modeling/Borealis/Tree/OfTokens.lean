-- From tokens to a tree. A rule starts with the cursor on its first token and
-- ends with the cursor on its last. Expressions climb over binding strengths:
-- an operand first, then every operator that binds tighter than the
-- expression's own strength, which makes equal strengths group to the left.
import Borealis.Tree
import Borealis.Tree.Cursor
import Borealis.Text.Integer

namespace Borealis

namespace Grammar

open Rule

variable {σ : Type} [TokenSource σ]

/-- A rule for expressions that bind tighter than a strength. The rules below
take it for the expressions inside them, which are one level deeper. -/
abbrev Inner (σ : Type) := Nat → Rule σ Expr

/-! ## Statements -/

/-- `let name = value`, from the `let`. -/
def letStatement (inner : Inner σ) : Rule σ Stmt := do
  let name ← expect .ident
  let _ ← expect .assign
  advance
  let value ← inner Binding.lowest
  skip .semicolon
  return .bind (some name.literal) value

/-- `return value`, from the `return`. -/
def returnStatement (inner : Inner σ) : Rule σ Stmt := do
  advance
  let value ← inner Binding.lowest
  skip .semicolon
  return .ret value

/-- An expression as a statement. -/
def expressionStatement (inner : Inner σ) : Rule σ Stmt := do
  let value ← inner Binding.lowest
  skip .semicolon
  return .expr value

/-- One statement, with its semicolon if it has one. -/
def statement (inner : Inner σ) : Rule σ Stmt := do
  match (← current).kind with
  | .letWord => letStatement inner
  | .returnWord => returnStatement inner
  | _ => expressionStatement inner

/-- Statements up to a closing brace. A statement that fails is left out. -/
def blockStatements (inner : Inner σ) : Nat → Rule σ (List Stmt)
  | 0 => fail
  | rounds + 1 => do
    let here ← current
    match here.kind with
    | .rightBrace => return []
    | .eof => reject here (.expected .rightBrace .eof)
    | _ =>
      let first ← attempt (statement inner)
      advance
      let others ← blockStatements inner rounds
      return first.toList ++ others

/-- A block, from its opening brace to its closing one. -/
def block (inner : Inner σ) : Rule σ (List Stmt) := do
  advance
  blockStatements inner (← remaining)

/-! ## Operands -/

/-- A number. -/
def integer : Rule σ Expr := do
  let here ← current
  match here.literal.toInt64 with
  | .ok value => return .int value
  | .error _ => reject here (.badInteger here.literal)

/-- An operator in front of its operand. -/
def unary (inner : Inner σ) : Rule σ Expr := do
  let op ← current
  advance
  let operand ← inner Binding.unary
  return .unary op.literal operand

/-- An expression in parentheses. -/
def grouped (inner : Inner σ) : Rule σ Expr := do
  advance
  let e ← inner Binding.lowest
  let _ ← expect .rightParen
  return e

/-- `if (test) { … }`, with or without `else { … }`. -/
def conditional (inner : Inner σ) : Rule σ Expr := do
  let _ ← expect .leftParen
  advance
  let test ← inner Binding.lowest
  let _ ← expect .rightParen
  let _ ← expect .leftBrace
  let yes ← block inner
  if (← peek).kind = .elseWord then
    advance
    let _ ← expect .leftBrace
    let no ← block inner
    return .ifElse test yes no
  else return .ifThen test yes

/-- The parameters after the first one. -/
def moreParameters : Nat → Rule σ (List Text)
  | 0 => fail
  | rounds + 1 => do
    if (← peek).kind = .comma then
      advance
      let name ← expect .ident
      let others ← moreParameters rounds
      return name.literal :: others
    else
      let _ ← expect .rightParen
      return []

/-- Parameters, from the opening parenthesis to the closing one. -/
def parameters : Rule σ (List Text) := do
  if (← peek).kind = .rightParen then
    advance
    return []
  else
    let name ← expect .ident
    let others ← moreParameters (← remaining)
    return name.literal :: others

/-- `fn(…) { … }`, from the `fn`. -/
def function (inner : Inner σ) : Rule σ Expr := do
  let _ ← expect .leftParen
  let params ← parameters
  let _ ← expect .leftBrace
  let body ← block inner
  return .fn params body

/-- An operand: what an expression starts with. -/
def operand (inner : Inner σ) : Rule σ Expr := do
  let here ← current
  match here.kind with
  | .ident => return .ident here.literal
  | .int => integer
  | .trueWord => return .bool true
  | .falseWord => return .bool false
  | .bang | .minus => unary inner
  | .leftParen => grouped inner
  | .ifWord => conditional inner
  | .functionWord => function inner
  | .illegal => reject here (.illegal here.literal)
  | kind => reject here (.noExpression kind)

/-! ## Operators -/

/-- The arguments after the first one. -/
def moreArguments (inner : Inner σ) : Nat → Rule σ (List Expr)
  | 0 => fail
  | rounds + 1 => do
    if (← peek).kind = .comma then
      advance
      advance
      let e ← inner Binding.lowest
      let others ← moreArguments inner rounds
      return e :: others
    else
      let _ ← expect .rightParen
      return []

/-- Arguments, from the opening parenthesis to the closing one. -/
def arguments (inner : Inner σ) : Rule σ (List Expr) := do
  if (← peek).kind = .rightParen then
    advance
    return []
  else
    advance
    let e ← inner Binding.lowest
    let others ← moreArguments inner (← remaining)
    return e :: others

/-- What the operator under the cursor makes of the expression before it. -/
def operation (inner : Inner σ) (left : Expr) : Rule σ Expr := do
  let op ← current
  if op.kind = .leftParen then
    let args ← arguments inner
    return .call left args
  else
    advance
    let right ← inner op.kind.binding
    return .binary op.literal left right

/-- Every operator behind `left` that binds tighter than `strength`. -/
def operations (inner : Inner σ) (strength : Nat) : Nat → Expr → Rule σ Expr
  | 0, left => return left
  | rounds + 1, left => do
    if strength < (← peek).kind.binding then
      advance
      let left ← operation inner left
      operations inner strength rounds left
    else return left

/-- An expression that binds tighter than a strength, with `room` for that many levels of
expressions, this one included. -/
def expression : (room : Nat) → Inner σ
  | 0, _ => giveUp .tooDeep
  | room + 1, strength => do
    let left ← operand (expression room)
    operations (expression room) strength (← remaining) left

/-! ## Programs -/

/-- Statements up to the end. A statement that fails is left out. -/
def statements : Nat → Cursor σ → List Stmt × Cursor σ
  | 0, c => ([], c)
  | rounds + 1, c =>
    if c.current.kind = .eof then ([], c)
    else
      let (first, c) := statement (expression maxNesting) c
      let (others, c) := statements rounds c.advance
      (first.toList ++ others, c)

end Grammar

/-- What reading a text or token list gives: the statements that could be
read, and what was wrong. -/
structure Reading where
  program : Program
  diagnostics : List Diagnostic

/-- The tree of what a source gives. -/
def Program.ofSource {σ : Type} [TokenSource σ] (source : σ) : Reading :=
  let c := Cursor.ofSource source
  let (statements, c) := Grammar.statements c.remaining c
  ⟨⟨statements⟩, c.diagnostics.toList⟩

/-- The tree of a token list. Tokens behind the first end token do not count. -/
def Program.ofTokens (ts : List Token) : Reading := Program.ofSource (TokenList.ofList ts)

/-- The tree of a source text, whose tokens are scanned on demand. -/
def Program.ofText (t : Text) : Reading := Program.ofSource (Lexer.ofText t)

end Borealis
