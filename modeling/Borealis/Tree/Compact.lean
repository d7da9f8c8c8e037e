-- The compact form of a tree: one line, with parentheses around every
-- operator expression.
import Borealis.Tree

namespace Borealis

/-- Statements in braces, given the compact form of the list. -/
def compactBraces (body : List Stmt) (inner : Text) : Text :=
  if body.isEmpty then "\x7b \x7d" else "\x7b " ++ inner ++ " \x7d"

mutual

/-- The compact form of an expression. -/
def Expr.compact : Expr → Text
  | .hole => []
  | .ident name => name
  | .int value => Text.ofInt value.toInt
  | .bool value => if value then "true" else "false"
  | .unary op operand => "(" ++ op ++ operand.compact ++ ")"
  | .binary op left right => "(" ++ left.compact ++ " " ++ op ++ " " ++ right.compact ++ ")"
  | .ifThen test yes => "if (" ++ test.compact ++ ") " ++ compactBraces yes (Stmt.compactList yes)
  | .ifElse test yes no =>
    "if (" ++ test.compact ++ ") " ++ compactBraces yes (Stmt.compactList yes)
      ++ " else " ++ compactBraces no (Stmt.compactList no)
  | .fn params body =>
    "fn(" ++ Text.join ", " params ++ ") " ++ compactBraces body (Stmt.compactList body)
  | .stub params => "fn(" ++ Text.join ", " params ++ ") "
  | .call callee args => callee.compact ++ "(" ++ Expr.compactList args ++ ")"

/-- Arguments with commas between them. -/
def Expr.compactList : List Expr → Text
  | [] => []
  | [e] => e.compact
  | e :: rest => e.compact ++ ", " ++ Expr.compactList rest

/-- The compact form of a statement. -/
def Stmt.compact : Stmt → Text
  | .bind name value => "let " ++ name.getD [] ++ " = " ++ value.compact
  | .ret value => "return " ++ value.compact
  | .expr value => value.compact
  | .block body => compactBraces body (Stmt.compactList body)

/-- Statements with semicolons between them. -/
def Stmt.compactList : List Stmt → Text
  | [] => []
  | [s] => s.compact
  | s :: rest => s.compact ++ "; " ++ Stmt.compactList rest

end

/-- The compact form of a program. -/
def Program.compact (p : Program) : Text := Stmt.compactList p.statements

/-- The compact form of a node. -/
def Node.compact : Node → Text
  | .program p => p.compact
  | .stmt s => s.compact
  | .expr e => e.compact

end Borealis
