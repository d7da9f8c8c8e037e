-- The layout of a tree: one statement a line, blocks indented, and only the
-- parentheses that the binding strengths ask for.
import Borealis.Tree

namespace Borealis

/-- How tightly the outermost operator of an expression binds. A negative number is
written with a sign, so it binds as the sign does. -/
def Expr.binding : Expr → Nat
  | .binary op _ _ => (TokenKind.ofName op).binding
  | .unary _ _ => Binding.unary
  | .call _ _ => Binding.call
  | .int value => if value.toInt < 0 then Binding.unary else Binding.atom
  | _ => Binding.atom

/-- Two blanks for each level. -/
def indentation : Nat → Text
  | 0 => []
  | n + 1 => "  " ++ indentation n

/-- Puts parentheses around a text, if asked to. -/
def parenthesized (wrap : Bool) (t : Text) : Text := if wrap then "(" ++ t ++ ")" else t

/-- Braces around laid out statements, at a level. -/
def layoutBraces (level : Nat) (body : List Stmt) (inner : Text) : Text :=
  if body.isEmpty then "\x7b\x7d" else "\x7b\n" ++ inner ++ indentation level ++ "\x7d"

mutual

/-- The layout of an expression at a level, in parentheses if it binds less
tightly than `least`. -/
def Expr.layout (level : Nat) (e : Expr) (least : Nat) : Text :=
  parenthesized (e.binding < least) <|
    match e with
    | .hole => []
    | .ident name => name
    | .int value => Text.ofInt value.toInt
    | .bool value => if value then "true" else "false"
    | .unary op operand => op ++ operand.layout level Binding.unary
    | .binary op left right =>
      let strength := (TokenKind.ofName op).binding
      left.layout level strength ++ " " ++ op ++ " " ++ right.layout level (strength + 1)
    | .ifThen test yes =>
      "if (" ++ test.layout level Binding.lowest ++ ") "
        ++ layoutBraces level yes (Stmt.layoutList (level + 1) yes)
    | .ifElse test yes no =>
      "if (" ++ test.layout level Binding.lowest ++ ") "
        ++ layoutBraces level yes (Stmt.layoutList (level + 1) yes)
        ++ " else " ++ layoutBraces level no (Stmt.layoutList (level + 1) no)
    | .fn params body =>
      "fn(" ++ Text.join ", " params ++ ") "
        ++ layoutBraces level body (Stmt.layoutList (level + 1) body)
    | .stub params => "fn(" ++ Text.join ", " params ++ ") "
    | .call callee args =>
      callee.layout level Binding.call ++ "(" ++ Expr.layoutList level args ++ ")"
termination_by structural e

/-- Arguments with commas between them. -/
def Expr.layoutList (level : Nat) (es : List Expr) : Text :=
  match es with
  | [] => []
  | [e] => e.layout level Binding.lowest
  | e :: rest => e.layout level Binding.lowest ++ ", " ++ Expr.layoutList level rest
termination_by structural es

/-- The layout of a statement: its line or lines, at a level. -/
def Stmt.layout (level : Nat) (s : Stmt) : Text :=
  indentation level ++
    (match s with
      | .bind name value => "let " ++ name.getD [] ++ " = " ++ value.layout level Binding.lowest
      | .ret value => "return " ++ value.layout level Binding.lowest
      | .expr value => value.layout level Binding.lowest
      | .block body => layoutBraces level body (Stmt.layoutList (level + 1) body))
    ++ ";\n"
termination_by structural s

/-- Statements below each other, at a level. -/
def Stmt.layoutList (level : Nat) (ss : List Stmt) : Text :=
  match ss with
  | [] => []
  | s :: rest => s.layout level ++ Stmt.layoutList level rest
termination_by structural ss

end

/-- The layout of a program. -/
def Program.layout (p : Program) : Text := Stmt.layoutList 0 p.statements

/-- The layout of a node. A block or an expression by itself has no semicolon. -/
def Node.layout : Node → Text
  | .program p => p.layout
  | .stmt (.block body) => layoutBraces 0 body (Stmt.layoutList 1 body) ++ "\n"
  | .stmt s => s.layout 0
  | .expr e => e.layout 0 Binding.lowest ++ "\n"

end Borealis
