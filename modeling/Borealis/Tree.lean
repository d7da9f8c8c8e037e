-- The syntax tree of the language. A tree built by hand may leave a child
-- out: then there is a `hole` in its place, and evaluation refuses it. A tree
-- that comes from source text or from a stored tree has no holes.
import Borealis.Token

namespace Borealis

mutual

/-- An expression. Operators are kept as they are spelled. -/
inductive Expr where
  /-- A child that was left out. -/
  | hole
  | ident (name : Text)
  | int (value : Int64)
  | bool (value : Bool)
  | unary (op : Text) (operand : Expr)
  | binary (op : Text) (left right : Expr)
  | ifThen (test : Expr) (yes : List Stmt)
  | ifElse (test : Expr) (yes no : List Stmt)
  | fn (params : List Text) (body : List Stmt)
  /-- A function whose body was left out. -/
  | stub (params : List Text)
  | call (callee : Expr) (args : List Expr)

/-- A statement. -/
inductive Stmt where
  /-- Binds a name, which may have been left out. -/
  | bind (name : Option Text) (value : Expr)
  | ret (value : Expr)
  | expr (value : Expr)
  | block (body : List Stmt)

end

/-- A whole program: its statements, in order. -/
structure Program where
  statements : List Stmt

/-- A place of a tree at which evaluation or printing may start. -/
inductive Node where
  | program (p : Program)
  | stmt (s : Stmt)
  | expr (e : Expr)

instance : Inhabited Expr := ⟨.hole⟩
instance : Inhabited Stmt := ⟨.expr .hole⟩
instance : Inhabited Node := ⟨.expr .hole⟩

/-! ## Equality -/

mutual

/-- Whether two expressions are the same tree. -/
def Expr.same (x y : Expr) : Bool :=
  match x, y with
  | .hole, .hole => true
  | .ident a, .ident b => a == b
  | .int a, .int b => a == b
  | .bool a, .bool b => a == b
  | .unary o a, .unary p b => o == p && a.same b
  | .binary o a b, .binary p c d => o == p && a.same c && b.same d
  | .ifThen a b, .ifThen c d => a.same c && Stmt.sameList b d
  | .ifElse a b c, .ifElse d e f => a.same d && Stmt.sameList b e && Stmt.sameList c f
  | .fn a b, .fn c d => a == c && Stmt.sameList b d
  | .stub a, .stub b => a == b
  | .call a b, .call c d => a.same c && Expr.sameList b d
  | _, _ => false
termination_by structural x

/-- Whether two lists hold the same expressions. -/
def Expr.sameList (x y : List Expr) : Bool :=
  match x, y with
  | [], [] => true
  | a :: as, b :: bs => a.same b && Expr.sameList as bs
  | _, _ => false
termination_by structural x

/-- Whether two statements are the same tree. -/
def Stmt.same (x y : Stmt) : Bool :=
  match x, y with
  | .bind n a, .bind m b => n == m && a.same b
  | .ret a, .ret b => a.same b
  | .expr a, .expr b => a.same b
  | .block a, .block b => Stmt.sameList a b
  | _, _ => false
termination_by structural x

/-- Whether two lists hold the same statements. -/
def Stmt.sameList (x y : List Stmt) : Bool :=
  match x, y with
  | [], [] => true
  | a :: as, b :: bs => a.same b && Stmt.sameList as bs
  | _, _ => false
termination_by structural x

end

/-- Whether two programs are the same tree. -/
def Program.same (p q : Program) : Bool := Stmt.sameList p.statements q.statements

/-! ## Names of nodes -/

/-- The name of an expression's form. -/
def Expr.form : Expr → Text
  | .hole => []
  | .ident _ => "Identifier"
  | .int _ => "IntegerLiteral"
  | .bool _ => "BooleanLiteral"
  | .unary .. => "PrefixExpression"
  | .binary .. => "InfixExpression"
  | .ifThen .. | .ifElse .. => "IfExpression"
  | .fn .. | .stub _ => "FunctionLiteral"
  | .call .. => "CallExpression"

/-- The name of a statement's form. -/
def Stmt.form : Stmt → Text
  | .bind .. => "LetStatement"
  | .ret _ => "ReturnStatement"
  | .expr _ => "ExpressionStatement"
  | .block _ => "BlockStatement"

/-- The name of a node's form. -/
def Node.form : Node → Text
  | .program _ => "Program"
  | .stmt s => s.form
  | .expr e => e.form

end Borealis
