-- Evaluation of trees. The result of an evaluation is a value or a failure,
-- and the store after it. An error value or a return stops what is around it:
-- `andThen` is the one place that says so. Calls nest no deeper than a limit,
-- and every other step goes to a part of the tree, so evaluation always ends.
import Borealis.Store

namespace Borealis

/-- Why evaluation broke off. This is no value of the language. -/
inductive Failure where
  /-- More calls were active than the limit allows. -/
  | tooManyCalls (limit : Nat)
  /-- A child of the tree was left out. -/
  | missingNode
  | missingName
  | missingBody
  deriving DecidableEq, Repr

/-- The wording of a failure. -/
def Failure.message : Failure → Text
  | tooManyCalls limit =>
    "interpreter: maximum call depth exceeded (limit " ++ Text.ofNat limit ++ ")"
  | missingNode => "interpreter: unsupported node: <nil>"
  | missingName => "interpreter: unsupported node: let statement without a name"
  | missingBody => "interpreter: unsupported node: function without a body"

/-- What an evaluation gives. -/
abbrev Result := Except Failure Value × Store

namespace Result

/-- Goes on with the value, unless there is none or it stops the evaluation. -/
def andThen (r : Result) (next : Value → Store → Result) : Result :=
  match r with
  | (.error e, s) => (.error e, s)
  | (.ok v, s) => if v.isAbrupt then (.ok v, s) else next v s

/-- Takes a returned value out of its wrapping. -/
def unwrapped (r : Result) : Result :=
  match r with
  | (.error e, s) => (.error e, s)
  | (.ok v, s) => (.ok v.unwrapped, s)

end Result

/-- How a function is called with arguments. -/
abbrev Caller := Option Declaration → ScopeId → List Value → Store → Result

mutual

/-- Evaluates an expression in a scope. -/
def evalExpr (call : Caller) (e : Expr) (scope : ScopeId) (s : Store) : Result :=
  match e with
  | .hole => (.error .missingNode, s)
  | .ident name =>
    match s.get? scope name with
    | some v => (.ok v, s)
    | none => (.ok (.error (.unbound name)), s)
  | .int value => (.ok (.int value), s)
  | .bool value => (.ok (.bool value), s)
  | .unary op operand =>
    (evalExpr call operand scope s).andThen fun v s => (.ok (v.unary op), s)
  | .binary op left right =>
    (evalExpr call left scope s).andThen fun a s =>
      (evalExpr call right scope s).andThen fun b s => (.ok (a.binary op b), s)
  | .ifThen test yes =>
    (evalExpr call test scope s).andThen fun v s =>
      if v.isTruthy then evalBlock call yes scope .null s else (.ok .null, s)
  | .ifElse test yes no =>
    (evalExpr call test scope s).andThen fun v s =>
      if v.isTruthy then evalBlock call yes scope .null s else evalBlock call no scope .null s
  | .fn params body =>
    let (f, s) := s.newFunction (some ⟨params, some body⟩) scope
    (.ok f, s)
  | .stub params =>
    let (f, s) := s.newFunction (some ⟨params, none⟩) scope
    (.ok f, s)
  | .call callee args =>
    (evalExpr call callee scope s).andThen fun f s =>
      evalArgs call args scope s fun vs s =>
        match f with
        | .fn _ declaration home => call declaration home vs s
        | f => (.ok (.error (.notFunction f.kind)), s)
termination_by structural e

/-- Evaluates arguments from left to right and hands them on. -/
def evalArgs (call : Caller) (args : List Expr) (scope : ScopeId) (s : Store)
    (next : List Value → Store → Result) : Result :=
  match args with
  | [] => next [] s
  | e :: rest =>
    (evalExpr call e scope s).andThen fun v s =>
      evalArgs call rest scope s fun vs s => next (v :: vs) s
termination_by structural args

/-- Evaluates a statement in a scope. -/
def evalStmt (call : Caller) (st : Stmt) (scope : ScopeId) (s : Store) : Result :=
  match st with
  | .bind none _ => (.error .missingName, s)
  | .bind (some name) value =>
    (evalExpr call value scope s).andThen fun v s => (.ok v, s.set scope name v)
  | .ret value => (evalExpr call value scope s).andThen fun v s => (.ok (.ret v), s)
  | .expr value => evalExpr call value scope s
  | .block body => evalBlock call body scope .null s
termination_by structural st

/-- Evaluates statements one after the other, in the scope itself. The value is that of the last
one, or `last` if there is none. -/
def evalBlock (call : Caller) (body : List Stmt) (scope : ScopeId) (last : Value) (s : Store) :
    Result :=
  match body with
  | [] => (.ok last, s)
  | st :: rest =>
    (evalStmt call st scope s).andThen fun v s => evalBlock call rest scope v s
termination_by structural body

end

/-- Binds parameters to arguments in a scope. -/
def bindAll (scope : ScopeId) : List (Text × Value) → Store → Store
  | [], s => s
  | (name, value) :: rest, s => bindAll scope rest (s.set scope name value)

/-- Calls a function when `room` more calls may be active. The body is
evaluated in a new scope below the one that the function was made in. -/
def invoke (limit : Nat) : (room : Nat) → Caller
  | room, declaration, home, args, s =>
    match declaration with
    | none | some ⟨_, none⟩ => (.error .missingBody, s)
    | some ⟨params, some body⟩ =>
      if args.length ≠ params.length then
        (.ok (.error (.wrongCount params.length args.length)), s)
      else match room with
        | 0 => (.error (.tooManyCalls limit), s)
        | room + 1 =>
          let (scope, s) := s.newScope (some home)
          let s := bindAll scope (params.zip args) s
          (evalBlock (invoke limit room) body scope .null s).unwrapped

/-- Evaluates a node in a scope with a limit on the calls that are active at once. -/
def evalNode (limit : Nat) (n : Node) (scope : ScopeId) (s : Store) : Result :=
  match n with
  | .program p => (evalBlock (invoke limit limit) p.statements scope .null s).unwrapped
  | .stmt st => evalStmt (invoke limit limit) st scope s
  | .expr e => evalExpr (invoke limit limit) e scope s

end Borealis
