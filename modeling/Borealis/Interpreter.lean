-- An interpreter keeps a store between evaluations. Its global scope is the
-- first one.
import Borealis.Eval
import Borealis.Tree.OfTokens

namespace Borealis

/-- A store with a global scope, and a limit on active calls. -/
structure Interpreter where
  store : Store
  limit : Nat

namespace Interpreter

/-- The limit on active calls if none is set. -/
def defaultLimit : Nat := 10000

/-- The scope that programs run in. -/
def globalScope : ScopeId := 0

/-- A new interpreter. A limit below 1 stands for the usual one. -/
def new (limit : Int) : Interpreter :=
  ⟨(Store.empty.newScope none).2, if limit ≤ 0 then defaultLimit else limit.toNat⟩

/-- Evaluates a node in a scope. -/
def evaluate (i : Interpreter) (n : Node) (scope : ScopeId) :
    Except Failure Value × Interpreter :=
  let (r, s) := evalNode i.limit n scope i.store
  (r, { i with store := s })

/-- Runs a program in the global scope. -/
def runProgram (i : Interpreter) (p : Program) : Except Failure Value × Interpreter :=
  i.evaluate (.program p) globalScope

/-- The bindings of the global scope. -/
def globals (i : Interpreter) : List (Text × Value) := i.store.bindings globalScope

/-- What running a source text gives. -/
inductive Outcome where
  | value (v : Value)
  /-- The text is wrong, and nothing was run. -/
  | rejected (ds : List Diagnostic)
  | failed (e : Failure)

/-- The outcome of an evaluation. -/
def Outcome.ofResult : Except Failure Value → Outcome
  | .ok v => .value v
  | .error e => .failed e

/-- Reads a source text and runs it in the global scope. -/
def runText (i : Interpreter) (t : Text) : Outcome × Interpreter :=
  let r := Program.ofText t
  if r.diagnostics.isEmpty then
    let (result, i) := i.runProgram r.program
    (.ofResult result, i)
  else (.rejected r.diagnostics, i)

end Interpreter

end Borealis
