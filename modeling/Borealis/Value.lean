-- Values of the language, and what is said when an operation fails. An error
-- is a value too: it stops the statements around it.
import Borealis.Tree.Compact

namespace Borealis

/-- What a function was declared as. A function built by hand may lack its body. -/
structure Declaration where
  params : List Text
  body : Option (List Stmt)

/-- The expression that declares the function. -/
def Declaration.toExpr (f : Declaration) : Expr :=
  match f.body with
  | some body => .fn f.params body
  | none => .stub f.params

/-! ## Kinds -/

/-- The kind of a value. Values from outside may be of kinds that the
language does not know, by number. -/
inductive Kind where
  | integer | boolean | null | function | returned | error
  | other (number : Int)
  deriving DecidableEq, Repr

namespace Kind

/-- The kind of that number. -/
def ofNumber (n : Int) : Kind :=
  if n = 0 then integer
  else if n = 1 then boolean
  else if n = 2 then null
  else if n = 3 then function
  else if n = 4 then returned
  else if n = 5 then error
  else other n

/-- The name of a kind in messages. -/
def name : Kind → Text
  | integer => "INTEGER"
  | boolean => "BOOLEAN"
  | null => "NULL"
  | function => "FUNCTION"
  | returned => "RETURN_VALUE"
  | error => "ERROR"
  | other n => "UNKNOWN_KIND_" ++ Text.ofInt n

end Kind

/-! ## Faults -/

/-- Why an operation of the language failed. -/
inductive Fault where
  | unbound (name : Text)
  | unknownUnary (op : Text) (operand : Kind)
  | unknownBinary (left : Kind) (op : Text) (right : Kind)
  | mismatch (left : Kind) (op : Text) (right : Kind)
  | divisionByZero (dividend : Int64)
  | notFunction (kind : Kind)
  | wrongCount (want got : Nat)
  /-- A fault from outside, known by its wording. -/
  | custom (message : Text)
  deriving DecidableEq

/-- The wording of a fault. -/
def Fault.message : Fault → Text
  | unbound name => "identifier not found: " ++ name
  | unknownUnary op operand => "unknown operator: " ++ op ++ operand.name
  | unknownBinary left op right => "unknown operator: " ++ left.name ++ op ++ right.name
  | mismatch left op right => "type mismatch: " ++ left.name ++ op ++ right.name
  | divisionByZero dividend => "division by zero: " ++ Text.ofInt dividend.toInt ++ " / 0"
  | notFunction kind => "not a function: " ++ kind.name
  | wrongCount want got =>
    "wrong number of arguments: want=" ++ Text.ofNat want ++ ", got=" ++ Text.ofNat got
  | custom message => message

/-! ## Values -/

/-- A scope of a store, by its number. -/
abbrev ScopeId := Nat

/-- A value. -/
inductive Value where
  /-- No value at all, which only code outside the language can bind. -/
  | nothing
  | int (value : Int64)
  | bool (value : Bool)
  | null
  /-- A function with an identity, its declaration and the scope it was made in. -/
  | fn (identity : Nat) (declaration : Option Declaration) (scope : ScopeId)
  | error (fault : Fault)
  /-- A value on its way up to the call that returns it. -/
  | ret (value : Value)
  /-- A value of a type that the language does not have. -/
  | foreign (kind : Int)

namespace Value

instance : Inhabited Value := ⟨null⟩

/-- The kind of a value. -/
def kind : Value → Kind
  | nothing => .other (-1)
  | int _ => .integer
  | bool _ => .boolean
  | null => .null
  | fn .. => .function
  | error _ => .error
  | ret _ => .returned
  | foreign n => .ofNumber n

/-- Whether the value is an error. -/
def isError : Value → Bool
  | error _ => true
  | _ => false

/-- Whether the value stops the evaluation around it: an error or a return. -/
def isAbrupt : Value → Bool
  | error _ | ret _ => true
  | _ => false

/-- Only false and null count as false. -/
def isTruthy : Value → Bool
  | bool b => b
  | null => false
  | _ => true

/-- The value that a call or program ends with: what was returned, or the value itself. -/
def unwrapped : Value → Value
  | ret v => v
  | v => v

/-- The value as it is shown. -/
def inspect : Value → Text
  | nothing => "<nil>"
  | int v => Text.ofInt v.toInt
  | bool b => if b then "true" else "false"
  | null => "null"
  | fn _ none _ => "fn"
  | fn _ (some f) _ => f.toExpr.compact
  | error fault => "ERROR: " ++ fault.message
  | ret v => v.inspect
  | foreign n => "<" ++ (Kind.ofNumber n).name ++ ">"

/-! ## Operators -/

/-- Whether two values of one kind are equal. Functions are equal if they are
the same function, and foreign values never are. -/
def same : Value → Value → Bool
  | bool a, bool b => a == b
  | null, _ => true
  | fn a _ _, fn b _ _ => a == b
  | _, _ => false

/-- An operator between two integers. Results wrap around at 64 bits, and
division drops the fraction. -/
def integerOperation (op : Text) (a b : Int64) : Value :=
  if op = "+" then int (a + b)
  else if op = "-" then int (a - b)
  else if op = "*" then int (a * b)
  else if op = "/" then if b = 0 then error (.divisionByZero a) else int (a / b)
  else if op = "<" then bool (a < b)
  else if op = ">" then bool (b < a)
  else if op = "==" then bool (a == b)
  else if op = "!=" then bool (a != b)
  else error (.unknownBinary .integer op .integer)

/-- An operator between two values. -/
def binary (op : Text) : Value → Value → Value
  | int a, int b => integerOperation op a b
  | a, b =>
    if a.kind ≠ b.kind then error (.mismatch a.kind op b.kind)
    else if op = "==" then bool (a.same b)
    else if op = "!=" then bool (!a.same b)
    else error (.unknownBinary a.kind op b.kind)

/-- An operator in front of a value. -/
def unary (op : Text) (v : Value) : Value :=
  if op = "!" then bool (!v.isTruthy)
  else match v with
    | int a => if op = "-" then int (-a) else error (.unknownUnary op .integer)
    | v => error (.unknownUnary op v.kind)

end Value

end Borealis
