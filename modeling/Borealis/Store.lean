-- Scopes and their bindings. A scope may have a parent, in which names that
-- it does not bind are looked up. Functions keep the number of the scope they
-- were made in, so scopes are never taken away.
import Borealis.Value

namespace Borealis

/-! ## One scope -/

/-- A scope: its parent, if it has one, and its bindings sorted by name. -/
structure Scope where
  parent : Option ScopeId
  bindings : List (Text × Value)

/-- Adds a binding to a sorted list, in place of one of the same name. -/
def insertBinding (name : Text) (value : Value) : List (Text × Value) → List (Text × Value)
  | [] => [(name, value)]
  | (k, v) :: rest =>
    if name = k then (name, value) :: rest
    else if name < k then (name, value) :: (k, v) :: rest
    else (k, v) :: insertBinding name value rest

namespace Scope

/-- Binds a name in the scope. -/
def set (s : Scope) (name : Text) (value : Value) : Scope :=
  { s with bindings := insertBinding name value s.bindings }

/-- What the scope itself binds a name to. -/
def get? (s : Scope) (name : Text) : Option Value := s.bindings.lookup name

/-- The names that the scope itself binds, in order. -/
def keys (s : Scope) : List Text := s.bindings.map Prod.fst

end Scope

/-! ## All scopes -/

/-- Every scope made so far, by number, and how many functions were made. -/
structure Store where
  scopes : Array Scope
  functions : Nat

namespace Store

/-- No scopes yet. -/
def empty : Store := ⟨#[], 0⟩

instance : Inhabited Store := ⟨empty⟩

/-- Makes a scope below another one, or a root. -/
def newScope (s : Store) (parent : Option ScopeId) : ScopeId × Store :=
  (s.scopes.size, { s with scopes := s.scopes.push ⟨parent, []⟩ })

/-- Makes a function that differs from every other one. -/
def newFunction (s : Store) (declaration : Option Declaration) (scope : ScopeId) : Value × Store :=
  (.fn s.functions declaration scope, { s with functions := s.functions + 1 })

/-- The bindings of one scope, sorted by name. -/
def bindings (s : Store) (scope : ScopeId) : List (Text × Value) :=
  match s.scopes[scope]? with
  | some x => x.bindings
  | none => []

/-- The names that one scope binds, in order. -/
def keys (s : Store) (scope : ScopeId) : List Text := (s.bindings scope).map Prod.fst

/-- The parent of a scope. -/
def parent? (s : Store) (scope : ScopeId) : Option ScopeId :=
  (s.scopes[scope]?).bind Scope.parent

/-- Binds a name in a scope. -/
def set (s : Store) (scope : ScopeId) (name : Text) (value : Value) : Store :=
  { s with scopes := s.scopes.modify scope fun x => x.set name value }

/-- Looks a name up in a scope and then in its parents, so many scopes far. -/
def find? (s : Store) (name : Text) : Nat → ScopeId → Option Value
  | 0, _ => none
  | n + 1, scope =>
    match s.scopes[scope]? with
    | none => none
    | some x =>
      match x.get? name with
      | some v => some v
      | none =>
        match x.parent with
        | some p => s.find? name n p
        | none => none

/-- What a name means in a scope. A chain of parents is no longer than all scopes. -/
def get? (s : Store) (scope : ScopeId) (name : Text) : Option Value :=
  s.find? name s.scopes.size scope

end Store

end Borealis
