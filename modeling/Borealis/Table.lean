-- Values by name, sorted by name.
import Borealis.Text

namespace Borealis

/-- Values with their names, in the order of the names. -/
abbrev Table (α : Type) := List (Text × α)

namespace Table

variable {α : Type}

/-- Puts a value under a name, in place of the one that stood there. -/
def insert (name : Text) (value : α) : Table α → Table α
  | [] => [(name, value)]
  | (k, v) :: rest =>
    if name = k then (name, value) :: rest
    else if name < k then (name, value) :: (k, v) :: rest
    else (k, v) :: insert name value rest

/-- The value under a name. -/
def get? (t : Table α) (name : Text) : Option α := t.lookup name

/-- The names, in order. -/
def names (t : Table α) : List Text := t.map Prod.fst

/-- The table of values that are put in one after the other. -/
def ofList (entries : List (Text × α)) : Table α :=
  entries.foldl (fun t e => insert e.1 e.2 t) []

end Table

end Borealis
