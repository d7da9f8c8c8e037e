-- JSON values. A number keeps the digits it was written with, and an object
-- keeps its fields in order.
import Borealis.Text

namespace Borealis

/-- A JSON value. -/
inductive Json where
  | null
  | bool (value : Bool)
  | num (literal : Text)
  | str (value : Text)
  | arr (items : List Json)
  | obj (fields : List (Text × Json))

namespace Json

instance : Inhabited Json := ⟨null⟩

/-- A whole number. -/
def int (i : Int) : Json := num (Text.ofInt i)

/-- The last field of that name: of two fields with one name, the later one counts. -/
def lookup (name : Text) (fields : List (Text × Json)) : Option Json :=
  (fields.reverse.find? fun (k, _) => k == name).map Prod.snd

/-- The field of an object. -/
def field? (name : Text) : Json → Option Json
  | obj fields => lookup name fields
  | _ => none

/-- The field of an object, or null. -/
def field (name : Text) (j : Json) : Json := (j.field? name).getD null

end Json

end Borealis
