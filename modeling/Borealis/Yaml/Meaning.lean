-- What a plain scalar means: nothing, a truth value, a number, a moment, or
-- just its text.
import Borealis.Double
import Borealis.Text.Integer
import Borealis.Yaml.Timestamp

namespace Borealis.Yaml

/-- The kinds of nodes. -/
inductive Tag where
  | str
  | null
  | bool
  | int
  | float
  | timestamp
  | binary
  | merge
  | seq
  | map
  | other (name : Text)
  deriving DecidableEq, Repr, Inhabited

namespace Tag

/-- The short name of a kind. -/
def name : Tag → Text
  | str => "!!str"
  | null => "!!null"
  | bool => "!!bool"
  | int => "!!int"
  | float => "!!float"
  | timestamp => "!!timestamp"
  | binary => "!!binary"
  | merge => "!!merge"
  | seq => "!!seq"
  | map => "!!map"
  | other n => n

/-- The kinds with a name of their own. -/
def known : List Tag := [str, null, bool, int, float, timestamp, binary, merge, seq, map]

/-- The front of the long names of the kinds that have a short one. -/
def longFront : Text := "tag:yaml.org,2002:"

/-- The kind with a short or long name. -/
def ofName (n : Text) : Tag :=
  let short : Text := match Text.after? n longFront with
    | some rest => "!!" ++ rest
    | none => n
  (known.find? fun t => t.name == short).getD (other short)

end Tag

/-- What a plain scalar means. -/
inductive Meaning where
  | null
  | bool
  | int (i : Int)
  | float (d : Double)
  | timestamp
  | text
  deriving DecidableEq, Repr

namespace Meaning

/-- The kind of a meaning. -/
def tag : Meaning → Tag
  | null => .null
  | bool => .bool
  | int _ => .int
  | float _ => .float
  | timestamp => .timestamp
  | text => .str

/-- The scalars with a meaning of their own. -/
def word? (t : Text) : Option Meaning :=
  if t ∈ ([[], "~", "null", "Null", "NULL"] : List Text) then some null
  else if t ∈ (["true", "True", "TRUE", "false", "False", "FALSE"] : List Text) then some bool
  else if t ∈ ([".nan", ".NaN", ".NAN"] : List Text) then some (float .undefined)
  else if t ∈ ([".inf", ".Inf", ".INF", "+.inf", "+.Inf", "+.INF"] : List Text) then
    some (float (.infinite false))
  else if t ∈ (["-.inf", "-.Inf", "-.INF"] : List Text) then some (float (.infinite true))
  else none

/-- A number with a binary fraction. -/
def float? (t : Text) : Option Meaning := ((Decimal.ofText? t).bind Double.ofDecimal?).map float

/-- An optional sign and digits of a base. -/
def signedIn? (base : Nat) (t : Text) : Option Int :=
  let read (ds : Text) : Option Nat :=
    if ds.isEmpty || ds.contains (Text.byte '_') then none else (Text.digitsIn base 0 ds).toOption
  match t with
  | [] => none
  | b :: rest =>
    let n := if b = Text.byte '-' then (read rest).map fun n => -(n : Int)
      else if b = Text.byte '+' then (read rest).map fun n => (n : Int)
      else (read t).map fun n => (n : Int)
    n.filter fun i => Int64.minValue.toInt ≤ i ∧ i < UInt64.size ∧
      (i ≤ Int64.maxValue.toInt ∨ b ≠ Text.byte '+')

/-- A whole number of 64 bits, with or without sign, in the base that its front tells. -/
def int? (t : Text) : Option Int :=
  match Text.toInt64Based t with
  | .ok i => some i.toInt
  | .error _ => (Text.numeral t).toOption.map Int.ofNat

/-- A number in base 2 or 8 whose sign may follow the mark of the base. -/
def markedInt? (t : Text) : Option Int :=
  match t.after? "0b", t.after? "-0b", t.after? "0o", t.after? "-0o" with
  | some ds, _, _, _ => signedIn? 2 ds
  | _, some ds, _, _ => signedIn? 2 (Text.byte '-' :: ds)
  | _, _, some ds, _ => signedIn? 8 ds
  | _, _, _, some ds => signedIn? 8 (Text.byte '-' :: ds)
  | _, _, _, _ => none

/-- The meaning of a scalar that starts with a digit or a sign. Underscores in it count for
nothing. -/
def number (t : Text) : Meaning :=
  if Timestamp.matches? t then timestamp
  else
    let t := t.filter (· != Text.byte '_')
    match int? t with
    | some i => int i
    | none =>
      match float? t with
      | some m => m
      | none => (markedInt? t).elim text int

/-- The meaning of a plain scalar. -/
def ofPlain (t : Text) : Meaning :=
  match word? t with
  | some m => m
  | none =>
    match t with
    | [] => null
    | b :: _ =>
      if Text.isDigit b || b == Text.byte '+' || b == Text.byte '-' then number t
      else if b == Text.byte '.' then
        if Text.underscoresFit false false false t then
          (float? (t.filter (· != Text.byte '_'))).getD text
        else text
      else text

end Meaning

end Borealis.Yaml
