-- The tokens of YAML.

namespace Borealis.Yaml

/-- Why a text is no YAML. All causes count as one. -/
inductive Malformed where
  | malformed
  deriving DecidableEq, Repr

/-- How a scalar is written. -/
inductive ScalarStyle where
  | plain
  | quoted
  deriving DecidableEq, Repr, Inhabited

/-- A token of a YAML stream. -/
inductive Token where
  | streamEnd
  | version (major minor : Nat)
  | tagDirective (handle stem : List Char)
  | documentStart
  | documentEnd
  | blockSequence
  | blockMapping
  | blockEnd
  | flowSequence
  | flowSequenceEnd
  | flowMapping
  | flowMappingEnd
  | flowEntry
  | blockEntry
  | key
  | value
  | reference (name : List Char)
  | anchor (name : List Char)
  | tag (handle suffix : List Char)
  | scalar (style : ScalarStyle) (value : List Char)
  deriving DecidableEq, Repr, Inhabited

end Borealis.Yaml
