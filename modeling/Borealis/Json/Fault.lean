-- What is wrong with a text whose first value is no JSON: where it ends too
-- early, or the first byte that cannot stand where it does.
import Borealis.Json.Reader
import Borealis.Text.Quoted

namespace Borealis

/-- Why there is no JSON value at the front of a text. -/
inductive JsonFault where
  /-- There are only blanks. -/
  | blank
  | cutShort
  /-- A byte cannot stand there, and what is said of the place. -/
  | badByte (b : UInt8) (place : Text)
  deriving DecidableEq, Repr

namespace JsonFault

/-- A byte between single quotes. -/
def quotedByte (b : UInt8) : Text :=
  if b = Text.byte '\'' then "'\\''"
  else if b = Text.byte '"' then "'\"'"
  else "'" ++ Text.quotedRune (.char (Char.ofNat b.toNat)) ++ "'"

/-- The wording of the fault. -/
def message : JsonFault → Text
  | blank => "EOF"
  | cutShort => "unexpected EOF"
  | badByte b place => "invalid character " ++ quotedByte b ++ " " ++ place

/-- What a value stands in: an array, or an object before or after its colon. -/
inductive Frame where
  | item
  | key
  | value
  deriving DecidableEq, Repr

/-- What may come next. -/
inductive Spot where
  | value
  | itemOrEnd
  | key
  | keyOrEnd
  /-- A value in a frame is over. -/
  | after
  | string
  | escape
  /-- So many hexadecimal digits. -/
  | hex (digits : Nat)
  | minus
  | zero
  | whole
  | point
  | fraction
  | exponent
  | exponentSign
  | exponentDigits
  /-- The rest of a word. -/
  | word (all : Text) (rest : Text)
  deriving DecidableEq, Repr

/-- Where a byte leads. -/
inductive Move where
  | to (s : Spot) (frames : List Frame)
  /-- The value is over. -/
  | done
  | bad (place : Text)
  deriving DecidableEq, Repr

/-- A blank between the parts of a JSON text. -/
def isBlankByte (b : UInt8) : Bool :=
  b = Text.byte ' ' || b = Text.byte '\t' || b = Text.byte '\n' || b = Text.byte '\r'

/-- After a value: at the outermost level all is done. -/
def close (frames : List Frame) : Move := if frames.isEmpty then .done else .to .after frames

/-- Opens an array or an object. -/
def enter (s : Spot) (f : Frame) (frames : List Frame) : Move :=
  if frames.length < Json.maxDepth then .to s (f :: frames) else .bad "exceeded max depth"

/-- A byte after a value in a frame. -/
def afterValue (frames : List Frame) (b : UInt8) : Move :=
  match frames with
  | [] => .done
  | f :: outer =>
    if isBlankByte b then .to .after frames
    else match f with
      | .key => if b = Text.byte ':' then .to .value (.value :: outer) else .bad "after object key"
      | .value =>
        if b = Text.byte ',' then .to .key (.key :: outer)
        else if b = Text.byte '}' then close outer
        else .bad "after object key:value pair"
      | .item =>
        if b = Text.byte ',' then .to .value frames
        else if b = Text.byte ']' then close outer
        else .bad "after array element"

/-- A byte where a value starts. -/
def startValue (frames : List Frame) (b : UInt8) : Move :=
  if isBlankByte b then .to .value frames
  else if b = Text.byte '{' then enter .keyOrEnd .key frames
  else if b = Text.byte '[' then enter .itemOrEnd .item frames
  else if b = Text.byte '"' then .to .string frames
  else if b = Text.byte '-' then .to .minus frames
  else if b = Text.byte '0' then .to .zero frames
  else if Text.isDigit b then .to .whole frames
  else if b = Text.byte 't' then .to (.word "true" "rue") frames
  else if b = Text.byte 'f' then .to (.word "false" "alse") frames
  else if b = Text.byte 'n' then .to (.word "null" "ull") frames
  else .bad "looking for beginning of value"

/-- A byte where a key starts. -/
def startKey (frames : List Frame) (b : UInt8) : Move :=
  if isBlankByte b then .to .key frames
  else if b = Text.byte '"' then .to .string frames
  else .bad "looking for beginning of object key string"

/-- A byte after the whole digits of a number. -/
def afterWhole (frames : List Frame) (b : UInt8) : Move :=
  if b = Text.byte '.' then .to .point frames
  else if b = Text.byte 'e' || b = Text.byte 'E' then .to .exponent frames
  else afterValue frames b

/-- A digit of an exponent. -/
def exponentDigit (frames : List Frame) (b : UInt8) : Move :=
  if Text.isDigit b then .to .exponentDigits frames else .bad "in exponent of numeric literal"

/-- Where a byte leads from a spot. -/
def step (s : Spot) (frames : List Frame) (b : UInt8) : Move :=
  match s with
  | .value => startValue frames b
  | .itemOrEnd =>
    if isBlankByte b then .to .itemOrEnd frames
    else if b = Text.byte ']' then close (frames.drop 1)
    else startValue frames b
  | .key => startKey frames b
  | .keyOrEnd =>
    if isBlankByte b then .to .keyOrEnd frames
    else if b = Text.byte '}' then close (frames.drop 1)
    else startKey frames b
  | .after => afterValue frames b
  | .string =>
    if b = Text.byte '"' then close frames
    else if b = Text.byte '\\' then .to .escape frames
    else if b < 0x20 then .bad "in string literal"
    else .to .string frames
  | .escape =>
    if b = Text.byte 'u' then .to (.hex 3) frames
    else if (Json.escape? (Char.ofNat b.toNat)).isSome then .to .string frames
    else .bad "in string escape code"
  | .hex n =>
    if (Text.hexValue? b).isNone then .bad "in \\u hexadecimal character escape"
    else match n with
      | 0 => .to .string frames
      | n + 1 => .to (.hex n) frames
  | .minus =>
    if b = Text.byte '0' then .to .zero frames
    else if Text.isDigit b then .to .whole frames
    else .bad "in numeric literal"
  | .zero => afterWhole frames b
  | .whole => if Text.isDigit b then .to .whole frames else afterWhole frames b
  | .point =>
    if Text.isDigit b then .to .fraction frames
    else .bad "after decimal point in numeric literal"
  | .fraction =>
    if Text.isDigit b then .to .fraction frames
    else if b = Text.byte 'e' || b = Text.byte 'E' then .to .exponent frames
    else afterValue frames b
  | .exponent =>
    if b = Text.byte '+' || b = Text.byte '-' then .to .exponentSign frames
    else exponentDigit frames b
  | .exponentSign => exponentDigit frames b
  | .exponentDigits =>
    if Text.isDigit b then .to .exponentDigits frames else afterValue frames b
  | .word all rest =>
    match rest with
    | [] => .bad []
    | want :: rest =>
      if b ≠ want then .bad ("in literal " ++ all ++ " (expecting " ++ quotedByte want ++ ")")
      else if rest.isEmpty then close frames
      else .to (.word all rest) frames

/-- Whether a value is over if the text ends. Only a number is not closed by a byte of its own. -/
def isOverAtEnd (frames : List Frame) : Spot → Bool
  | .zero | .whole | .fraction | .exponentDigits => frames.isEmpty
  | _ => false

/-- The fault in the rest of a text. -/
def scan (s : Spot) (frames : List Frame) : Text → Option JsonFault
  | [] => if isOverAtEnd frames s then none else some .cutShort
  | b :: rest =>
    match step s frames b with
    | .done => none
    | .bad place => some (.badByte b place)
    | .to s frames => scan s frames rest

/-- The fault of the first value of a text. -/
def find? (t : Text) : Option JsonFault :=
  if t.all isBlankByte then some .blank else scan .value [] t

end JsonFault

end Borealis
