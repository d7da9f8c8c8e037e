-- A fixture: a directory with a program and what is expected of it. The
-- expectations are checked one after the other, and the first that fails is
-- the verdict.
import Borealis.Double.Shortest
import Borealis.Host
import Borealis.Interpreter
import Borealis.Json.Reader
import Borealis.Tree.Compact
import Borealis.Tree.Json

namespace Borealis

/-- The value that a program should end with. A null value is not compared. -/
structure ExpectedResult where
  kind : Text
  value : Json

/-- What is expected of a program. -/
structure Fixture where
  entry : Text
  result : Option ExpectedResult
  errors : List Text
  diagnostics : List Text

namespace Fixture

/-- A fixture that expects nothing. -/
def blank : Fixture := ⟨[], none, [], []⟩

/-! ## Reading expectations -/

/-- A character of a field name without regard to case. Two letters have a third form. -/
def foldChar (c : Char) : Char :=
  if c.toNat = 0x17F then 's' else if c.toNat = 0x212A then 'k' else c.toLower

/-- A name without regard to case. -/
def folded (name : Text) : Text := Text.ofChars (name.chars.map foldChar)

/-- A text, or nothing new if it is null. -/
def readText (before : Text) : Json → Option Text
  | .str t => some t
  | .null => some before
  | _ => none

/-- Texts. Null in place of one is an empty text. -/
def readTexts : Json → Option (List Text)
  | .arr items => items.mapM (readText [])
  | .null => some []
  | _ => none

mutual

/-- A value whose numbers are written as numbers with a binary fraction are, if they can be. -/
def readNumbers? : Json → Option Json
  | .num literal => ((Decimal.ofText? literal).bind Double.ofDecimal?).map (.num ·.render)
  | .arr items => (readNumbersItems? items).map .arr
  | .obj fields => (readNumbersFields? fields).map .obj
  | j => some j

/-- The items of a list likewise. -/
def readNumbersItems? : List Json → Option (List Json)
  | [] => some []
  | j :: rest => do
    let j ← readNumbers? j
    return j :: (← readNumbersItems? rest)

/-- The fields of an object likewise. -/
def readNumbersFields? : List (Text × Json) → Option (List (Text × Json))
  | [] => some []
  | (k, j) :: rest => do
    let j ← readNumbers? j
    return (k, j) :: (← readNumbersFields? rest)

end

/-- Reads the fields of an object one after the other. Null is no object and changes nothing. -/
def readFields {α : Type} (field : Text → Json → α → Option α) (a : α) : Json → Option α
  | .obj fields => fields.foldlM (fun a (k, v) => field (folded k) v a) a
  | .null => some a
  | _ => none

/-- A field of an expected result. -/
def resultField (name : Text) (j : Json) (r : ExpectedResult) : Option ExpectedResult :=
  if name = "kind" then (readText r.kind j).map fun t => { r with kind := t }
  else if name = "value" then (readNumbers? j).map fun v => { r with value := v }
  else some r

/-- A field of the expectations. -/
def expectField (name : Text) (j : Json) (f : Fixture) : Option Fixture :=
  if name = "result" then
    match j with
    | .null => some { f with result := none }
    | j =>
      (readFields resultField (f.result.getD ⟨[], .null⟩) j).map fun r =>
        { f with result := some r }
  else if name = "errors" then (readTexts j).map fun ts => { f with errors := ts }
  else if name = "diagnostics" then (readTexts j).map fun ts => { f with diagnostics := ts }
  else some f

/-- A field of a fixture. -/
def field (name : Text) (j : Json) (f : Fixture) : Option Fixture :=
  if name = "description" then (readText [] j).map fun _ => f
  else if name = "entry" then (readText f.entry j).map fun t => { f with entry := t }
  else if name = "expect" then readFields expectField f j
  else some f

/-- Reads a fixture. -/
def ofText? (t : Text) : Option Fixture := (Json.ofText? t).bind (readFields field blank)

/-! ## Checking -/

/-- What is wrong with a fixture. -/
inductive Verdict where
  | unreadableManifest (path : Text) (e : FileError)
  | malformedManifest (path : Text)
  | unreadableSource (path : Text) (e : FileError)
  | otherDiagnostics (dir : Text) (want got : List Text)
  | diagnosed (dir : Text) (ds : List Diagnostic)
  | unreadableTree (path : Text) (e : FileError)
  | malformedTree (path : Text) (e : StoredTreeError)
  | otherTree (dir : Text) (got want : Program)
  | failed (dir : Text) (e : Failure)
  | noError (dir : Text) (got : Value)
  | otherError (dir : Text) (want : List Text) (got : Fault)
  | error (dir : Text) (fault : Fault)
  | otherKind (dir want : Text) (got : Value)
  | otherValue (dir : Text) (want : Json) (got : Value)

/-- A list of texts in a message. -/
def listText (ts : List Text) : Text := "[" ++ Text.join " " ts ++ "]"

/-- The text of a verdict. -/
def Verdict.message : Verdict → Text
  | unreadableManifest path e => "read manifest " ++ path ++ ": " ++ e.message
  | malformedManifest path => "parse manifest " ++ path
  | unreadableSource path e => "read source " ++ path ++ ": " ++ e.message
  | otherDiagnostics dir want got =>
    "fixture " ++ dir ++ " expected diagnostics " ++ listText want ++ ", got " ++ listText got
  | diagnosed dir ds =>
    "fixture " ++ dir ++ ": unexpected diagnostics " ++ listText (ds.map Diagnostic.render)
  | unreadableTree path e => "read " ++ path ++ ": " ++ e.message
  | malformedTree path e => "decode " ++ path ++ ": " ++ e.message
  | otherTree dir got want =>
    "fixture " ++ dir ++ ": parsed tree " ++ got.compact ++ " does not match program.json "
      ++ want.compact
  | failed dir e => "fixture " ++ dir ++ " evaluation error: " ++ e.message
  | noError dir got => "fixture " ++ dir ++ " expected error value, got " ++ got.inspect
  | otherError dir want got =>
    "fixture " ++ dir ++ " expected error in " ++ listText want ++ ", got " ++ got.message
  | error dir fault => "fixture " ++ dir ++ " unexpected error value: " ++ fault.message
  | otherKind dir want got =>
    "fixture " ++ dir ++ " expected kind " ++ want ++ ", got " ++ got.kind.name ++ " ("
      ++ got.inspect ++ ")"
  | otherValue dir want got =>
    "fixture " ++ dir ++ " expected value " ++ want.shown ++ ", got " ++ got.inspect

/-- Whether a value is the expected one. A number is compared as a whole number, a value that
is neither number nor truth value by its text. -/
def agrees (want : Json) : Value → Bool
  | .int i =>
    match want with
    | .num literal =>
      ((Decimal.ofText? literal).bind Double.ofDecimal?).any fun d => d.toInt64 == i
    | _ => false
  | .bool b =>
    match want with
    | .bool c => b == c
    | _ => false
  | v => v.inspect == want.shown

/-- Compares the value of a program. -/
def checkResult (f : Fixture) (dir : Text) (v : Value) : Except Verdict Unit :=
  match f.result with
  | none => .ok ()
  | some r =>
    if v.kind.name ≠ r.kind then .error (.otherKind dir r.kind v)
    else match r.value with
      | .null => .ok ()
      | want => if agrees want v then .ok () else .error (.otherValue dir want v)

/-- Runs a program that could be read, and compares what comes of it. -/
def checkRun (f : Fixture) (dir : Text) (p : Program) : Except Verdict Unit :=
  match (Interpreter.new 0).runProgram p with
  | (.error e, _) => .error (.failed dir e)
  | (.ok v, _) =>
    match v, f.errors.isEmpty with
    | .error fault, true => .error (.error dir fault)
    | .error fault, false =>
      if f.errors.contains fault.message then .ok () else .error (.otherError dir f.errors fault)
    | v, false => .error (.noError dir v)
    | v, true => f.checkResult dir v

/-- Compares a program with the stored tree, if there is one. -/
def checkTree (h : Host) (dir : Text) (p : Program) : Except Verdict Unit :=
  let path := Path.join [dir, "program.json"]
  match h.read path with
  | .error e => if e.isNotFound then .ok () else .error (.unreadableTree path e)
  | .ok t =>
    match Program.ofJsonText t with
    | .error e => .error (.malformedTree path e)
    | .ok stored => if stored.same p then .ok () else .error (.otherTree dir p stored)

/-- Checks a program against what is expected of it. -/
def checkSource (h : Host) (f : Fixture) (dir source : Text) : Except Verdict Unit :=
  let r := Program.ofText source
  if !f.diagnostics.isEmpty then
    let got := r.diagnostics.map Diagnostic.message
    if got = f.diagnostics then .ok () else .error (.otherDiagnostics dir f.diagnostics got)
  else if !r.diagnostics.isEmpty then .error (.diagnosed dir r.diagnostics)
  else do
    checkTree h dir r.program
    f.checkRun dir r.program

/-- Reads what is expected. Without a manifest nothing is. -/
def readManifest (h : Host) (dir : Text) : Except Verdict Fixture :=
  let path := Path.join [dir, "manifest.json"]
  match h.read path with
  | .error e => if e.isNotFound then .ok blank else .error (.unreadableManifest path e)
  | .ok t =>
    match ofText? t with
    | some f => .ok f
    | none => .error (.malformedManifest path)

/-- The name of the program if the manifest gives none. -/
def usualEntry : Text := "source.au"

/-- Checks the fixture in a directory. -/
def check (h : Host) (dir : Text) : Except Verdict Unit := do
  let f ← readManifest h dir
  let path := Path.join [dir, if f.entry.isEmpty then usualEntry else f.entry]
  match h.read path with
  | .error e => throw (.unreadableSource path e)
  | .ok source => checkSource h f dir source

end Fixture

end Borealis
