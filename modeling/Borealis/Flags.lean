-- Flags of a command. They stand before all other arguments. A switch is on
-- when it is named, and takes a value only after an equals sign. A number is
-- given after an equals sign or as the next argument.
import Borealis.Text.Integer
import Borealis.Text.Quoted

namespace Borealis

/-- What a flag takes. -/
inductive FlagKind where
  | switch
  | number
  deriving DecidableEq, Repr

/-- A flag: its name, what it takes, and what it is for. -/
structure Flag where
  name : Text
  kind : FlagKind
  purpose : Text
  deriving DecidableEq, Repr

/-- The flags of a command, sorted by name. -/
structure FlagSet where
  command : Text
  flags : List Flag
  deriving DecidableEq, Repr

/-- What was set by flags, the latest first, and the arguments after them. -/
structure Arguments where
  switches : List (Text × Bool)
  numbers : List (Text × Int64)
  rest : List Text
  deriving DecidableEq, Repr

/-- Why flags cannot be read. A question for help counts as one. -/
inductive FlagError where
  | help
  | badSyntax (argument : Text)
  | unknown (name : Text)
  | noSwitch (name value : Text)
  | noValue (name : Text)
  | noNumber (name value : Text) (e : IntegerError)
  deriving DecidableEq, Repr

/-- Why a value is no number. -/
def FlagError.numberWords : IntegerError → Text
  | .malformed => "parse error"
  | .outOfRange => "value out of range"

/-- The text of the error. A question for help has none. -/
def FlagError.message? : FlagError → Option Text
  | help => none
  | badSyntax argument => some ("bad flag syntax: " ++ argument)
  | unknown name => some ("flag provided but not defined: -" ++ name)
  | noSwitch name value =>
    some ("invalid boolean value " ++ value.quoted ++ " for -" ++ name ++ ": parse error")
  | noValue name => some ("flag needs an argument: -" ++ name)
  | noNumber name value e =>
    some ("invalid value " ++ value.quoted ++ " for flag -" ++ name ++ ": " ++ numberWords e)

namespace Arguments

/-- Whether a switch is on. -/
def isOn (a : Arguments) (name : Text) : Bool := (a.switches.lookup name).getD false

/-- A number that was set, or 0. -/
def number (a : Arguments) (name : Text) : Int64 := (a.numbers.lookup name).getD 0

end Arguments

namespace FlagSet

/-- One flag in the help text. A name of one letter leaves room for its purpose. -/
def flagText (f : Flag) : Text :=
  let head : Text := "  -" ++ f.name ++ (match f.kind with
    | .switch => []
    | .number => Text.ofString " int")
  head ++ (if head.length ≤ 4 then Text.ofString "\t" else Text.ofString "\n    \t")
    ++ f.purpose ++ "\n"

/-- The help text. -/
def usage (s : FlagSet) : Text := "Usage of " ++ s.command ++ ":\n" ++ s.flags.flatMap flagText

/-- What an argument is. -/
inductive Shape where
  /-- No flag: the arguments start here. -/
  | plain
  /-- The arguments start after this one. -/
  | stop
  | bad
  | flag (name : Text) (value : Option Text)
  deriving DecidableEq, Repr

/-- Splits a name from the value after the first equals sign. -/
def splitValue (t : Text) : Text × Option Text :=
  let name := t.takeWhile (· != Text.byte '=')
  (name, if name.length < t.length then some (t.drop (name.length + 1)) else none)

/-- The shape of an argument. -/
def shape (argument : Text) : Shape :=
  match argument.after? "-" with
  | none | some [] => .plain
  | some body =>
    if body = "-" then .stop
    else
      let body := (body.after? "-").getD body
      if body.startsWith "-" || body.startsWith "=" then .bad
      else
        let (name, value) := splitValue body
        .flag name value

/-- The words for on and off. -/
def switchValue? (t : Text) : Option Bool :=
  if (["1", "t", "T", "true", "TRUE", "True"].map Text.ofString).contains t then some true
  else if (["0", "f", "F", "false", "FALSE", "False"].map Text.ofString).contains t then some false
  else none

/-- The words that ask for help. -/
def asksForHelp (name : Text) : Bool := name = "help" || name = "h"

/-- Sets a switch to what a word says. -/
def setSwitch (a : Arguments) (name word : Text) : Except FlagError Arguments :=
  match switchValue? word with
  | none => .error (.noSwitch name word)
  | some b => .ok { a with switches := (name, b) :: a.switches }

/-- Sets a number to what a word says. -/
def setNumber (a : Arguments) (name word : Text) : Except FlagError Arguments :=
  match word.toInt64Based with
  | .error e => .error (.noNumber name word e)
  | .ok n => .ok { a with numbers := (name, n) :: a.numbers }

/-- Reads arguments. What was set before is given. -/
def readFrom (s : FlagSet) (a : Arguments) : List Text → Except FlagError Arguments
  | [] => .ok { a with rest := [] }
  | argument :: rest =>
    match shape argument with
    | .plain => .ok { a with rest := argument :: rest }
    | .stop => .ok { a with rest := rest }
    | .bad => .error (.badSyntax argument)
    | .flag name value =>
      match s.flags.find? (·.name == name) with
      | none => .error (if asksForHelp name then .help else .unknown name)
      | some f =>
        match f.kind with
        | .switch => do
          let a ← setSwitch a name (value.getD "true")
          readFrom s a rest
        | .number =>
          match value with
          | some word => do
            let a ← setNumber a name word
            readFrom s a rest
          | none =>
            match rest with
            | [] => .error (.noValue name)
            | word :: rest => do
              let a ← setNumber a name word
              readFrom s a rest

/-- Reads arguments. -/
def read (s : FlagSet) (arguments : List Text) : Except FlagError Arguments :=
  s.readFrom ⟨[], [], []⟩ arguments

/-- What is printed if the flags are wrong. -/
def problem (s : FlagSet) (e : FlagError) : Text :=
  (e.message?.elim [] fun t => t ++ Text.ofString "\n") ++ s.usage

end FlagSet

end Borealis
