-- Showing source files: laid out anew, as a tree, or as tokens.
import Borealis.Console
import Borealis.Flags
import Borealis.Json.Writer
import Borealis.Session
import Borealis.Tree.Json
import Borealis.Tree.Layout

namespace Borealis.Command

/-- The flags for laying out files. -/
def formatFlags : FlagSet :=
  ⟨"fmt", [⟨"w", .switch, "write result to the source file instead of stdout"⟩]⟩

/-- Lays out one file, at the console or in place. -/
def formatFile (inPlace : Bool) (path : Text) (c : Console) : Ending :=
  match Session.parseFile c.host path with
  | .error e => (1, c.complain e.message)
  | .ok p =>
    if !inPlace then (0, c.print p.layout)
    else match c.host.write path p.layout with
      | .error e => (1, c.complain ("write " ++ path ++ ": " ++ e.message))
      | .ok h => (0, c.withHost h)

/-- Lays out files, also after one that fails. -/
def formatFiles (inPlace : Bool) : List Text → Console → Ending
  | [], c => (0, c)
  | path :: rest, c =>
    let (code, c) := formatFile inPlace path c
    let (codes, c) := formatFiles inPlace rest c
    (max code codes, c)

/-- Lays out the files that the arguments name. -/
def format (arguments : List Text) (c : Console) : Ending :=
  match formatFlags.read arguments with
  | .error e => (2, c.printError (formatFlags.problem e))
  | .ok a =>
    if a.rest.isEmpty then (2, c.complain "aurora fmt requires at least one file")
    else formatFiles (a.isOn "w") a.rest c

/-- The flags for showing a file. -/
def parseFlags : FlagSet :=
  ⟨"parse", [⟨"json", .switch, "print the syntax tree as JSON"⟩,
    ⟨"tokens", .switch, "print the token stream instead of the tree"⟩]⟩

/-- Shows the tokens of a file, one a line. -/
def showTokens (path : Text) (c : Console) : Ending :=
  match c.host.read path with
  | .error e => (1, c.complain e.message)
  | .ok t => (0, c.sayAll ((lex t).map Token.render))

/-- Shows the tree of a file. -/
def showTree (asJson : Bool) (path : Text) (c : Console) : Ending :=
  match Session.parseFile c.host path with
  | .error e => (1, c.complain e.message)
  | .ok p => (0, if asJson then c.print p.toJson.pretty else c.say p.compact)

/-- Shows the file that the arguments name. -/
def parse (arguments : List Text) (c : Console) : Ending :=
  match parseFlags.read arguments with
  | .error e => (2, c.printError (parseFlags.problem e))
  | .ok a =>
    match a.rest with
    | [path] => if a.isOn "tokens" then showTokens path c else showTree (a.isOn "json") path c
    | _ => (2, c.complain "aurora parse requires exactly one file")

end Borealis.Command
