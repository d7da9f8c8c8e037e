-- The command line: the first argument chooses the command. Without one the
-- read loop starts, and a source file is run.
import Borealis.Command.Converse
import Borealis.Command.Dependencies
import Borealis.Command.Entry
import Borealis.Command.Source

namespace Borealis.Command

/-- The ending of source files. -/
def sourceExtension : Text := ".au"

/-- How the commands are used. -/
def usage : List Text := [
  "Usage:",
  "  aurora                       start the REPL",
  "  aurora repl",
  "  aurora run [file.au]",
  "  aurora <file.au>",
  "  aurora fmt [-w] <file.au> ...",
  "  aurora parse [-json|-tokens] <file.au>",
  "  aurora deps install",
  "  aurora deps update [dependency ...]",
  "  aurora version"]

/-- Prints how the commands are used. -/
def printUsage (c : Console) : Console := usage.foldl Console.complain c

/-- Whether a word is one of some words. -/
def isAny (word : Text) (words : List String) : Bool := (words.map Text.ofString).contains word

/-- Runs a command. -/
def run (repository : Repository) (arguments : List Text) (c : Console) : Ending :=
  match arguments with
  | [] => converse [] c
  | word :: more =>
    if isAny word ["--help", "-h", "help"] then (0, printUsage c)
    else if isAny word ["--version", "-V", "version"] then (0, c.say toolVersion)
    else if word = "run" then entry more c
    else if word = "repl" then converse more c
    else if word = "fmt" then format more c
    else if word = "parse" then parse more c
    else if word = "deps" then dependencies repository more c
    else if Path.extension word = sourceExtension then entry arguments c
    else (2, printUsage (c.complain ("unknown command " ++ word.quoted)))

end Borealis.Command
