-- A console: the machine that a command works on, what it can read, and what
-- it has printed so far.
import Borealis.Host

namespace Borealis

/-- The machine, the input that is left, and the output and errors that were printed. -/
structure Console where
  host : Host
  input : Text
  out : Text
  err : Text

/-- How a command ends: with a code, and the console after it. A code other than 0 stands for a
failure. -/
abbrev Ending := Nat × Console

namespace Console

/-- A console at which nothing was printed. -/
def new (h : Host) (input : Text) : Console := ⟨h, input, [], []⟩

/-- Prints a text. -/
def print (c : Console) (t : Text) : Console := { c with out := c.out ++ t }

/-- Prints a line. -/
def say (c : Console) (line : Text) : Console := c.print (line ++ "\n")

/-- Prints lines. -/
def sayAll (c : Console) (lines : List Text) : Console := lines.foldl say c

/-- Prints a text as an error. -/
def printError (c : Console) (t : Text) : Console := { c with err := c.err ++ t }

/-- Prints a line as an error. -/
def complain (c : Console) (line : Text) : Console := c.printError (line ++ "\n")

/-- The console on the machine as it is after some work. -/
def withHost (c : Console) (h : Host) : Console := { c with host := h }

end Console

end Borealis
