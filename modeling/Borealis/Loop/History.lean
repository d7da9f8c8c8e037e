-- The history of a read loop: what was entered, oldest first. The last
-- thousand entries are kept, and one that repeats the last is not added.
import Borealis.Loop.Lines
import Borealis.Text.Rune

namespace Borealis

/-- What was entered, oldest first. -/
abbrev History := List Text

namespace History

/-- How many entries are kept. -/
def limit : Nat := 1000

/-- Adds an entry and drops the oldest if there are too many. -/
def push (h : History) (entry : Text) : History :=
  if limit < h.length + 1 then h.drop 1 ++ [entry] else h ++ [entry]

/-- Adds an entry, unless it is the last one again. -/
def add (h : History) (entry : Text) : History :=
  if h.getLast? = some entry then h else h.push entry

/-- Reads entries, one a line, up to a line that is too long or no text. -/
def readLines : Nat → History → Text → History
  | 0, h, _ => h
  | n + 1, h, t =>
    match Lines.next? t with
    | none => h
    | some line =>
      if line.isPart || !line.content.isValid then h
      else readLines n (h.push line.content) line.rest

/-- The history in a file. -/
def ofText (t : Text) : History := readLines (t.length + 1) [] t

/-- The text of a history file. -/
def toText (h : History) : Text := h.flatMap fun entry => entry ++ "\n"

end History

end Borealis
