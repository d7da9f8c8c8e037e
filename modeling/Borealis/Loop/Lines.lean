-- Lines of a stream of bytes. A line that is longer than the buffer comes in
-- parts.
import Borealis.Text

namespace Borealis.Lines

/-- How many bytes are looked at for the end of a line. -/
def bufferSize : Nat := 4096

/-- A line or a part of one, and what follows it. -/
structure Line where
  content : Text
  /-- The line goes on. -/
  isPart : Bool
  rest : Text

/-- The text without a carriage return at its end. -/
def dropReturn (t : Text) : Text :=
  if t.getLast? = some (Text.byte '\r') then t.dropLast else t

/-- The next line without its end, or nothing at the end of the stream. -/
def next? (t : Text) : Option Line :=
  if t.isEmpty then none
  else
    let front := t.take bufferSize
    let line := front.takeWhile (· != Text.byte '\n')
    if line.length < front.length then
      some ⟨dropReturn line, false, t.drop (line.length + 1)⟩
    else if front.length < bufferSize then some ⟨line, false, []⟩
    else
      let part := dropReturn line
      some ⟨part, true, t.drop part.length⟩

end Borealis.Lines
