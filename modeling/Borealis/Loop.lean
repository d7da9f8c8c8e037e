-- The read loop. Lines are gathered until they are a whole program, which is
-- then run in the session. Each line is one step, so that a loop can be fed
-- from anywhere.
import Borealis.Session

namespace Borealis

/-- A read loop: its session, its prompt, and the lines that are no whole program yet. -/
structure Loop where
  session : Session
  prompt : Text
  pending : Text

/-- What is entered at a prompt. -/
inductive Entered where
  | line (t : Text)
  /-- The lines so far are given up. -/
  | abort
  | endOfInput

/-- What comes of an entry: texts to print, an addition to the history, and whether the loop
is over. -/
structure Response where
  out : Text
  err : Text
  history : Option Text
  finished : Bool

namespace Loop

/-- The prompt of a loop if the manifest sets none. -/
def usualPrompt : Text := "Aurora: "

/-- The prompt for a line that goes on. -/
def continuationPrompt : Text := "... "

/-- A loop for a session. -/
def new (s : Session) : Loop :=
  let prompt := s.manifest.elim [] fun m => m.loop.prompt
  ⟨s, if prompt.isEmpty then usualPrompt else prompt, []⟩

/-- The prompt for the next line. -/
def currentPrompt (l : Loop) : Text := if l.pending.isEmpty then l.prompt else continuationPrompt

/-- Nothing to say. -/
def quiet : Response := ⟨[], [], none, false⟩

/-- The bindings of the session, one a line. -/
def bindingsText (s : Session) : Text :=
  let bs := s.interpreter.globals
  if bs.isEmpty then "(no bindings)\n"
  else bs.flatMap fun (name, v) => name ++ " = " ++ v.inspect ++ "\n"

/-- What is said of an outcome: a value as output, everything else as an error. -/
def outcomeText : Interpreter.Outcome → Text × Text
  | .failed e => ([], e.message ++ "\n")
  | .rejected ds => ([], ds.flatMap fun d => d.render ++ "\n")
  | .value v => if v.isError then ([], v.inspect ++ "\n") else (v.inspect ++ "\n", [])

/-- Runs a program that was entered. -/
def run (l : Loop) (source : Text) : Response × Loop :=
  let (o, i) := l.session.interpreter.runText source
  let (out, err) := outcomeText o
  let entry := source.replaceByte (Text.byte '\n') (Text.byte ' ')
  (⟨out, err, some entry, false⟩, { l with session := { l.session with interpreter := i } })

/-- Obeys what was entered: a word after a dot, or a program. -/
def obey (l : Loop) (source : Text) : Response × Loop :=
  let word := source.trim
  if word.isEmpty then (quiet, l)
  else if word = ".exit" then ({ quiet with finished := true }, l)
  else if word = ".env" then ({ quiet with out := bindingsText l.session }, l)
  else l.run source

/-- Whether more lines are needed before the text means something. -/
def needsMore (source : Text) : Bool :=
  !source.trim.startsWith "." && Diagnostic.incomplete (Program.ofText source).diagnostics

/-- Takes what was entered at the current prompt. -/
def step (l : Loop) : Entered → Response × Loop
  | .endOfInput => (⟨"\n", [], none, true⟩, l)
  | .abort => (quiet, { l with pending := [] })
  | .line t =>
    let source := if l.pending.isEmpty then t else l.pending ++ "\n" ++ t
    if needsMore source then (quiet, { l with pending := source })
    else obey { l with pending := [] } source

end Loop

end Borealis
