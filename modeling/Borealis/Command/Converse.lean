-- The read loop at a console, with a history that outlives it.
import Borealis.Console
import Borealis.Flags
import Borealis.Loop
import Borealis.Loop.History
import Borealis.Project
import Borealis.Text.Printable

namespace Borealis

/-- A read loop, its history, and the file that the history is kept in, if any. -/
structure Conversation where
  loop : Loop
  history : History
  historyPath : Option Text

namespace Conversation

/-- Whether a prompt can be shown. One with control characters cannot. -/
def isShowable (prompt : Text) : Bool := prompt.runes.all fun r => !isControlCode r.code

/-- Takes what was entered at the current prompt. -/
def step (v : Conversation) (e : Entered) : Response × Conversation :=
  let (r, l) := v.loop.step e
  (r, { v with loop := l, history := r.history.elim v.history v.history.add })

/-- Loads the history of a package for a loop. -/
def start (h : Host) (s : Session) (m : Option Manifest) : Conversation × Host :=
  let (path, h) := Project.historyPath h m
  let history := match path.map h.read with
    | some (.ok t) => History.ofText t
    | _ => []
  (⟨Loop.new s, history, path⟩, h)

/-- Saves the history. That it cannot be saved is no error. -/
def finish (v : Conversation) (h : Host) : Host :=
  match v.historyPath.map fun path => h.write path v.history.toText with
  | some (.ok h) => h
  | _ => h

/-- What is entered next at a console, after the prompt was printed. -/
def ask (v : Conversation) (c : Console) : Entered × Console :=
  let prompt := v.loop.currentPrompt
  if !isShowable prompt then (.endOfInput, c)
  else
    let c := c.print prompt
    match Lines.next? c.input with
    | none => (.endOfInput, c)
    | some line => (.line line.content, { c with input := line.rest })

/-- Talks until the loop is over. Every line takes at least one byte of the input, so that one
more turn than bytes is enough. -/
def talk : (turns : Nat) → Conversation → Console → Conversation × Console
  | 0, v, c => (v, c)
  | n + 1, v, c =>
    let (e, c) := v.ask c
    let (r, v) := v.step e
    let c := (c.print r.out).printError r.err
    if r.finished then (v, c) else talk n v c

end Conversation

namespace Command

/-- The flags of the read loop. -/
def loopFlags : FlagSet :=
  ⟨"repl", [
    ⟨"max-depth", .number, "maximum call depth (0 uses the manifest or built-in default)"⟩,
    ⟨"no-prelude", .switch, "skip prelude scripts from package.yml"⟩]⟩

/-- Sets the limit on active calls in a manifest, unless it is below 1. -/
def withDepth (depth : Int64) (m : Manifest) : Manifest :=
  if 0 < depth then { m with loop := { m.loop with maxDepth := depth } } else m

/-- Starts a conversation as the arguments say. If that fails, the command ends. -/
def openLoop (arguments : List Text) (c : Console) : Except Ending (Conversation × Console) :=
  match loopFlags.read arguments with
  | .error e => .error (2, c.printError (loopFlags.problem e))
  | .ok a =>
    let depth := a.number "max-depth"
    match Manifest.loadFor c.host "." with
    | .error (.bad e) => .error (1, c.complain ("failed to load manifest: " ++ e.message))
    | found =>
      let m := found.toOption.map (withDepth depth)
      match Project.startSession c.host m (a.isOn "no-prelude") with
      | .error e => .error (1, c.complain e.message)
      | .ok s =>
        let s := if m.isNone && 0 < depth then { s with interpreter := .new depth.toInt } else s
        let (v, h) := Conversation.start c.host s m
        .ok (v, c.withHost h)

/-- Runs the read loop on the input of a console. -/
def converse (arguments : List Text) (c : Console) : Ending :=
  match openLoop arguments c with
  | .error ending => ending
  | .ok (v, c) =>
    let (v, c) := v.talk (c.input.length + 1) c
    (0, c.withHost (v.finish c.host))

end Command

end Borealis
