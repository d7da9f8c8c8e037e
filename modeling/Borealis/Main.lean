-- The program. It brings the files that a command may look at into a tree,
-- runs the command on it, and puts back what has changed. The read loop takes
-- its lines one by one.
import Borealis.Command
import Borealis.Stamp
import Std.Time.DateTime.Timestamp

namespace Borealis.Outside

/-! ## Bytes -/

/-- A text for a call to the system. -/
def ofText (t : Text) : String := t.toString?.getD ""

/-- The text of some bytes. -/
def toText (b : ByteArray) : Text := b.toList

/-- Prints a text. -/
def put (s : IO.FS.Stream) (t : Text) : IO Unit := do
  s.write (ByteArray.mk t.toArray)
  s.flush

/-! ## Files -/

/-- What stands at a path. -/
def entryAt (path : Text) : IO (Option Entry) := do
  try
    let p ← IO.FS.realPath (ofText path)
    if ← p.isDir then return some .dir
    return some (.file (toText (← IO.FS.readBinFile p)))
  catch _ => return none

/-- Brings a path and the directories above it into a tree. -/
def bring (t : FileTree) (path : Text) : IO FileTree := do
  let place := Path.place path
  let mut t := t
  for i in [0:place.length + 1] do
    let p := place.take i
    if (t.get? p).isNone then
      if let some e ← entryAt (Path.ofPlace p) then t := t.put p e
  return t

/-- Brings a path and all that is below it into a tree. -/
partial def bringAll (t : FileTree) (path : Text) : IO FileTree := do
  let mut t ← bring t path
  if t.isDir (Path.place path) then
    for e in ← (← IO.FS.realPath (ofText path)).readDir do
      t ← bringAll t (Path.join [path, Text.ofString e.fileName])
  return t

/-- Brings paths into the tree of a machine. -/
def bringPaths (h : Host) (paths : List Text) : IO Host := do
  let mut t := h.files
  for p in paths do
    t ← bring t (h.absolute p)
  return { h with files := t }

/-- A directory and those above it. -/
def upwards (path : Text) : List Text :=
  let place := Path.place path
  (List.range (place.length + 1)).map fun i => Path.ofPlace (place.take i)

/-- The files that a manifest names, next to its own. -/
def namedFiles (m : Manifest) : List Text :=
  let more := [m.main, m.loop.history].filter (!·.isEmpty)
  Lockfile.pathFor m :: (m.preludes ++ more).map m.resolve

/-- Brings what the package at a path needs: its files, its dependencies, and what is locked. -/
def bringPackage (h : Host) (start : Text) : IO Host := do
  match Manifest.loadFor h start with
  | .error _ => return h
  | .ok m =>
    let mut h ← bringPaths h (namedFiles m)
    for (_, d) in m.dependencies do
      let dir := d.elim m.dir fun d => m.resolve d.path
      let path := Path.join [dir, Manifest.fileName]
      h ← bringPaths h [path]
      if let .ok m := Manifest.load h path then h ← bringPaths h (namedFiles m)
    if let .ok l := Lockfile.load h (Lockfile.pathFor m) then
      for p in l.present do
        if p.isGit then
          h := { h with files := ← bringAll h.files (h.absolute p.path) }
        let path := Path.join [p.path, Manifest.fileName]
        h ← bringPaths h [path]
        if let .ok m := Manifest.load h path then h ← bringPaths h (namedFiles m)
    for name in m.dependencyNames do
      h ← bringPaths h [Path.join [Project.cacheDir h, "pkg", "src", name]]
    return h

/-- The machine as a command with these arguments sees it. -/
def look (arguments : List Text) : IO Host := do
  let cwd := Text.ofString (← IO.currentDir).toString
  let env (name : String) : IO Text := return Text.ofString ((← IO.getEnv name).getD "")
  let seconds := (← Std.Time.Timestamp.now).toSecondsSinceUnixEpoch.val
  let mut h : Host :=
    ⟨FileTree.empty, cwd, ← env "HOME", ← env "AURORA_HOME", Stamp.ofSeconds seconds.toNat⟩
  let starts := Text.ofString "." :: arguments
  for s in starts do
    let around := upwards (h.absolute s)
    h ← bringPaths h (s :: around ++ around.map fun d => Path.join [d, Manifest.fileName])
  for s in starts do
    h ← bringPackage h s
  bringPaths h [Path.join [Project.cacheDir h, "history"]]

/-- Puts what a command has changed back to the disk. -/
def putBack (before after : FileTree) : IO Unit := do
  for (p, e) in before.entries do
    if (after.get? p).isNone then
      let path := ofText (Path.ofPlace p)
      try
        match e with
        | .dir => IO.FS.removeDirAll path
        | .file _ => IO.FS.removeFile path
      catch _ => pure ()
  let new := after.entries.filter fun (p, e) => before.get? p ≠ some e
  for (p, e) in new do
    if e = .dir then IO.FS.createDirAll (ofText (Path.ofPlace p))
  for (p, e) in new do
    if let .file content := e then
      IO.FS.writeBinFile (ofText (Path.ofPlace p)) (ByteArray.mk content.toArray)

/-! ## Commands -/

/-- Repositories cannot be reached. -/
def noRepository : Repository := fun url _ => .error ("git clone " ++ url ++ ": not supported")

/-- Talks at the terminal until the loop is over. -/
partial def talk (v : Conversation) (input : Text) : IO Conversation := do
  let prompt := v.loop.currentPrompt
  let mut entered := Entered.endOfInput
  let mut input := input
  if Conversation.isShowable prompt then
    put (← IO.getStdout) prompt
    if input.isEmpty then input := Text.ofString (← (← IO.getStdin).getLine)
    if let some line := Lines.next? input then
      entered := .line line.content
      input := line.rest
  let (r, v) := v.step entered
  put (← IO.getStdout) r.out
  put (← IO.getStderr) r.err
  if r.finished then return v else talk v input

/-- Ends a command: prints what is left to print and puts the files back. -/
def conclude (before : Host) (ending : Ending) : IO UInt32 := do
  let (code, c) := ending
  put (← IO.getStdout) c.out
  put (← IO.getStderr) c.err
  putBack before.files c.host.files
  return code.toUInt32

/-- Runs the read loop. -/
def converse (arguments : List Text) (h : Host) : IO UInt32 := do
  match Command.openLoop arguments (Console.new h []) with
  | .error ending => conclude h ending
  | .ok (v, c) =>
    let v ← talk v []
    conclude h (0, c.withHost (v.finish c.host))

/-- Runs a command. -/
def run (arguments : List Text) : IO UInt32 := do
  let h ← look arguments
  match arguments with
  | [] => converse [] h
  | word :: more =>
    if word = Text.ofString "repl" then converse more h
    else conclude h (Command.run noRepository arguments (Console.new h []))

end Borealis.Outside

/-- Runs the command that the arguments name. -/
def main (arguments : List String) : IO UInt32 :=
  Borealis.Outside.run (arguments.map Borealis.Text.ofString)
