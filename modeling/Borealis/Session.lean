-- A session: one interpreter that runs the preludes of the dependencies, the
-- prelude of the package, and scripts, all in its global scope.
import Borealis.Interpreter
import Borealis.Lockfile.Storage
import Borealis.Manifest.Reader

namespace Borealis

/-- An interpreter with the package that it works for, if there is one. -/
structure Session where
  interpreter : Interpreter
  manifest : Option Manifest
  lock : Option Lockfile

/-- Why a session could not do something. -/
inductive SessionError where
  | unreadable (path : Text) (e : FileError)
  | rejected (path : Text) (ds : List Diagnostic)
  | failed (path : Text) (e : Failure)
  /-- A script ended with an error value. -/
  | scriptError (path : Text) (fault : Fault)
  | notLocked (name : Text)
  | unverified (name : Text) (e : LockedPackage.Mismatch)
  | badDependency (name : Text) (e : ManifestError)
  | noEntry

/-- A diagnostic of a file. -/
def Diagnostic.inFile (path : Text) (d : Diagnostic) : Text :=
  if d.pos.isUnset then path ++ ": " ++ d.message else path ++ ":" ++ d.render

/-- The text of the error. -/
def SessionError.message : SessionError → Text
  | unreadable path e => "loader: read " ++ path ++ ": " ++ e.message
  | rejected path ds => Text.join "\n" (ds.map (Diagnostic.inFile path))
  | failed path e => path ++ ": " ++ e.message
  | scriptError path fault => path ++ ": ERROR: " ++ fault.message
  | notLocked name =>
    "loader: dependency " ++ name.quoted ++ " is not locked; run \x60aurora deps install\x60"
  | unverified name e =>
    "loader: dependency " ++ name.quoted ++ ": " ++ e.message
      ++ "; run \x60aurora deps install\x60"
  | badDependency name e => "loader: dependency " ++ name.quoted ++ ": " ++ e.message
  | noEntry => "loader: no entry script; pass a file or set main in package.yml"

namespace Session

/-- A session for a package, with the call depth that its manifest sets. -/
def new (manifest : Option Manifest) (lock : Option Lockfile) : Session :=
  ⟨Interpreter.new (manifest.elim 0 fun m => m.loop.maxDepth.toInt), manifest, lock⟩

/-- Reads the program in a file. -/
def parseFile (h : Host) (path : Text) : Except SessionError Program :=
  match h.read path with
  | .error e => .error (.unreadable path e)
  | .ok t =>
    let r := Program.ofTokens (lex t)
    if r.diagnostics.isEmpty then .ok r.program else .error (.rejected path r.diagnostics)

/-- Runs the program in a file. -/
def runFile (h : Host) (s : Session) (path : Text) : Except SessionError Value × Session :=
  match parseFile h path with
  | .error e => (.error e, s)
  | .ok p =>
    let (result, i) := s.interpreter.runProgram p
    let s := { s with interpreter := i }
    match result with
    | .error e => (.error (.failed path e), s)
    | .ok (.error fault) => (.error (.scriptError path fault), s)
    | .ok v => (.ok v, s)

/-- The scripts of a manifest's prelude. -/
def preludeOf (m : Manifest) : List Text := m.preludes.map m.resolve

/-- The prelude of a dependency, which has to be locked and unchanged. -/
def dependencyPrelude (h : Host) (lock : Option Lockfile) (name : Text) :
    Except SessionError (List Text) :=
  match lock.bind (·.find? name) with
  | none => .error (.notLocked name)
  | some p =>
    match p.verify h with
    | .error e => .error (.unverified name e)
    | .ok () =>
      match Manifest.load h (Path.join [p.path, Manifest.fileName]) with
      | .error e => .error (.badDependency name e)
      | .ok m => .ok (preludeOf m)

/-- The preludes of dependencies, one after the other. -/
def dependencyPreludes (h : Host) (lock : Option Lockfile) :
    List Text → Except SessionError (List Text)
  | [] => .ok []
  | name :: rest => do
    let files ← dependencyPrelude h lock name
    let more ← dependencyPreludes h lock rest
    return files ++ more

/-- All scripts that run before the entry, in order. -/
def preludeFiles (h : Host) (s : Session) : Except SessionError (List Text) :=
  match s.manifest with
  | none => .ok []
  | some m => do
    let files ← dependencyPreludes h s.lock m.dependencyNames
    return files ++ preludeOf m

/-- Runs files one after the other, up to the first error. -/
def runFiles (h : Host) : List Text → Session → Except SessionError Unit × Session
  | [], s => (.ok (), s)
  | path :: rest, s =>
    match s.runFile h path with
    | (.error e, s) => (.error e, s)
    | (.ok _, s) => runFiles h rest s

/-- Runs all preludes. -/
def loadPreludes (h : Host) (s : Session) : Except SessionError Unit × Session :=
  match s.preludeFiles h with
  | .error e => (.error e, s)
  | .ok files => runFiles h files s

/-- The script that the manifest names as its main one. -/
def entryPath (s : Session) : Except SessionError Text :=
  match s.manifest with
  | some m => if m.main.isEmpty then .error .noEntry else .ok (m.resolve m.main)
  | none => .error .noEntry

end Session

end Borealis
