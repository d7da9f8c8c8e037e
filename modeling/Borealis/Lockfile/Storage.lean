-- Lock files: writing and loading.
import Borealis.Lockfile
import Borealis.Manifest
import Borealis.Yaml.Decoding
import Borealis.Yaml.Writer

namespace Borealis

open Yaml (Document Decoding)

/-! ## What is written in the file -/

/-- A lock as it is written. -/
structure LockText where
  root : Text
  generated : Text
  tool : Text
  packages : List LockedPackage
  deriving DecidableEq, Repr

namespace LockText

/-- A lock in which nothing is written. -/
def blank : LockText := ⟨[], [], [], []⟩

/-- One package, as an item of a sequence. -/
def packageYaml (p : LockedPackage) : Text :=
  "  - " ++ Yaml.fieldText 4 "name" p.name
    ++ "    " ++ Yaml.fieldText 4 "version" p.version
    ++ "    " ++ Yaml.fieldText 4 "source" p.source
    ++ "    " ++ Yaml.fieldText 4 "path" p.path
    ++ "    " ++ Yaml.fieldText 4 "checksum" p.checksum

/-- The text of a lock file. -/
def toYaml (l : LockText) : Text :=
  Yaml.fieldText 0 "root" l.root ++ Yaml.fieldText 0 "generated" l.generated
    ++ Yaml.fieldText 0 "tool" l.tool
    ++ (if l.packages.isEmpty then Text.ofString "packages: []\n"
      else "packages:\n" ++ l.packages.flatMap packageYaml)

/-- A field of a package. -/
def packageField (d : Document) (name : Text) (n : Yaml.Node) :
    Option (LockedPackage → Decoding Empty LockedPackage) :=
  if name = "name" then some fun p => return { p with name := ← Decoding.text d n p.name }
  else if name = "version" then
    some fun p => return { p with version := ← Decoding.text d n p.version }
  else if name = "source" then
    some fun p => return { p with source := ← Decoding.text d n p.source }
  else if name = "path" then some fun p => return { p with path := ← Decoding.text d n p.path }
  else if name = "checksum" then
    some fun p => return { p with checksum := ← Decoding.text d n p.checksum }
  else none

/-- A field of a lock. -/
def field (d : Document) (name : Text) (n : Yaml.Node) :
    Option (LockText → Decoding Empty LockText) :=
  if name = "root" then some fun l => return { l with root := ← Decoding.text d n l.root }
  else if name = "generated" then
    some fun l => return { l with generated := ← Decoding.text d n l.generated }
  else if name = "tool" then some fun l => return { l with tool := ← Decoding.text d n l.tool }
  else if name = "packages" then some fun l => do
    let item := Decoding.recordItem d true (packageField d) ⟨[], [], [], [], []⟩
    return { l with packages := ← Decoding.items d item n }
  else none

/-- Reads the text of a lock file. -/
def ofYaml (t : Text) : Except (Yaml.Problem Empty) LockText :=
  Yaml.decode (fun d => Decoding.record d true (field d) d.root blank) t

/-- The lock with this text. -/
def toLockfile (l : LockText) (path : Text) : Lockfile :=
  Lockfile.normalized ⟨path, l.root, l.generated.trim, l.tool, l.packages.map some⟩

end LockText

/-! ## Files -/

/-- Why a lock cannot be loaded or written. -/
inductive LockfileError where
  | noPath
  | unreadable (e : FileError)
  | empty (path : Text)
  | malformed (path : Text)
  | mismatched (path : Text)
  | noLock
  | missingPath
  | unwritable (path : Text) (e : FileError)
  deriving DecidableEq, Repr

/-- The text of the error. -/
def LockfileError.message : LockfileError → Text
  | noPath => "lockfile: empty path"
  | unreadable e => e.message
  | empty path => "lockfile: parse " ++ path ++ ": EOF"
  | malformed path => "lockfile: parse " ++ path ++ ": YAML-SYNTAX"
  | mismatched path => "lockfile: parse " ++ path ++ ": YAML-TYPE"
  | noLock => "lockfile: nil lockfile"
  | missingPath => "lockfile: missing path"
  | unwritable path e => "lockfile: write " ++ path ++ ": " ++ e.message

/-- Whether the lock file is missing. -/
def LockfileError.isNotFound : LockfileError → Bool
  | unreadable e => e.isNotFound
  | unwritable _ e => e.isNotFound
  | _ => false

/-- A file that cannot be read counts as malformed once it is open. -/
def LockfileError.ofFile (path : Text) (e : FileError) : LockfileError :=
  match e.action with
  | .reading => .malformed path
  | _ => .unreadable e

/-- Why the text of a file is no lock. -/
def LockfileError.ofProblem (path : Text) : Yaml.Problem Empty → LockfileError
  | .empty => .empty path
  | .malformed => .malformed path
  | .mismatched => .mismatched path

namespace Lockfile

/-- The lock file that belongs to a manifest. -/
def pathFor (m : Manifest) : Text := Path.join [m.dir, fileName]

/-- The lock as it is written. -/
def toText (l : Lockfile) : LockText := ⟨l.root, l.generated, l.tool, l.present⟩

/-- Loads the lock at a path. -/
def load (h : Host) (path : Text) : Except LockfileError Lockfile :=
  if path.isEmpty then .error .noPath
  else
    let path := h.absolute path
    match h.read path with
    | .error e => .error (.ofFile path e)
    | .ok t =>
      match LockText.ofYaml t with
      | .error p => .error (.ofProblem path p)
      | .ok l => .ok (l.toLockfile path)

/-- The lock as it is after it was written to a path: with a time, and normalized. -/
def stamped (h : Host) (l : Lockfile) (path : Text) : Lockfile :=
  { l with
    generated := if l.generated.isEmpty then h.now else l.generated
    path := h.absolute path }.normalized

/-- Writes a lock to a path, or to its own if none is given. The lock that comes back is the
one that was written, also if the file could not be. -/
def write (h : Host) (l : Lockfile) (path : Text) : Except LockfileError Host × Lockfile :=
  let path := if path.isEmpty then l.path else path
  if path.isEmpty then (.error .missingPath, l)
  else
    let l := l.stamped h path
    match h.write l.path l.toText.toYaml with
    | .ok h => (.ok h, l)
    | .error e => (.error (.unwritable l.path e), l)

end Lockfile

end Borealis
