-- The lock of a package: where each dependency was found, in which version,
-- and for a checkout the checksum of its files.
import Borealis.Checksum
import Borealis.Host
import Borealis.Text.Blank

namespace Borealis

/-- A dependency as it was found. -/
structure LockedPackage where
  name : Text
  version : Text
  source : Text
  path : Text
  checksum : Text
  deriving DecidableEq, Repr

/-- A lock. An entry may be missing. -/
structure Lockfile where
  path : Text
  root : Text
  generated : Text
  tool : Text
  packages : List (Option LockedPackage)
  deriving DecidableEq, Repr

namespace LockedPackage

/-- The front of the source of a package in a directory. -/
def pathSource : Text := "path:"

/-- The front of the source of a package from a repository. -/
def gitSource : Text := "git+"

/-- The package was fetched from a repository. -/
def isGit (p : LockedPackage) : Bool := p.source.startsWith gitSource

/-- The commit of a package from a repository, or nothing. -/
def commit (p : LockedPackage) : Text :=
  if p.isGit then (p.source.afterLast? (Text.byte '@')).getD [] else []

/-- The package without blanks around its fields, and with its name as packages spell it. -/
def normalized (p : LockedPackage) : LockedPackage :=
  ⟨p.name.packageName, p.version.trim, p.source.trim, p.path.trim, p.checksum.trim⟩

/-- Why a checkout is not what was locked. -/
inductive Mismatch where
  | noChecksum (name : Text)
  | changed (name path : Text)
  | unsummed (path : Text) (e : FileError)
  deriving DecidableEq, Repr

/-- The text of a mismatch. -/
def Mismatch.message : Mismatch → Text
  | noChecksum name =>
    "lockfile: checkout does not match locked checksum: " ++ name ++ " has no checksum"
  | changed name path =>
    "lockfile: checkout does not match locked checksum: " ++ name ++ " at " ++ path
  | unsummed path e => "lockfile: checksum " ++ path ++ ": " ++ e.message

/-- Compares the files of a checkout with what was locked. A package in a directory may be
edited in place. -/
def verify (h : Host) (p : LockedPackage) : Except Mismatch Unit :=
  if !p.isGit then .ok ()
  else if p.checksum.isEmpty then .error (.noChecksum p.name)
  else match Checksum.ofPath h.files h.cwd p.path with
    | .error e => .error (.unsummed p.path e)
    | .ok sum => if sum = p.checksum then .ok () else .error (.changed p.name p.path)

end LockedPackage

namespace Lockfile

/-- The name of a lock file. -/
def fileName : Text := "package.lock"

/-- A new lock for a package. -/
def new (h : Host) (root tool : Text) : Lockfile := ⟨[], root.packageName, h.now, tool.trim, []⟩

/-- An entry with this name. -/
def hasName (name : Text) : Option LockedPackage → Bool
  | some p => p.name == name
  | none => false

/-- The package of that name. -/
def find? (l : Lockfile) (name : Text) : Option LockedPackage :=
  (l.packages.find? (hasName name.packageName)).join

/-- Keeps the packages with one of the names, and tells whether any were dropped. -/
def retain (l : Lockfile) (names : List Text) : Bool × Lockfile :=
  let names := names.map Text.packageName
  let kept := l.packages.filter fun
    | some p => names.contains p.name
    | none => false
  (kept.length != l.packages.length, { l with packages := kept })

/-- Puts a package in place of the first one with its name, or at the end. -/
def putIn (p : LockedPackage) : List (Option LockedPackage) → List (Option LockedPackage)
  | [] => [some p]
  | q :: rest => if hasName p.name q then some p :: rest else q :: putIn p rest

/-- Puts a package in place of the first one with its name, or at the end. -/
def put (l : Lockfile) (p : LockedPackage) : Lockfile := { l with packages := putIn p l.packages }

/-- The packages that are there. -/
def present (l : Lockfile) : List LockedPackage := l.packages.filterMap id

/-- The order of packages by name. -/
def nameLe (a b : LockedPackage) : Bool := Text.le a.name b.name

/-- Packages by name. Those of one name keep their order. -/
def sortPackages (ps : List LockedPackage) : List LockedPackage := ps.mergeSort nameLe

/-- The lock as it is stored: without missing entries and blanks, and sorted. -/
def normalized (l : Lockfile) : Lockfile :=
  { l with
    root := l.root.packageName
    tool := l.tool.trim
    packages := (sortPackages (l.present.map LockedPackage.normalized)).map some }

end Lockfile

end Borealis
