-- The manifest of a package: its name, its scripts and its dependencies.
import Borealis.Path
import Borealis.Table
import Borealis.Text.Blank
import Borealis.Text.Quoted

namespace Borealis

/-- Where a dependency comes from: a directory, or a repository and one revision of it. -/
structure Dependency where
  path : Text
  git : Text
  rev : Text
  tag : Text
  branch : Text
  deriving DecidableEq, Repr

namespace Dependency

/-- A dependency of which nothing is said. -/
def unspecified : Dependency := ⟨[], [], [], [], []⟩

/-- The dependency is fetched from a repository. -/
def isGit (d : Dependency) : Bool := !d.git.isEmpty

/-- The revisions that are asked for. -/
def revisions (d : Dependency) : List Text := [d.rev, d.tag, d.branch].filter (!·.isEmpty)

end Dependency

/-- Settings of the read loop. -/
structure LoopSettings where
  prompt : Text
  history : Text
  maxDepth : Int64
  deriving DecidableEq, Repr

/-- A manifest. A dependency may lack a description. -/
structure Manifest where
  path : Text
  name : Text
  version : Text
  main : Text
  preludes : List Text
  dependencies : Table (Option Dependency)
  loop : LoopSettings
  deriving DecidableEq, Repr

namespace Manifest

/-- The name of a manifest file. -/
def fileName : Text := "package.yml"

/-- How the names of scripts end. -/
def scriptExtension : Text := ".au"

/-- The directory of the manifest. -/
def dir (m : Manifest) : Text := Path.dir m.path

/-- A path that is given relative to the manifest. -/
def resolve (m : Manifest) (path : Text) : Text :=
  if Path.isAbsolute path then path else Path.join [m.dir, path]

/-- The names of the dependencies, in order. -/
def dependencyNames (m : Manifest) : List Text := m.dependencies.names

/-- The description of a dependency. -/
def dependency? (m : Manifest) (name : Text) : Option Dependency :=
  (m.dependencies.get? name).getD none

/-! ## What can be wrong with a manifest -/

/-- What can be wrong with a dependency. -/
inductive DependencyIssue where
  | pathAndGit
  | noSource
  | noRevision
  | manyRevisions
  | revisionOfPath
  deriving DecidableEq, Repr

/-- The text of an issue. -/
def DependencyIssue.message : DependencyIssue → Text
  | pathAndGit => "path dependencies cannot also specify git"
  | noSource => "must specify git or path"
  | noRevision => "git dependencies require rev, tag, or branch"
  | manyRevisions => "only one of rev, tag, or branch may be given"
  | revisionOfPath => "rev, tag, and branch apply only to git dependencies"

/-- What is wrong with a dependency, in order. -/
def dependencyIssues : Option Dependency → List DependencyIssue
  | none => [.noSource]
  | some d =>
    let revisions := d.revisions.length
    (if !d.path.isEmpty && !d.git.isEmpty then [.pathAndGit] else [])
      ++ (if d.path.isEmpty && d.git.isEmpty then [.noSource] else [])
      ++ (if d.isGit && revisions == 0 then [.noRevision] else [])
      ++ (if 1 < revisions then [.manyRevisions] else [])
      ++ (if !d.isGit && 0 < revisions then [.revisionOfPath] else [])

/-- What can be wrong with a manifest. -/
inductive Issue where
  | nameless
  | mainNotScript (path : Text)
  | preludeNotScript (index : Nat) (path : Text)
  | negativeDepth
  | dependency (name : Text) (issue : DependencyIssue)
  deriving DecidableEq, Repr

/-- The text of an issue. -/
def Issue.message : Issue → Text
  | nameless => "name must be provided"
  | mainNotScript path => "main " ++ path.quoted ++ " must be a .au file"
  | preludeNotScript i path =>
    "prelude[" ++ Text.ofNat i ++ "] " ++ path.quoted ++ " must be a .au file"
  | negativeDepth => "repl.max_depth must not be negative"
  | dependency name issue => "dependencies." ++ name ++ ": " ++ issue.message

/-- The path of a script. -/
def isScript (path : Text) : Bool := Path.extension path == scriptExtension

/-- The scripts of a prelude that are none, counted from `i`. -/
def preludeIssues (i : Nat) : List Text → List Issue
  | [] => []
  | path :: rest =>
    (if isScript path then [] else [.preludeNotScript i path]) ++ preludeIssues (i + 1) rest

/-- What is wrong with a manifest, in order. -/
def issues (m : Manifest) : List Issue :=
  (if m.name.isEmpty then [.nameless] else [])
    ++ (if !m.main.isEmpty && !isScript m.main then [.mainNotScript m.main] else [])
    ++ preludeIssues 0 m.preludes
    ++ (if m.loop.maxDepth < 0 then [.negativeDepth] else [])
    ++ m.dependencies.flatMap fun (name, d) => (dependencyIssues d).map (.dependency name)

end Manifest

end Borealis
