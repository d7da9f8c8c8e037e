-- Revisions of a repository: what a dependency asks for, and how the version
-- that was found is written.
import Borealis.Lockfile
import Borealis.Manifest

namespace Borealis

/-- A revision: the name that a repository knows it by, other names to try, and the words of
the manifest. -/
structure Revision where
  name : Text
  fallbacks : List Text
  descriptor : Text
  deriving DecidableEq, Repr

namespace Dependency

/-- The revision that a dependency asks for. A commit goes before a tag, a tag before a
branch. -/
def revision? (d : Dependency) : Option Revision :=
  if !d.rev.trim.isEmpty then some ⟨d.rev.trim, [], d.rev.trim⟩
  else if !d.tag.trim.isEmpty then some ⟨"refs/tags/" ++ d.tag.trim, [], d.tag.trim⟩
  else if !d.branch.trim.isEmpty then
    some ⟨"refs/remotes/origin/" ++ d.branch.trim, ["refs/heads/" ++ d.branch], d.branch.trim⟩
  else none

/-- The dependency at one commit. -/
def pinned (d : Dependency) (commit : Text) : Dependency :=
  { d with rev := commit, tag := [], branch := [] }

end Dependency

namespace Revision

/-- What is said if a dependency asks for no revision. -/
def missingMessage : Text := "git dependencies require rev, tag, or branch"

/-- The version of a commit that was found for a descriptor: both, or one of them if the other
says nothing new. -/
def version (descriptor commit : Text) : Text :=
  let commit := commit.trim
  let descriptor := descriptor.trim
  if commit.isEmpty then descriptor
  else if descriptor.isEmpty || descriptor == commit then commit
  else descriptor ++ "@" ++ commit

/-- A character that may stand in the name of a directory for a version. -/
def isSegmentRune : Rune → Bool
  | .char c => c.isAlphanum || c == '.' || c == '-' || c == '_'
  | .bad _ => false

/-- A version as the name of a directory. -/
def segment (version : Text) : Text :=
  let t := version.trim
  if t.isEmpty then "head"
  else t.runes.flatMap fun r => if isSegmentRune r then r.bytes else [Text.byte '_']

end Revision

namespace LockedPackage

/-- Whether a package was fetched for what a dependency asks for. -/
def isFor (p : LockedPackage) (d : Dependency) : Bool :=
  p.source.startsWith (gitSource ++ d.git ++ "@")
    && match d.revision? with
      | none => false
      | some r => p.version == r.descriptor || p.version.startsWith (r.descriptor ++ "@")

end LockedPackage

end Borealis
