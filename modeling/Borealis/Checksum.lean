-- The checksum of a directory: a digest of the names and contents of its
-- files, in the order of a walk.
import Borealis.FileTree
import Borealis.Sha256

namespace Borealis.Checksum

/-- The name of the scheme, in front of a checksum. -/
def scheme : Text := "sha256:"

/-- Directories of this name hold the history of a checkout and do not count. -/
def historyName : Text := ".git"

/-- A file counts unless it lies below a directory that does not. -/
def counts (names : Place) : Bool := !names.dropLast.contains historyName

/-- What is digested: each name followed by the content, with nothing between. -/
def digested (files : List (Place × Text)) : Text :=
  files.flatMap fun (names, content) => Text.join "/" names ++ content

/-- The files that count below a place. -/
def filesOf (t : FileTree) (p : Place) : List (Place × Text) :=
  (t.filesBelow p).filter fun f => counts f.1

/-- The checksum of bytes. -/
def ofBytes (bytes : Text) : Text := scheme ++ (Sha256.digest bytes).hex

/-- The checksum of what a path leads to. A file counts as itself, under the name of a dot. -/
def ofPath (t : FileTree) (cwd path : Text) : Except FileError Text :=
  match t.inspect .inspectingLink cwd path with
  | .error e => .error e
  | .ok (_, .file content) => .ok (ofBytes (digested [(["."], content)]))
  | .ok (p, .dir) =>
    if Path.base path = historyName then .ok (ofBytes [])
    else .ok (ofBytes (digested (filesOf t p)))

end Borealis.Checksum
