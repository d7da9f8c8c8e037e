-- What a program sees of the machine that it runs on.
import Borealis.FileTree

namespace Borealis

/-- The files, the working directory, the home of the user, the directory that is set for
caches and history or nothing, and the time. -/
structure Host where
  files : FileTree
  cwd : Text
  userHome : Text
  cacheHome : Text
  now : Text

namespace Host

/-- The path from the root. -/
def absolute (h : Host) (path : Text) : Text := Path.absolute h.cwd path

/-- The content of a file. -/
def read (h : Host) (path : Text) : Except FileError Text := h.files.read h.cwd path

/-- Writes a file. -/
def write (h : Host) (path content : Text) : Except FileError Host :=
  match h.files.write h.cwd path content with
  | .ok files => .ok { h with files := files }
  | .error e => .error e

/-- What stands where a path leads. -/
def inspect (h : Host) (path : Text) : Except FileError (Place × Entry) :=
  h.files.inspect .inspecting h.cwd path

/-- Whether a path leads to a file. -/
def isFile (h : Host) (path : Text) : Bool :=
  match h.inspect path with
  | .ok (_, .file _) => true
  | _ => false

end Host

end Borealis
