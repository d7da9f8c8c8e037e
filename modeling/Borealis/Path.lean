-- Paths as they are written: names between slashes. Everything here works on
-- the spelling of a path and never looks at a file.
import Borealis.Text

namespace Borealis

/-- The names from the root down to a file or directory. -/
abbrev Place := List Text

namespace Path

/-- The byte between the names of a path. -/
def slash : UInt8 := Text.byte '/'

/-- A path that starts at the root. -/
def isAbsolute (p : Text) : Bool := p.head? == some slash

/-- Adds a name to those passed so far, the last one first. A name of two dots takes back
the name before it; at the root there is nothing to take back, and elsewhere it stays. -/
def pass (rooted : Bool) (passed : List Text) (name : Text) : List Text :=
  if name = [] ∨ name = "." then passed
  else if name = ".." then
    match passed with
    | [] => if rooted then [] else [".."]
    | last :: rest => if last = ".." then ".." :: last :: rest else rest
  else name :: passed

/-- The names of a path, without empty ones and single dots, and with double dots worked out. -/
def names (p : Text) : List Text :=
  ((p.split slash).foldl (pass (isAbsolute p)) []).reverse

/-- The shortest spelling of a path. -/
def clean (p : Text) : Text :=
  if isAbsolute p then slash :: Text.join "/" (names p)
  else if (names p).isEmpty then "." else Text.join "/" (names p)

/-- The path of a place. -/
def ofPlace (p : Place) : Text := slash :: Text.join "/" p

/-- The place that an absolute path names. -/
def place (p : Text) : Place := names p

/-- One path below another. Empty parts in front count for nothing. -/
def join : List Text → Text
  | [] => []
  | p :: rest => if p.isEmpty then join rest else clean (Text.join "/" (p :: rest))

/-- The path seen from the root, where `cwd` is the working directory. -/
def absolute (cwd p : Text) : Text := if isAbsolute p then clean p else join [cwd, p]

/-- The path without its last name. -/
def dir (p : Text) : Text := clean ((p.reverse.dropWhile (· != slash)).reverse)

/-- What follows the last slash. -/
def lastPart (p : Text) : Text := (p.reverse.takeWhile (· != slash)).reverse

/-- The last name of a path, where slashes at the end count for nothing. -/
def base (p : Text) : Text :=
  match (p.reverse.dropWhile (· == slash)).reverse with
  | [] => if p.isEmpty then [] else [slash]
  | q => lastPart q

/-- The last name from its last dot on, or nothing if it has no dot. -/
def extension (p : Text) : Text :=
  match (lastPart p).afterLast? (Text.byte '.') with
  | some e => Text.byte '.' :: e
  | none => []

/-- Two lists without the names that both start with. -/
def dropShared : List Text → List Text → List Text × List Text
  | a :: as, b :: bs => if a = b then dropShared as bs else (a :: as, b :: bs)
  | as, bs => (as, bs)

/-- The names of a clean path as a way from some other path is found. Where a path leads
nowhere, its one name is a dot. -/
def steps (p : Text) : List Text := if p = "." then ["."] else names p

/-- The way from one path to another. There is none between a path from the root and
one from elsewhere, nor out of directories whose names are not known. -/
def relative? (start target : Text) : Option Text :=
  if clean start = clean target then some "."
  else if isAbsolute start != isAbsolute target then none
  else
    match dropShared (names start) (steps (clean target)) with
    | (up, down) =>
      if up.head? = some ".." then none
      else some (Text.join "/" (up.map (fun _ => Text.ofString "..") ++ down))

end Path

end Borealis
