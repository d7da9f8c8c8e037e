-- A file system held as a value: what stands at each place. Operations take
-- a path as it is written and fail as an operating system does, with the
-- action, the path and the cause.
import Borealis.Path

namespace Borealis

/-- What stands at a place. -/
inductive Entry where
  | file (content : Text)
  | dir
  deriving DecidableEq, Repr

/-- The entries below the root, which is always a directory. -/
structure FileTree where
  entries : List (Place × Entry)
  deriving Repr

/-- What was to be done with a path. -/
inductive FileAction where
  | opening
  | reading
  | inspecting
  | inspectingLink
  | making
  | removing
  deriving DecidableEq, Repr

/-- Why it could not be done. -/
inductive FileCause where
  | notFound
  | notDirectory
  | isDirectory
  | nameTooLong
  | invalid
  deriving DecidableEq, Repr

/-- An action on a path that failed. -/
structure FileError where
  action : FileAction
  path : Text
  cause : FileCause
  deriving DecidableEq, Repr

/-- The word for an action. -/
def FileAction.word : FileAction → Text
  | .opening => "open"
  | .reading => "read"
  | .inspecting => "stat"
  | .inspectingLink => "lstat"
  | .making => "mkdir"
  | .removing => "RemoveAll"

/-- The words for a cause. -/
def FileCause.words : FileCause → Text
  | .notFound => "no such file or directory"
  | .notDirectory => "not a directory"
  | .isDirectory => "is a directory"
  | .nameTooLong => "file name too long"
  | .invalid => "invalid argument"

/-- The text of the error. -/
def FileError.message (e : FileError) : Text :=
  e.action.word ++ " " ++ e.path ++ ": " ++ e.cause.words

/-- Whether the file or directory is missing. -/
def FileError.isNotFound (e : FileError) : Bool := e.cause = .notFound

namespace FileTree

/-- A tree with the root alone. -/
def empty : FileTree := ⟨[]⟩

/-! ## Places -/

/-- What stands at a place. -/
def get? (t : FileTree) (p : Place) : Option Entry :=
  if p = [] then some .dir else t.entries.lookup p

/-- Puts an entry at a place, in place of what stood there. -/
def put (t : FileTree) (p : Place) (e : Entry) : FileTree :=
  ⟨(p, e) :: t.entries.filter (·.1 ≠ p)⟩

/-- Takes away a place and everything below it. -/
def remove (t : FileTree) (p : Place) : FileTree :=
  ⟨t.entries.filter fun e => !p.isPrefixOf e.1⟩

/-- A directory stands at the place. -/
def isDir (t : FileTree) (p : Place) : Bool := t.get? p == some .dir

/-- Makes the directories below `above` that the names lead to, where nothing stands yet. -/
def makeDirsFrom (t : FileTree) (above : Place) : List Text → FileTree
  | [] => t
  | name :: rest =>
    let q := above ++ [name]
    (if (t.get? q).isSome then t else t.put q .dir).makeDirsFrom q rest

/-- Makes the directories at the place and above it, where nothing stands yet. -/
def makeDirs (t : FileTree) (p : Place) : FileTree := t.makeDirsFrom [] p

/-- The order of places: name by name, a directory before what it holds. -/
def placeLe (a b : Place) : Bool := decide (a ≤ b)

/-- The files below a place with the names that lead there from it, in the order of a walk. -/
def filesBelow (t : FileTree) (p : Place) : List (Place × Text) :=
  let below := t.entries.filterMap fun
    | (q, .file content) => if p.isPrefixOf q then some (q.drop p.length, content) else none
    | (_, .dir) => none
  below.mergeSort fun a b => placeLe a.1 b.1

/-! ## Paths -/

/-- The longest name that an entry can have. -/
def maxName : Nat := 255

/-- The longest path that is looked at. -/
def maxPath : Nat := 4095

/-- Goes from place to place along names. Each step leaves a directory. -/
def follow (t : FileTree) : Place → List Text → Except FileCause Place
  | p, [] => .ok p
  | p, name :: rest =>
    match t.get? p with
    | none => .error .notFound
    | some (.file _) => .error .notDirectory
    | some .dir =>
      if name = [] ∨ name = "." then t.follow p rest
      else if name = ".." then t.follow p.dropLast rest
      else if maxName < name.length then .error .nameTooLong
      else t.follow (p ++ [name]) rest

/-- The place that a path leads to. Only the last name need not exist. -/
def locate (t : FileTree) (cwd : Text) (path : Text) : Except FileCause Place :=
  if path.contains 0 then .error .invalid
  else if path = [] then .error .notFound
  else if maxPath < path.length then .error .nameTooLong
  else if Path.isAbsolute path then t.follow [] (path.split Path.slash)
  else t.follow (Path.place cwd) (path.split Path.slash)

/-- What stands where a path leads. -/
def find (t : FileTree) (cwd : Text) (path : Text) : Except FileCause (Place × Entry) :=
  match t.locate cwd path with
  | .error c => .error c
  | .ok p =>
    match t.get? p with
    | none => .error .notFound
    | some e => .ok (p, e)

/-- What stands where a path leads, or the error of looking there. -/
def inspect (t : FileTree) (action : FileAction) (cwd : Text) (path : Text) :
    Except FileError (Place × Entry) :=
  match t.find cwd path with
  | .error c => .error ⟨action, path, c⟩
  | .ok found => .ok found

/-- The content of a file. -/
def read (t : FileTree) (cwd : Text) (path : Text) : Except FileError Text :=
  match t.inspect .opening cwd path with
  | .error e => .error e
  | .ok (_, .dir) => .error ⟨.reading, path, .isDirectory⟩
  | .ok (_, .file content) => .ok content

/-- Writes a file, whether it exists or not. Its directory has to exist. -/
def write (t : FileTree) (cwd : Text) (path : Text) (content : Text) :
    Except FileError FileTree :=
  match t.locate cwd path with
  | .error c => .error ⟨.opening, path, c⟩
  | .ok p =>
    match t.get? p, t.get? p.dropLast with
    | some .dir, _ => .error ⟨.opening, path, .isDirectory⟩
    | some (.file _), _ => .ok (t.put p (.file content))
    | none, some .dir => .ok (t.put p (.file content))
    | none, some (.file _) => .error ⟨.opening, path, .notDirectory⟩
    | none, none => .error ⟨.opening, path, .notFound⟩

/-- The path without its last name and the slashes before it, as far as one is left. -/
def parentPath (path : Text) : Text :=
  let r := path.reverse.dropWhile (· == Path.slash)
  let r := r.dropWhile (· != Path.slash)
  (r.drop 1).reverse

/-- Makes a directory and the directories above it. A file on the way is in the way. -/
def makeDirsAt (t : FileTree) (cwd : Text) (path : Text) : Except FileError FileTree :=
  go (path.length + 1) path
where
  /-- Each round shortens the path, so its length bounds the rounds. -/
  go : Nat → Text → Except FileError FileTree
    | 0, _ => .ok t
    | rounds + 1, path =>
      match t.find cwd path with
      | .ok (_, .dir) => .ok t
      | .ok (_, .file _) => .error ⟨.making, path, .notDirectory⟩
      | .error _ =>
        match if (parentPath path).isEmpty then .ok t else go rounds (parentPath path) with
        | .error e => .error e
        | .ok t =>
          match t.locate cwd path with
          | .error c => .error ⟨.making, path, c⟩
          | .ok p => .ok (t.makeDirs p)

/-- A path whose last name is a dot. -/
def endsInDot (path : Text) : Bool := path == "." || path.endsWith "/."

/-- Removes what stands where a path leads, with everything below it. It is no error if
nothing stands there. -/
def removeAt (t : FileTree) (cwd : Text) (path : Text) : Except FileError FileTree :=
  if path = [] then .ok t
  else if endsInDot path then .error ⟨.removing, path, .invalid⟩
  else match t.find cwd path with
    | .ok (p, _) => .ok (t.remove p)
    | .error _ => .ok t

end FileTree

end Borealis
