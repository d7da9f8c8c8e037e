-- Reading a manifest file.
import Borealis.Host
import Borealis.Manifest
import Borealis.Yaml.Decoding

namespace Borealis

open Yaml (Document Decoding)

/-! ## What is written in the file -/

/-- A manifest as it is written. Of two dependencies with one name the later counts. -/
structure ManifestText where
  name : Text
  version : Text
  main : Text
  preludes : List Text
  dependencies : Table (Option Dependency)
  loop : LoopSettings
  deriving DecidableEq, Repr

/-- Why a dependency cannot be read. -/
inductive DependencyRefusal where
  | wrongKind (found : Yaml.Tag)
  | malformed
  | mismatched
  deriving DecidableEq, Repr

/-- Why a manifest cannot be read, other than that it is no YAML or does not fit. -/
inductive ManifestRefusal where
  | notList (found : Yaml.Tag)
  | dependenciesNotMapping
  | namelessDependency
  | dependency (name : Text) (why : DependencyRefusal)
  deriving DecidableEq, Repr

/-- The text of a refusal. -/
def DependencyRefusal.message : DependencyRefusal → Text
  | wrongKind found => "expected string or mapping, found " ++ found.name
  | malformed => "YAML-SYNTAX"
  | mismatched => "YAML-TYPE"

/-- The text of a refusal. -/
def ManifestRefusal.message : ManifestRefusal → Text
  | notList found => "manifest: expected string or sequence for list but found " ++ found.name
  | dependenciesNotMapping => "manifest: dependencies must be a mapping"
  | namelessDependency => "manifest: dependency names must be non-empty"
  | dependency name why => "manifest: dependency " ++ name.quoted ++ ": " ++ why.message

namespace ManifestText

/-- A manifest in which nothing is written. -/
def blank : ManifestText := ⟨[], [], [], [], [], ⟨[], [], 0⟩⟩

/-! ## Fields -/

/-- The texts of a list, without blanks around them and without blank ones. The list stops at
an item that does not fit. -/
def listItems (d : Document) : List Yaml.Node → Decoding ManifestRefusal (Option (List Text))
  | [] => return some []
  | n :: rest => do
    match ← Decoding.isolated (Decoding.text d n []) with
    | none => return none
    | some t => do
      match ← listItems d rest with
      | none => return none
      | some ts => return some (if t.trim.isEmpty then ts else t.trim :: ts)

/-- A list of texts: a sequence, or one text alone. -/
def listOf (d : Document) (n : Yaml.Node) (before : List Text) :
    Decoding ManifestRefusal (List Text) := do
  match n with
  | .scalar _ value => return if value.trim.isEmpty then [] else [value.trim]
  | .sequence _ ns => return (← listItems d ns).getD before
  | other => Decoding.refuse (.notList other.tag)

/-- Reads a list of texts. What is tagged as null can only be a sequence, and every item of it
is looked at. -/
def list (d : Document) (n : Yaml.Node) (before : List Text) :
    Decoding ManifestRefusal (List Text) :=
  Decoding.visit d n fun n =>
    if n.tag = .null then Decoding.itemsOf (Decoding.text? d) n else listOf d n before

/-- A field of a dependency. -/
def dependencyField (d : Document) (name : Text) (n : Yaml.Node) :
    Option (Dependency → Decoding ManifestRefusal Dependency) :=
  if name = "path" then some fun s => return { s with path := ← Decoding.text d n s.path }
  else if name = "git" then some fun s => return { s with git := ← Decoding.text d n s.git }
  else if name = "rev" then some fun s => return { s with rev := ← Decoding.text d n s.rev }
  else if name = "tag" then some fun s => return { s with tag := ← Decoding.text d n s.tag }
  else if name = "branch" then
    some fun s => return { s with branch := ← Decoding.text d n s.branch }
  else none

/-- A dependency: a mapping, or the path alone. -/
def dependency (d : Document) (n : Yaml.Node) : Except DependencyRefusal Dependency :=
  match d.target n with
  | .scalar tag value =>
    .ok (if tag = .null then .unspecified else { Dependency.unspecified with path := value.trim })
  | .mapping tag entries =>
    match (Decoding.record d false (dependencyField d) (.mapping tag entries)
        Dependency.unspecified).run .start with
    | .error _ => .error .malformed
    | .ok (s, p) =>
      if p.mismatched then .error .mismatched
      else .ok ⟨s.path.trim, s.git.trim, s.rev.trim, s.tag.trim, s.branch.trim⟩
  | other => .error (.wrongKind other.tag)

/-- Dependencies by name, in the order of the file. The list stops at a name that does not
fit. -/
def dependencyEntries (d : Document) :
    List (Yaml.Node × Yaml.Node) → Decoding ManifestRefusal (Option (List (Text × Dependency)))
  | [] => return some []
  | (k, v) :: rest => do
    match ← Decoding.isolated (Decoding.text d k []) with
    | none => return none
    | some name => do
      if name.trim.isEmpty then Decoding.refuse .namelessDependency
      else match dependency d v with
        | .error why => Decoding.refuse (.dependency name.trim why)
        | .ok s => do
          match ← dependencyEntries d rest with
          | none => return none
          | some more => return some ((name.trim, s) :: more)

/-- The dependencies of a manifest. -/
def dependencyListOf (d : Document) (n : Yaml.Node) (before : Table (Option Dependency)) :
    Decoding ManifestRefusal (Table (Option Dependency)) := do
  match n with
  | .mapping _ entries =>
    match ← dependencyEntries d entries with
    | some found => return Table.ofList (found.map fun (name, s) => (name, some s))
    | none => return before
  | _ => Decoding.refuse .dependenciesNotMapping

/-! ## Dependencies that are tagged as null

A mapping that is tagged as null is read as it stands: each dependency is null or a mapping,
nothing is trimmed, no key is unknown, and merge keys count. -/

/-- One of these dependencies, if it fits. -/
def bareDependency (d : Document) (n : Yaml.Node) :
    Decoding ManifestRefusal (Option (Option Dependency)) :=
  Decoding.visit d n fun n => do
    match n with
    | .scalar tag value => do
      let (m, _) ← Decoding.meaning tag value
      if m = .null then return some none
      Decoding.mismatch
      return none
    | .mapping tag _ =>
      if tag = .null then do
        Decoding.mismatch
        return none
      else
        return some (some (← Decoding.recordOf d true (dependencyField d) n .unspecified))
    | _ => do
      Decoding.mismatch
      return none

/-- Reads these dependencies one after the other. `taken` are, in a mapping that is brought in,
the names that are passed over. -/
def bareEntries (d : Document) : List (Yaml.Node × Yaml.Node) → Option (List Text) →
    Table (Option Dependency) →
      Decoding ManifestRefusal (Option (List Text) × Table (Option Dependency))
  | [], taken, table => return (taken, table)
  | (k, v) :: rest, taken, table => do
    if Decoding.isMerge k then bareEntries d rest taken table
    else match ← Decoding.text? d k with
      | none => bareEntries d rest taken table
      | some name =>
        if taken.any (·.contains name) then bareEntries d rest taken table
        else do
          let found ← bareDependency d v
          bareEntries d rest (taken.map (name :: ·))
            (found.elim table fun s => table.insert name s)

/-- Reads these dependencies, and what their merge key brings in. A mapping without the tag
takes the place of all that was read. -/
def bareDependencies (d : Document) : Nat → Option (List Text) → Yaml.Node →
    Table (Option Dependency) →
      Decoding ManifestRefusal (Option (List Text) × Table (Option Dependency))
  | 0, _, _, _ => throw .malformed
  | depth + 1, taken, n, table => do
    match n with
    | .mapping _ entries =>
      if Decoding.hasTwice entries then do
        Decoding.mismatch
        return (taken, table)
      else do
        let (taken, table) ← bareEntries d entries taken table
        match Decoding.mergeValue? entries with
        | none => return (taken, table)
        | some m => do
          let names ← taken.elim (Decoding.ownNames d entries) pure
          let one (n : Yaml.Node) (b : Option (List Text) × Table (Option Dependency)) :=
            Decoding.visit d n fun n =>
              if n.tag = .null then bareDependencies d depth b.1 n b.2
              else return (b.1, ← dependencyListOf d n b.2)
          let (names, table) ← Decoding.bringIn d one m (some names, table)
          return (if taken.isSome then names else none, table)
    | .scalar tag value => do
      let (m, _) ← Decoding.meaning tag value
      if m ≠ .null then Decoding.mismatch
      return (taken, [])
    | _ => do
      Decoding.mismatch
      return (taken, table)

/-- Reads the dependencies of a manifest. -/
def dependencyList (d : Document) (n : Yaml.Node) (before : Table (Option Dependency)) :
    Decoding ManifestRefusal (Table (Option Dependency)) :=
  Decoding.visit d n fun n => do
    if n.tag = .null then
      return (← bareDependencies d Decoding.mergeDepth none n before).2
    else dependencyListOf d n before

/-! ## The manifest -/

/-- A setting of the read loop. -/
def loopField (d : Document) (name : Text) (n : Yaml.Node) :
    Option (LoopSettings → Decoding ManifestRefusal LoopSettings) :=
  if name = "prompt" then some fun s => return { s with prompt := ← Decoding.text d n s.prompt }
  else if name = "history" then
    some fun s => return { s with history := ← Decoding.text d n s.history }
  else if name = "max_depth" then
    some fun s => return { s with maxDepth := ← Decoding.integer d n s.maxDepth }
  else none

/-- A field of a manifest. -/
def field (d : Document) (name : Text) (n : Yaml.Node) :
    Option (ManifestText → Decoding ManifestRefusal ManifestText) :=
  if name = "name" then some fun m => return { m with name := ← Decoding.text d n m.name }
  else if name = "version" then
    some fun m => return { m with version := ← Decoding.text d n m.version }
  else if name = "main" then some fun m => return { m with main := ← Decoding.text d n m.main }
  else if name = "prelude" then some fun m => return { m with preludes := ← list d n m.preludes }
  else if name = "dependencies" then
    some fun m => return { m with dependencies := ← dependencyList d n m.dependencies }
  else if name = "repl" then
    some fun m => return { m with loop := ← Decoding.record d true (loopField d) n m.loop }
  else none

/-- Reads the text of a manifest file. -/
def ofYaml (t : Text) : Except (Yaml.Problem ManifestRefusal) ManifestText :=
  Yaml.decode (fun d => Decoding.record d true (field d) d.root blank) t

/-- The dependencies under their names as packages spell them. Of several with one name, the
last counts. -/
def dependencyTable (entries : Table (Option Dependency)) : Table (Option Dependency) :=
  Table.ofList (entries.map fun (name, d) => (name.packageName, d))

/-- The manifest at a path with this text. -/
def toManifest (m : ManifestText) (path : Text) : Manifest where
  path := path
  name := m.name.packageName
  version := m.version.trim
  main := m.main.trim
  preludes := (m.preludes.map Text.trim).filter (!·.isEmpty)
  dependencies := dependencyTable m.dependencies
  loop := { m.loop with history := m.loop.history.trim }

end ManifestText

/-! ## Loading -/

/-- Why a manifest cannot be loaded. -/
inductive ManifestError where
  | noPath
  | unreadable (path : Text) (e : FileError)
  | empty (path : Text)
  | malformed (path : Text)
  | mismatched (path : Text)
  | refused (path : Text) (why : ManifestRefusal)
  | invalid (issues : List Manifest.Issue)
  deriving DecidableEq, Repr

/-- The text of the error. -/
def ManifestError.message : ManifestError → Text
  | noPath => "manifest: empty path"
  | unreadable path e => "manifest: open " ++ path ++ ": " ++ e.message
  | empty path => "manifest: " ++ path ++ " is empty"
  | malformed path => "manifest: parse " ++ path ++ ": YAML-SYNTAX"
  | mismatched path => "manifest: parse " ++ path ++ ": YAML-TYPE"
  | refused path why => "manifest: parse " ++ path ++ ": " ++ why.message
  | invalid issues =>
    "manifest validation failed:" ++ issues.flatMap fun i => Text.ofString "\n- " ++ i.message

/-- A file that cannot be read counts as malformed once it is open. -/
def ManifestError.ofFile (path : Text) (e : FileError) : ManifestError :=
  match e.action with
  | .reading => .malformed path
  | _ => .unreadable path e

/-- Why the text of a file is no manifest. -/
def ManifestError.ofProblem (path : Text) : Yaml.Problem ManifestRefusal → ManifestError
  | .empty => .empty path
  | .malformed => .malformed path
  | .mismatched => .mismatched path
  | .refused why => .refused path why

namespace Manifest

/-- The manifest if nothing is wrong with it. -/
def checked (m : Manifest) : Except ManifestError Manifest :=
  if m.issues.isEmpty then .ok m else .error (.invalid m.issues)

/-- Loads the manifest at a path. -/
def load (h : Host) (path : Text) : Except ManifestError Manifest :=
  if path.isEmpty then .error .noPath
  else
    let path := h.absolute path
    match h.read path with
    | .error e => .error (.ofFile path e)
    | .ok t =>
      match ManifestText.ofYaml t with
      | .error p => .error (.ofProblem path p)
      | .ok m => (m.toManifest path).checked

/-- The manifest file nearest to a directory: in it, or in the first one above it that has one. The
names lead there from the root, the last one first. -/
def nearest (h : Host) : (names : List Text) → Option Text
  | [] =>
    let path := Path.join [Path.ofPlace [], fileName]
    if h.isFile path then some path else none
  | name :: above =>
    let path := Path.join [Path.ofPlace (name :: above).reverse, fileName]
    if h.isFile path then some path else nearest h above

/-- The manifest file that belongs to a path: the nearest in its directory or above. A path to a
file stands for the directory of the file. -/
def find? (h : Host) (start : Text) : Option Text :=
  let path := h.absolute start
  let dir := if h.isFile path then Path.dir path else path
  nearest h (Path.place dir).reverse

end Manifest

/-- Why there is no manifest for a path. -/
inductive NoManifest where
  | notFound
  | bad (e : ManifestError)
  deriving DecidableEq, Repr

/-- The text of the error. -/
def NoManifest.message : NoManifest → Text
  | notFound => "driver: package.yml not found"
  | bad e => e.message

/-- Loads the manifest that belongs to a path. -/
def Manifest.loadFor (h : Host) (start : Text) : Except NoManifest Manifest :=
  match Manifest.find? h start with
  | none => .error .notFound
  | some path =>
    match Manifest.load h path with
    | .ok m => .ok m
    | .error e => .error (.bad e)

end Borealis
