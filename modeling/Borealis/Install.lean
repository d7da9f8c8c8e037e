-- Finding the dependencies of a package and locking them. A dependency in a
-- directory is linked where it is. One from a repository is taken from the
-- cache as long as its files are what was locked, and fetched otherwise.
import Borealis.Install.Revision
import Borealis.Manifest.Reader

namespace Borealis

/-! ## Fetching -/

/-- A commit and the files in it. -/
structure Snapshot where
  commit : Text
  files : List (Place × Text)

/-- Gives the snapshot of a repository at a revision, or says why it cannot. -/
abbrev Repository := (url : Text) → Revision → Except Text Snapshot

/-- What installing works with. Without a cache nothing can be fetched. `refresh` tells which
locked packages are to be fetched anew. -/
structure Installer where
  manifest : Option Manifest
  cache : Text
  repository : Repository
  refresh : Text → Bool

/-- Why a dependency could not be installed. -/
inductive InstallError where
  | undescribed (name : Text)
  | missing (name path : Text) (e : FileError)
  | notDirectory (name path : Text)
  | badManifest (name : Text) (e : ManifestError)
  | noFetching (name : Text)
  | unremovable (name : Text) (e : FileError)
  | noUrl (name : Text)
  | noCache (name : Text) (e : FileError)
  | noRevision (name : Text)
  | unfetched (name reason : Text)
  | unsummed (name : Text) (e : FileError)

/-- The text of the error. -/
def InstallError.message : InstallError → Text
  | undescribed name => "dependency " ++ name.quoted ++ " has no descriptor"
  | missing name path e => "dependency " ++ name.quoted ++ ": stat " ++ path ++ ": " ++ e.message
  | notDirectory name path => "dependency " ++ name.quoted ++ ": expected directory at " ++ path
  | badManifest name e => "dependency " ++ name.quoted ++ ": " ++ e.message
  | noFetching name => "dependency " ++ name.quoted ++ ": git support unavailable"
  | unremovable name e =>
    "dependency " ++ name.quoted ++ ": remove modified checkout: " ++ e.message
  | noUrl name => "dependency " ++ name.quoted ++ ": git URL required"
  | noCache name e => "dependency " ++ name.quoted ++ ": " ++ e.message
  | noRevision name => "dependency " ++ name.quoted ++ ": " ++ Revision.missingMessage
  | unfetched name reason => "dependency " ++ name.quoted ++ ": " ++ reason
  | unsummed name e => "dependency " ++ name.quoted ++ ": checksum: " ++ e.message

/-- A package that was found, and what is said about it. -/
structure Found where
  package : LockedPackage
  log : Text

namespace Installer

/-- The directory that relative paths of dependencies start from. -/
def root (i : Installer) : Text := i.manifest.elim [] Manifest.dir

/-- A path as it is shown: from the root if it is below it. -/
def shownPath (root path : Text) : Text :=
  if root.isEmpty then path
  else match Path.relative? root path with
    | some way => if way.startsWith ".." then path else way
    | none => path

/-- Puts files below a directory. -/
def putFiles (h : Host) (dir : Text) (files : List (Place × Text)) : Host :=
  let base := Path.place (h.absolute dir)
  let tree := files.foldl (fun (t : FileTree) (names, content) =>
    let p := base ++ names
    (t.makeDirs p.dropLast).put p (.file content)) (h.files.makeDirs base)
  { h with files := tree }

/-- Fetches a dependency into the cache. A checkout of the same version is kept. -/
def fetch (i : Installer) (h : Host) (name : Text) (d : Dependency) :
    Except InstallError LockedPackage × Host :=
  let url := d.git.trim
  if url.isEmpty then (.error (.noUrl name), h)
  else
    let base := Path.join [i.cache, "pkg", "src", name.packageName]
    match h.files.makeDirsAt h.cwd base with
    | .error e => (.error (.noCache name e), h)
    | .ok files =>
      let h := { h with files := files }
      match d.revision? with
      | none => (.error (.noRevision name), h)
      | some r =>
        match i.repository url r with
        | .error reason => (.error (.unfetched name reason), h)
        | .ok snapshot =>
          let version := Revision.version r.descriptor snapshot.commit
          let dir := Path.join [base, Revision.segment version]
          let h := match h.inspect dir with
            | .ok _ => h
            | .error _ => putFiles h dir snapshot.files
          match Checksum.ofPath h.files h.cwd dir with
          | .error e => (.error (.unsummed name e), h)
          | .ok sum =>
            (.ok ⟨name.packageName, version,
              LockedPackage.gitSource ++ url ++ "@" ++ snapshot.commit, dir, sum⟩, h)

/-! ## Finding -/

/-- The version of a package whose manifest gives none. -/
def unversioned : Text := "0.0.0-dev"

/-- Finds a dependency in a directory. -/
def findPath (i : Installer) (h : Host) (name : Text) (d : Dependency) :
    Except InstallError Found :=
  let path := if Path.isAbsolute d.path then d.path else Path.join [i.root, d.path]
  let path := h.absolute path
  match h.inspect path with
  | .error e => .error (.missing name path e)
  | .ok (_, .file _) => .error (.notDirectory name path)
  | .ok (_, .dir) =>
    match Manifest.load h (Path.join [path, Manifest.fileName]) with
    | .error e => .error (.badManifest name e)
    | .ok m =>
      let version := if m.version.isEmpty then unversioned else m.version
      .ok ⟨⟨name.packageName, version, LockedPackage.pathSource ++ path, path, []⟩,
        "linked " ++ name ++ " " ++ version ++ " (" ++ shownPath i.root path ++ ")"⟩

/-- Fetches the commit that is locked again. -/
def restore (i : Installer) (h : Host) (name : Text) (d : Dependency) (current : LockedPackage) :
    Except InstallError Found × Host :=
  match i.fetch h name (d.pinned current.commit) with
  | (.error e, h) => (.error e, h)
  | (.ok p, h) =>
    (.ok ⟨{ p with version := current.version },
      "restored " ++ name ++ " (" ++ current.version ++ ")"⟩, h)

/-- Takes a locked package as it is. If its files are not what was locked, they are removed and
fetched again. -/
def reuse (i : Installer) (h : Host) (name : Text) (d : Dependency) (current : LockedPackage) :
    Except InstallError Found × Host :=
  match h.inspect current.path with
  | .error _ => i.restore h name d current
  | .ok _ =>
    match current.verify h with
    | .ok () =>
      (.ok ⟨current, "using locked " ++ name ++ " (" ++ current.version ++ ")"⟩, h)
    | .error _ =>
      match h.files.removeAt h.cwd current.path with
      | .error e => (.error (.unremovable name e), h)
      | .ok files => i.restore { h with files := files } name d current

/-- Fetches a dependency that is not locked as it is asked for. -/
def fetchNew (i : Installer) (h : Host) (name : Text) (d : Dependency) :
    Except InstallError Found × Host :=
  match i.fetch h name d with
  | (.error e, h) => (.error e, h)
  | (.ok p, h) =>
    match Manifest.load h (Path.join [p.path, Manifest.fileName]) with
    | .error e => (.error (.badManifest name e), h)
    | .ok _ =>
      (.ok ⟨p, "fetched git dependency " ++ p.name ++ " (" ++ p.version ++ ")"⟩, h)

/-- Finds a dependency from a repository. -/
def findGit (i : Installer) (h : Host) (name : Text) (d : Dependency)
    (current : Option LockedPackage) : Except InstallError Found × Host :=
  if i.cache.isEmpty then (.error (.noFetching name), h)
  else match current with
    | some p =>
      if !i.refresh p.name && p.isFor d then i.reuse h name d p else i.fetchNew h name d
    | none => i.fetchNew h name d

/-- Finds a dependency. -/
def find (i : Installer) (h : Host) (name : Text) (d : Dependency)
    (current : Option LockedPackage) : Except InstallError Found × Host :=
  if d.isGit then i.findGit h name d current else (i.findPath h name d, h)

/-! ## Installing -/

/-- How far installing has come. -/
structure Progress where
  host : Host
  lock : Lockfile
  /-- Whether some package is not what it was. -/
  changed : Bool
  /-- What was said, oldest first. -/
  logs : List Text

/-- Installs one dependency. -/
def installOne (i : Installer) (m : Manifest) (p : Progress) (name : Text) :
    Except InstallError Unit × Progress :=
  match m.dependency? name with
  | none => (.error (.undescribed name), p)
  | some d =>
    let current := p.lock.find? name
    match i.find p.host name d current with
    | (.error e, h) => (.error e, { p with host := h })
    | (.ok found, h) =>
      (.ok (), {
        host := h
        lock := p.lock.put found.package
        changed := p.changed || current != some found.package
        logs := p.logs ++ [found.log] })

/-- Installs dependencies one after the other, up to the first error. -/
def installAll (i : Installer) (m : Manifest) :
    List Text → Progress → Except InstallError Unit × Progress
  | [], p => (.ok (), p)
  | name :: rest, p =>
    match i.installOne m p name with
    | (.error e, p) => (.error e, p)
    | (.ok (), p) => installAll i m rest p

/-- Installs the dependencies of the manifest. Packages that it does not name are dropped, and
the others are sorted. The result tells whether the lock has changed. -/
def install (i : Installer) (h : Host) (lock : Lockfile) :
    Except InstallError Bool × Progress :=
  match i.manifest with
  | none => (.ok false, ⟨h, lock, false, []⟩)
  | some m =>
    match i.installAll m m.dependencyNames ⟨h, lock, false, []⟩ with
    | (.error e, p) => (.error e, p)
    | (.ok (), p) =>
      let (dropped, lock) := p.lock.retain m.dependencyNames
      let lock := { lock with packages := (Lockfile.sortPackages lock.present).map some }
      let changed := p.changed || dropped
      (.ok changed, { p with lock := lock, changed := changed })

end Installer

end Borealis
