-- Installing and updating the dependencies of the package around the working
-- directory. The lock is written only if all of them were found.
import Borealis.Console
import Borealis.Install
import Borealis.Project

namespace Borealis.Command

/-- The tool that locks are marked with. -/
def toolVersion : Text := "aurora-cli 0.1.0-dev"

/-- A package, its lock, whether the lock is new, and the cache. -/
structure Workplace where
  manifest : Manifest
  lock : Lockfile
  created : Bool
  cache : Text

/-- Why there is nothing to work on. -/
inductive NoWorkplace where
  | noManifest (e : NoManifest)
  | badLock (e : LockfileError)
  | otherRoot (root name : Text)

/-- The text of the error. -/
def NoWorkplace.message : NoWorkplace → Text
  | noManifest e => "unable to load package.yml: " ++ e.message
  | badLock e => "failed to read lockfile: " ++ e.message
  | otherRoot root name => (NoLock.otherRoot root name).message

namespace Workplace

/-- The lock of a manifest, or a new one if there is none. -/
def lockOf (h : Host) (m : Manifest) : Except NoWorkplace (Lockfile × Bool) :=
  match Lockfile.load h (Lockfile.pathFor m) with
  | .ok l => if l.root = m.name then .ok (l, false) else .error (.otherRoot l.root m.name)
  | .error e =>
    if e.isNotFound then .ok (Lockfile.new h m.name toolVersion, true) else .error (.badLock e)

/-- The workplace around the working directory. -/
def load (h : Host) : Except NoWorkplace Workplace :=
  match Manifest.loadFor h "." with
  | .error e => .error (.noManifest e)
  | .ok m =>
    match lockOf h m with
    | .error e => .error e
    | .ok (l, created) =>
      .ok ⟨m, { l with path := Lockfile.pathFor m, tool := toolVersion }, created,
        Project.cacheDir h⟩

/-- What installing works with here. -/
def installer (w : Workplace) (repository : Repository) (refresh : Text → Bool) : Installer :=
  ⟨some w.manifest, w.cache, repository, refresh⟩

/-- Installs the dependencies and writes the lock if it has changed or is new. `failing` starts
the line that is printed if a dependency is not found, and the last two functions print the end
of a run that wrote the lock and of one that did not. -/
def run (w : Workplace) (i : Installer) (failing : Text)
    (written kept : Lockfile → Console → Console) (c : Console) : Ending :=
  let (result, p) := i.install c.host w.lock
  let c := (c.withHost p.host).sayAll p.logs
  match result with
  | .error e => (1, c.complain (failing ++ e.message))
  | .ok changed =>
    if changed || w.created then
      match p.lock.write c.host (Lockfile.pathFor w.manifest) with
      | (.error e, _) => (1, c.complain ("failed to write lockfile: " ++ e.message))
      | (.ok h, l) => (0, written l (c.withHost h))
    else (0, kept p.lock c)

end Workplace

/-- Installs the dependencies as they are locked. -/
def install (repository : Repository) (c : Console) : Ending :=
  match Workplace.load c.host with
  | .error e => (1, c.complain e.message)
  | .ok w =>
    let c := c.sayAll [
      "Manifest: " ++ w.manifest.path,
      "Root package: " ++ w.manifest.name,
      "Dependencies: " ++ Text.ofNat w.manifest.dependencies.length,
      "Cache directory: " ++ w.cache]
    let action := Text.ofString (if w.created then "Created" else "Updated")
    let done (c : Console) := c.say "Dependencies installed."
    w.run (w.installer repository fun _ => false) "failed to resolve dependencies: "
      (fun l c => done (c.say (action ++ " package.lock: " ++ l.path)))
      (fun l c => done (c.say ("package.lock already up to date: " ++ l.path))) c

/-- The first of some names that is no dependency. -/
def undeclared? (m : Manifest) (targets : List Text) : Option Text :=
  targets.find? fun t => (m.dependencies.get? t.packageName).isNone

/-- Finds the named dependencies anew, or all if none is named. -/
def update (repository : Repository) (targets : List Text) (c : Console) : Ending :=
  match Workplace.load c.host with
  | .error e => (1, c.complain e.message)
  | .ok w =>
    match undeclared? w.manifest targets with
    | some t => (1, c.complain ("dependency " ++ t.quoted ++ " not declared in manifest"))
    | none =>
      let names := targets.map Text.packageName
      let refresh (name : Text) := names.isEmpty || names.contains name
      w.run (w.installer repository refresh) "failed to update dependencies: "
        (fun l c => c.say ("Updated package.lock: " ++ l.path))
        (fun _ c => c.say "Dependencies already up to date.") c

/-- The commands for dependencies. -/
def dependencies (repository : Repository) (arguments : List Text) (c : Console) : Ending :=
  match arguments with
  | [] => (1, c.complain "aurora deps requires a subcommand (install, update)")
  | word :: more =>
    if word = "install" then
      if more.isEmpty then install repository c
      else (1, c.complain ("aurora deps install does not take arguments (received "
        ++ Text.join " " more ++ ")"))
    else if word = "update" then update repository more c
    else (1, c.complain ("unknown deps subcommand " ++ word.quoted))

end Borealis.Command
