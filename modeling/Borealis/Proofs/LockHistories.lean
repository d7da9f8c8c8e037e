-- The lock over the life of a package. It starts without one, files are edited
-- and the dependency commands are run, in any order. After each run that ends
-- well the lock has the names of the dependencies, each once and in order.
import Borealis.Proofs.Installed

namespace Borealis

namespace Command

variable {repository : Repository} {refresh : Text → Bool} {root place : Place} {h h' : Host}
  {w : Workplace}

/-! ## What a lock keeps -/

/-- The path leads neither to the place nor above it, wherever it is followed from. -/
def Away (place : Place) (path : Text) : Prop :=
  Path.isAbsolute path = true ∧ ¬ Path.names path <+: place

theorem Away.target {path : Text} (ha : Away place path) (cwd : Text) {q : Place}
    (hq : q <+: place) : ¬ Path.target cwd path <+: q := by
  rw [Path.target_eq_names ha.1]
  exact fun hle => ha.2 (hle.trans hq)

/-- Each name stands once, and no package that was fetched lies at the place or above it. -/
structure Sound (place : Place) (packages : List LockedPackage) : Prop where
  nodup : (packages.map LockedPackage.name).Nodup
  away : ∀ p ∈ packages, p.normalized.isGit = true → Away place p.path ∧ Away place p.path.trim

/-- If the file at the place is a lock, it is sound. -/
def SoundAt (place : Place) (t : FileTree) : Prop :=
  ∀ text lock, t.get? place = some (.file text) → LockText.ofYaml text = .ok lock →
    Sound place (lock.toLockfile []).present

/-- The place of the lock of a package in a directory. -/
def lockPlace (root : Place) : Place := root ++ [Lockfile.fileName]

/-- The package around the working directory is the one in the given directory, no checkout of a
dependency holds its lock, and the text of the lock that is written is read as it was written.
A checkout around the lock would take it away when it is fetched again, and with the same packages
as before no lock is written. -/
structure Fit (root : Place) (repository : Repository) (refresh : Text → Bool) (h : Host) :
    Prop where
  absolute : Path.isAbsolute h.cwd = true
  here : ∀ w, Workplace.load h = .ok w →
    w.manifest.path = Path.ofPlace (root ++ [Manifest.fileName])
  checkouts : ∀ w name d version, Workplace.load h = .ok w →
    w.manifest.dependency? name = some d → d.isGit = true →
    Away (lockPlace root) ((w.installer repository refresh).checkout name version) ∧
      Away (lockPlace root) ((w.installer repository refresh).checkout name version).trim
  written : ∀ w, Workplace.load h = .ok w →
    (w.newLock (w.installer repository refresh) h).toText.ReadsBack

/-- What can happen to a package without a lock: its files and those of its dependencies are
edited, and the dependency commands are run. The lock itself is not edited. -/
inductive History (root : Place) : Host → Prop where
  | start {h : Host} : h.files.get? (lockPlace root) = none → History root h
  | edit {h h' : Host} : History root h →
      h'.files.get? (lockPlace root) = h.files.get? (lockPlace root) → History root h'
  | run {c : Console} {repository : Repository} {arguments : List Text} : History root c.host →
      Fit root repository (refreshes arguments) c.host →
      History root (dependencies repository arguments c).2.host

/-! ## One run -/

theorem plain_lockPlace (hroot : Path.PlainPlace root) : Path.PlainPlace (lockPlace root) :=
  hroot.concat (by decide)

theorem Fit.pathFor (hfit : Fit root repository refresh h) (hroot : Path.PlainPlace root)
    (hw : Workplace.load h = .ok w) :
    Lockfile.pathFor w.manifest = Path.ofPlace (lockPlace root) :=
  Manifest.pathFor_eq hroot (hfit.here w hw)

theorem SoundAt.load {l : Lockfile} (hs : SoundAt (lockPlace root) h.files)
    (hroot : Path.PlainPlace root)
    (hl : Lockfile.load h (Path.ofPlace (lockPlace root)) = .ok l) :
    Sound (lockPlace root) l.present := by
  obtain ⟨-, t, lt, hread, hlt, rfl⟩ := Lockfile.load_eq_ok_iff.mp hl
  rw [Host.absolute, Path.absolute_ofPlace (plain_lockPlace hroot)] at hread
  obtain ⟨-, hget⟩ := FileTree.read_eq_ok_iff.mp hread
  rw [Path.target_ofPlace (plain_lockPlace hroot)] at hget
  have hsound := hs t lt hget hlt
  rw [Lockfile.present_toLockfile] at hsound ⊢
  exact hsound

theorem Fit.keeps (hfit : Fit root repository refresh h) (hw : Workplace.load h = .ok w) :
    h.Keeps ((w.installer repository refresh).MayTouch w.manifest w.lock h.cwd)
      ((w.installer repository refresh).MayMake w.manifest h.cwd)
      ((w.installer repository refresh).install h w.lock).2.host :=
  Installer.keeps_install rfl (Manifest.loadFor_eq_ok (Workplace.load_eq_ok hw).1).1 hfit.absolute
    w.lock

theorem dependencies_install (repository : Repository) (c : Console) :
    dependencies repository ["install"] c = install repository c := by
  simp only [dependencies, if_true, List.isEmpty_nil]

end Command

end Borealis
