-- What a dependency command does to the files when all dependencies are in
-- directories: it writes the lock beside the manifest if it ends well, and
-- nothing at all if it fails.
import Borealis.Proofs.LockHistories
import Borealis.Proofs.RepeatedInstalls

namespace Borealis

namespace Installer

variable {i : Installer} {m : Manifest}

/-! ## Installing from directories -/

theorem host_installOne_of_paths (hpaths : ∀ name d, m.dependency? name = some d → d.isGit = false)
    (p : Progress) (name : Text) : (i.installOne m p name).2.host = p.host := by
  match hd : m.dependency? name with
  | none => simp only [installOne, hd]
  | some d => rw [host_installOne hd, find_of_path (hpaths name d hd)]

/-- No file is touched, whether all dependencies are found or one of them is not. -/
theorem host_installAll_of_paths (hpaths : ∀ name d, m.dependency? name = some d → d.isGit = false)
    (names : List Text) (p : Progress) : (i.installAll m names p).2.host = p.host := by
  induction names generalizing p with
  | nil => rfl
  | cons name names ih =>
    have hone := host_installOne_of_paths (i := i) hpaths p name
    unfold installAll
    split
    · rename_i hfailed
      rwa [hfailed] at hone
    · rename_i hdone
      rw [hdone] at hone
      rw [ih, hone]

theorem host_install_of_paths (hi : i.manifest = some m)
    (hpaths : ∀ name d, m.dependency? name = some d → d.isGit = false) (h : Host)
    (lock : Lockfile) : (i.install h lock).2.host = h := by
  rw [host_install hi, host_installAll_of_paths hpaths]

end Installer

namespace Command

variable {repository : Repository} {refresh : Text → Bool} {h h' : Host} {w : Workplace}
  {i : Installer}

/-! ## Runs -/

/-- All dependencies of the package around the working directory are in directories. -/
def OnlyDirectories (h : Host) : Prop :=
  ∀ m, Manifest.loadFor h "." = .ok m → ∀ name d, m.dependency? name = some d → d.isGit = false

/-- The place is the one of the lock beside the manifest. -/
def LockAt (h : Host) (q : Place) : Prop :=
  ∃ m root, Manifest.loadFor h "." = .ok m ∧ Path.PlainPlace root ∧
    m.path = Path.ofPlace (root ++ [Manifest.fileName]) ∧ q = lockPlace root

/-- The machine stays as it is but for the lock of the package. -/
def OnlyLock (h h' : Host) : Prop :=
  h' = { h with files := h'.files } ∧ ∀ q, ¬LockAt h q → h'.files.get? q = h.files.get? q

theorem OnlyLock.refl (h : Host) : OnlyLock h h := ⟨rfl, fun _ _ => rfl⟩

theorem OnlyLock.write {l l' : Lockfile} {m : Manifest} (hm : Manifest.loadFor h "." = .ok m)
    (hw : l.write h (Lockfile.pathFor m) = (.ok h', l')) : OnlyLock h h' := by
  obtain ⟨-, -, root, hroot, hpath⟩ := Manifest.loadFor_eq_ok hm
  have hplain := plain_lockPlace hroot
  have hplace : Lockfile.pathFor m = Path.ofPlace (lockPlace root) :=
    Manifest.pathFor_eq hroot hpath
  rw [hplace] at hw
  obtain ⟨files, hfiles, rfl⟩ := Lockfile.host_write (Lockfile.write_ofPlace hplain hw)
  refine ⟨rfl, fun q hq => ?_⟩
  rw [FileTree.get?_write hfiles, Path.target_ofPlace hplain, if_neg]
  rintro rfl
  exact hq ⟨m, root, hm, hroot, hpath, rfl⟩

/-- Where installing touches no file, a run that fails leaves the machine as it is, and one that
ends well writes no more than the lock. -/
theorem outcome_onlyLock (hm : Manifest.loadFor h "." = .ok w.manifest)
    (hhost : (i.install h w.lock).2.host = h) :
    ((w.outcome i h).1 ≠ 0 → (w.outcome i h).2 = h) ∧ OnlyLock h (w.outcome i h).2 := by
  have hfailed : (w.outcome i h).1 ≠ 0 → (w.outcome i h).2 = h := fun hne =>
    ((w.host_outcome i h).resolve_right hne).trans hhost
  refine ⟨hfailed, ?_⟩
  by_cases hcode : (w.outcome i h).1 = 0
  · have hok : w.outcome i h = (0, (w.outcome i h).2) := Prod.ext hcode rfl
    obtain ⟨changed, p, hinstall, ⟨l, hwrite⟩ | ⟨-, -, hsame⟩⟩ := Workplace.outcome_eq_ok hok
    · rw [hinstall] at hhost
      rw [show p.host = h from hhost] at hwrite
      exact .write hm hwrite
    · rw [hinstall] at hhost
      rw [hsame, show p.host = h from hhost]
      exact .refl h
  · rw [hfailed hcode]
    exact .refl h

theorem effect_onlyLock (hpaths : OnlyDirectories h) :
    ((effect repository refresh h).1 ≠ 0 → (effect repository refresh h).2 = h) ∧
      OnlyLock h (effect repository refresh h).2 := by
  match hw : Workplace.load h with
  | .error e =>
    simp only [effect, hw]
    exact ⟨fun _ => trivial, .refl h⟩
  | .ok w =>
    have hm := (Workplace.load_eq_ok hw).1
    rw [effect_of_load hw]
    exact outcome_onlyLock hm (Installer.host_install_of_paths rfl (hpaths _ hm) h w.lock)

/-- A run fails if there is no package in the directory of a dependency. -/
theorem effect_of_missing {m : Manifest} {name : Text} {d : Dependency}
    (hm : Manifest.loadFor h "." = .ok m) (hpaths : OnlyDirectories h)
    (hd : m.dependency? name = some d)
    (hmissing : ∀ own,
      Manifest.load h (Path.join [m.directoryOf h d, Manifest.fileName]) ≠ .ok own) :
    (effect repository refresh h).1 ≠ 0 := by
  intro hcode
  have hok : effect repository refresh h = (0, (effect repository refresh h).2) :=
    Prod.ext hcode rfl
  obtain ⟨w, hw, hrun⟩ := effect_eq_ok hok
  have hmanifest : w.manifest = m := Except.ok.inj ((Workplace.load_eq_ok hw).1.symm.trans hm)
  obtain ⟨changed, p, hinstall, -⟩ := Workplace.outcome_eq_ok hrun
  obtain ⟨-, hfound⟩ := Installer.install_linked (congrArg some hmanifest)
    (Manifest.loadFor_eq_ok hm).1 (hpaths m hm) hinstall
  obtain ⟨own, version, hown, -⟩ := hfound name d hd
  exact hmissing own hown

/-! ## A package with a dependency that is not there -/

/-- A machine with a package and two dependencies in directories. Only the first is there, and not
as it is locked. -/
def halfLinked : Host :=
  ⟨⟨[(["app"], .dir),
    (["app", "package.yml"], .file "name: app\ndependencies:\n  lib: lib/\n  more: more/\n"),
    (["app", "package.lock"], .file doubledText),
    (["app", "lib"], .dir),
    (["app", "lib", "package.yml"], .file "name: lib\nversion: v1\nprelude: p.au\n")]⟩,
    "/app", [], [], []⟩

/-- The manifest of that package. -/
def halfLinkedManifest : Manifest :=
  ⟨"/app/package.yml", "app", [], [], [], [("lib", some (linkedDependency "lib")),
    ("more", some (linkedDependency "more"))], ⟨[], [], 0⟩⟩

/-- What is read there. There is no second dependency. -/
theorem reads_halfLinked : Manifest.loadFor halfLinked "." = .ok halfLinkedManifest ∧
    Manifest.load halfLinked (Path.join [Path.ofPlace ["app", "lib"], Manifest.fileName])
      = .ok (libManifest "lib") ∧
    Manifest.load halfLinked (Path.join [Path.ofPlace ["app", "more"], Manifest.fileName])
      = .error (.unreadable "/app/more/package.yml"
        ⟨.opening, "/app/more/package.yml", .notFound⟩) := by
  decide +kernel

theorem dependency_halfLinked (dir : Text) (hdir : dir = "lib" ∨ dir = "more") :
    halfLinkedManifest.dependency? dir = some (linkedDependency dir) := by
  rcases hdir with rfl | rfl
  · rfl
  · rfl

theorem onlyDirectories_halfLinked : OnlyDirectories halfLinked := by
  intro m hm name d hd
  cases reads_halfLinked.1.symm.trans hm
  have hname : name ∈ [Text.ofString "lib", Text.ofString "more"] :=
    Manifest.mem_dependencyNames hd
  rw [List.mem_pair] at hname
  rw [dependency_halfLinked name hname] at hd
  cases hd
  rfl

theorem effect_halfLinked (repository : Repository) (refresh : Text → Bool) :
    (effect repository refresh halfLinked).1 ≠ 0 := by
  have hdir : halfLinkedManifest.directoryOf halfLinked (linkedDependency "more")
      = Path.ofPlace ["app", "more"] := rfl
  refine effect_of_missing reads_halfLinked.1 onlyDirectories_halfLinked
    (dependency_halfLinked "more" (Or.inr rfl)) fun own hown => ?_
  rw [hdir, reads_halfLinked.2.2] at hown
  cases hown

theorem load_halfLinked : ∃ lock, Workplace.load halfLinked
      = .ok ⟨halfLinkedManifest, lock, false, Project.cacheDir halfLinked⟩ ∧
    lock.packages = doubledPackages.map some := by
  obtain ⟨lock, hload, hroot, hpackages⟩ := load_doubledText (h := halfLinked) rfl
  have hpath : Lockfile.pathFor halfLinkedManifest = "/app/package.lock" := pathFor_app rfl
  have hlock := Workplace.lockOf_of_load (hpath.symm ▸ hload) hroot
  exact ⟨_, Workplace.load_of_lock reads_halfLinked.1 hlock, hpackages⟩

theorem fails_halfLinked (repository : Repository) (arguments : List Text) :
    (dependencies repository arguments (Console.new halfLinked [])).1 ≠ 0 := by
  rcases dependencies_effect repository arguments (Console.new halfLinked []) with hfails | hruns
  · rw [(Prod.mk.inj hfails).1]
    exact Nat.one_ne_zero
  · rw [congrArg Prod.fst hruns]
    exact effect_halfLinked repository _

/-! ## Commands that fail -/

/-- The dependency commands, with any words, leave every file but the lock as it was, and if they
fail, the lock as well. -/
theorem failed_dependencies_change_nothing {c : Console} (hpaths : OnlyDirectories c.host)
    (repository : Repository) (arguments : List Text) :
    ((dependencies repository arguments c).1 ≠ 0 →
      (dependencies repository arguments c).2.host = c.host) ∧
    OnlyLock c.host (dependencies repository arguments c).2.host := by
  rcases dependencies_effect repository arguments c with hfails | hruns
  · obtain ⟨-, hhost⟩ := Prod.mk.inj hfails
    rw [hhost]
    exact ⟨fun _ => rfl, .refl c.host⟩
  · obtain ⟨hcode, hhost⟩ := Prod.mk.inj hruns
    rw [hcode, hhost]
    exact effect_onlyLock hpaths

/-- In one package the first dependency is found, and is not what was locked. As the second one is
not there, both commands fail, and the files are what they were. In the other package the only
dependency is found, and no more than the lock is written. -/
theorem halfLinked_is_left_as_it_was :
    (∃ lock p, Workplace.load halfLinked
        = .ok ⟨halfLinkedManifest, lock, false, Project.cacheDir halfLinked⟩ ∧
      Installer.installOne ⟨some halfLinkedManifest, [], Installer.nowhere, fun _ => false⟩
        halfLinkedManifest ⟨halfLinked, lock, false, []⟩ "lib" = (.ok (), p) ∧ p.changed = true) ∧
    (∀ arguments ∈ [[Text.ofString "install"], [Text.ofString "update", Text.ofString "lib"]],
      (dependencies Installer.nowhere arguments (Console.new halfLinked [])).1 ≠ 0 ∧
      (dependencies Installer.nowhere arguments (Console.new halfLinked [])).2.host
        = halfLinked) ∧
    (dependencies Installer.nowhere ["install"] (Console.new (linking "lib") [])).1 = 0 ∧
    OnlyLock (linking "lib")
      (dependencies Installer.nowhere ["install"] (Console.new (linking "lib") [])).2.host := by
  have hlib : Text.ofString "lib" = "lib" ∨ Text.ofString "lib" = "lib " := Or.inl rfl
  refine ⟨?_, fun arguments _ => ?_, ?_, ?_⟩
  · obtain ⟨lock, hload, hpackages⟩ := load_halfLinked
    obtain ⟨log, hfound⟩ := findPath_lib (h := halfLinked)
      (i := ⟨some halfLinkedManifest, [], Installer.nowhere, fun _ => false⟩) rfl rfl
      reads_halfLinked.2.1
    exact ⟨lock, _, hload, installOne_doubled (dependency_halfLinked "lib" (Or.inl rfl)) hfound
      hpackages, rfl⟩
  · have hne := fails_halfLinked Installer.nowhere arguments
    exact ⟨hne, (failed_dependencies_change_nothing
      (c := Console.new halfLinked []) onlyDirectories_halfLinked _ _).1 hne⟩
  · rw [dependencies_install]
    exact (install_linked_lib hlib _).1
  · refine (failed_dependencies_change_nothing (c := Console.new (linking "lib") []) ?_ _ _).2
    intro m hm
    rw [← Except.ok.inj ((reads_linking hlib).1.symm.trans hm)]
    exact isGit_linking

end Command

end Borealis
