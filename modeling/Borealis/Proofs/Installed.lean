-- What is installed can be loaded. After a run for dependencies in directories
-- the lock is found, and it names each directory without the blanks around
-- its path. Where there are none, the preludes are those of the directories
-- that the manifest points at.
import Borealis.Project
import Borealis.Proofs.DependencyRuns

namespace Borealis

/-! ## Directories -/

namespace Manifest

variable {h h' : Host} {m : Manifest}

/-- The directory that a dependency of the manifest points at. -/
def directoryOf (m : Manifest) (h : Host) (d : Dependency) : Text := h.absolute (m.resolve d.path)

theorem directoryOf_eq {root : Place} (hroot : Path.PlainPlace root)
    (hm : m.path = Path.ofPlace (root ++ [fileName])) (h : Host) (d : Dependency) :
    ∃ place, Path.PlainPlace place ∧ m.directoryOf h d = Path.ofPlace place := by
  have habs : Path.isAbsolute (m.resolve d.path) = true := by
    unfold resolve
    split
    · assumption
    · rw [dir_eq hroot hm]
      exact Path.isAbsolute_join (Path.isAbsolute_ofPlace root) _
  exact ⟨_, Path.plainPlace_names habs, Path.absolute_eq habs h.cwd⟩

/-- A script of a manifest, from the directory of the manifest. -/
def scriptIn (dir script : Text) : Text :=
  if Path.isAbsolute script then script else Path.join [dir, script]

/-- The scripts of the prelude of a package in a directory. -/
theorem preludeOf_eq {place : Place} (hplace : Path.PlainPlace place)
    (hl : load h (Path.join [Path.ofPlace place, fileName]) = .ok m) :
    Session.preludeOf m = m.preludes.map (scriptIn (Path.ofPlace place)) := by
  have hpath : m.path = Path.ofPlace (place ++ [fileName]) := by
    rw [(load_eq_ok hl).1, Path.join_ofPlace hplace plain_fileName, Host.absolute,
      Path.absolute_ofPlace (hplace.concat plain_fileName)]
  unfold Session.preludeOf
  refine List.map_congr_left fun s _ => ?_
  rw [resolve, scriptIn, dir_eq hplace hpath]

theorem load_congr {path : Text} (hcwd : h'.cwd = h.cwd)
    (hread : h'.read (h.absolute path) = h.read (h.absolute path)) :
    load h' path = load h path := by
  have habs : h'.absolute path = h.absolute path := by rw [Host.absolute, hcwd, Host.absolute]
  simp only [load, habs, hread]

/-- Writing the lock leaves every manifest as it was. -/
theorem load_of_write {place root : Place} {content : Text}
    (hplace : Path.PlainPlace place) (hroot : Path.PlainPlace root)
    (hw : h.write (Path.ofPlace (root ++ [Lockfile.fileName])) content = .ok h')
    (hl : load h (Path.join [Path.ofPlace place, fileName]) = .ok m) :
    load h' (Path.join [Path.ofPlace place, fileName]) = .ok m := by
  obtain ⟨files, hfiles, rfl⟩ := Lockfile.host_write hw
  have hpath := hplace.concat plain_fileName
  have hlock := hroot.concat (by decide : Path.Plain Lockfile.fileName)
  obtain ⟨-, -, t, -, hread, -⟩ := load_eq_ok hl
  rw [← hl]
  refine load_congr rfl ?_
  rw [Path.join_ofPlace hplace plain_fileName, Host.absolute,
    Path.absolute_ofPlace hpath] at hread ⊢
  refine (FileTree.read_write_other hfiles hread ?_).trans hread.symm
  rw [Path.target_ofPlace hpath, Path.target_ofPlace hlock]
  intro heq
  exact absurd (List.append_inj_right' heq rfl) (by decide)

end Manifest

/-! ## What is installed -/

namespace Installer

variable {i : Installer} {h : Host} {m : Manifest}

theorem find_of_path {d : Dependency} (hd : d.isGit = false) (h : Host) (name : Text)
    (current : Option LockedPackage) : i.find h name d current = (i.findPath h name d, h) := by
  simp [find, hd]

/-- Dependencies in directories are locked where the manifest points, and no file is touched. -/
theorem install_linked {lock : Lockfile} {changed : Bool} {p : Progress}
    (hi : i.manifest = some m) (hm : m.Accepted)
    (hpaths : ∀ name d, m.dependency? name = some d → d.isGit = false)
    (hok : i.install h lock = (.ok changed, p)) : p.host = h ∧
      ∀ name d, m.dependency? name = some d → ∃ own version,
        Manifest.load h (Path.join [m.directoryOf h d, Manifest.fileName]) = .ok own ∧
        p.lock.find? name = some ⟨name, version, LockedPackage.pathSource ++ m.directoryOf h d,
          m.directoryOf h d, []⟩ := by
  obtain ⟨p₁, hall, hhost, hfind⟩ := find?_install hi hok
  have hstay : ∀ h₁ name d current found, m.dependency? name = some d → h₁ = h →
      (i.find h₁ name d current).1 = .ok found → (i.find h₁ name d current).2 = h := by
    intro h₁ name d current found hd hh _
    rw [find_of_path (hpaths name d hd)]
    exact hh
  obtain ⟨hsame, hfound⟩ := installAll_found hstay hm.nodup hm.spelled hall rfl
  refine ⟨hhost.trans hsame, fun name d hd => ?_⟩
  have hn := Manifest.mem_dependencyNames hd
  obtain ⟨h₁, d', found, rfl, hd', hf, hl⟩ := hfound name hn
  cases hd.symm.trans hd'
  rw [find_of_path (hpaths name d hd)] at hf
  obtain ⟨own, version, hown, hp⟩ := findPath_eq_ok hf
  have hdir : i.directory h₁ d = m.directoryOf h₁ d := by
    simp [directory, root, hi, Manifest.directoryOf, Manifest.resolve]
  rw [hdir] at hown hp
  rw [hm.spelled name hn] at hp
  exact ⟨own, version, hown, by rw [hfind name hn, hl, hp]⟩

end Installer

theorem LockedPackage.isGit_linked (name version dir path checksum : Text) :
    (normalized ⟨name, version, pathSource ++ dir, path, checksum⟩).isGit = false := by
  obtain ⟨rest, hrest⟩ := Text.exists_trim_cons (b := Text.byte 'p') (by decide) (by decide)
    (by decide) (Text.ofString "ath:" ++ dir)
  have hsource : (normalized ⟨name, version, pathSource ++ dir, path, checksum⟩).source
      = Text.byte 'p' :: rest := hrest
  rw [isGit, hsource]
  rfl

namespace Command

variable {repository : Repository} {refresh : Text → Bool} {h h' : Host} {m : Manifest}

/-- After a run that touches no other file, the lock is there, with each package as it was found. -/
theorem Workplace.load_newLock {w : Workplace} {i : Installer} {changed : Bool}
    {p : Installer.Progress} (hw : load h = .ok w) (hi : i.manifest = some w.manifest)
    (hinstall : i.install h w.lock = (.ok changed, p)) (hhost : p.host = h)
    (hback : (w.newLock i h).toText.ReadsBack)
    (hend : (∃ l, p.lock.write p.host (Lockfile.pathFor w.manifest) = (.ok h', l)) ∨
      (changed = false ∧ w.created = false ∧ h' = p.host)) :
    ∃ lock, Lockfile.load h' (Lockfile.pathFor w.manifest) = .ok lock ∧
      lock.root = w.manifest.name ∧ ∀ n ∈ w.manifest.dependencyNames,
        lock.find? n = (p.lock.find? n).map LockedPackage.normalized := by
  obtain ⟨hmanifest, -, hroot, hlock⟩ := load_eq_ok hw
  obtain ⟨haccepted, -, root, hplain, hpath⟩ := Manifest.loadFor_eq_ok hmanifest
  rcases hend with ⟨l, hwrite⟩ | ⟨rfl, hcreated, rfl⟩
  · have hne : Lockfile.pathFor w.manifest ≠ [] := by
      rw [Manifest.pathFor_eq hplain hpath]
      exact Path.ne_nil_of_isAbsolute (Path.isAbsolute_ofPlace _)
    rw [newLock, hinstall] at hback
    refine ⟨_, Lockfile.load_write hne hwrite hback, ?_, fun n _ => ?_⟩
    · rw [Lockfile.root_stored, Installer.root_install hinstall, hroot, haccepted.root]
    · exact Lockfile.find?_stored (Installer.spelled_install hi hinstall (spelled_lock hw)) _ _ n
  · rcases hlock with ⟨-, l, hl, heq⟩ | ⟨hnew, -⟩
    · refine ⟨l, hhost ▸ hl, ?_, fun n hn => ?_⟩
      · rw [← hroot, heq]
      -- Nothing is new, so the lock that was loaded has all that was found.
      obtain ⟨p₁, hall, -, hfind⟩ := Installer.find?_install hi hinstall
      obtain ⟨_, hall', -, -, hchanged⟩ := Installer.install_eq_ok hi hinstall
      cases hall.symm.trans hall'
      have hnew := (Bool.or_eq_false_iff.mp hchanged.symm).1
      have hkept := (Installer.installAll_unchanged hall hnew).2
      have hsame : p.lock.find? n = l.find? n := by
        rw [hfind n hn, hkept, heq]
        rfl
      rw [hsame]
      match hp : l.find? n with
      | none => rfl
      | some q => rw [Option.map_some, Lockfile.normalized_of_load hl (Lockfile.mem_of_find? hp)]
    · rw [hcreated] at hnew
      cases hnew

/-- A run that touches no other file leaves every manifest as it was. -/
theorem Workplace.manifests_stay {w : Workplace} {changed : Bool} {p : Installer.Progress}
    (hw : load h = .ok w) (hhost : p.host = h)
    (hend : (∃ l, p.lock.write p.host (Lockfile.pathFor w.manifest) = (.ok h', l)) ∨
      (changed = false ∧ w.created = false ∧ h' = p.host)) :
    h'.cwd = h.cwd ∧ ∀ place own, Path.PlainPlace place →
      Manifest.load h (Path.join [Path.ofPlace place, Manifest.fileName]) = .ok own →
      Manifest.load h' (Path.join [Path.ofPlace place, Manifest.fileName]) = .ok own := by
  obtain ⟨-, -, root, hplain, hpath⟩ := Manifest.loadFor_eq_ok (load_eq_ok hw).1
  rcases hend with ⟨l, hwrite⟩ | ⟨-, -, rfl⟩
  · rw [Manifest.pathFor_eq hplain hpath, hhost] at hwrite
    have hput := Lockfile.write_ofPlace (hplain.concat (by decide)) hwrite
    obtain ⟨files, -, hfiles⟩ := Lockfile.host_write hput
    exact ⟨by rw [hfiles], fun place own hplace => Manifest.load_of_write hplace hplain hput⟩
  · rw [hhost]
    exact ⟨rfl, fun place own _ hl => hl⟩

/-- After a run for dependencies in directories the lock names each directory, and the packages
there are what they were. -/
theorem effect_linked (hm : Manifest.loadFor h "." = .ok m)
    (hpaths : ∀ name d, m.dependency? name = some d → d.isGit = false)
    (hback : ∀ w, Workplace.load h = .ok w →
      (w.newLock (w.installer repository refresh) h).toText.ReadsBack)
    (hok : effect repository refresh h = (0, h')) :
    ∃ lock, Project.loadLock h' m = .ok (some lock) ∧
      ∀ name d, m.dependency? name = some d → ∃ own p,
        Manifest.load h' (Path.join [m.directoryOf h' d, Manifest.fileName]) = .ok own ∧
        lock.find? name = some p ∧ p.isGit = false ∧ p.path = (m.directoryOf h' d).trim := by
  obtain ⟨w, hw, hout⟩ := effect_eq_ok hok
  obtain ⟨hmanifest, -⟩ := Workplace.load_eq_ok hw
  cases hm.symm.trans hmanifest
  obtain ⟨haccepted, -, root, hplain, hpath⟩ := Manifest.loadFor_eq_ok hm
  obtain ⟨changed, p, hinstall, hend⟩ := Workplace.outcome_eq_ok hout
  obtain ⟨hhost, hlinked⟩ := Installer.install_linked rfl haccepted hpaths hinstall
  obtain ⟨lock, hlock, hroot, hfind⟩ :=
    Workplace.load_newLock hw rfl hinstall hhost (hback w hw) hend
  have hstay := Workplace.manifests_stay hw hhost hend
  refine ⟨lock, ?_, fun name d hd => ?_⟩
  · simp only [Project.loadLock, hlock, hroot, if_true]
  · obtain ⟨own, version, hown, hp⟩ := hlinked name d hd
    obtain ⟨place, hplace, hdir⟩ := Manifest.directoryOf_eq hplain hpath h d
    have hdir' : w.manifest.directoryOf h' d = w.manifest.directoryOf h d := by
      rw [Manifest.directoryOf, Host.absolute, hstay.1]
      rfl
    rw [hfind name (Manifest.mem_dependencyNames hd), hp]
    refine ⟨own, _, ?_, rfl, LockedPackage.isGit_linked _ _ _ _ _, ?_⟩
    · rw [hdir', hdir]
      exact hstay.2 place own hplace (hdir ▸ hown)
    · rw [hdir']
      rfl

end Command

/-! ## What is loaded -/

namespace Session

variable {h : Host}

theorem dependencyPrelude_eq {lock : Lockfile} {name : Text} {p : LockedPackage} {own : Manifest}
    {place : Place} (hp : lock.find? name = some p) (hgit : p.isGit = false)
    (hpath : p.path = Path.ofPlace place) (hplace : Path.PlainPlace place)
    (hown : Manifest.load h (Path.join [Path.ofPlace place, Manifest.fileName]) = .ok own) :
    dependencyPrelude h (some lock) name
      = .ok (own.preludes.map (Manifest.scriptIn (Path.ofPlace place))) := by
  have hverify : p.verify h = .ok () := by simp [LockedPackage.verify, hgit]
  simp only [dependencyPrelude, Option.bind_some, hp, hverify, hpath, hown,
    Manifest.preludeOf_eq hplace hown]

/-- The preludes of dependencies are those of each, in order. -/
theorem dependencyPreludes_eq {lock : Option Lockfile} {own : Text → List Text → Prop}
    {names : List Text}
    (hown : ∀ n ∈ names, ∃ files, dependencyPrelude h lock n = .ok files ∧ own n files) :
    ∃ scripts, List.Forall₂ own names scripts ∧
      dependencyPreludes h lock names = .ok scripts.flatten := by
  induction names with
  | nil => exact ⟨[], .nil, rfl⟩
  | cons name names ih =>
    rw [List.forall_mem_cons] at hown
    obtain ⟨files, hfiles, hname⟩ := hown.1
    obtain ⟨scripts, hscripts, hrest⟩ := ih hown.2
    refine ⟨files :: scripts, .cons hname hscripts, ?_⟩
    rw [dependencyPreludes, hfiles, hrest]
    rfl

end Session

/-- The scripts are the prelude that a dependency has in the directory that the manifest points
at. -/
def Manifest.OwnPrelude (m : Manifest) (h : Host) (name : Text) (scripts : List Text) : Prop :=
  ∃ d own, m.dependency? name = some d ∧
    load h (Path.join [m.directoryOf h d, fileName]) = .ok own ∧
    scripts = own.preludes.map (scriptIn (m.directoryOf h d))

/-! ## A package with a dependency in a directory -/

namespace Command

/-- A machine with a package and a dependency in a directory of it. -/
def linking (dir : Text) : Host :=
  ⟨⟨[(["app"], .dir),
    (["app", "package.yml"], .file ("name: app\ndependencies:\n  lib: " ++ dir ++ "/\n")),
    (["app", dir], .dir),
    (["app", dir, "package.yml"], .file "name: lib\nversion: v1\nprelude: p.au\n")]⟩,
    "/app", [], [], []⟩

/-- The dependency, as the manifest of the package describes it. -/
def linkedDependency (dir : Text) : Dependency := ⟨dir ++ "/", [], [], [], []⟩

/-- The manifest of the package. -/
def linkingManifest (dir : Text) : Manifest :=
  ⟨"/app/package.yml", "app", [], [], [], [("lib", some (linkedDependency dir))], ⟨[], [], 0⟩⟩

/-- The manifest of the dependency. -/
def libManifest (dir : Text) : Manifest :=
  ⟨Path.ofPlace ["app", dir, "package.yml"], "lib", "v1", [], ["p.au"], [], ⟨[], [], 0⟩⟩

/-- A lock of the package. -/
def linkingLock (packages : List LockedPackage) : Lockfile :=
  ⟨"/app/package.lock", "app", [], toolVersion, packages.map some⟩

/-- The dependency as it is found. -/
def linkedLib (dir : Text) : LockedPackage :=
  ⟨"lib", "v1", LockedPackage.pathSource ++ Path.ofPlace ["app", dir], Path.ofPlace ["app", dir],
    []⟩

/-- The lock with the dependency, as it is written. -/
def linkingText (dir : Text) : LockText :=
  ⟨"app", [], toolVersion.trim, [(linkedLib dir).normalized]⟩

variable {dir : Text} {i : Installer}

theorem pathFor_app {m : Manifest} (hm : m.path = "/app/package.yml") :
    Lockfile.pathFor m = "/app/package.lock" :=
  Manifest.pathFor_eq (by decide : Path.PlainPlace ["app"]) hm

/-- What is read on that machine: the two manifests, and no lock. -/
theorem reads_linking (hdir : dir = "lib" ∨ dir = "lib ") :
    Manifest.loadFor (linking dir) "." = .ok (linkingManifest dir) ∧
      Manifest.load (linking dir) (Path.join [Path.ofPlace ["app", dir], Manifest.fileName])
        = .ok (libManifest dir) ∧
      Lockfile.load (linking dir) (Lockfile.pathFor (linkingManifest dir))
        = .error (.unreadable ⟨.opening, "/app/package.lock", .notFound⟩) ∧
      (linkingText dir).ReadsBack := by
  rcases hdir with rfl | rfl
  · decide +kernel
  · decide +kernel

theorem load_linking (hdir : dir = "lib" ∨ dir = "lib ") :
    Workplace.load (linking dir) = .ok ⟨linkingManifest dir, linkingLock [], true,
      Project.cacheDir (linking dir)⟩ := by
  obtain ⟨hm, -, hlock, -⟩ := reads_linking hdir
  have hnew : Workplace.lockOf (linking dir) (linkingManifest dir)
      = .ok (Lockfile.new (linking dir) "app" toolVersion, true) := by
    simp only [Workplace.lockOf, hlock]
    rfl
  rw [Workplace.load_of_lock hm hnew, pathFor_app rfl]
  rfl

theorem findPath_linking (hdir : dir = "lib" ∨ dir = "lib ")
    (hi : i.manifest = some (linkingManifest dir)) :
    ∃ log, i.findPath (linking dir) "lib" (linkedDependency dir) = .ok ⟨linkedLib dir, log⟩ := by
  have hroot : i.root = (linkingManifest dir).dir := by rw [Installer.root, hi, Option.elim_some]
  have hpath : i.directory (linking dir) (linkedDependency dir) = Path.ofPlace ["app", dir] := by
    rw [Installer.directory, hroot]
    rcases hdir with rfl | rfl
    · rfl
    · rfl
  have hinspect : (linking dir).inspect (Path.ofPlace ["app", dir]) = .ok (["app", dir], .dir) := by
    rcases hdir with rfl | rfl
    · rfl
    · rfl
  exact Installer.findPath_of_load hpath hinspect (reads_linking hdir).2.1 "lib"

theorem install_linking (hdir : dir = "lib" ∨ dir = "lib ")
    (hi : i.manifest = some (linkingManifest dir)) :
    ∃ log, i.install (linking dir) (linkingLock []) =
      (.ok true, ⟨linking dir, linkingLock [linkedLib dir], true, [log]⟩) := by
  obtain ⟨log, hfound⟩ := findPath_linking hdir hi
  have hd : (linkingManifest dir).dependency? "lib" = some (linkedDependency dir) := rfl
  have hpath : (linkedDependency dir).isGit = false := rfl
  have hone : i.installOne (linkingManifest dir) ⟨linking dir, linkingLock [], false, []⟩ "lib" =
      (.ok (), ⟨linking dir, linkingLock [linkedLib dir], true, [log]⟩) := by
    simp only [Installer.installOne, hd, Installer.find_of_path hpath, hfound]
    rfl
  have hnames : (linkingManifest dir).dependencyNames = [Text.ofString "lib"] := rfl
  have hretain : (linkingLock [linkedLib dir]).retain [Text.ofString "lib"]
      = (false, linkingLock [linkedLib dir]) := rfl
  have hsort : Lockfile.sortPackages [linkedLib dir] = [linkedLib dir] := List.mergeSort_singleton _
  refine ⟨log, ?_⟩
  simp only [Installer.install, hi, hnames, Installer.installAll, hone, hretain]
  rw [linkingLock, Lockfile.present_map_some, hsort]
  rfl

theorem toText_linking (dir path : Text) :
    ((linkingLock [linkedLib dir]).stamped (linking dir) path).toText = linkingText dir := by
  have hroot : Text.packageName "app" = "app" := rfl
  simp [linkingLock, linkingText, linking, Lockfile.stamped, Lockfile.toText, Lockfile.normalized,
    Lockfile.present, Lockfile.sortPackages, hroot]

/-- The machine with a lock of the package. -/
def withLock (dir content : Text) : Host :=
  { linking dir with files := (linking dir).files.put ["app", "package.lock"] (.file content) }

theorem write_linking (hdir : dir = "lib" ∨ dir = "lib ") (content : Text) :
    (linking dir).write "/app/package.lock" content = .ok (withLock dir content) := by
  rcases hdir with rfl | rfl
  · rfl
  · rfl

/-- Installing ends well, and the lock is all that is new. -/
theorem effect_linking (hdir : dir = "lib" ∨ dir = "lib ") (repository : Repository)
    (refresh : Text → Bool) :
    effect repository refresh (linking dir) = (0, withLock dir (linkingText dir).toYaml) := by
  obtain ⟨log, hinstall⟩ := install_linking hdir
    (i := Workplace.installer ⟨linkingManifest dir, linkingLock [], true,
      Project.cacheDir (linking dir)⟩ repository refresh) rfl
  have hpath : Lockfile.pathFor (linkingManifest dir) = "/app/package.lock" := pathFor_app rfl
  have habs : (linking dir).absolute "/app/package.lock" = "/app/package.lock" := rfl
  have hwrite := Lockfile.write_of_ok (h := linking dir) (l := linkingLock [linkedLib dir])
    (by decide) (habs.symm ▸ write_linking hdir _)
  rw [effect_of_load (load_linking hdir), Workplace.outcome_of_write hinstall (hpath.symm ▸ hwrite),
    toText_linking]
  rfl

theorem install_linked_lib (hdir : dir = "lib" ∨ dir = "lib ") (repository : Repository) :
    (install repository (Console.new (linking dir) [])).1 = 0 ∧
      (install repository (Console.new (linking dir) [])).2.host
        = withLock dir (linkingText dir).toYaml := by
  have hboth := (install_effect repository (Console.new (linking dir) [])).trans
    (effect_linking hdir repository fun _ => false)
  exact Prod.mk.inj hboth

theorem dependency_linking {name : Text} {d : Dependency}
    (hd : (linkingManifest dir).dependency? name = some d) :
    name = "lib" ∧ d = linkedDependency dir := by
  have hname : name = "lib" := List.mem_singleton.mp (Manifest.mem_dependencyNames hd)
  subst hname
  have hlib : (linkingManifest dir).dependency? "lib" = some (linkedDependency dir) := rfl
  exact ⟨rfl, Option.some.inj (hd.symm.trans hlib)⟩

theorem isGit_linking (name : Text) (d : Dependency)
    (hd : (linkingManifest dir).dependency? name = some d) : d.isGit = false := by
  rw [(dependency_linking hd).2]
  rfl

theorem directoryOf_linking (hdir : dir = "lib" ∨ dir = "lib ") (content : Text) :
    (linkingManifest dir).directoryOf (withLock dir content) (linkedDependency dir)
      = Path.ofPlace ["app", dir] := by
  rcases hdir with rfl | rfl
  · rfl
  · rfl

theorem load_linked (hdir : dir = "lib" ∨ dir = "lib ") (content : Text) :
    Manifest.load (withLock dir content) (Path.join [Path.ofPlace ["app", dir], Manifest.fileName])
      = .ok (libManifest dir) := by
  have hplace : Path.PlainPlace ["app", dir] := by
    rcases hdir with rfl | rfl
    · decide
    · decide
  exact Manifest.load_of_write hplace (by decide : Path.PlainPlace ["app"])
    (write_linking hdir content) (reads_linking hdir).2.1

/-- No package lies in the directory whose name has no blank. -/
theorem load_unlinked (content : Text) : Manifest.load (withLock "lib " content)
    (Path.join [Path.ofPlace ["app", "lib"], Manifest.fileName])
      = .error (.unreadable "/app/lib/package.yml"
        ⟨.opening, "/app/lib/package.yml", .notFound⟩) := by
  have hmanifest : Path.join [Path.ofPlace ["app", "lib"], Manifest.fileName]
      = Text.ofString "/app/lib/package.yml" := rfl
  have habs : (withLock "lib " content).absolute "/app/lib/package.yml"
      = "/app/lib/package.yml" := rfl
  have hread : (withLock "lib " content).read "/app/lib/package.yml"
      = .error ⟨.opening, "/app/lib/package.yml", .notFound⟩ := rfl
  rw [hmanifest]
  simp only [Manifest.load, habs, hread]
  rfl

theorem readsBack_linking (hdir : dir = "lib" ∨ dir = "lib ") {w : Workplace}
    (hw : Workplace.load (linking dir) = .ok w) (repository : Repository)
    (refresh : Text → Bool) :
    (w.newLock (w.installer repository refresh) (linking dir)).toText.ReadsBack := by
  cases (load_linking hdir).symm.trans hw
  obtain ⟨log, hinstall⟩ := install_linking hdir
    (i := Workplace.installer ⟨linkingManifest dir, linkingLock [], true,
      Project.cacheDir (linking dir)⟩ repository refresh) rfl
  simp only [Workplace.newLock, hinstall, toText_linking]
  exact (reads_linking hdir).2.2.2

/-! ## Installing and loading -/

variable {repository : Repository} {c : Console} {m : Manifest}

/-- After dependencies in directories were installed, the lock is found, and it names each of the
directories without the blanks around its path. Where there are no such blanks, the preludes are
those of the dependencies in order, and the one of the package last. -/
theorem installed_preludes (hm : Manifest.loadFor c.host "." = .ok m)
    (hpaths : ∀ name d, m.dependency? name = some d → d.isGit = false)
    (hback : ∀ w, Workplace.load c.host = .ok w →
      (w.newLock (w.installer repository fun _ => false) c.host).toText.ReadsBack)
    (hok : (install repository c).1 = 0) :
    ∃ lock, Project.loadLock (install repository c).2.host m = .ok (some lock) ∧
      (∀ name d, m.dependency? name = some d → ∃ p, lock.find? name = some p ∧
        p.path = (m.directoryOf (install repository c).2.host d).trim) ∧
      ((∀ name d, m.dependency? name = some d →
          (m.directoryOf (install repository c).2.host d).trim
            = m.directoryOf (install repository c).2.host d) →
        m.dependencyNames.Pairwise (· < ·) ∧ ∃ scripts,
          List.Forall₂ (m.OwnPrelude (install repository c).2.host) m.dependencyNames scripts ∧
          (Session.new (some m) (some lock)).preludeFiles (install repository c).2.host
            = .ok (scripts.flatten ++ Session.preludeOf m)) := by
  have heffect := install_effect repository c
  rw [hok] at heffect
  obtain ⟨haccepted, -, root, hplain, hpath⟩ := Manifest.loadFor_eq_ok hm
  obtain ⟨lock, hlock, hlinked⟩ := effect_linked hm hpaths hback heffect.symm
  refine ⟨lock, hlock, fun name d hd => ?_, fun hblank => ⟨haccepted.sorted, ?_⟩⟩
  · obtain ⟨-, p, -, hp, -, hdir⟩ := hlinked name d hd
    exact ⟨p, hp, hdir⟩
  · have hown : ∀ name ∈ m.dependencyNames, ∃ files,
        Session.dependencyPrelude (install repository c).2.host (some lock) name = .ok files ∧
        m.OwnPrelude (install repository c).2.host name files := by
      intro name hn
      obtain ⟨d, hd⟩ := haccepted.described name hn
      obtain ⟨own, p, hown, hp, hgit, hdir⟩ := hlinked name d hd
      obtain ⟨place, hplace, hspelled⟩ :=
        Manifest.directoryOf_eq hplain hpath (install repository c).2.host d
      rw [hblank name d hd, hspelled] at hdir
      refine ⟨_, Session.dependencyPrelude_eq hp hgit hdir hplace (hspelled ▸ hown), d, own, hd,
        hown, ?_⟩
      rw [hspelled]
    obtain ⟨scripts, hscripts, hall⟩ := Session.dependencyPreludes_eq hown
    refine ⟨scripts, hscripts, ?_⟩
    show (Session.dependencyPreludes _ (some lock) m.dependencyNames >>= _) = _
    rw [hall]
    rfl

/-- A dependency whose directory has no blanks around its path is loaded from there. -/
theorem installed_preludes_lib :
    Manifest.loadFor (linking "lib") "." = .ok (linkingManifest "lib") ∧ ∀ repository,
    (install repository (Console.new (linking "lib") [])).1 = 0 ∧ ∃ lock,
      Project.loadLock (install repository (Console.new (linking "lib") [])).2.host
        (linkingManifest "lib") = .ok (some lock) ∧
      (Session.new (some (linkingManifest "lib")) (some lock)).preludeFiles
        (install repository (Console.new (linking "lib") [])).2.host
          = .ok ["/app/lib/p.au"] := by
  have hlib : Text.ofString "lib" = "lib" ∨ Text.ofString "lib" = "lib " := Or.inl rfl
  refine ⟨(reads_linking hlib).1, fun repository => ?_⟩
  obtain ⟨hok, hhost⟩ := install_linked_lib hlib repository
  have hm : Manifest.loadFor (Console.new (linking "lib") []).host "."
      = .ok (linkingManifest "lib") := (reads_linking hlib).1
  obtain ⟨lock, hlock, -, hpreludes⟩ := installed_preludes hm isGit_linking
    (fun w hw => readsBack_linking hlib hw repository _) hok
  refine ⟨hok, lock, hlock, ?_⟩
  rw [hhost] at hpreludes ⊢
  obtain ⟨-, scripts, hscripts, hfiles⟩ := hpreludes fun name d hd => by
    rw [(dependency_linking hd).2, directoryOf_linking hlib]
    rfl
  have hnames : (linkingManifest "lib").dependencyNames = [Text.ofString "lib"] := rfl
  rw [hnames, List.forall₂_cons_left_iff] at hscripts
  obtain ⟨files, rest, ⟨d, own, hd, hown, rfl⟩, hrest, rfl⟩ := hscripts
  cases List.forall₂_nil_left_iff.mp hrest
  rw [(dependency_linking hd).2, directoryOf_linking hlib] at hown hfiles
  cases (load_linked hlib _).symm.trans hown
  rw [hfiles]
  rfl

/-- The directory of a dependency is not found again if its name ends in a blank. -/
theorem installed_not_loaded :
    Manifest.loadFor (linking "lib ") "." = .ok (linkingManifest "lib ") ∧ ∀ repository,
    (install repository (Console.new (linking "lib ") [])).1 = 0 ∧ ∃ lock,
      Project.loadLock (install repository (Console.new (linking "lib ") [])).2.host
        (linkingManifest "lib ") = .ok (some lock) ∧
      (Session.new (some (linkingManifest "lib ")) (some lock)).preludeFiles
        (install repository (Console.new (linking "lib ") [])).2.host
          = .error (.badDependency "lib" (.unreadable "/app/lib/package.yml"
            ⟨.opening, "/app/lib/package.yml", .notFound⟩)) := by
  have hlib : Text.ofString "lib " = "lib" ∨ Text.ofString "lib " = "lib " := Or.inr rfl
  refine ⟨(reads_linking hlib).1, fun repository => ?_⟩
  obtain ⟨hok, hhost⟩ := install_linked_lib hlib repository
  have heffect := install_effect repository (Console.new (linking "lib ") [])
  rw [hok, hhost] at heffect
  obtain ⟨lock, hlock, hlinked⟩ := effect_linked ((reads_linking hlib).1) isGit_linking
    (fun w hw => readsBack_linking hlib hw repository _) heffect.symm
  obtain ⟨-, p, -, hp, hgit, hpath⟩ := hlinked "lib" _ rfl
  rw [directoryOf_linking hlib, show (Path.ofPlace ["app", "lib "]).trim
    = Path.ofPlace ["app", "lib"] from rfl] at hpath
  have hverify : p.verify (withLock "lib " (linkingText "lib ").toYaml) = .ok () := by
    simp [LockedPackage.verify, hgit]
  refine ⟨hok, lock, hhost ▸ hlock, ?_⟩
  rw [hhost]
  show (Session.dependencyPreludes _ (some lock) ["lib"] >>= _) = _
  rw [Session.dependencyPreludes, Session.dependencyPrelude]
  simp only [Option.bind_some, hp, hverify, hpath, load_unlinked]
  rfl

end Command

end Borealis
