-- Installing tells exactly whether the lock has changed. Where nothing had to
-- be fetched, installing once more finds every dependency as it is locked.
import Borealis.Proofs.Installed

namespace Borealis

/-- Packages that were retained are retained again. -/
theorem Lockfile.retain_again {l l' : Lockfile} {names : List Text}
    (hl : l.packages = (sortPackages (l'.retain names).2.present).map some) :
    l.retain names = (false, l) := by
  have hkept : (l.retain names).2.packages = l.packages := by
    refine List.filter_eq_self.mpr fun entry hentry => ?_
    rw [hl] at hentry
    obtain ⟨p, hp, rfl⟩ := List.mem_map.mp hentry
    rw [(perm_sortPackages _).mem_iff, present_retain] at hp
    exact (List.mem_filter.mp hp).2
  have hfirst : (l.retain names).1 = false := by
    show ((l.retain names).2.packages.length != l.packages.length) = false
    rw [hkept, bne_self_eq_false]
  exact Prod.ext hfirst (congrArg (fun packages => { l with packages := packages }) hkept)

namespace Installer

variable {i : Installer} {m : Manifest} {names : List Text} {p p' : Progress} {h : Host}
  {lock : Lockfile} {changed : Bool} {name : Text} {d : Dependency}
  {current : Option LockedPackage} {found : Found}

/-! ## What the result tells -/

/-- If each dependency is locked as before, nothing was new. -/
theorem changed_installAll (hnodup : names.Nodup) (hspelled : ∀ n ∈ names, n.packageName = n)
    (hall : i.installAll m names p = (.ok (), p'))
    (hsame : ∀ n ∈ names, p'.lock.find? n = p.lock.find? n) : p'.changed = p.changed := by
  induction names generalizing p with
  | nil =>
    cases hall
    rfl
  | cons name names ih =>
    rw [List.nodup_cons] at hnodup
    rw [List.forall_mem_cons] at hspelled hsame
    unfold installAll at hall
    split at hall
    · cases hall
    rename_i p₁ hone
    obtain ⟨d, found, -, hfind, -, hput, hchanged⟩ := installOne_eq_ok hone
    have hne := packageName_ne hnodup.1 hspelled.1 hspelled.2
    have hlocked : p.lock.find? name = some found.package := by
      rw [← hsame.1, find?_installAll_of_not_mem (fun n hn => (hne n hn).symm) hall, hput,
        Lockfile.find?_put_self _ (found_name hfind).symm]
    have hlock : p₁.lock = p.lock := hput.trans (Lockfile.put_of_find? hlocked)
    rw [ih hnodup.2 hspelled.2 hall (hlock ▸ hsame.2), hchanged, hlocked]
    simp

/-- The result is `false` exactly if the packages of a lock in order are what they were. -/
theorem install_changed_iff (hi : i.manifest = some m) (hm : m.Accepted)
    (hok : i.install h lock = (.ok changed, p')) (hpresent : lock.packages = lock.present.map some)
    (hsorted : (lock.present.map LockedPackage.name).Pairwise (· ≤ ·)) :
    changed = false ↔ p'.lock.packages = lock.packages := by
  constructor
  · rintro rfl
    rw [install_unchanged hi hok hpresent hsorted]
  · intro hsame
    obtain ⟨p, hall, -, hp', hchanged⟩ := install_eq_ok hi hok
    obtain ⟨q, hq, -, hfind⟩ := find?_install hi hok
    cases hall.symm.trans hq
    have hlocked : ∀ n ∈ m.dependencyNames, p.lock.find? n = lock.find? n := by
      intro n hn
      rw [← hfind n hn, Lockfile.find?, Lockfile.find?, hsame]
    have hnew : p.changed = false := changed_installAll hm.nodup hm.spelled hall hlocked
    rw [(installAll_unchanged hall hnew).2] at hp' hchanged
    -- The packages are the retained ones, so none was dropped.
    rw [hp'] at hsame
    rw [hchanged, hnew, Lockfile.retain_again hsame.symm]
    rfl

/-! ## Installing once more -/

/-- The dependency is found as it is locked, and finding it does nothing to the files. -/
def FoundAsLocked (i : Installer) (m : Manifest) (h : Host) (lock : Lockfile) (name : Text) :
    Prop :=
  ∃ d found, m.dependency? name = some d ∧ i.find h name d (lock.find? name) = (.ok found, h) ∧
    lock.find? name = some found.package

/-- Where each dependency is found as it is locked, the lock stays as it is. -/
theorem installAll_of_locked (hfound : ∀ n ∈ names, i.FoundAsLocked m p.host p.lock n) :
    ∃ logs, i.installAll m names p = (.ok (), { p with logs := logs }) := by
  induction names generalizing p with
  | nil => exact ⟨p.logs, rfl⟩
  | cons name names ih =>
    rw [List.forall_mem_cons] at hfound
    obtain ⟨⟨d, found, hd, hfind, hlocked⟩, hrest⟩ := hfound
    have hone : i.installOne m p name = (.ok (), { p with logs := p.logs ++ [found.log] }) := by
      simp only [installOne, hd, hfind, Lockfile.put_of_find? hlocked]
      rw [hlocked]
      simp
    obtain ⟨logs, hall⟩ := ih (p := { p with logs := p.logs ++ [found.log] }) hrest
    refine ⟨logs, ?_⟩
    rw [installAll, hone]
    exact hall

/-- Installing a lock that was just made changes nothing if each dependency is found as it is
locked. -/
theorem install_of_locked (hi : i.manifest = some m) (hok : i.install h lock = (.ok changed, p))
    (hfound : ∀ n ∈ m.dependencyNames, i.FoundAsLocked m h p.lock n) :
    ∃ p', i.install h p.lock = (.ok false, p') ∧ p'.lock = p.lock ∧ p'.host = h := by
  obtain ⟨q, -, -, hlock, -⟩ := install_eq_ok hi hok
  have hpackages : p.lock.packages = (Lockfile.sortPackages
      (q.lock.retain m.dependencyNames).2.present).map some := by rw [hlock]
  have hagain := Lockfile.retain_again hpackages
  have hsorted : (Lockfile.sortPackages p.lock.present).map some = p.lock.packages := by
    rw [hlock, Lockfile.present_map_some,
      Lockfile.sortPackages_of_sorted (Lockfile.sorted_sortPackages _)]
  obtain ⟨logs, hall⟩ := installAll_of_locked (p := ⟨h, p.lock, false, []⟩) hfound
  refine ⟨⟨h, p.lock, false, logs⟩, ?_, rfl, rfl⟩
  simp only [install, hi, hall, hagain, hsorted, Bool.or_false]

/-! ## Runs that fetch nothing -/

/-- The installer with another repository to ask. -/
def asking (i : Installer) (repository : Repository) : Installer :=
  { i with repository := repository }

/-- No repository is asked: with any other one, installing comes to the same. -/
def FetchesNothing (i : Installer) (h : Host) (lock : Lockfile) : Prop :=
  ∀ repository, (i.asking repository).install h lock = i.install h lock

/-- The repository that has nothing. -/
def nowhere : Repository := fun _ _ => .error []

theorem fetch_nowhere (i : Installer) (h : Host) (name : Text) (d : Dependency)
    (p : LockedPackage) : ((i.asking nowhere).fetch h name d).1 ≠ .ok p := by
  intro hp
  unfold fetch at hp
  dsimp only at hp
  split at hp
  · cases hp
  split at hp
  · cases hp
  split at hp
  · cases hp
  · cases hp

theorem restore_nowhere (i : Installer) (h : Host) (name : Text) (d : Dependency)
    (p : LockedPackage) (found : Found) :
    ((i.asking nowhere).restore h name d p).1 ≠ .ok found := by
  intro hfound
  unfold restore at hfound
  split at hfound
  · cases hfound
  · rename_i hfetch
    exact fetch_nowhere _ _ _ _ _ (congrArg Prod.fst hfetch)

theorem fetchNew_nowhere (i : Installer) (h : Host) (name : Text) (d : Dependency)
    (found : Found) : ((i.asking nowhere).fetchNew h name d).1 ≠ .ok found := by
  intro hfound
  unfold fetchNew at hfound
  split at hfound
  · cases hfound
  · rename_i hfetch
    exact fetch_nowhere _ _ _ _ _ (congrArg Prod.fst hfetch)

/-- What is taken without a repository is locked already. It is taken with any repository, and
nothing happens to the files. -/
theorem findGit_nowhere (hfound : ((i.asking nowhere).findGit h name d current).1 = .ok found) :
    current = some found.package ∧
      ∀ repository, (i.asking repository).findGit h name d current = (.ok found, h) := by
  unfold findGit at hfound
  split at hfound
  · cases hfound
  rename_i hcache
  split at hfound
  case h_2 => exact absurd hfound (fetchNew_nowhere i h name d found)
  rename_i p
  split at hfound
  case isFalse => exact absurd hfound (fetchNew_nowhere i h name d found)
  rename_i hreuse
  unfold reuse at hfound
  split at hfound
  case h_1 => exact absurd hfound (restore_nowhere i h name d p found)
  rename_i hinspect
  split at hfound
  · rename_i hverify
    cases hfound
    refine ⟨rfl, fun repository => ?_⟩
    dsimp only [asking] at hcache hreuse
    simp only [findGit, reuse, asking, hcache, hreuse, hinspect, hverify, Bool.false_eq_true,
      if_false, if_true]
  · split at hfound
    · cases hfound
    · exact absurd hfound (restore_nowhere i _ name d p found)

/-- What is found without a repository is found there once more when it is locked. -/
theorem find_nowhere (hfound : ((i.asking nowhere).find h name d current).1 = .ok found) :
    ((i.asking nowhere).find h name d current).2 = h ∧
      i.find h name d (some found.package) = (.ok found, h) := by
  match hgit : d.isGit with
  | false =>
    rw [find_of_path hgit] at hfound ⊢
    rw [find_of_path hgit]
    exact ⟨rfl, congrArg (·, h) hfound⟩
  | true =>
    have hfind : ∀ (j : Installer) current, j.find h name d current = j.findGit h name d current :=
      fun j current => by rw [find, hgit, if_pos rfl]
    rw [hfind] at hfound ⊢
    obtain ⟨hlocked, hany⟩ := findGit_nowhere hfound
    rw [hfind, ← hlocked, hany]
    exact ⟨rfl, hany i.repository⟩

/-- Where nothing is fetched, each dependency is found once more as it is locked then. -/
theorem found_again (hi : i.manifest = some m) (hm : m.Accepted)
    (hnone : i.FetchesNothing h lock) (hok : i.install h lock = (.ok changed, p)) :
    p.host = h ∧ ∀ n ∈ m.dependencyNames, i.FoundAsLocked m h p.lock n := by
  obtain ⟨q, hall, hhost, hfind⟩ := find?_install (i := i.asking nowhere) hi
    ((hnone nowhere).trans hok)
  have hstay : ∀ h₁ name d current found, m.dependency? name = some d → h₁ = h →
      ((i.asking nowhere).find h₁ name d current).1 = .ok found →
      ((i.asking nowhere).find h₁ name d current).2 = h := by
    intro h₁ name d current found _ hh hfound
    exact (find_nowhere hfound).1.trans hh
  obtain ⟨hsame, hfound⟩ := installAll_found hstay hm.nodup hm.spelled hall rfl
  refine ⟨hhost.trans hsame, fun n hn => ?_⟩
  obtain ⟨h₁, d, found, rfl, hd, hf, hl⟩ := hfound n hn
  unfold FoundAsLocked
  rw [hfind n hn, hl]
  exact ⟨d, found, hd, (find_nowhere hf).2, rfl⟩

/-- Dependencies in directories are not fetched. -/
theorem fetchesNothing_of_paths (hi : i.manifest = some m)
    (hpaths : ∀ name d, m.dependency? name = some d → d.isGit = false) (h : Host)
    (lock : Lockfile) : i.FetchesNothing h lock := by
  intro repository
  have hone : ∀ p name, (i.asking repository).installOne m p name = i.installOne m p name := by
    intro p name
    unfold installOne
    split
    · rfl
    · rename_i d hd
      dsimp only
      rw [find_of_path (hpaths name d hd), find_of_path (hpaths name d hd)]
      rfl
  have hall : ∀ names p, (i.asking repository).installAll m names p = i.installAll m names p := by
    intro names
    induction names with
    | nil => exact fun p => rfl
    | cons name names ih =>
      intro p
      unfold installAll
      rw [hone]
      simp only [ih]
  have hasking : (i.asking repository).manifest = some m := hi
  simp only [install, hi, hasking, hall]

end Installer

/-! ## A lock with a package that stands twice -/

namespace Command

/-- A package that is no dependency any more, and two versions of the dependency. -/
def doubledPackages : List LockedPackage :=
  [⟨"gone", "v1", "path:/gone", "/gone", []⟩, ⟨"lib", "v0", "path:/old", "/old", []⟩,
    ⟨"lib", "v2", "path:/app/lib", "/app/lib", []⟩]

/-- The lock with these packages. -/
def doubledText : Text :=
  Text.ofString "root: app\npackages:\n" ++
    "  - name: gone\n    version: v1\n    source: path:/gone\n    path: /gone\n" ++
    "  - name: lib\n    version: v0\n    source: path:/old\n    path: /old\n" ++
    "  - name: lib\n    version: v2\n    source: path:/app/lib\n    path: /app/lib\n"

/-- The machine with that lock. -/
def doubled : Host := withLock "lib" doubledText

/-- What is read from the lock. -/
theorem reads_doubled : LockText.ofYaml doubledText = .ok ⟨"app", [], [], doubledPackages⟩ ∧
    doubledPackages.map LockedPackage.normalized = doubledPackages ∧
    (doubledPackages.map LockedPackage.name).Pairwise (· ≤ ·) := by
  decide +kernel

theorem load_doubledText {h : Host}
    (hread : h.read (h.absolute "/app/package.lock") = .ok doubledText) :
    ∃ lock, Lockfile.load h "/app/package.lock" = .ok lock ∧ lock.root = "app" ∧
      lock.packages = doubledPackages.map some := by
  obtain ⟨htext, hnormal, hsorted⟩ := reads_doubled
  have hroot : Text.packageName "app" = "app" := rfl
  have hload := Lockfile.load_eq_ok_iff.mpr ⟨by decide, _, _, hread, htext, rfl⟩
  refine ⟨_, hload, hroot, ?_⟩
  rw [Lockfile.packages_of_load hload, Lockfile.present_toLockfile, hnormal,
    Lockfile.sortPackages_of_sorted hsorted]

/-- The dependency is found in its directory. -/
theorem findPath_lib {i : Installer} {h : Host} (hroot : i.root = Path.ofPlace ["app"])
    (hinspect : h.inspect (Path.ofPlace ["app", "lib"]) = .ok (["app", "lib"], .dir))
    (hload : Manifest.load h (Path.join [Path.ofPlace ["app", "lib"], Manifest.fileName])
      = .ok (libManifest "lib")) :
    ∃ log, i.findPath h "lib" (linkedDependency "lib") = .ok ⟨linkedLib "lib", log⟩ := by
  have hdir : i.directory h (linkedDependency "lib") = Path.ofPlace ["app", "lib"] := by
    rw [Installer.directory, hroot]
    rfl
  exact Installer.findPath_of_load hdir hinspect hload "lib"

/-- The packages after installing: the first of the two versions is the one in the directory. -/
def settledPackages : List LockedPackage :=
  [linkedLib "lib", ⟨"lib", "v2", "path:/app/lib", "/app/lib", []⟩]

theorem installOne_doubled {i : Installer} {m : Manifest} {h : Host} {lock : Lockfile} {log : Text}
    (hd : m.dependency? "lib" = some (linkedDependency "lib"))
    (hfound : i.findPath h "lib" (linkedDependency "lib") = .ok ⟨linkedLib "lib", log⟩)
    (hlock : lock.packages = doubledPackages.map some) :
    i.installOne m ⟨h, lock, false, []⟩ "lib" = (.ok (), ⟨h,
      { lock with packages := (doubledPackages.take 1 ++ settledPackages).map some }, true,
      [log]⟩) := by
  have hpath : (linkedDependency "lib").isGit = false := rfl
  obtain ⟨path, root, generated, tool, packages⟩ := lock
  subst hlock
  simp only [Installer.installOne, hd, Installer.find_of_path hpath, hfound]
  rfl

theorem install_doubled {i : Installer} (hi : i.manifest = some (linkingManifest "lib"))
    {lock : Lockfile} (hlock : lock.packages = doubledPackages.map some) :
    ∃ p, i.install doubled lock = (.ok true, p) ∧ p.lock.packages = settledPackages.map some := by
  have hroot : i.root = Path.ofPlace ["app"] := by
    rw [Installer.root, hi, Option.elim_some]
    rfl
  obtain ⟨log, hfound⟩ := findPath_lib (h := doubled) hroot rfl
    (load_linked (Or.inl rfl : Text.ofString "lib" = "lib" ∨ _) doubledText)
  have hone := installOne_doubled (m := linkingManifest "lib") rfl hfound hlock
  have hnames : (linkingManifest "lib").dependencyNames = [Text.ofString "lib"] := rfl
  have hretain : Lockfile.retain
      { lock with packages := (doubledPackages.take 1 ++ settledPackages).map some }
      [Text.ofString "lib"] = (true, { lock with packages := settledPackages.map some }) := rfl
  have hsorted : (settledPackages.map LockedPackage.name).Pairwise (· ≤ ·) := by decide
  refine ⟨⟨doubled, { lock with packages := settledPackages.map some }, true, [log]⟩, ?_, rfl⟩
  simp only [Installer.install, hi, hnames, Installer.installAll, hone, hretain,
    Lockfile.present_map_some, Lockfile.sortPackages_of_sorted hsorted]
  rfl

end Command

/-! ## Installing tells whether the lock has changed -/

/-- Installing a lock as it is loaded gives `false` exactly if each of its packages is what it was.
If nothing had to be fetched, no file has changed, and installing once more gives `false` and
leaves the lock as it is. -/
theorem Installer.install_tells_changes {i : Installer} {m : Manifest} {lock : Lockfile}
    {h h₀ h₁ : Host} {path lockPath : Text} {changed : Bool} {p : Progress}
    (hm : Manifest.load h₀ path = .ok m) (hlock : Lockfile.load h₁ lockPath = .ok lock)
    (hi : i.manifest = some m) (hok : i.install h lock = (.ok changed, p)) :
    (changed = false ↔ p.lock.packages = lock.packages) ∧
    (i.FetchesNothing h lock → p.host = h ∧
      ∃ p', i.install h p.lock = (.ok false, p') ∧ p'.lock = p.lock ∧ p'.host = h) := by
  have haccepted := (Manifest.load_eq_ok hm).2.1
  refine ⟨?_, fun hnone => ?_⟩
  · exact install_changed_iff hi haccepted hok (Lockfile.packages_of_load hlock)
      (Lockfile.sorted_of_load hlock)
  · obtain ⟨hhost, hfound⟩ := found_again hi haccepted hnone hok
    exact ⟨hhost, install_of_locked hi hok hfound⟩

/-- The dependency stands twice in the lock. Installing changes it once, and then no more. -/
theorem Command.doubled_settles : ∃ lock p p',
    Lockfile.load doubled "/app/package.lock" = .ok lock ∧
    lock.packages = doubledPackages.map some ∧
    Installer.install ⟨some (linkingManifest "lib"), [], Installer.nowhere, fun _ => false⟩
      doubled lock = (.ok true, p) ∧
    p.lock.packages = settledPackages.map some ∧ p.lock.packages ≠ lock.packages ∧
    Installer.install ⟨some (linkingManifest "lib"), [], Installer.nowhere, fun _ => false⟩
      doubled p.lock = (.ok false, p') ∧
    p'.lock.packages = settledPackages.map some := by
  obtain ⟨-, ⟨path, -, hm⟩, -⟩ :=
    Manifest.loadFor_eq_ok (reads_linking (Or.inl rfl : Text.ofString "lib" = "lib" ∨ _)).1
  obtain ⟨lock, hlock, -, hpackages⟩ := load_doubledText (h := doubled) rfl
  obtain ⟨p, hok, hp⟩ := install_doubled
    (i := ⟨some (linkingManifest "lib"), [], Installer.nowhere, fun _ => false⟩) rfl hpackages
  obtain ⟨hchanged, hagain⟩ := Installer.install_tells_changes hm hlock rfl hok
  obtain ⟨-, p', hok', hlock', -⟩ := hagain
    (Installer.fetchesNothing_of_paths rfl isGit_linking doubled lock)
  refine ⟨lock, p, p', hlock, hpackages, hok, hp, fun hsame => ?_, hok', hlock' ▸ hp⟩
  exact absurd (hchanged.mpr hsame) (by decide)

end Borealis
