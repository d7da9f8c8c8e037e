-- What installing finds, and what it can do to files on the way. A checkout is
-- made in the cache, where its name and version lead, and a locked package
-- that was changed is removed where its path leads. Nothing else is touched.
import Borealis.Install
import Borealis.Proofs.Locks

namespace Borealis

/-! ## Machines -/

/-- The machine stays as it is but for its files, and those stay but for the free places and new
directories on the way. -/
structure Host.Keeps (free way : Place → Prop) (h h' : Host) : Prop where
  machine : h' = { h with files := h'.files }
  files : h.files.Keeps free way h'.files

namespace Host.Keeps

variable {free way free' way' : Place → Prop} {h h' h'' : Host}

theorem refl (h : Host) : h.Keeps free way h := ⟨rfl, .refl h.files⟩

theorem of_files {files : FileTree} (hf : h.files.Keeps free way files) :
    h.Keeps free way { h with files := files } := ⟨rfl, hf⟩

theorem trans (h₁ : h.Keeps free way h') (h₂ : h'.Keeps free way h'') : h.Keeps free way h'' := by
  refine ⟨?_, h₁.files.trans h₂.files⟩
  rw [h₂.machine, h₁.machine]

theorem mono (hk : h.Keeps free way h') (hfree : ∀ q, free q → free' q)
    (hway : ∀ q, way q → way' q ∨ free' q) : h.Keeps free' way' h' :=
  ⟨hk.machine, hk.files.mono hfree hway⟩

theorem cwd (hk : h.Keeps free way h') : h'.cwd = h.cwd := by
  rw [hk.machine]

end Host.Keeps

namespace Installer

variable {i : Installer} {h : Host} {name : Text} {d : Dependency}

/-! ## Fetching -/

/-- The directory in the cache for the checkouts of a package. -/
def packageDir (i : Installer) (name : Text) : Text :=
  Path.join [i.cache, "pkg", "src", name.packageName]

/-- The directory in the cache for one version of a package. -/
def checkout (i : Installer) (name version : Text) : Text :=
  Path.join [i.packageDir name, Revision.segment version]

/-- The place lies in a checkout of the package. -/
def InCheckout (i : Installer) (cwd name : Text) (q : Place) : Prop :=
  ∃ version, Path.target cwd (i.checkout name version) <+: q

/-- The place lies on the way to a checkout of the package, or to where that way starts. -/
def OnWay (i : Installer) (cwd name : Text) (q : Place) : Prop :=
  q <+: Path.target cwd (i.packageDir name) ∨
    (∃ version, q <+: Path.target cwd (i.checkout name version)) ∨ q <+: Path.start cwd i.cache

theorem keeps_putFiles (hcwd : Path.isAbsolute h.cwd = true) (dir : Text)
    (files : List (Place × Text)) :
    h.Keeps (Path.target h.cwd dir <+: ·) (· <+: Path.target h.cwd dir) (putFiles h dir files) := by
  unfold putFiles
  dsimp only
  rw [Host.absolute, Path.place_absolute hcwd]
  generalize Path.target h.cwd dir = base
  refine .of_files (.trans (.makeDirs fun q hq => Or.inl hq) ?_)
  refine List.foldlRecOn files _ (.refl _) fun t ht f _ => ht.trans ?_
  have hmake : ∀ q, q <+: (base ++ f.1).dropLast → q <+: base ∨ base <+: q := fun q hq =>
    List.prefix_or_prefix_of_prefix (hq.trans (List.dropLast_prefix _)) (List.prefix_append _ _)
  exact .trans (.makeDirs hmake) (.put (List.prefix_append _ _) _)

theorem keeps_fetch (hcwd : Path.isAbsolute h.cwd = true) (hcache : i.cache ≠ []) (name : Text)
    (d : Dependency) :
    h.Keeps (i.InCheckout h.cwd name) (i.OnWay h.cwd name) (i.fetch h name d).2 := by
  unfold fetch
  dsimp only
  split
  · exact .refl h
  split
  · exact .refl h
  rename_i files hfiles
  have hmake : h.Keeps (i.InCheckout h.cwd name) (i.OnWay h.cwd name)
      { h with files := files } := by
    rw [Path.join_eq_clean hcache] at hfiles
    refine .of_files
      ((FileTree.keeps_makeDirsAt hfiles).mono (fun q hq => hq) fun q hq => Or.inl ?_)
    rw [← Path.target_clean, ← Path.join_eq_clean hcache, Path.start,
      Path.isAbsolute_text_join hcache] at hq
    exact hq.imp_right Or.inr
  split
  · exact hmake
  rename_i r _
  split
  · exact hmake
  rename_i snapshot _
  have hput : Host.Keeps (i.InCheckout h.cwd name) (i.OnWay h.cwd name) { h with files := files }
      (putFiles { h with files := files }
        (i.checkout name (Revision.version r.descriptor snapshot.commit)) snapshot.files) :=
    (keeps_putFiles (h := { h with files := files }) hcwd _ _).mono (fun q hq => ⟨_, hq⟩)
      fun q hq => Or.inl (Or.inr (Or.inl ⟨_, hq⟩))
  split
  · exact hmake.trans (by split; exacts [.refl _, hput])
  · exact hmake.trans (by split; exacts [.refl _, hput])

/-- The package comes from a repository and lies in a checkout. -/
structure Fetched (i : Installer) (name : Text) (p : LockedPackage) : Prop where
  named : p.name = name.packageName
  lies : ∃ version, p.path = i.checkout name version

theorem fetched_fetch {p : LockedPackage} (hf : (i.fetch h name d).1 = .ok p) :
    i.Fetched name p := by
  unfold fetch at hf
  dsimp only at hf
  split at hf
  · cases hf
  split at hf
  · cases hf
  split at hf
  · cases hf
  split at hf
  · cases hf
  split at hf
  · cases hf
  · cases hf
    exact ⟨rfl, _, rfl⟩

/-! ## Finding -/

/-- The dependency is fetched if it has to be. -/
def Fetches (i : Installer) (d : Dependency) : Prop := d.isGit = true ∧ i.cache ≠ []

/-- The place lies in a checkout of the dependency, or where it was locked. -/
def Touches (i : Installer) (cwd name : Text) (d : Dependency) (current : Option LockedPackage)
    (q : Place) : Prop :=
  i.Fetches d ∧ (i.InCheckout cwd name q ∨ ∃ p, current = some p ∧ i.refresh p.name = false ∧
    p.isFor d = true ∧ Path.target cwd p.path <+: q)

/-- The place lies on the way to a checkout of the dependency. -/
def Makes (i : Installer) (cwd name : Text) (d : Dependency) (q : Place) : Prop :=
  i.Fetches d ∧ i.OnWay cwd name q

theorem restore_host (i : Installer) (h : Host) (name : Text) (d : Dependency)
    (p : LockedPackage) : (i.restore h name d p).2 = (i.fetch h name (d.pinned p.commit)).2 := by
  unfold restore
  split
  · rename_i hf
    rw [hf]
  · rename_i hf
    rw [hf]

theorem fetchNew_host (i : Installer) (h : Host) (name : Text) (d : Dependency) :
    (i.fetchNew h name d).2 = (i.fetch h name d).2 := by
  unfold fetchNew
  split
  · rename_i hf
    rw [hf]
  · rename_i hf
    rw [hf]
    split <;> rfl

theorem keeps_reuse (hcwd : Path.isAbsolute h.cwd = true) (hcache : i.cache ≠ [])
    {free : Place → Prop} (name : Text) (d : Dependency) (p : LockedPackage)
    (hcheckout : ∀ q, i.InCheckout h.cwd name q → free q)
    (hlocked : ∀ q, Path.target h.cwd p.path <+: q → free q) :
    h.Keeps free (i.OnWay h.cwd name) (i.reuse h name d p).2 := by
  have hrestore : ∀ files, Host.Keeps free (i.OnWay h.cwd name) { h with files := files }
      (i.restore { h with files := files } name d p).2 := by
    intro files
    rw [restore_host]
    exact (keeps_fetch (h := { h with files := files }) hcwd hcache _ _).mono hcheckout
      fun q hq => Or.inl hq
  unfold reuse
  split
  · exact hrestore h.files
  split
  · exact .refl h
  split
  · exact .refl h
  · rename_i files hremove
    exact .trans (.of_files (FileTree.keeps_removeAt hremove hlocked)) (hrestore files)

theorem keeps_find (hcwd : Path.isAbsolute h.cwd = true) (name : Text) (d : Dependency)
    (current : Option LockedPackage) :
    h.Keeps (i.Touches h.cwd name d current) (i.Makes h.cwd name d)
      (i.find h name d current).2 := by
  unfold find
  split
  case isFalse => exact .refl h
  rename_i hgit
  unfold findGit
  split
  · exact .refl h
  rename_i hempty
  have hcache : i.cache ≠ [] := by simpa using hempty
  have hfetches : i.Fetches d := ⟨hgit, hcache⟩
  have hnew : h.Keeps (i.Touches h.cwd name d current) (i.Makes h.cwd name d)
      (i.fetchNew h name d).2 := by
    rw [fetchNew_host]
    exact (keeps_fetch hcwd hcache name d).mono (fun q hq => ⟨hfetches, Or.inl hq⟩)
      fun q hq => Or.inl ⟨hfetches, hq⟩
  split
  · split
    · rename_i p hp
      rw [Bool.and_eq_true, Bool.not_eq_true'] at hp
      exact (keeps_reuse hcwd hcache name d p (fun q hq => ⟨hfetches, Or.inl hq⟩)
        fun q hq => ⟨hfetches, Or.inr ⟨p, rfl, hp.1, hp.2, hq⟩⟩).mono (fun q hq => hq)
        fun q hq => Or.inl ⟨hfetches, hq⟩
    · exact hnew
  · exact hnew

theorem fetched_restore {p : LockedPackage} {found : Found}
    (hf : (i.restore h name d p).1 = .ok found) : i.Fetched name found.package := by
  unfold restore at hf
  split at hf
  · cases hf
  · rename_i hfetch
    cases hf
    have hp := fetched_fetch (congrArg Prod.fst hfetch)
    exact ⟨hp.named, hp.lies⟩

theorem fetched_fetchNew {found : Found} (hf : (i.fetchNew h name d).1 = .ok found) :
    i.Fetched name found.package := by
  unfold fetchNew at hf
  split at hf
  · cases hf
  · rename_i hfetch
    split at hf
    · cases hf
    · cases hf
      exact fetched_fetch (congrArg Prod.fst hfetch)

theorem reuse_eq_ok {p : LockedPackage} {found : Found}
    (hf : (i.reuse h name d p).1 = .ok found) :
    found.package = p ∨ i.Fetched name found.package := by
  unfold reuse at hf
  split at hf
  · exact Or.inr (fetched_restore hf)
  split at hf
  · cases hf
    exact Or.inl rfl
  split at hf
  · cases hf
  · exact Or.inr (fetched_restore hf)

/-- What is found was locked already, or lies in the directory of the dependency or in a
checkout. -/
theorem find_eq_ok {current : Option LockedPackage} {found : Found}
    (hf : (i.find h name d current).1 = .ok found) :
    current = some found.package ∨ (d.isGit = false ∧ i.findPath h name d = .ok found) ∨
      (d.isGit = true ∧ i.Fetched name found.package) := by
  unfold find at hf
  split at hf
  · rename_i hgit
    unfold findGit at hf
    split at hf
    · cases hf
    split at hf
    · split at hf
      · rcases reuse_eq_ok hf with hp | hp
        · exact Or.inl (by rw [hp])
        · exact Or.inr (Or.inr ⟨hgit, hp⟩)
      · exact Or.inr (Or.inr ⟨hgit, fetched_fetchNew hf⟩)
    · exact Or.inr (Or.inr ⟨hgit, fetched_fetchNew hf⟩)
  · rename_i hgit
    exact Or.inr (Or.inl ⟨Bool.eq_false_iff.mpr hgit, hf⟩)

/-- The directory of a dependency that is not fetched. -/
def directory (i : Installer) (h : Host) (d : Dependency) : Text :=
  h.absolute (if Path.isAbsolute d.path then d.path else Path.join [i.root, d.path])

theorem findPath_eq_ok {found : Found} (hf : i.findPath h name d = .ok found) :
    ∃ m version, Manifest.load h (Path.join [i.directory h d, Manifest.fileName]) = .ok m ∧
      found.package = ⟨name.packageName, version, LockedPackage.pathSource ++ i.directory h d,
        i.directory h d, []⟩ := by
  unfold findPath at hf
  dsimp only at hf
  split at hf
  · cases hf
  · cases hf
  · split at hf
    · cases hf
    · rename_i m hm
      cases hf
      exact ⟨m, _, hm, rfl⟩

/-- A dependency is found where there is a package in its directory. -/
theorem findPath_of_load {m : Manifest} {dir : Text} {place : Place} (hdir : i.directory h d = dir)
    (hinspect : h.inspect dir = .ok (place, .dir))
    (hload : Manifest.load h (Path.join [dir, Manifest.fileName]) = .ok m) (name : Text) :
    ∃ log, i.findPath h name d = .ok ⟨⟨name.packageName,
      if m.version.isEmpty then unversioned else m.version, LockedPackage.pathSource ++ dir, dir,
      []⟩, log⟩ := by
  unfold directory at hdir
  simp only [findPath, hdir, hinspect, hload]
  exact ⟨_, rfl⟩

theorem found_name {l : Lockfile} {found : Found}
    (hf : (i.find h name d (l.find? name)).1 = .ok found) :
    found.package.name = name.packageName := by
  rcases find_eq_ok hf with hfound | ⟨-, hfound⟩ | ⟨-, hfound⟩
  · exact Lockfile.find?_name hfound
  · obtain ⟨m, version, -, hp⟩ := findPath_eq_ok hfound
    rw [hp]
  · exact hfound.named

/-! ## Installing -/

variable {m : Manifest} {p p' : Progress}

theorem installOne_eq_ok (hs : i.installOne m p name = (.ok (), p')) :
    ∃ d found, m.dependency? name = some d ∧
      (i.find p.host name d (p.lock.find? name)).1 = .ok found ∧
      p'.host = (i.find p.host name d (p.lock.find? name)).2 ∧
      p'.lock = p.lock.put found.package ∧
      p'.changed = (p.changed || p.lock.find? name != some found.package) := by
  unfold installOne at hs
  split at hs
  · cases hs
  rename_i d hd
  dsimp only at hs
  split at hs
  · cases hs
  · rename_i found h hfind
    cases hs
    exact ⟨d, found, hd, by rw [hfind], by rw [hfind], rfl, rfl⟩

theorem host_installOne {d : Dependency} (hd : m.dependency? name = some d) (p : Progress) :
    (i.installOne m p name).2.host = (i.find p.host name d (p.lock.find? name)).2 := by
  unfold installOne
  simp only [hd]
  split
  · rename_i hfind
    rw [hfind]
  · rename_i hfind
    rw [hfind]

theorem host_install (hi : i.manifest = some m) (h : Host) (lock : Lockfile) :
    (i.install h lock).2.host
      = (i.installAll m m.dependencyNames ⟨h, lock, false, []⟩).2.host := by
  unfold install
  simp only [hi]
  split
  · rename_i hall
    rw [hall]
  · rename_i hall
    rw [hall]

/-- The place lies in a checkout of some dependency, or where one was locked. -/
def MayTouch (i : Installer) (m : Manifest) (lock : Lockfile) (cwd : Text) (q : Place) : Prop :=
  ∃ name d, m.dependency? name = some d ∧ i.Touches cwd name d (lock.find? name) q

/-- The place lies on the way to a checkout of some dependency. -/
def MayMake (i : Installer) (m : Manifest) (cwd : Text) (q : Place) : Prop :=
  ∃ name d, m.dependency? name = some d ∧ i.Makes cwd name d q

theorem keeps_installOne (hcwd : Path.isAbsolute p.host.cwd = true) {lock : Lockfile}
    (hlock : p.lock.find? name = lock.find? name) :
    p.host.Keeps (i.MayTouch m lock p.host.cwd) (i.MayMake m p.host.cwd)
      (i.installOne m p name).2.host := by
  match hd : m.dependency? name with
  | none =>
    simp only [installOne, hd]
    exact .refl p.host
  | some d =>
    rw [host_installOne hd]
    exact (keeps_find hcwd name d _).mono (fun q hq => ⟨name, d, hd, hlock ▸ hq⟩)
      fun q hq => Or.inl ⟨name, d, hd, hq⟩

theorem keeps_installAll (hcwd : Path.isAbsolute p.host.cwd = true) {lock : Lockfile}
    {names : List Text} (hnodup : names.Nodup) (hspelled : ∀ n ∈ names, n.packageName = n)
    (hlock : ∀ n ∈ names, p.lock.find? n = lock.find? n) :
    p.host.Keeps (i.MayTouch m lock p.host.cwd) (i.MayMake m p.host.cwd)
      (i.installAll m names p).2.host := by
  induction names generalizing p with
  | nil => exact .refl p.host
  | cons name names ih =>
    rw [List.nodup_cons] at hnodup
    rw [List.forall_mem_cons] at hspelled hlock
    have hone := keeps_installOne (i := i) (m := m) hcwd hlock.1
    unfold installAll
    split
    · rename_i hresult
      rwa [hresult] at hone
    · rename_i p' hresult
      rw [hresult] at hone
      obtain ⟨d, found, -, hfind, -, hput, -⟩ := installOne_eq_ok hresult
      have hname := (found_name hfind).trans hspelled.1
      have hrest := ih (p := p') (by rwa [hone.cwd]) hnodup.2 hspelled.2 fun n hn => by
        rw [hput, Lockfile.find?_put_of_ne, hlock.2 n hn]
        rw [hname, hspelled.2 n hn]
        exact fun heq => hnodup.1 (heq ▸ hn)
      rw [hone.cwd] at hrest
      exact hone.trans hrest

theorem keeps_install (hi : i.manifest = some m) (hm : m.Accepted)
    (hcwd : Path.isAbsolute h.cwd = true) (lock : Lockfile) :
    h.Keeps (i.MayTouch m lock h.cwd) (i.MayMake m h.cwd) (i.install h lock).2.host := by
  rw [host_install hi]
  exact keeps_installAll (p := ⟨h, lock, false, []⟩) hcwd hm.nodup hm.spelled fun n _ => rfl

end Installer
end Borealis
