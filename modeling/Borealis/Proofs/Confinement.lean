-- The installer and its cache. If the names of the dependencies hold no double
-- dots between slashes and no locked package lies elsewhere, all that
-- installing touches lies in the cache. Otherwise the installer goes where the
-- name or the lock leads, and a lock can lead it anywhere.
import Borealis.Proofs.Installing

namespace Borealis

/-! ## Names of directories -/

namespace Revision

theorem eq_slash_of_mem_bytes {c : Char} (h : Path.slash ∈ (Rune.char c).bytes) : c = '/' := by
  have hbyte : ∀ n, Path.slash = UInt8.ofNat n → n % 256 = 47 := by
    intro n hn
    have hval : Path.slash.toNat = 47 := rfl
    rw [hn, UInt8.toNat_ofNat'] at hval
    exact hval
  simp only [Rune.bytes, String.utf8EncodeChar] at h
  split at h
  · have hc := hbyte _ (List.mem_singleton.mp h)
    apply Char.ext
    apply UInt32.toNat.inj
    show c.val.toNat = 47
    omega
  -- Every byte of a longer character is above all of ASCII.
  split at h
  · simp only [List.mem_cons, List.not_mem_nil, or_false] at h
    rcases h with h | h
    all_goals
      have hc := hbyte _ h
      omega
  split at h
  · simp only [List.mem_cons, List.not_mem_nil, or_false] at h
    rcases h with h | h | h
    all_goals
      have hc := hbyte _ h
      omega
  · simp only [List.mem_cons, List.not_mem_nil, or_false] at h
    rcases h with h | h | h | h
    all_goals
      have hc := hbyte _ h
      omega

theorem slash_not_mem_segment (version : Text) : Path.slash ∉ segment version := by
  unfold segment
  dsimp only
  split
  · decide
  · intro hmem
    obtain ⟨r, -, hr⟩ := List.mem_flatMap.mp hmem
    split at hr
    · rename_i hrune
      match r with
      | .bad b => cases hrune
      | .char c =>
        rw [eq_slash_of_mem_bytes hr] at hrune
        exact absurd hrune (by decide)
    · exact absurd hr (by decide)

end Revision

namespace Installer

variable {i : Installer} {h : Host} {m : Manifest}

theorem le_foldl_step {ns : List Text} (h : Text.ofString ".." ∉ ns) (p : Place) :
    p <+: ns.foldl Path.step p := by
  induction ns generalizing p with
  | nil => exact List.prefix_refl p
  | cons n ns ih =>
    simp only [List.mem_cons, not_or] at h
    refine List.IsPrefix.trans ?_ (ih h.2 (Path.step p n))
    unfold Path.step
    split
    · exact List.prefix_refl p
    · rw [if_neg (Ne.symm h.1)]
      exact List.prefix_append p [n]

theorem le_step {p q : Place} {last : Text} (h : p ++ [last] <+: q) (name : Text) :
    p <+: Path.step q name := by
  have hp : p <+: q := (List.prefix_append p [last]).trans h
  unfold Path.step
  split
  · exact hp
  split
  · obtain ⟨rest, rfl⟩ := h
    rw [List.append_assoc, List.dropLast_append_of_ne_nil (by simp)]
    exact List.prefix_append _ _
  · exact hp.trans (List.prefix_append _ _)

/-- Without double dots in the name, the checkouts of a package lie in the cache. -/
theorem le_packageDir (hcache : i.cache ≠ []) (cwd : Text) {name : Text}
    (hname : Text.ofString ".." ∉ name.packageName.split Path.slash) :
    Path.target cwd i.cache ++ [Text.ofString "pkg"] ++ [Text.ofString "src"]
      <+: Path.target cwd (i.packageDir name) := by
  rw [packageDir, Path.target_join cwd hcache, List.flatMap_cons, List.flatMap_cons,
    Text.split_of_not_mem (by decide), Text.split_of_not_mem (by decide), List.flatMap_cons,
    List.flatMap_nil, List.append_nil, List.foldl_append, List.foldl_append]
  have hpkg : ∀ p, List.foldl Path.step p [Text.ofString "pkg"] = p ++ [Text.ofString "pkg"] :=
    fun p => rfl
  have hsrc : ∀ p, List.foldl Path.step p [Text.ofString "src"] = p ++ [Text.ofString "src"] :=
    fun p => rfl
  rw [hpkg, hsrc]
  exact le_foldl_step hname _

theorem packageDir_ne_nil (hcache : i.cache ≠ []) (name : Text) : i.packageDir name ≠ [] := by
  rw [packageDir, Path.join_eq_clean hcache]
  exact Path.clean_ne_nil _

theorem le_checkout (hcache : i.cache ≠ []) (cwd : Text) {name : Text}
    (hname : Text.ofString ".." ∉ name.packageName.split Path.slash) (version : Text) :
    Path.target cwd i.cache <+: Path.target cwd (i.checkout name version) := by
  rw [checkout, Path.target_join cwd (packageDir_ne_nil hcache name), List.flatMap_cons,
    Text.split_of_not_mem (Revision.slash_not_mem_segment version)]
  have hsrc := le_packageDir hcache cwd hname
  exact (List.prefix_append _ _).trans (le_step hsrc _)

/-- The way to a checkout runs through the cache. -/
theorem OnWay.cases (hcache : i.cache ≠ []) {cwd name : Text}
    (hname : Text.ofString ".." ∉ name.packageName.split Path.slash) {q : Place}
    (hq : i.OnWay cwd name q) : Path.target cwd i.cache <+: q ∨ q <+: Path.target cwd i.cache ∨
      q <+: Path.start cwd i.cache := by
  have hthrough : ∀ r, Path.target cwd i.cache <+: r → q <+: r →
      Path.target cwd i.cache <+: q ∨ q <+: Path.target cwd i.cache :=
    fun r hr hq => List.prefix_or_prefix_of_prefix hr hq
  rcases hq with hq | ⟨version, hq⟩ | hq
  · have hdir := le_packageDir hcache cwd hname
    rw [List.append_assoc] at hdir
    exact (hthrough _ ((List.prefix_append _ _).trans hdir) hq).imp_right Or.inl
  · exact (hthrough _ (le_checkout hcache cwd hname version) hq).imp_right Or.inl
  · exact Or.inr (Or.inr hq)

/-! ## What installing can touch -/

/-- No name of a fetched dependency leads up, and none of them is locked outside the cache. -/
structure Inside (i : Installer) (m : Manifest) (lock : Lockfile) (cwd : Text) : Prop where
  named : ∀ name d, m.dependency? name = some d → i.Fetches d →
    Text.ofString ".." ∉ name.packageName.split Path.slash
  locked : ∀ name d p, m.dependency? name = some d → i.Fetches d → lock.find? name = some p →
    i.refresh p.name = false → p.isFor d = true →
    Path.target cwd i.cache <+: Path.target cwd p.path

theorem Inside.mayTouch {lock : Lockfile} {cwd : Text} (hin : i.Inside m lock cwd) {q : Place}
    (hq : i.MayTouch m lock cwd q) : Path.target cwd i.cache <+: q := by
  obtain ⟨name, d, hd, hf, ⟨version, hv⟩ | ⟨p, hp, hrefresh, hfor, hpath⟩⟩ := hq
  · exact (le_checkout hf.2 cwd (hin.named name d hd hf) version).trans hv
  · exact (hin.locked name d p hd hf hp hrefresh hfor).trans hpath

theorem Inside.mayMake {lock : Lockfile} {cwd : Text} (hin : i.Inside m lock cwd) {q : Place}
    (hq : i.MayMake m cwd q) : Path.target cwd i.cache <+: q ∨
      q <+: Path.target cwd i.cache ∨ q <+: Path.place cwd := by
  obtain ⟨name, d, hd, hf, hway⟩ := hq
  rcases hway.cases hf.2 (hin.named name d hd hf) with hq | hq | hq
  · exact Or.inl hq
  · exact Or.inr (Or.inl hq)
  · unfold Path.start at hq
    split at hq
    · rw [List.prefix_nil.mp hq]
      exact Or.inr (Or.inl List.nil_prefix)
    · exact Or.inr (Or.inr hq)

/-! ## A package whose lock leads elsewhere -/

/-- A package with one dependency, which comes from a repository. -/
def manifestText : Text := "name: app\ndependencies:\n  lib: \x7bgit: u, tag: v1\x7d\n"

/-- That dependency. -/
def libDependency : Dependency := ⟨[], "u", [], "v1", []⟩

/-- The package as it is loaded. -/
def appManifest : Manifest :=
  ⟨"/app/package.yml", "app", [], [], [], [("lib", some libDependency)], ⟨[], [], 0⟩⟩

/-- What installs it, with a cache at the root. -/
def appInstaller (repository : Repository) : Installer :=
  ⟨some appManifest, "/cache", repository, fun _ => false⟩

/-- A lock of that package, with the dependency in a directory of notes. -/
def lockText : Text :=
  "root: app\npackages:\n  - name: lib\n    version: v1@c\n    source: git+u@c\n    path: /notes\n"

/-- The dependency as it is locked there. -/
def lockedNotes : LockedPackage := ⟨"lib", "v1@c", "git+u@c", "/notes", []⟩

/-- What is read from the two files. The package is locked as it is written. -/
theorem reads_app : ManifestText.ofYaml manifestText
      = .ok ⟨"app", [], [], [], [("lib", some libDependency)], ⟨[], [], 0⟩⟩ ∧
    LockText.ofYaml lockText = .ok ⟨"app", [], [], [lockedNotes]⟩ ∧
    lockedNotes.normalized = lockedNotes := by
  decide +kernel

theorem load_appManifest {h : Host} (habs : h.absolute "/app/package.yml" = "/app/package.yml")
    (hread : h.read "/app/package.yml" = .ok manifestText) :
    Manifest.load h "/app/package.yml" = .ok appManifest := by
  rw [← habs] at hread
  rw [Manifest.load_of_text (by decide) hread reads_app.1 (by rw [habs]; rfl), habs]
  congr 1

theorem host_install_app (repository : Repository) (h : Host) (lock : Lockfile) :
    ((appInstaller repository).install h lock).2.host =
      ((appInstaller repository).find h "lib" libDependency (lock.find? "lib")).2 := by
  have hd : appManifest.dependency? "lib" = some libDependency := by decide
  rw [host_install (m := appManifest) rfl, ← host_installOne hd ⟨h, lock, false, []⟩]
  show ((appInstaller repository).installAll appManifest ["lib"] _).2.host = _
  unfold installAll
  split
  · rename_i hone
    rw [hone]
  · rename_i hone
    rw [hone]
    rfl

/-- A machine with the package, the lock and the notes. -/
def withNotes : Host :=
  ⟨⟨[(["app"], .dir), (["app", "package.yml"], .file manifestText),
    (["app", "package.lock"], .file lockText), (["notes"], .dir),
    (["notes", "a.txt"], .file "keep")]⟩, "/app", [], [], []⟩

/-- Installing touches places in the checkouts of the dependencies and where they were locked, and
makes directories on the way. If all of them are inside the cache, nothing changes elsewhere, but
that directories are made on the way to the cache. -/
theorem install_touches {h₀ : Host} {path : Text} (hm : Manifest.load h₀ path = .ok m)
    (hi : i.manifest = some m) (hcwd : Path.isAbsolute h.cwd = true)
    (hdirs : ∀ q, q <+: Path.place h.cwd → h.files.get? q = some .dir) (lock : Lockfile) :
    h.Keeps (i.MayTouch m lock h.cwd) (i.MayMake m h.cwd) (i.install h lock).2.host ∧
      (i.Inside m lock h.cwd → h.Keeps (Path.target h.cwd i.cache <+: ·)
        (· <+: Path.target h.cwd i.cache) (i.install h lock).2.host) := by
  have hkeeps := keeps_install hi (Manifest.load_eq_ok hm).2.1 hcwd lock
  refine ⟨hkeeps, fun hin => ⟨hkeeps.machine, fun q => ?_⟩⟩
  rcases hkeeps.files q with hq | ⟨hnone, hdir, hmake⟩ | htouch
  · exact Or.inl hq
  · rcases hin.mayMake hmake with hq | hq | hq
    · exact Or.inr (Or.inr hq)
    · exact Or.inr (Or.inl ⟨hnone, hdir, hq⟩)
    · rw [hdirs q hq] at hnone
      cases hnone
  · exact Or.inr (Or.inr (hin.mayTouch htouch))

/-- With a new lock, the notes stay. -/
theorem install_keeps_notes : Manifest.load withNotes "/app/package.yml" = .ok appManifest ∧
    ∀ repository, ((appInstaller repository).install withNotes
      (Lockfile.new withNotes "app" "t")).2.host.files.get? ["notes", "a.txt"]
        = some (.file "keep") := by
  refine ⟨load_appManifest rfl rfl, fun repository => ?_⟩
  have htarget : Path.target withNotes.cwd (appInstaller repository).cache
      = [Text.ofString "cache"] := rfl
  have hdirs : ∀ q, q <+: Path.place withNotes.cwd → withNotes.files.get? q = some .dir := by
    intro q hq
    rw [show Path.place withNotes.cwd = [Text.ofString "app"] from rfl, List.prefix_cons_iff] at hq
    rcases hq with rfl | ⟨rest, rfl, hrest⟩
    · rfl
    · rw [List.prefix_nil.mp hrest]
      rfl
  have hin : (appInstaller repository).Inside appManifest (Lockfile.new withNotes "app" "t")
      withNotes.cwd := by
    refine ⟨fun name d hd _ => ?_, fun name d p _ _ hp => ?_⟩
    · have hname : name = "lib" := List.mem_singleton.mp (Manifest.mem_dependencyNames hd)
      rw [hname]
      decide
    · rw [Lockfile.find?_eq] at hp
      cases hp
  have hkeeps := (install_touches (load_appManifest (h := withNotes) rfl rfl) rfl rfl hdirs _).2 hin
  rcases hkeeps.files ["notes", "a.txt"] with hsame | ⟨hnone, -⟩ | hin
  · rw [hsame]
    rfl
  · cases hnone
  · rw [htarget] at hin
    exact absurd hin (by decide)

/-- The notes are not what was locked, so they are removed before anything is fetched. -/
theorem find_lockedNotes (repository : Repository) :
    ((appInstaller repository).find withNotes "lib" libDependency (some lockedNotes)).2 =
      ((appInstaller repository).fetch
        { withNotes with files := withNotes.files.remove ["notes"] } "lib"
        (libDependency.pinned lockedNotes.commit)).2 := by
  have hfor : lockedNotes.isFor libDependency = true := rfl
  have hinspect : withNotes.inspect lockedNotes.path = .ok (["notes"], .dir) := rfl
  have hverify : lockedNotes.verify withNotes = .error (.noChecksum "lib") := rfl
  have hremove : withNotes.files.removeAt withNotes.cwd lockedNotes.path
      = .ok (withNotes.files.remove ["notes"]) := rfl
  have hcache : (appInstaller repository).cache.isEmpty = false := rfl
  have hgit : libDependency.isGit = true := by decide
  have hrefresh : (appInstaller repository).refresh lockedNotes.name = false := rfl
  rw [← restore_host]
  simp [find, findGit, reuse, hgit, hcache, hfor, hrefresh, hinspect, hverify, hremove]

/-- A lock can make the installer remove a directory that lies anywhere. -/
theorem install_removes_notes : ∃ lock,
    Manifest.load withNotes "/app/package.yml" = .ok appManifest ∧
    Lockfile.load withNotes "/app/package.lock" = .ok lock ∧
    withNotes.files.get? ["notes", "a.txt"] = some (.file "keep") ∧
    ∀ repository, ((appInstaller repository).install withNotes lock).2.host.files.get?
      ["notes", "a.txt"] = none := by
  have hload := Lockfile.load_eq_ok_iff.mpr ⟨(by decide : Text.ofString "/app/package.lock" ≠ []),
    lockText, _, (rfl : withNotes.read _ = _), reads_app.2.1, rfl⟩
  refine ⟨_, load_appManifest rfl rfl, hload, rfl, fun repository => ?_⟩
  have hfind : (LockText.toLockfile ⟨"app", [], [], [lockedNotes]⟩
      (withNotes.absolute "/app/package.lock")).find? "lib" = some lockedNotes := by
    rw [Lockfile.find?_eq, Lockfile.present_toLockfile, Lockfile.named_sortPackages,
      List.map_singleton, reads_app.2.2]
    rfl
  rw [host_install_app, hfind, find_lockedNotes]
  have hcache : (appInstaller repository).cache ≠ [] := List.cons_ne_nil _ _
  have hname : Text.ofString ".." ∉ (Text.packageName "lib").split Path.slash := by decide
  have htarget : Path.target "/app" (appInstaller repository).cache = [Text.ofString "cache"] := rfl
  have hstart : Path.start "/app" (appInstaller repository).cache = [] := rfl
  have hkeeps := (keeps_fetch (i := appInstaller repository)
    (h := { withNotes with files := withNotes.files.remove ["notes"] }) (by decide) hcache "lib"
    (libDependency.pinned lockedNotes.commit)).files ["notes", "a.txt"]
  rcases hkeeps with hsame | ⟨-, -, hway⟩ | ⟨version, hin⟩
  · rw [hsame]
    rfl
  · have hcases := hway.cases hcache hname
    rw [show Host.cwd { withNotes with files := _ } = "/app" from rfl, htarget, hstart] at hcases
    exact absurd hcases (by decide)
  · have hle := (le_checkout hcache _ hname version).trans hin
    rw [show Host.cwd { withNotes with files := _ } = "/app" from rfl, htarget] at hle
    exact absurd hle (by decide)

end Installer

end Borealis
