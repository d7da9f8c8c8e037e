-- What a run of the dependency commands leaves behind: the lock that installing
-- makes, and the file that it is stored in.
import Borealis.Command.Dependencies
import Borealis.Proofs.Installing

namespace Borealis

namespace Installer

variable {i : Installer} {m : Manifest} {names : List Text} {p p' : Progress}

/-! ## The lock that installing makes -/

/-- What every step keeps holds at the end. -/
theorem installAll_induction {P : Progress → Prop}
    (hstep : ∀ p p' name, name ∈ names → P p → i.installOne m p name = (.ok (), p') → P p')
    (hall : i.installAll m names p = (.ok (), p')) (hp : P p) : P p' := by
  induction names generalizing p with
  | nil =>
    cases hall
    exact hp
  | cons name names ih =>
    unfold installAll at hall
    split at hall
    · cases hall
    · rename_i p₁ hone
      exact ih (fun p p' n hn => hstep p p' n (List.mem_cons_of_mem _ hn)) hall
        (hstep p p₁ name List.mem_cons_self hp hone)

/-- What holds of every package that is found and of those that were locked holds of all. -/
theorem forall_installAll {P : LockedPackage → Prop}
    (hfound : ∀ h name d found, m.dependency? name = some d →
      (d.isGit = false ∧ i.findPath h name d = .ok found) ∨
        (d.isGit = true ∧ i.Fetched name found.package) → P found.package)
    (hall : i.installAll m names p = (.ok (), p')) (hp : ∀ q ∈ p.lock.present, P q) :
    ∀ q ∈ p'.lock.present, P q := by
  refine installAll_induction (P := fun p => ∀ q ∈ p.lock.present, P q)
    (fun p p' name _ hp hone q hq => ?_) hall hp
  obtain ⟨d, found, hd, hfind, -, hput, -⟩ := installOne_eq_ok hone
  rw [hput, Lockfile.present_put] at hq
  rcases Lockfile.mem_placed hq with rfl | hq
  · rcases find_eq_ok hfind with hlocked | hnew
    · exact hp _ (Lockfile.mem_of_find? hlocked)
    · exact hfound _ name d found hd hnew
  · exact hp q hq

theorem find?_installAll_of_not_mem {n : Text}
    (hn : ∀ name ∈ names, n.packageName ≠ name.packageName)
    (hall : i.installAll m names p = (.ok (), p')) : p'.lock.find? n = p.lock.find? n := by
  refine installAll_induction (P := fun q => q.lock.find? n = p.lock.find? n)
    (fun p p' name hname hp hone => ?_) hall rfl
  obtain ⟨d, found, -, hfind, -, hput, -⟩ := installOne_eq_ok hone
  rw [hput, Lockfile.find?_put_of_ne _ (by rw [found_name hfind]; exact hn name hname), hp]

theorem packageName_ne {name : Text} (hnot : name ∉ names) (hname : name.packageName = name)
    (hspelled : ∀ n ∈ names, n.packageName = n) :
    ∀ n ∈ names, n.packageName ≠ name.packageName := by
  intro n hn heq
  rw [hspelled n hn, hname] at heq
  exact hnot (heq ▸ hn)

/-- Each dependency is locked as it was found. -/
theorem installAll_found {P : Host → Prop}
    (hP : ∀ h name d current found, m.dependency? name = some d → P h →
      (i.find h name d current).1 = .ok found → P (i.find h name d current).2)
    (hnodup : names.Nodup) (hspelled : ∀ n ∈ names, n.packageName = n)
    (hall : i.installAll m names p = (.ok (), p')) (hp : P p.host) :
    P p'.host ∧ ∀ n ∈ names, ∃ h d found, P h ∧ m.dependency? n = some d ∧
      (i.find h n d (p.lock.find? n)).1 = .ok found ∧ p'.lock.find? n = some found.package := by
  induction names generalizing p with
  | nil =>
    cases hall
    exact ⟨hp, by simp⟩
  | cons name names ih =>
    rw [List.nodup_cons] at hnodup
    rw [List.forall_mem_cons] at hspelled
    unfold installAll at hall
    split at hall
    · cases hall
    rename_i p₁ hone
    obtain ⟨d, found, hd, hfind, hhost, hput, -⟩ := installOne_eq_ok hone
    have hname := found_name hfind
    have hne := packageName_ne hnodup.1 hspelled.1 hspelled.2
    obtain ⟨hlast, hrest⟩ := ih hnodup.2 hspelled.2 hall (hhost ▸ hP _ _ _ _ _ hd hp hfind)
    refine ⟨hlast, List.forall_mem_cons.mpr ⟨⟨p.host, d, found, hp, hd, hfind, ?_⟩, fun n hn => ?_⟩⟩
    · rw [find?_installAll_of_not_mem (fun n hn => (hne n hn).symm) hall, hput,
        Lockfile.find?_put_self _ hname.symm]
    · have hsame : p₁.lock.find? n = p.lock.find? n := by
        rw [hput, Lockfile.find?_put_of_ne _ (by rw [hname]; exact hne n hn)]
      rw [← hsame]
      exact hrest n hn

/-- If nothing is new, the lock stays as it was. -/
theorem installAll_unchanged (hall : i.installAll m names p = (.ok (), p'))
    (hsame : p'.changed = false) : p.changed = false ∧ p'.lock = p.lock := by
  induction names generalizing p with
  | nil =>
    cases hall
    exact ⟨hsame, rfl⟩
  | cons name names ih =>
    unfold installAll at hall
    split at hall
    · cases hall
    rename_i p₁ hone
    obtain ⟨d, found, -, -, -, hput, hchanged⟩ := installOne_eq_ok hone
    obtain ⟨hp₁, hlock⟩ := ih hall
    rw [hp₁] at hchanged
    have hboth := Bool.or_eq_false_iff.mp hchanged.symm
    refine ⟨hboth.1, ?_⟩
    rw [hlock, hput]
    exact Lockfile.put_of_find? (by simpa using hboth.2)

theorem install_eq_ok {h : Host} {lock : Lockfile} {changed : Bool} (hi : i.manifest = some m)
    (hok : i.install h lock = (.ok changed, p')) :
    ∃ p, i.installAll m m.dependencyNames ⟨h, lock, false, []⟩ = (.ok (), p) ∧
      p'.host = p.host ∧
      p'.lock = { p.lock with packages := (Lockfile.sortPackages
        (p.lock.retain m.dependencyNames).2.present).map some } ∧
      changed = (p.changed || (p.lock.retain m.dependencyNames).1) := by
  unfold install at hok
  simp only [hi] at hok
  split at hok
  · cases hok
  · rename_i p hall
    cases hok
    exact ⟨p, hall, rfl, rfl, rfl⟩

theorem root_install {h : Host} {lock : Lockfile} {changed : Bool}
    (hok : i.install h lock = (.ok changed, p')) : p'.lock.root = lock.root := by
  match hi : i.manifest with
  | none =>
    simp only [install, hi] at hok
    cases hok
    rfl
  | some m =>
    obtain ⟨p, hall, -, hlock, -⟩ := install_eq_ok hi hok
    rw [hlock]
    refine installAll_induction (P := fun q => q.lock.root = lock.root)
      (fun p p' name _ hp hone => ?_) hall rfl
    obtain ⟨d, found, -, -, -, hput, -⟩ := installOne_eq_ok hone
    rw [hput]
    exact hp

theorem forall_install {P : LockedPackage → Prop} {h : Host} {lock : Lockfile} {changed : Bool}
    (hi : i.manifest = some m)
    (hfound : ∀ h name d found, m.dependency? name = some d →
      (d.isGit = false ∧ i.findPath h name d = .ok found) ∨
        (d.isGit = true ∧ i.Fetched name found.package) → P found.package)
    (hok : i.install h lock = (.ok changed, p')) (hlock : ∀ q ∈ lock.present, P q) :
    ∀ q ∈ p'.lock.present, P q := by
  obtain ⟨p, hall, -, hp', -⟩ := install_eq_ok hi hok
  intro q hq
  rw [hp', Lockfile.present_map_some, (Lockfile.perm_sortPackages _).mem_iff,
    Lockfile.present_retain] at hq
  exact forall_installAll hfound hall hlock q (List.mem_filter.mp hq).1

theorem spelled_install {h : Host} {lock : Lockfile} {changed : Bool} (hi : i.manifest = some m)
    (hok : i.install h lock = (.ok changed, p')) (hlock : Lockfile.Spelled lock.present) :
    Lockfile.Spelled p'.lock.present := by
  refine forall_install hi (fun h name d found _ hf => ?_) hok hlock
  have hname : found.package.name = name.packageName := by
    rcases hf with ⟨-, hf⟩ | ⟨-, hf⟩
    · obtain ⟨own, version, -, hp⟩ := findPath_eq_ok hf
      rw [hp]
    · exact hf.named
  rw [hname, Text.packageName_packageName]

/-- Each dependency of the manifest is locked as it was found. -/
theorem find?_install {h : Host} {lock : Lockfile} {changed : Bool} (hi : i.manifest = some m)
    (hok : i.install h lock = (.ok changed, p')) :
    ∃ p, i.installAll m m.dependencyNames ⟨h, lock, false, []⟩ = (.ok (), p) ∧
      p'.host = p.host ∧ ∀ n ∈ m.dependencyNames, p'.lock.find? n = p.lock.find? n := by
  obtain ⟨p, hall, hhost, hp', -⟩ := install_eq_ok hi hok
  refine ⟨p, hall, hhost, fun n hn => ?_⟩
  rw [hp', Lockfile.find?_eq, Lockfile.find?_eq, Lockfile.present_map_some,
    Lockfile.named_sortPackages, Lockfile.present_retain,
    Lockfile.named_filter (List.mem_map_of_mem hn)]

/-- If nothing is new and nothing was dropped, a lock in order stays as it was. -/
theorem install_unchanged {h : Host} {lock : Lockfile} (hi : i.manifest = some m)
    (hok : i.install h lock = (.ok false, p')) (hpresent : lock.packages = lock.present.map some)
    (hsorted : (lock.present.map LockedPackage.name).Pairwise (· ≤ ·)) : p'.lock = lock := by
  obtain ⟨p, hall, -, hp', hchanged⟩ := install_eq_ok hi hok
  have hboth := Bool.or_eq_false_iff.mp hchanged.symm
  obtain ⟨-, hlock⟩ := installAll_unchanged hall hboth.1
  rw [hlock] at hp' hboth
  have hkept : (lock.retain m.dependencyNames).2.packages = lock.packages :=
    List.filter_sublist.eq_of_length (by simpa [Lockfile.retain] using hboth.2)
  have hsame : (lock.retain m.dependencyNames).2.present = lock.present := by
    rw [Lockfile.present, hkept, ← Lockfile.present]
  rw [hp', hsame, Lockfile.sortPackages_of_sorted hsorted, ← hpresent]

end Installer

/-! ## The lock as it is stored -/

/-- The text of the lock is read as it was written. -/
def LockText.ReadsBack (l : LockText) : Prop := LockText.ofYaml l.toYaml = .ok l

instance (l : LockText) : Decidable l.ReadsBack :=
  inferInstanceAs (Decidable (LockText.ofYaml l.toYaml = .ok l))

namespace Lockfile

variable {h h' : Host} {l l' : Lockfile} {path : Text}

/-- The lock that is loaded after a lock was written to a path. -/
def stored (h : Host) (l : Lockfile) (path : Text) : Lockfile :=
  (l.stamped h path).toText.toLockfile (h.absolute path)

theorem write_eq_ok (hne : path ≠ []) (hw : l.write h path = (.ok h', l')) :
    l' = l.stamped h path ∧
      h.write (h.absolute path) (l.stamped h path).toText.toYaml = .ok h' := by
  have hempty : path.isEmpty = false := List.isEmpty_eq_false_iff.mpr hne
  simp only [write, hempty, Bool.false_eq_true, if_false] at hw
  split at hw
  · rename_i hwrite
    cases hw
    exact ⟨rfl, hwrite⟩
  · cases hw

theorem write_ofPlace {place : Place} (hplace : Path.PlainPlace place)
    (hw : l.write h (Path.ofPlace place) = (.ok h', l')) :
    h.write (Path.ofPlace place) (l.stamped h (Path.ofPlace place)).toText.toYaml = .ok h' := by
  have hne := Path.ne_nil_of_isAbsolute (Path.isAbsolute_ofPlace place)
  have hwrite := (write_eq_ok hne hw).2
  rwa [Host.absolute, Path.absolute_ofPlace hplace] at hwrite

theorem write_of_ok (hne : path ≠ [])
    (hw : h.write (h.absolute path) (l.stamped h path).toText.toYaml = .ok h') :
    l.write h path = (.ok h', l.stamped h path) := by
  have hempty : path.isEmpty = false := List.isEmpty_eq_false_iff.mpr hne
  have hpath : (l.stamped h path).path = h.absolute path := rfl
  simp only [write, hempty, Bool.false_eq_true, if_false, hpath, hw]

theorem host_write {path content : Text} (hw : h.write path content = .ok h') :
    ∃ files, h.files.write h.cwd path content = .ok files ∧ h' = { h with files := files } := by
  unfold Host.write at hw
  split at hw
  · rename_i files hfiles
    cases hw
    exact ⟨files, hfiles, rfl⟩
  · cases hw

theorem load_write (hne : path ≠ []) (hw : l.write h path = (.ok h', l'))
    (hback : (l.stamped h path).toText.ReadsBack) : load h' path = .ok (l.stored h path) := by
  obtain ⟨-, hwrite⟩ := write_eq_ok hne hw
  obtain ⟨files, hfiles, rfl⟩ := host_write hwrite
  exact load_eq_ok_iff.mpr ⟨hne, _, _, FileTree.read_write hfiles, hback, rfl⟩

theorem present_stored (h : Host) (l : Lockfile) (path : Text) : (l.stored h path).present =
    sortPackages ((sortPackages (l.present.map LockedPackage.normalized)).map
      LockedPackage.normalized) := by
  rw [stored, present_toLockfile]
  show sortPackages ((l.stamped h path).present.map _) = _
  rw [stamped, present_normalized]
  rfl

theorem root_stored (h : Host) (l : Lockfile) (path : Text) :
    (l.stored h path).root = l.root.packageName :=
  Text.packageName_packageName l.root

theorem find?_stored (hs : Spelled l.present) (h : Host) (path n : Text) :
    (l.stored h path).find? n = (l.find? n).map LockedPackage.normalized := by
  have hsorted : Spelled (sortPackages (l.present.map LockedPackage.normalized)) := fun p hp =>
    spelled_map_normalized _ p ((perm_sortPackages _).mem_iff.mp hp)
  rw [find?_eq, present_stored, named_sortPackages, named_map_normalized hsorted,
    named_sortPackages, named_map_normalized hs, find?_eq, List.map_map, List.head?_map]
  congr 1
  exact funext normalized_normalized

end Lockfile

/-! ## The directory of a package -/

namespace Manifest

variable {h : Host} {m : Manifest}

theorem nearest_eq_some {ns : List Text} {path : Text} (hp : nearest h ns = some path) :
    ∃ dirs, path = Path.join [Path.ofPlace dirs, fileName] := by
  induction ns with
  | nil =>
    unfold nearest at hp
    dsimp only at hp
    split at hp
    · cases hp
      exact ⟨[], rfl⟩
    · cases hp
  | cons name above ih =>
    unfold nearest at hp
    dsimp only at hp
    split at hp
    · cases hp
      exact ⟨_, rfl⟩
    · exact ih hp

/-- A manifest that was looked for lies in a directory that its path spells. -/
theorem loadFor_eq_ok {start : Text} (hl : loadFor h start = .ok m) :
    m.Accepted ∧ (∃ path, find? h start = some path ∧ load h path = .ok m) ∧
      ∃ root, Path.PlainPlace root ∧ m.path = Path.ofPlace (root ++ [fileName]) := by
  unfold loadFor at hl
  split at hl
  · cases hl
  rename_i path hfind
  split at hl
  case h_2 => cases hl
  rename_i m' hload
  cases hl
  obtain ⟨hpath, haccepted, -⟩ := load_eq_ok hload
  refine ⟨haccepted, ⟨path, hfind, hload⟩, ?_⟩
  obtain ⟨dirs, rfl⟩ := nearest_eq_some hfind
  have habs := Path.isAbsolute_ofPlace dirs
  refine ⟨Path.names (Path.ofPlace dirs), Path.plainPlace_names habs, ?_⟩
  rw [hpath, Host.absolute, Path.absolute_eq (Path.isAbsolute_join habs _), Path.names_join habs]
  rfl

theorem plain_fileName : Path.Plain fileName := by decide

theorem dir_eq {root : Place} (hroot : Path.PlainPlace root)
    (hm : m.path = Path.ofPlace (root ++ [fileName])) : m.dir = Path.ofPlace root := by
  rw [dir, hm, Path.dir_ofPlace hroot plain_fileName]

theorem pathFor_eq {root : Place} (hroot : Path.PlainPlace root)
    (hm : m.path = Path.ofPlace (root ++ [fileName])) :
    Lockfile.pathFor m = Path.ofPlace (root ++ [Lockfile.fileName]) := by
  rw [Lockfile.pathFor, dir_eq hroot hm, Path.join_ofPlace hroot (by decide)]

end Manifest

/-! ## Runs -/

namespace Command

namespace Workplace

/-- A workplace has the lock that was loaded, or an empty one. -/
theorem load_eq_ok {h : Host} {w : Workplace} (hw : load h = .ok w) :
    Manifest.loadFor h "." = .ok w.manifest ∧ w.cache = Project.cacheDir h ∧
      w.lock.root = w.manifest.name ∧
      ((w.created = false ∧ ∃ l, Lockfile.load h (Lockfile.pathFor w.manifest) = .ok l ∧
          w.lock = { l with path := Lockfile.pathFor w.manifest, tool := toolVersion }) ∨
        (w.created = true ∧ w.lock.packages = [])) := by
  unfold load at hw
  split at hw
  · cases hw
  rename_i m hm
  split at hw
  · cases hw
  rename_i l created hl
  cases hw
  unfold lockOf at hl
  split at hl
  · rename_i hload
    split at hl
    · rename_i hroot
      cases hl
      exact ⟨hm, rfl, hroot, Or.inl ⟨rfl, l, hload, rfl⟩⟩
    · cases hl
  · split at hl
    · cases hl
      exact ⟨hm, rfl, (Manifest.loadFor_eq_ok hm).1.root, Or.inr ⟨rfl, rfl⟩⟩
    · cases hl

theorem lockOf_of_load {h : Host} {m : Manifest} {l : Lockfile}
    (hl : Lockfile.load h (Lockfile.pathFor m) = .ok l) (hroot : l.root = m.name) :
    lockOf h m = .ok (l, false) := by
  simp only [lockOf, hl, if_pos hroot]

theorem load_of_lock {h : Host} {m : Manifest} {l : Lockfile} {created : Bool}
    (hm : Manifest.loadFor h "." = .ok m) (hl : lockOf h m = .ok (l, created)) :
    load h = .ok ⟨m, { l with path := Lockfile.pathFor m, tool := toolVersion }, created,
      Project.cacheDir h⟩ := by
  simp only [load, hm, hl]

theorem normalized_lock {h : Host} {w : Workplace} (hw : load h = .ok w) {p : LockedPackage}
    (hp : p ∈ w.lock.present) : p.normalized = p := by
  obtain ⟨-, -, -, ⟨-, l, hl, heq⟩ | ⟨-, hnil⟩⟩ := load_eq_ok hw
  · rw [heq] at hp
    exact Lockfile.normalized_of_load hl hp
  · simp [Lockfile.present, hnil] at hp

theorem spelled_lock {h : Host} {w : Workplace} (hw : load h = .ok w) :
    Lockfile.Spelled w.lock.present :=
  fun _ hp => congrArg LockedPackage.name (normalized_lock hw hp)

/-- The lock that a run writes. -/
def newLock (w : Workplace) (i : Installer) (h : Host) : Lockfile :=
  (i.install h w.lock).2.lock.stamped (i.install h w.lock).2.host (Lockfile.pathFor w.manifest)

/-- How a run ends and what it leaves, without what is printed. -/
def outcome (w : Workplace) (i : Installer) (h : Host) : Nat × Host :=
  match i.install h w.lock with
  | (.error _, p) => (1, p.host)
  | (.ok changed, p) =>
    if changed || w.created then
      match p.lock.write p.host (Lockfile.pathFor w.manifest) with
      | (.error _, _) => (1, p.host)
      | (.ok h, _) => (0, h)
    else (0, p.host)

theorem outcome_of_write {w : Workplace} {i : Installer} {h h' : Host} {changed : Bool}
    {p : Installer.Progress} {l : Lockfile} (hinstall : i.install h w.lock = (.ok changed, p))
    (hwrite : p.lock.write p.host (Lockfile.pathFor w.manifest) = (.ok h', l)) :
    w.outcome i h = (0, if changed || w.created then h' else p.host) := by
  simp only [outcome, hinstall, hwrite]
  split
  · rfl
  · rfl

theorem host_outcome (w : Workplace) (i : Installer) (h : Host) :
    (w.outcome i h).2 = (i.install h w.lock).2.host ∨ (w.outcome i h).1 = 0 := by
  unfold outcome
  split
  · rename_i hinstall
    rw [hinstall]
    exact Or.inl rfl
  · rename_i hinstall
    rw [hinstall]
    split
    · split
      · exact Or.inl rfl
      · exact Or.inr rfl
    · exact Or.inr rfl

/-- A run that ends well has installed everything, and has written the lock unless it was there
and nothing is new. -/
theorem outcome_eq_ok {w : Workplace} {i : Installer} {h h' : Host}
    (hok : w.outcome i h = (0, h')) : ∃ changed p, i.install h w.lock = (.ok changed, p) ∧
      ((∃ l, p.lock.write p.host (Lockfile.pathFor w.manifest) = (.ok h', l)) ∨
        (changed = false ∧ w.created = false ∧ h' = p.host)) := by
  unfold outcome at hok
  split at hok
  · cases hok
  rename_i changed p hinstall
  refine ⟨changed, p, hinstall, ?_⟩
  split at hok
  · split at hok
    · cases hok
    · rename_i l hwrite
      cases hok
      exact Or.inl ⟨l, hwrite⟩
  · rename_i hsame
    cases hok
    rw [Bool.or_eq_true, not_or, Bool.not_eq_true, Bool.not_eq_true] at hsame
    exact Or.inr ⟨hsame.1, hsame.2, rfl⟩

theorem host_sayAll (c : Console) (lines : List Text) : (c.sayAll lines).host = c.host := by
  induction lines generalizing c with
  | nil => rfl
  | cons line lines ih => exact (ih (c.say line)).trans rfl

theorem run_outcome (w : Workplace) (i : Installer) (failing : Text)
    {written kept : Lockfile → Console → Console} (hwritten : ∀ l c, (written l c).host = c.host)
    (hkept : ∀ l c, (kept l c).host = c.host) (c : Console) :
    ((w.run i failing written kept c).1, (w.run i failing written kept c).2.host)
      = w.outcome i c.host := by
  unfold run outcome
  match i.install c.host w.lock with
  | (.error e, p) => exact congrArg (Prod.mk 1) (host_sayAll _ _)
  | (.ok changed, p) =>
    have hhost : ((c.withHost p.host).sayAll p.logs).host = p.host := host_sayAll _ _
    dsimp only
    split
    · rw [hhost]
      match p.lock.write p.host (Lockfile.pathFor w.manifest) with
      | (.error e, l) => exact congrArg (Prod.mk 1) hhost
      | (.ok h, l) => exact congrArg (Prod.mk 0) (hwritten l _)
    · exact congrArg (Prod.mk 0) ((hkept _ _).trans hhost)

end Workplace

/-- How a run of the dependency commands ends and what it leaves. `refresh` tells which packages
are to be fetched anew. -/
def effect (repository : Repository) (refresh : Text → Bool) (h : Host) : Nat × Host :=
  match Workplace.load h with
  | .error _ => (1, h)
  | .ok w => w.outcome (w.installer repository refresh) h

theorem effect_of_load {repository : Repository} {refresh : Text → Bool} {h : Host} {w : Workplace}
    (hw : Workplace.load h = .ok w) :
    effect repository refresh h = w.outcome (w.installer repository refresh) h := by
  simp only [effect, hw]

theorem effect_eq_ok {repository : Repository} {refresh : Text → Bool} {h h' : Host}
    (hok : effect repository refresh h = (0, h')) :
    ∃ w, Workplace.load h = .ok w ∧ w.outcome (w.installer repository refresh) h = (0, h') := by
  unfold effect at hok
  split at hok
  · cases hok
  · rename_i w hw
    exact ⟨w, hw, hok⟩

theorem install_effect (repository : Repository) (c : Console) :
    ((install repository c).1, (install repository c).2.host)
      = effect repository (fun _ => false) c.host := by
  match hw : Workplace.load c.host with
  | .error e =>
    simp only [install, effect, hw]
    rfl
  | .ok w =>
    simp only [install, effect, hw]
    refine (Workplace.run_outcome w _ _ ?_ ?_ _).trans (by rw [Workplace.host_sayAll])
    · exact fun l c => rfl
    · exact fun l c => rfl

/-- The packages that the words of a command ask to be fetched anew. -/
def refreshes : List Text → Text → Bool
  | word :: targets, name => word = "update" &&
    ((targets.map Text.packageName).isEmpty || (targets.map Text.packageName).contains name)
  | [], _ => false

theorem update_effect (repository : Repository) (targets : List Text) (c : Console) :
    ((update repository targets c).1, (update repository targets c).2.host) = (1, c.host) ∨
      ((update repository targets c).1, (update repository targets c).2.host)
        = effect repository (refreshes ("update" :: targets)) c.host := by
  match hw : Workplace.load c.host with
  | .error e =>
    simp only [update, hw]
    exact Or.inl rfl
  | .ok w =>
    simp only [update, effect, hw]
    split
    · exact Or.inl rfl
    · right
      refine (Workplace.run_outcome w _ _ ?_ ?_ _).trans ?_
      · exact fun l c => rfl
      · exact fun l c => rfl
      · rfl

/-- Whatever the words of a command are, it fails at once or has the effect of a run. -/
theorem dependencies_effect (repository : Repository) (arguments : List Text) (c : Console) :
    ((dependencies repository arguments c).1, (dependencies repository arguments c).2.host)
        = (1, c.host) ∨
      ((dependencies repository arguments c).1, (dependencies repository arguments c).2.host)
        = effect repository (refreshes arguments) c.host := by
  unfold dependencies
  split
  · exact Or.inl rfl
  · rename_i word more
    split
    · rename_i hword
      subst hword
      split
      · right
        rw [install_effect]
        congr 1
      · exact Or.inl rfl
    split
    · rename_i hword
      subst hword
      exact update_effect repository more c
    · exact Or.inl rfl

end Command

end Borealis
