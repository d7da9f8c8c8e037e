-- A lock that is written and loaded. What is written is normal: trimmed,
-- spelled as packages are, without missing entries and sorted. Loading makes
-- it normal once more, which changes nothing but the time. So the loaded lock
-- is the one in memory, and from then on storing it again changes nothing.
import Borealis.Proofs.DependencyRuns

namespace Borealis

/-! ## Files that are there -/

/-- A file that was written can be written again. -/
theorem FileTree.write_again {t t' : FileTree} {cwd path content : Text}
    (h : t.write cwd path content = .ok t') (content' : Text) :
    ∃ t'', t'.write cwd path content' = .ok t'' := by
  have hplace : t'.locate cwd path = .ok (Path.target cwd path) :=
    locate_of_dirs (dirs_write h) (write_eq_ok h).1
  have hfile : t'.get? (Path.target cwd path) = some (.file content) := by
    rw [get?_write h, if_pos rfl]
  refine ⟨t'.put (Path.target cwd path) (.file content'), ?_⟩
  unfold FileTree.write
  simp only [hplace, hfile]

namespace Lockfile

variable {h h' : Host} {l l' : Lockfile} {path : Text}

/-! ## Normal locks -/

theorem sortPackages_sortPackages (ps : List LockedPackage) :
    sortPackages (sortPackages ps) = sortPackages ps :=
  sortPackages_of_sorted (sorted_sortPackages ps)

/-- Normal packages stay as they are, also after sorting. -/
theorem map_normalized_sortPackages (ps : List LockedPackage) :
    (sortPackages (ps.map LockedPackage.normalized)).map LockedPackage.normalized
      = sortPackages (ps.map LockedPackage.normalized) := by
  refine (List.map_congr_left fun p hp => ?_).trans (List.map_id _)
  obtain ⟨q, -, rfl⟩ := List.mem_map.mp ((perm_sortPackages _).mem_iff.mp hp)
  exact normalized_normalized q

/-- Making a lock normal twice is making it normal once. -/
theorem normalized_twice (l : Lockfile) : l.normalized.normalized = l.normalized := by
  have hpackages : sortPackages (l.normalized.present.map LockedPackage.normalized)
      = l.normalized.present := by
    rw [present_normalized, map_normalized_sortPackages, sortPackages_sortPackages]
  rw [normalized, hpackages, present_normalized]
  simp [normalized]

theorem packages_normalized (l : Lockfile) :
    l.normalized.packages = l.normalized.present.map some := by
  rw [present_normalized]
  rfl

/-- The time of a lock does not matter for being normal. -/
theorem normalized_at (hl : l.normalized = l) (time : Text) :
    ({ l with generated := time } : Lockfile).normalized = { l with generated := time } := by
  have hnormal : ({ l with generated := time } : Lockfile).normalized
      = { l.normalized with generated := time } := rfl
  rw [hnormal, hl]

/-- A normal lock is found again in its text, but for the blanks around its time. -/
theorem toLockfile_toText (hl : l.normalized = l) :
    l.toText.toLockfile l.path = { l with generated := l.generated.trim } := by
  have hpackages : l.present.map some = l.packages := by
    rw [← hl, packages_normalized]
  rw [LockText.toLockfile, toText, hpackages]
  exact normalized_at hl _

/-! ## Writing and loading -/

/-- Where a lock is written to: to the path that is given, or else to its own. -/
def target (l : Lockfile) (path : Text) : Text := if path.isEmpty then l.path else path

theorem write_target (hw : l.write h path = (.ok h', l')) :
    l.target path ≠ [] ∧ l.write h (l.target path) = (.ok h', l') := by
  unfold target
  by_cases hpath : path = []
  · subst hpath
    by_cases hown : l.path = []
    · simp [write, hown] at hw
    · refine ⟨hown, ?_⟩
      simp only [write, List.isEmpty_nil, if_true] at hw ⊢
      simpa [hown] using hw
  · rw [if_neg (by simpa using hpath)]
    exact ⟨hpath, hw⟩

theorem normalized_stamped (h : Host) (l : Lockfile) (path : Text) :
    (l.stamped h path).normalized = l.stamped h path := normalized_twice _

theorem root_stamped (h : Host) (l : Lockfile) (path : Text) :
    (l.stamped h path).root = l.root.packageName := rfl

theorem tool_stamped (h : Host) (l : Lockfile) (path : Text) :
    (l.stamped h path).tool = l.tool.trim := rfl

/-- The lock that is loaded is the one that was written, but for the blanks around its time. -/
theorem stored_eq (h : Host) (l : Lockfile) (path : Text) :
    l.stored h path = { l.stamped h path with generated := (l.stamped h path).generated.trim } :=
  toLockfile_toText (normalized_stamped h l path)

/-- A normal lock with a time is written to its own path as it is. -/
theorem stamped_eq_self (hl : l.normalized = l) (hpath : h.absolute path = l.path)
    (hgenerated : l.generated ≠ []) : l.stamped h path = l := by
  have htime : l.generated.isEmpty = false := List.isEmpty_eq_false_iff.mpr hgenerated
  unfold stamped
  rw [htime, hpath]
  exact hl

/-- Where a file was written, a lock can be written. -/
theorem exists_write_again {file content : Text} (hw : h.write file content = .ok h')
    (content' : Text) : ∃ h'', h'.write file content' = .ok h'' := by
  obtain ⟨files, hfiles, rfl⟩ := host_write hw
  obtain ⟨files', hfiles'⟩ := FileTree.write_again hfiles content'
  refine ⟨{ h with files := files' }, ?_⟩
  simp only [Host.write, hfiles']

/-- A normal lock with a trimmed time is stored as it is. -/
theorem store_self (hne : path ≠ []) (hl : l.normalized = l) (hpath : h.absolute path = l.path)
    (htime : l.generated ≠ []) (htrim : l.generated.trim = l.generated)
    (hback : l.toText.ReadsBack) (hw : h.write (h.absolute path) l.toText.toYaml = .ok h') :
    l.write h path = (.ok h', l) ∧ load h' path = .ok l := by
  have hself := stamped_eq_self hl hpath htime
  have hwrite : l.write h path = (.ok h', l) := by
    have hw := write_of_ok (l := l) hne (by rw [hself]; exact hw)
    rwa [hself] at hw
  refine ⟨hwrite, ?_⟩
  rw [load_write hne hwrite (by rw [hself]; exact hback), stored_eq, hself, htrim]

/-- The packages of one lock are those of another that are there, normal and sorted by name.
Those of one name stand in the order that they had. -/
structure SortedFrom (l : Lockfile) (ps : List LockedPackage) : Prop where
  present : l.packages = l.present.map some
  sorted : (l.present.map LockedPackage.name).Pairwise (· ≤ ·)
  stable : ∀ n, named n l.present = named n (ps.map LockedPackage.normalized)
  complete : l.present.Perm (ps.map LockedPackage.normalized)

theorem sortedFrom_normalized (l : Lockfile) : l.normalized.SortedFrom l.present where
  present := packages_normalized l
  sorted := by
    rw [present_normalized]
    exact sorted_sortPackages _
  stable := fun n => by rw [present_normalized, named_sortPackages]
  complete := by
    rw [present_normalized]
    exact perm_sortPackages _

/-- After a lock was written, loading the path that it was written to gives the lock that is in
memory, with no blanks around its time. Its packages are sorted, stable and complete. If it has
a time, it can be written there again, and neither that nor loading it once more changes
anything. -/
theorem written_locks_are_loaded (hw : l.write h path = (.ok h', l'))
    (hback : l'.toText.ReadsBack) :
    ∃ k, load h' (l.target path) = .ok k ∧ k.path = l'.path ∧ k.root = l'.root ∧
      k.tool = l'.tool ∧ k.packages = l'.packages ∧ k.generated = l'.generated.trim ∧
      k.SortedFrom l.present ∧
      (k.generated ≠ [] → k.toText.ReadsBack →
        ∃ h'', k.write h' (l.target path) = (.ok h'', k) ∧ load h'' (l.target path) = .ok k) := by
  obtain ⟨hne, hw⟩ := write_target hw
  obtain ⟨rfl, hwrite⟩ := write_eq_ok hne hw
  have hload := load_write hne hw hback
  have hsorted : (l.stamped h (l.target path)).SortedFrom l.present := sortedFrom_normalized _
  rw [stored_eq] at hload
  refine ⟨_, hload, rfl, rfl, rfl, rfl, rfl,
    ⟨hsorted.present, hsorted.sorted, hsorted.stable, hsorted.complete⟩, fun htime hagain => ?_⟩
  have hcwd : h'.absolute (l.target path) = h.absolute (l.target path) := by
    obtain ⟨files, -, rfl⟩ := host_write hwrite
    rfl
  have hnormal := normalized_at (normalized_stamped h l (l.target path))
  obtain ⟨h'', hwrite''⟩ := exists_write_again hwrite _
  exact ⟨h'', store_self hne (hnormal _) hcwd htime (Text.trim_trim _) hagain (hcwd ▸ hwrite'')⟩

/-! ## A lock that is not tidy -/

/-- A machine with one directory. -/
def inApp : Host := ⟨⟨[(["app"], .dir)]⟩, "/app", [], [], "today"⟩

/-- Packages out of order, one entry missing, a name twice, hyphens and blanks. -/
def untidyLock : Lockfile :=
  ⟨"/app/package.lock", " my-app ", " yesterday\n", "tool\t",
    [some ⟨"zeta", "v1", "git+u@c", " /z", "sha256:0"⟩, none,
      some ⟨" alpha-lib", "v2 ", "path:/a", "/a", []⟩,
      some ⟨"zeta", "v1@c", "git+u@d", "/y", "sha256:1 "⟩]⟩

/-- Its packages in order. -/
def tidyPackages : List LockedPackage :=
  [⟨"alpha_lib", "v2", "path:/a", "/a", []⟩, ⟨"zeta", "v1", "git+u@c", "/z", "sha256:0"⟩,
    ⟨"zeta", "v1@c", "git+u@d", "/y", "sha256:1"⟩]

/-- Of three packages the second one comes first. -/
theorem sortPackages_second_first {p q r : LockedPackage} (hpq : nameLe p q = false)
    (hqr : nameLe q r = true) (hpr : nameLe p r = true) : sortPackages [p, q, r] = [q, p, r] := by
  simp [sortPackages, List.mergeSort, List.MergeSort.Internal.splitInTwo, hpq, hqr, hpr]

theorem present_untidyLock (path : Text) :
    (untidyLock.stamped inApp path).present = tidyPackages := by
  have hnormal : untidyLock.present.map LockedPackage.normalized
      = [⟨"zeta", "v1", "git+u@c", "/z", "sha256:0"⟩, ⟨"alpha_lib", "v2", "path:/a", "/a", []⟩,
        ⟨"zeta", "v1@c", "git+u@d", "/y", "sha256:1"⟩] := by decide +kernel
  have hpresent : (untidyLock.stamped inApp path).present
      = sortPackages (untidyLock.present.map LockedPackage.normalized) := present_normalized _
  rw [hpresent, hnormal]
  exact sortPackages_second_first (by decide +kernel) (by decide +kernel) (by decide +kernel)

/-- What is written and read of it: the root, the tool and the packages, with a time. -/
theorem readsBack_tidy : untidyLock.root.packageName = "my_app" ∧ untidyLock.tool.trim = "tool" ∧
    untidyLock.generated.trim = "yesterday" ∧
    LockText.ReadsBack ⟨"my_app", untidyLock.generated, "tool", tidyPackages⟩ ∧
    LockText.ReadsBack ⟨"my_app", "yesterday", "tool", tidyPackages⟩ := by
  decide +kernel

theorem generated_untidyLock (path : Text) :
    (untidyLock.stamped inApp path).generated = untidyLock.generated := rfl

theorem readsBack_untidyLock (path : Text) :
    (untidyLock.stamped inApp path).toText.ReadsBack := by
  obtain ⟨hroot, htool, -, hback, -⟩ := readsBack_tidy
  rw [toText, present_untidyLock, generated_untidyLock, root_stamped, tool_stamped, hroot, htool]
  exact hback

theorem untidyLock_is_loaded : ∃ h' l' k, untidyLock.write inApp "package.lock" = (.ok h', l') ∧
    load h' "package.lock" = .ok k ∧ k.packages = tidyPackages.map some ∧
    ∃ h'', k.write h' "package.lock" = (.ok h'', k) ∧ load h'' "package.lock" = .ok k := by
  have hw : ∃ h', untidyLock.write inApp "package.lock"
      = (.ok h', untidyLock.stamped inApp "package.lock") := ⟨_, rfl⟩
  obtain ⟨h', hw⟩ := hw
  obtain ⟨k, hload, -, hroot, htool, hpackages, htime, -, hagain⟩ :=
    written_locks_are_loaded hw (readsBack_untidyLock _)
  obtain ⟨hroot', htool', htime', -, hback⟩ := readsBack_tidy
  rw [root_stamped, hroot'] at hroot
  rw [tool_stamped, htool'] at htool
  rw [generated_untidyLock, htime'] at htime
  have hpresent : k.present = tidyPackages := by
    rw [present, hpackages, ← present, present_untidyLock]
  have htext : k.toText = ⟨"my_app", "yesterday", "tool", tidyPackages⟩ := by
    rw [toText, hroot, htool, htime, hpresent]
  have hgenerated : k.generated ≠ [] := by
    rw [htime]
    decide
  refine ⟨h', _, k, hw, hload, ?_, hagain hgenerated (htext ▸ hback)⟩
  rw [packages_of_load hload, hpresent]

/-- Without a path a lock is written to its own, but none is loaded without one. -/
theorem untidyLock_is_not_loaded_without_a_path : ∃ h' l',
    untidyLock.write inApp [] = (.ok h', l') ∧ l'.toText.ReadsBack ∧
      load h' [] = .error .noPath :=
  ⟨_, _, rfl, readsBack_untidyLock _, rfl⟩

end Lockfile

end Borealis
