-- Where the search for a manifest ends: in the directory nearest to its start that holds one as a
-- file, and without an answer only if no directory at the start or above it does.
import Borealis.Proofs.DependencyRuns
import Mathlib.Logic.Function.Iterate

namespace Borealis

/-! ## The files that paths lead to -/

/-- A file stands at the place and its path leads there: everything above it is a directory, and
neither a name nor the whole path is more than the system takes. -/
structure FileTree.HasFile (t : FileTree) (p : Place) : Prop where
  file : ∃ content, t.get? p = some (.file content)
  dirs : ∀ dir, dir <+: p → dir ≠ p → t.get? dir = some .dir
  names : ∀ n ∈ p, n.length ≤ FileTree.maxName
  short : (Path.ofPlace p).length ≤ FileTree.maxPath
  bytes : (Path.ofPlace p).contains 0 = false

theorem Host.isFile_iff {h : Host} {path : Text} : h.isFile path = true ↔
    h.files.locate h.cwd path = .ok (Path.target h.cwd path) ∧
      ∃ content, h.files.get? (Path.target h.cwd path) = some (.file content) := by
  constructor
  · intro hf
    unfold isFile at hf
    split at hf
    · rename_i p content hi
      obtain ⟨hl, rfl, he⟩ := FileTree.find_eq_ok (FileTree.inspect_eq_ok hi)
      exact ⟨hl, content, he⟩
    · cases hf
  · rintro ⟨hl, content, he⟩
    simp [isFile, inspect, FileTree.inspect, FileTree.find, hl, he]

theorem Host.isFile_ofPlace {h : Host} {p : Place} (hp : Path.PlainPlace p) :
    h.isFile (Path.ofPlace p) = true ↔ h.files.HasFile p := by
  have hne : ∀ {content}, h.files.get? p = some (.file content) → p ≠ [] := by
    rintro content hget rfl
    cases hget
  rw [isFile_iff, Path.target_ofPlace hp]
  constructor
  · rintro ⟨hl, content, hget⟩
    rw [FileTree.locate_ofPlace hp (hne hget)] at hl
    obtain ⟨⟨hbytes, hshort⟩, -, hnames, hdirs⟩ := hl
    exact ⟨⟨content, hget⟩, hdirs, hnames, hshort, hbytes⟩
  · rintro ⟨⟨content, hget⟩, hdirs, hnames, hshort, hbytes⟩
    refine ⟨?_, content, hget⟩
    rw [FileTree.locate_ofPlace hp (hne hget)]
    exact ⟨⟨hbytes, hshort⟩, rfl, hnames, hdirs⟩

/-! ## The directories above -/

namespace Path

theorem PlainPlace.front {p q : Place} (hp : PlainPlace p) (hq : q <+: p) : PlainPlace q :=
  fun n hn => hp n (hq.subset hn)

theorem dir_eq_dropLast {p : Place} (hp : PlainPlace p) :
    dir (ofPlace p) = ofPlace p.dropLast := by
  rcases List.eq_nil_or_concat p with rfl | ⟨q, n, rfl⟩
  · decide
  · rw [List.concat_eq_append] at hp ⊢
    rw [List.dropLast_concat]
    exact dir_ofPlace (hp.front (List.prefix_append q [n])) (hp n (by simp))

/-- Going up again and again leaves off one name at a time, and stays at the root. -/
theorem iterate_dir {p : Place} (hp : PlainPlace p) (n : Nat) :
    dir^[n] (ofPlace p) = ofPlace (p.take (p.length - n)) := by
  induction n with
  | zero => simp
  | succ n ih =>
    rw [Function.iterate_succ_apply', ih, dir_eq_dropLast (hp.front (List.take_prefix _ _)),
      List.dropLast_eq_take, List.length_take, List.take_take]
    congr 2
    omega

theorem isAbsolute_absolute {cwd : Text} (hcwd : isAbsolute cwd = true) (path : Text) :
    isAbsolute (absolute cwd path) = true := by
  unfold absolute
  split
  · exact isAbsolute_clean ‹_›
  · exact isAbsolute_join hcwd [path]

theorem plainPlace_target {cwd : Text} (hcwd : isAbsolute cwd = true) (path : Text) :
    PlainPlace (target cwd path) := by
  rw [← place_absolute hcwd]
  exact plainPlace_names (isAbsolute_absolute hcwd path)

theorem absolute_eq_ofPlace {cwd : Text} (hcwd : isAbsolute cwd = true) (path : Text) :
    absolute cwd path = ofPlace (target cwd path) := by
  rw [← place_absolute hcwd, place]
  unfold absolute
  split
  · rename_i habs
    rw [names_clean habs, clean_eq habs]
  · exact join_eq hcwd [path]

end Path

/-! ## The nearest manifest -/

/-- The directory `d` is the nearest of the directories from `p` upwards with a manifest in it. -/
structure FileTree.HasNearest (t : FileTree) (p d : Place) : Prop where
  above : d <+: p
  holds : t.HasFile (d ++ [Manifest.fileName])
  deepest : ∀ e, e <+: p → t.HasFile (e ++ [Manifest.fileName]) → e <+: d

namespace FileTree.HasNearest

variable {t : FileTree} {p d : Place}

theorem unique {d' : Place} (h : t.HasNearest p d) (h' : t.HasNearest p d') : d = d' := by
  have hle := h'.deepest d h.above h.holds
  exact hle.eq_of_length_le (h.deepest d' h'.above h'.holds).length_le

theorem here (h : t.HasFile (p ++ [Manifest.fileName])) : t.HasNearest p p :=
  ⟨List.prefix_refl p, h, fun _ he _ => he⟩

/-- A directory without a manifest leaves the search to the one above it. -/
theorem up {n : Text} (hn : ¬t.HasFile (p ++ [n] ++ [Manifest.fileName]))
    (h : t.HasNearest p d) : t.HasNearest (p ++ [n]) d := by
  refine ⟨h.above.trans (List.prefix_append p [n]), h.holds, fun e he hfile => ?_⟩
  rcases List.prefix_concat_iff.mp he with rfl | he
  · exact absurd hfile hn
  · exact h.deepest e he hfile

end FileTree.HasNearest

namespace Manifest

variable {h : Host}

/-- One step of the search: the directory itself, and without a manifest there the one above it. The
root has none above it. -/
theorem nearest_step {p : Place} (hp : Path.PlainPlace p) : nearest h p.reverse =
    if h.isFile (Path.ofPlace (p ++ [fileName])) then some (Path.ofPlace (p ++ [fileName]))
    else if p = [] then none
    else nearest h p.dropLast.reverse := by
  rw [← Path.join_ofPlace hp plain_fileName]
  rcases List.eq_nil_or_concat p with rfl | ⟨above, n, rfl⟩
  · rfl
  · rw [List.concat_eq_append, List.dropLast_concat, List.reverse_append, List.reverse_singleton,
      List.singleton_append, nearest, List.reverse_cons, List.reverse_reverse,
      if_neg (List.append_ne_nil_of_right_ne_nil above (List.cons_ne_nil n []))]

/-- The search from a directory upwards ends with the nearest manifest, or with nothing where no
directory has one. -/
theorem nearest_cases {p : Place} (hp : Path.PlainPlace p) :
    (∃ d, h.files.HasNearest p d ∧
      nearest h p.reverse = some (Path.ofPlace (d ++ [fileName]))) ∨
    ((∀ d, d <+: p → ¬h.files.HasFile (d ++ [fileName])) ∧ nearest h p.reverse = none) := by
  -- From the root down: what a directory adds is the step at the directory itself.
  induction p using List.reverseRecOn with
  | nil =>
    have hseen := Host.isFile_ofPlace (h := h) (hp.concat plain_fileName)
    rw [nearest_step hp]
    by_cases hfile : h.files.HasFile ([] ++ [fileName])
    · rw [if_pos (hseen.mpr hfile)]
      exact Or.inl ⟨[], .here hfile, rfl⟩
    · rw [if_neg (mt hseen.mp hfile), if_pos rfl]
      refine Or.inr ⟨fun d hd => ?_, rfl⟩
      rwa [List.prefix_nil.mp hd]
  | append_singleton p n ih =>
    have hseen := Host.isFile_ofPlace (h := h) (hp.concat plain_fileName)
    rw [nearest_step hp]
    by_cases hfile : h.files.HasFile (p ++ [n] ++ [fileName])
    · rw [if_pos (hseen.mpr hfile)]
      exact Or.inl ⟨p ++ [n], .here hfile, rfl⟩
    · rw [if_neg (mt hseen.mp hfile), if_neg (by simp), List.dropLast_concat]
      rcases ih (hp.front (List.prefix_append p [n])) with ⟨d, hd, hn⟩ | ⟨hnone, hn⟩
      · exact Or.inl ⟨d, hd.up hfile, hn⟩
      · refine Or.inr ⟨fun d hd => ?_, hn⟩
        rcases List.prefix_concat_iff.mp hd with rfl | hd
        · exact hfile
        · exact hnone d hd

theorem nearest_eq_some_iff {p : Place} (hp : Path.PlainPlace p) (path : Text) :
    nearest h p.reverse = some path ↔
      ∃ d, h.files.HasNearest p d ∧ path = Path.ofPlace (d ++ [fileName]) := by
  rcases nearest_cases hp with ⟨d, hd, hn⟩ | ⟨hnone, hn⟩
  · rw [hn, Option.some_inj]
    constructor
    · rintro rfl
      exact ⟨d, hd, rfl⟩
    · rintro ⟨d', hd', rfl⟩
      rw [hd.unique hd']
  · rw [hn]
    simp only [reduceCtorEq, false_iff, not_exists, not_and]
    intro d hd
    exact absurd hd.holds (hnone d hd.above)

theorem nearest_eq_none_iff {p : Place} (hp : Path.PlainPlace p) :
    nearest h p.reverse = none ↔ ∀ d, d <+: p → ¬h.files.HasFile (d ++ [fileName]) := by
  rcases nearest_cases hp with ⟨d, hd, hn⟩ | ⟨hnone, hn⟩
  · rw [hn]
    simp only [reduceCtorEq, false_iff, not_forall, not_not]
    exact ⟨d, hd.above, hd.holds⟩
  · exact iff_of_true hn hnone

theorem loadFor_eq_notFound {start : Text} :
    loadFor h start = .error .notFound ↔ find? h start = none := by
  unfold loadFor
  split
  · simp_all
  · split <;> simp_all

/-- The directory that a search from a path starts in: the one above the place that the path leads
to if a file stands there, and the place itself if a directory or nothing does. -/
def SearchesFrom (h : Host) (start : Text) (p : Place) : Prop :=
  (h.files.HasFile (Path.target h.cwd start) ∧ p = (Path.target h.cwd start).dropLast) ∨
    (¬h.files.HasFile (Path.target h.cwd start) ∧ p = Path.target h.cwd start)

theorem find?_eq_nearest (hcwd : Path.isAbsolute h.cwd = true) (start : Text) :
    ∃ p, SearchesFrom h start p ∧ Path.PlainPlace p ∧ find? h start = nearest h p.reverse := by
  have hplain := Path.plainPlace_target hcwd start
  unfold find?
  simp only [Host.absolute, Path.absolute_eq_ofPlace hcwd]
  by_cases hfile : h.isFile (Path.ofPlace (Path.target h.cwd start)) = true
  · have hdrop := hplain.front (List.dropLast_prefix _)
    rw [if_pos hfile, Path.dir_eq_dropLast hplain, Path.place, Path.names_ofPlace hdrop]
    exact ⟨_, Or.inl ⟨(Host.isFile_ofPlace hplain).mp hfile, rfl⟩, hdrop, rfl⟩
  · rw [if_neg hfile, Path.place, Path.names_ofPlace hplain]
    rw [Host.isFile_ofPlace hplain] at hfile
    exact ⟨_, Or.inr ⟨hfile, rfl⟩, hplain, rfl⟩

/-- From every path the search ends. It goes up from directory to directory until the root, finds
the manifest of the nearest one that has one as a file, and finds nothing exactly if none has. -/
theorem the_nearest_manifest_is_found (h : Host) (hcwd : Path.isAbsolute h.cwd = true)
    (start : Text) : ∃ p, SearchesFrom h start p ∧
      (∀ n, Path.dir^[n] (Path.ofPlace p) = Path.ofPlace (p.take (p.length - n))) ∧
      (∀ path, find? h start = some path ↔
        ∃ d, h.files.HasNearest p d ∧ path = Path.ofPlace (d ++ [fileName])) ∧
      (loadFor h start = .error .notFound ↔ find? h start = none) ∧
      (find? h start = none ↔ ∀ d, d <+: p → ¬h.files.HasFile (d ++ [fileName])) := by
  obtain ⟨p, hstart, hp, hfind⟩ := find?_eq_nearest hcwd start
  refine ⟨p, hstart, Path.iterate_dir hp, fun path => ?_, loadFor_eq_notFound, ?_⟩
  · rw [hfind]
    exact nearest_eq_some_iff hp path
  · rw [hfind]
    exact nearest_eq_none_iff hp

/-- A machine with a manifest at the root and one below it. The working directory has a directory
of that name. -/
def nested : Host where
  files := ⟨[
    (["package.yml"], .file "name: all"),
    (["app"], .dir),
    (["app", "package.yml"], .file "name: app"),
    (["app", "src"], .dir),
    (["app", "src", "package.yml"], .dir),
    (["app", "src", "main.au"], .file "1")]⟩
  cwd := "/app/src"
  userHome := "/"
  cacheHome := []
  now := "now"

theorem nested_passes_over_the_directory : Path.isAbsolute nested.cwd = true ∧
    nested.files.get? ["app", "src", "package.yml"] = some .dir ∧
    find? nested "main.au" = some "/app/package.yml" := by
  refine ⟨by decide, by decide, ?_⟩
  obtain ⟨p, hstart, -, hsome, -⟩ := the_nearest_manifest_is_found nested (by decide) "main.au"
  have hmain : nested.files.HasFile ["app", "src", "main.au"] :=
    (Host.isFile_ofPlace (by decide)).mp (by decide +kernel)
  have hsrc : ¬nested.files.HasFile ((["app", "src"] : Place) ++ [fileName]) := by
    rw [← Host.isFile_ofPlace (by decide)]
    decide +kernel
  have happ : nested.files.HasFile ((["app"] : Place) ++ [fileName]) :=
    (Host.isFile_ofPlace (by decide)).mp (by decide +kernel)
  rcases hstart with ⟨-, rfl⟩ | ⟨hnone, -⟩
  · refine (hsome _).mpr ⟨["app"], ?_, rfl⟩
    exact FileTree.HasNearest.up (p := ["app"]) (n := "src") hsrc (.here happ)
  · exact absurd hmain hnone

end Manifest

end Borealis
