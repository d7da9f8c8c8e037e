-- Locks and the manifests they belong to. A lock finds the first package of
-- a name, and putting packages in, dropping those of other names, sorting and
-- storing the lock do not change which one that is.
import Borealis.Lockfile.Storage
import Borealis.Manifest.Reader
import Borealis.Proofs.FileTrees
import Borealis.Proofs.Tables
import Borealis.Proofs.Trimming

namespace Borealis

/-! ## Manifests -/

namespace Manifest

/-- What holds of every manifest that can be loaded. -/
structure Accepted (m : Manifest) : Prop where
  sorted : m.dependencies.Sorted
  spelled : ∀ n ∈ m.dependencyNames, n.packageName = n
  described : ∀ n ∈ m.dependencyNames, ∃ d, m.dependency? n = some d
  root : m.name.packageName = m.name

theorem Accepted.nodup {m : Manifest} (h : m.Accepted) : m.dependencyNames.Nodup := h.sorted.nodup

theorem mem_dependencyNames {m : Manifest} {n : Text} {d : Dependency}
    (h : m.dependency? n = some d) : n ∈ m.dependencyNames := by
  match hget : m.dependencies.get? n with
  | none => simp [dependency?, hget] at h
  | some v =>
    obtain ⟨l, l', hl, -⟩ := List.lookup_eq_some_iff.mp hget
    simp [dependencyNames, Table.names, hl]

theorem described_of_issues {m : Manifest} (hsorted : m.dependencies.Sorted) (h : m.issues = [])
    {n : Text} (hn : n ∈ m.dependencyNames) : ∃ d, m.dependency? n = some d := by
  obtain ⟨⟨_, v⟩, hmem, rfl⟩ := List.mem_map.mp hn
  rw [dependency?, hsorted.get?_eq_some_iff.mpr hmem]
  match v with
  | some d => exact ⟨d, rfl⟩
  | none =>
    have hnone := List.flatMap_eq_nil_iff.mp (List.append_eq_nil_iff.mp h).2 _ hmem
    cases hnone

theorem load_eq_ok {h : Host} {path : Text} {m : Manifest} (hl : load h path = .ok m) :
    m.path = h.absolute path ∧ m.Accepted ∧ ∃ t mt, h.read (h.absolute path) = .ok t ∧
      ManifestText.ofYaml t = .ok mt ∧ m = mt.toManifest (h.absolute path) := by
  unfold load at hl
  split at hl
  · cases hl
  dsimp only at hl
  split at hl
  · cases hl
  rename_i t ht
  split at hl
  · cases hl
  rename_i mt hmt
  unfold checked at hl
  split at hl
  · rename_i hissues
    cases hl
    have hsorted : (mt.toManifest (h.absolute path)).dependencies.Sorted := Table.sorted_ofList _
    refine ⟨rfl, ⟨hsorted, fun n hn => ?_, fun n hn => ?_, Text.packageName_packageName _⟩,
      t, mt, ht, hmt, rfl⟩
    · have hmem := Table.mem_names_ofList hn
      rw [List.map_map] at hmem
      obtain ⟨e, -, rfl⟩ := List.mem_map.mp hmem
      exact Text.packageName_packageName _
    · exact described_of_issues hsorted (List.isEmpty_iff.mp hissues) hn
  · cases hl

theorem load_of_text {h : Host} {path t : Text} {mt : ManifestText} (hne : path ≠ [])
    (ht : h.read (h.absolute path) = .ok t) (hmt : ManifestText.ofYaml t = .ok mt)
    (hissues : (mt.toManifest (h.absolute path)).issues = []) :
    load h path = .ok (mt.toManifest (h.absolute path)) := by
  simp [load, hne, ht, hmt, checked, hissues]

end Manifest

/-! ## Packages by name -/

namespace Lockfile

/-- The packages of one name, in order. -/
def named (n : Text) (ps : List LockedPackage) : List LockedPackage := ps.filter (·.name == n)

/-- Packages with one more, in place of the first one of its name or at the end. -/
def placed (p : LockedPackage) : List LockedPackage → List LockedPackage
  | [] => [p]
  | q :: rest => if q.name = p.name then p :: rest else q :: placed p rest

theorem find?_eq (l : Lockfile) (n : Text) :
    l.find? n = (named n.packageName l.present).head? := by
  rw [find?, named, present, List.head?_filter]
  generalize l.packages = ps
  induction ps with
  | nil => rfl
  | cons q ps ih =>
    match q with
    | none => simpa [hasName] using ih
    | some q =>
      by_cases hq : q.name = n.packageName
      · simp [hasName, hq]
      · simpa [hasName, hq] using ih

theorem find?_name {l : Lockfile} {n : Text} {p : LockedPackage} (h : l.find? n = some p) :
    p.name = n.packageName := by
  rw [find?_eq] at h
  exact beq_iff_eq.mp (List.mem_filter.mp (List.mem_of_head? h)).2

theorem mem_of_find? {l : Lockfile} {n : Text} {p : LockedPackage} (h : l.find? n = some p) :
    p ∈ l.present := by
  rw [find?_eq] at h
  exact (List.mem_filter.mp (List.mem_of_head? h)).1

theorem present_put (l : Lockfile) (p : LockedPackage) :
    (l.put p).present = placed p l.present := by
  unfold put present
  generalize l.packages = ps
  induction ps with
  | nil => rfl
  | cons q ps ih =>
    match q with
    | none => simpa [putIn, hasName] using ih
    | some q =>
      by_cases hq : q.name = p.name
      · simp [putIn, placed, hasName, hq]
      · simpa [putIn, placed, hasName, hq] using ih

theorem present_retain (l : Lockfile) (ns : List Text) : (l.retain ns).2.present =
    l.present.filter fun p => (ns.map Text.packageName).contains p.name := by
  unfold retain present
  dsimp only
  generalize l.packages = ps
  induction ps with
  | nil => rfl
  | cons q ps ih =>
    match q with
    | none => simpa using ih
    | some q =>
      by_cases hq : (ns.map Text.packageName).contains q.name = true
      · simpa only [List.filter_cons, hq, if_true, List.filterMap_cons, id_eq, List.cons.injEq,
          true_and] using ih
      · simpa only [List.filter_cons, hq, if_false, List.filterMap_cons, id_eq,
          Bool.false_eq_true] using ih

theorem named_placed (n : Text) (p : LockedPackage) (ps : List LockedPackage) :
    named n (placed p ps) = if n = p.name then p :: (named n ps).tail else named n ps := by
  induction ps with
  | nil =>
    by_cases hn : n = p.name
    · simp [named, placed, hn]
    · simp [named, placed, hn, Ne.symm hn]
  | cons q ps ih =>
    unfold placed
    by_cases hq : q.name = p.name
    · rw [if_pos hq]
      by_cases hn : n = p.name
      · simp [named, hq, hn]
      · simp [named, hq, hn, Ne.symm hn]
    · rw [if_neg hq]
      by_cases hn : n = p.name
      · subst hn
        simpa [named, hq] using ih
      · by_cases hqn : q.name = n
        · simpa [named, hqn, hn] using ih
        · simpa [named, hqn, hn] using ih

theorem named_filter {n : Text} {ns : List Text} (h : n ∈ ns) (ps : List LockedPackage) :
    named n (ps.filter fun p => ns.contains p.name) = named n ps := by
  rw [named, named, List.filter_filter]
  refine List.filter_congr fun p _ => ?_
  by_cases hp : p.name = n
  · simp [hp, h]
  · simp [hp]

theorem find?_put_of_ne (l : Lockfile) {n : Text} {p : LockedPackage} (h : n.packageName ≠ p.name) :
    (l.put p).find? n = l.find? n := by
  rw [find?_eq, find?_eq, present_put, named_placed, if_neg h]

theorem find?_put_self (l : Lockfile) {n : Text} {p : LockedPackage} (h : n.packageName = p.name) :
    (l.put p).find? n = some p := by
  rw [find?_eq, present_put, named_placed, if_pos h]
  rfl

/-- A package that is found already changes nothing. -/
theorem put_of_find? {l : Lockfile} {n : Text} {p : LockedPackage} (h : l.find? n = some p) :
    l.put p = l := by
  have hname := find?_name h
  have hput : ∀ ps : List (Option LockedPackage),
      (ps.find? (hasName n.packageName)).join = some p → putIn p ps = ps := by
    intro ps
    induction ps with
    | nil => simp
    | cons q ps ih =>
      intro hfind
      unfold putIn
      rw [hname]
      by_cases hq : hasName n.packageName q = true
      · rw [if_pos hq]
        rw [List.find?_cons_of_pos hq] at hfind
        match q, hfind with
        | some q, hfind => rw [Option.some.inj hfind]
      · rw [if_neg hq, ih]
        rwa [List.find?_cons_of_neg hq] at hfind
  rw [put, hput l.packages h]

theorem mem_placed {p q : LockedPackage} {ps : List LockedPackage} (h : q ∈ placed p ps) :
    q = p ∨ q ∈ ps := by
  induction ps with
  | nil => exact Or.inl (List.mem_singleton.mp h)
  | cons r ps ih =>
    unfold placed at h
    split at h
    · rcases List.mem_cons.mp h with rfl | h
      · exact Or.inl rfl
      · exact Or.inr (List.mem_cons_of_mem _ h)
    · rcases List.mem_cons.mp h with rfl | h
      · exact Or.inr List.mem_cons_self
      · exact (ih h).imp_right (List.mem_cons_of_mem _)

theorem nameLe_iff {p q : LockedPackage} : nameLe p q = true ↔ p.name ≤ q.name := by
  rw [nameLe, Text.le, decide_eq_true_eq]

theorem nameLe_trans (p q r : LockedPackage) (h : nameLe p q = true) (h' : nameLe q r = true) :
    nameLe p r = true := by
  rw [nameLe_iff] at *
  exact List.le_trans h h'

theorem nameLe_total (p q : LockedPackage) : (nameLe p q || nameLe q p) = true := by
  rw [Bool.or_eq_true, nameLe_iff, nameLe_iff]
  exact List.le_total _ _

theorem perm_sortPackages (ps : List LockedPackage) : (sortPackages ps).Perm ps :=
  List.mergeSort_perm ps nameLe

theorem sorted_sortPackages (ps : List LockedPackage) :
    ((sortPackages ps).map LockedPackage.name).Pairwise (· ≤ ·) := by
  rw [List.pairwise_map]
  exact (List.pairwise_mergeSort nameLe_trans nameLe_total ps).imp nameLe_iff.mp

theorem sortPackages_of_sorted {ps : List LockedPackage}
    (h : (ps.map LockedPackage.name).Pairwise (· ≤ ·)) : sortPackages ps = ps :=
  List.mergeSort_of_pairwise ((List.pairwise_map.mp h).imp nameLe_iff.mpr)

/-- Packages of one name keep their order. -/
theorem named_sortPackages (n : Text) (ps : List LockedPackage) :
    named n (sortPackages ps) = named n ps := by
  have hle : (named n ps).Pairwise fun p q => nameLe p q = true := by
    refine List.pairwise_of_forall_mem_list fun p hp q hq => nameLe_iff.mpr ?_
    rw [beq_iff_eq.mp (List.mem_filter.mp hp).2, beq_iff_eq.mp (List.mem_filter.mp hq).2]
    exact List.le_refl n
  have hsub := List.sublist_mergeSort nameLe_trans nameLe_total hle List.filter_sublist
  have hnamed : named n (named n ps) = named n ps := by simp [named]
  refine (List.Sublist.eq_of_length ?_ ?_).symm
  · rw [← hnamed]
    exact hsub.filter _
  · exact ((perm_sortPackages ps).filter _).length_eq.symm

@[simp]
theorem normalized_normalized (p : LockedPackage) : p.normalized.normalized = p.normalized := by
  simp [LockedPackage.normalized]

/-- The names of all packages are spelled as packages spell them. -/
def Spelled (ps : List LockedPackage) : Prop := ∀ p ∈ ps, p.name.packageName = p.name

theorem named_map_normalized {ps : List LockedPackage} (h : Spelled ps) (n : Text) :
    named n (ps.map LockedPackage.normalized) = (named n ps).map LockedPackage.normalized := by
  rw [named, named, List.filter_map]
  congr 1
  refine List.filter_congr fun p hp => ?_
  show (p.name.packageName == n) = _
  rw [h p hp]

theorem spelled_map_normalized (ps : List LockedPackage) :
    Spelled (ps.map LockedPackage.normalized) := by
  intro p hp
  obtain ⟨q, -, rfl⟩ := List.mem_map.mp hp
  exact Text.packageName_packageName q.name

@[simp]
theorem present_map_some (path root generated tool : Text) (ps : List LockedPackage) :
    present ⟨path, root, generated, tool, ps.map some⟩ = ps := by
  simp [present]

theorem present_normalized (l : Lockfile) :
    l.normalized.present = sortPackages (l.present.map LockedPackage.normalized) := by
  simp [normalized, present]

theorem load_eq_ok_iff {h : Host} {path : Text} {l : Lockfile} : load h path = .ok l ↔
    path ≠ [] ∧ ∃ t lt, h.read (h.absolute path) = .ok t ∧ LockText.ofYaml t = .ok lt ∧
      l = lt.toLockfile (h.absolute path) := by
  constructor
  · intro hl
    unfold load at hl
    split at hl
    · cases hl
    rename_i hne
    dsimp only at hl
    split at hl
    · cases hl
    rename_i t ht
    split at hl
    · cases hl
    rename_i lt hlt
    cases hl
    exact ⟨by simpa using hne, t, lt, ht, hlt, rfl⟩
  · rintro ⟨hne, t, lt, ht, hlt, rfl⟩
    simp [load, hne, ht, hlt]

theorem present_toLockfile (lt : LockText) (path : Text) : (lt.toLockfile path).present =
    sortPackages (lt.packages.map LockedPackage.normalized) := by
  simp [LockText.toLockfile, present_normalized]

theorem normalized_of_load {h : Host} {path : Text} {l : Lockfile} (hl : load h path = .ok l)
    {p : LockedPackage} (hp : p ∈ l.present) : p.normalized = p := by
  obtain ⟨-, t, lt, -, -, rfl⟩ := load_eq_ok_iff.mp hl
  rw [present_toLockfile, (perm_sortPackages _).mem_iff] at hp
  obtain ⟨q, -, rfl⟩ := List.mem_map.mp hp
  exact normalized_normalized q

theorem packages_of_load {h : Host} {path : Text} {l : Lockfile} (hl : load h path = .ok l) :
    l.packages = l.present.map some := by
  obtain ⟨-, t, lt, -, -, rfl⟩ := load_eq_ok_iff.mp hl
  simp [LockText.toLockfile, normalized, present]

theorem sorted_of_load {h : Host} {path : Text} {l : Lockfile} (hl : load h path = .ok l) :
    (l.present.map LockedPackage.name).Pairwise (· ≤ ·) := by
  obtain ⟨-, t, lt, -, -, rfl⟩ := load_eq_ok_iff.mp hl
  rw [present_toLockfile]
  exact sorted_sortPackages _

end Lockfile

end Borealis
