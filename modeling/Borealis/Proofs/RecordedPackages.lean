-- Which dependencies a package from a repository is reused for. Its source and
-- its version each hold two texts with an at sign between them, and only the
-- front of both is compared. The commit is always found again, and the package
-- always fits the dependency that it was recorded for. It fits others too: one
-- whose repository or revision is what stands before an at sign in the first
-- one, and one that means a branch by the words of a tag.
import Borealis.Install
import Borealis.Proofs.Trimming

namespace Borealis

/-! ## Texts with a separator -/

namespace Text

variable {sep : UInt8} {s t u : Text}

theorem ofString_at : ofString "@" = [byte '@'] := by decide

theorem afterLast?_append (h : sep ∉ u) : afterLast? sep (t ++ sep :: u) = some u := by
  have hback : ∀ b ∈ u.reverse, (b != sep) = true := by
    intro b hb
    simp only [bne_iff_ne, ne_eq]
    rintro rfl
    exact h (List.mem_reverse.mp hb)
  unfold afterLast?
  rw [if_pos (by simp)]
  simp [List.takeWhile_append_of_pos hback]

/-- One text is the other, or it is followed by a separator in it. -/
def Fronts (sep : UInt8) (s t : Text) : Prop := s = t ∨ s ++ [sep] <+: t

instance : Decidable (Fronts sep s t) := inferInstanceAs (Decidable (_ ∨ _))

theorem Fronts.eq (h : Fronts sep s t) (hsep : sep ∉ t) : s = t := by
  rcases h with h | h
  · exact h
  · exact absurd (h.subset (by simp)) hsep

/-- The last separator is the only one that can divide a text in a new place. -/
theorem prefix_iff_fronts (h : sep ∉ u) : s ++ [sep] <+: t ++ sep :: u ↔ Fronts sep s t := by
  constructor
  · rintro ⟨back, hback⟩
    rw [List.append_assoc, List.singleton_append, List.append_eq_append_iff] at hback
    rcases hback with ⟨mid, rfl, hmid⟩ | ⟨mid, rfl, hmid⟩
    · cases mid with
      | nil => exact Or.inl (List.append_nil s).symm
      | cons b mid =>
        obtain ⟨rfl, -⟩ := List.cons.inj hmid
        exact Or.inr ⟨mid, by simp⟩
    · cases mid with
      | nil => exact Or.inl (List.append_nil t)
      | cons b mid =>
        obtain ⟨-, rfl⟩ := List.cons.inj hmid
        exact absurd (by simp) h
  · rintro (rfl | hfront)
    · exact ⟨u, by simp⟩
    · exact hfront.trans (List.prefix_append t _)

theorem mem_of_mem_trim {b : UInt8} (h : b ∈ t.trim) : b ∈ t := by
  have hsub : (trimmed t.runes).Sublist t.runes :=
    (List.rdropWhile_prefix _ _).sublist.trans (List.dropWhile_sublist _)
  rw [trim_eq, ofRunes, List.mem_flatMap] at h
  obtain ⟨r, hr, hb⟩ := h
  rw [← ofRunes_runes t]
  exact List.mem_flatMap.mpr ⟨r, hsub.subset hr, hb⟩

end Text

/-! ## What a dependency asks for -/

namespace Dependency

/-- The dependency comes from a repository, nothing is wrong with it, and there are no blanks
around its fields. -/
structure Fetchable (d : Dependency) : Prop where
  isGit : d.isGit = true
  valid : Manifest.dependencyIssues (some d) = []
  trimmed : ∀ t ∈ [d.path, d.git, d.rev, d.tag, d.branch], t.trim = t

instance (d : Dependency) : Decidable d.Fetchable :=
  decidable_of_iff (d.isGit = true ∧ Manifest.dependencyIssues (some d) = [] ∧
    ∀ t ∈ [d.path, d.git, d.rev, d.tag, d.branch], t.trim = t)
    ⟨fun h => ⟨h.1, h.2.1, h.2.2⟩, fun h => ⟨h.isGit, h.valid, h.trimmed⟩⟩

/-- The words that tell the revision. -/
def words (d : Dependency) : Text := (d.revision?.map Revision.descriptor).getD []

/-- Both ask for a commit, both for a tag, or both for a branch. -/
def SameKind (d e : Dependency) : Prop :=
  (d.rev = [] ↔ e.rev = []) ∧ (d.tag = [] ↔ e.tag = []) ∧ (d.branch = [] ↔ e.branch = [])

/-- One of the three ways to ask for a revision is used, and the words stand there. -/
theorem Fetchable.forms {d : Dependency} (h : d.Fetchable) : d.path = [] ∧
    ((d.rev = d.words ∧ d.tag = [] ∧ d.branch = []) ∨
      (d.rev = [] ∧ d.tag = d.words ∧ d.branch = []) ∨
      (d.rev = [] ∧ d.tag = [] ∧ d.branch = d.words)) ∧
    d.words ≠ [] ∧ d.words.trim = d.words ∧ ∃ r, d.revision? = some r ∧ r.descriptor = d.words := by
  obtain ⟨path, git, rev, tag, branch⟩ := d
  obtain ⟨hgit, hvalid, htrim⟩ := h
  simp only [List.forall_mem_cons, List.not_mem_nil, false_implies, implies_true, and_true] at htrim
  obtain ⟨-, -, hrev, htag, hbranch⟩ := htrim
  cases path <;> cases git <;> cases rev <;> cases tag <;> cases branch <;>
    simp_all [Manifest.dependencyIssues, revisions, Dependency.isGit, words, revision?]

theorem Fetchable.git_trim {d : Dependency} (h : d.Fetchable) : d.git.trim = d.git :=
  h.trimmed d.git (by simp)

/-- A dependency is told by its repository, its words and what kind of revision they name. -/
theorem Fetchable.eq_of_sameKind {d e : Dependency} (hd : d.Fetchable) (he : e.Fetchable)
    (hkind : d.SameKind e) (hgit : e.git = d.git) (hwords : e.words = d.words) : e = d := by
  obtain ⟨hpath, hform, hne, -⟩ := hd.forms
  obtain ⟨hpath', hform', -⟩ := he.forms
  have hfields : e.rev = d.rev ∧ e.tag = d.tag ∧ e.branch = d.branch := by
    unfold SameKind at hkind
    rcases hform with hf | hf | hf <;> rcases hform' with hf' | hf' | hf' <;>
      simp_all only [and_self, iff_true, iff_false, not_true_eq_false, false_and, and_false]
  cases d
  cases e
  simp_all only

end Dependency

/-! ## What is recorded -/

namespace Revision

/-- The version is the words alone, or the words and the commit. -/
theorem version_cases {words : Text} (commit : Text) (hne : words ≠ [])
    (htrim : words.trim = words) : version words commit = words ∨
      version words commit = words ++ Text.byte '@' :: commit.trim := by
  unfold version
  by_cases hcommit : commit.trim = []
  · simp [hcommit, htrim]
  · by_cases hsame : words = commit.trim
    · simp [htrim, ← hsame]
    · right
      simp [hcommit, htrim, hne, hsame, Text.ofString_at]

end Revision

namespace LockedPackage

variable {p : LockedPackage} {d e : Dependency} {commit : Text}

/-- The package was recorded for a dependency that was found at a commit. -/
structure RecordedFor (p : LockedPackage) (d : Dependency) (commit : Text) : Prop where
  version : p.version = Revision.version d.words commit
  source : p.source = gitSource ++ d.git ++ "@" ++ commit

instance (p : LockedPackage) (d : Dependency) (commit : Text) :
    Decidable (p.RecordedFor d commit) :=
  decidable_of_iff (p.version = Revision.version d.words commit ∧
    p.source = gitSource ++ d.git ++ "@" ++ commit)
    ⟨fun h => ⟨h.1, h.2⟩, fun h => ⟨h.version, h.source⟩⟩

theorem isFor_iff (he : e.Fetchable) : p.isFor e = true ↔
    gitSource ++ (e.git ++ [Text.byte '@']) <+: p.source ∧
      (p.version = e.words ∨ e.words ++ [Text.byte '@'] <+: p.version) := by
  obtain ⟨-, -, -, -, r, hr, hwords⟩ := he.forms
  simp [isFor, hr, hwords, Text.startsWith, Text.ofString_at]

theorem RecordedFor.commit_eq (hp : p.RecordedFor d commit) (hat : Text.byte '@' ∉ commit) :
    p.commit = commit := by
  have hsource : p.source = gitSource ++ d.git ++ Text.byte '@' :: commit := by
    rw [hp.source, Text.ofString_at, List.append_assoc, List.singleton_append]
  have hgit : p.isGit = true := by
    rw [isGit, Text.startsWith, hsource, List.append_assoc]
    exact List.isPrefixOf_iff_prefix.mpr (List.prefix_append _ _)
  rw [LockedPackage.commit, if_pos hgit, hsource, Text.afterLast?_append hat]
  rfl

/-- The repository of a recorded package is told from the front of its source. -/
theorem RecordedFor.source_iff (hp : p.RecordedFor d commit) (hat : Text.byte '@' ∉ commit) :
    gitSource ++ (e.git ++ [Text.byte '@']) <+: p.source ↔
      Text.Fronts (Text.byte '@') e.git d.git := by
  rw [hp.source, Text.ofString_at, List.append_assoc, List.append_assoc, List.singleton_append,
    List.prefix_append_right_inj, Text.prefix_iff_fronts hat]

/-- The revision of a recorded package is told from the front of its version. -/
theorem RecordedFor.version_iff (hp : p.RecordedFor d commit) (hd : d.Fetchable)
    (hat : Text.byte '@' ∉ commit) {words : Text} :
    p.version = words ∨ words ++ [Text.byte '@'] <+: p.version ↔
      Text.Fronts (Text.byte '@') words d.words ∨ words = p.version := by
  obtain ⟨-, -, hne, htrim, -⟩ := hd.forms
  have hcommit : Text.byte '@' ∉ commit.trim := fun h => hat (Text.mem_of_mem_trim h)
  rw [hp.version]
  rcases Revision.version_cases commit hne htrim with hv | hv <;> rw [hv]
  · constructor
    · rintro (rfl | hfront)
      · exact Or.inr rfl
      · exact Or.inl (Or.inr hfront)
    · rintro (hfront | rfl)
      · exact hfront.imp_left Eq.symm
      · exact Or.inl rfl
  · rw [Text.prefix_iff_fronts hcommit]
    exact ⟨fun h => h.symm.imp_right Eq.symm, fun h => h.symm.imp_left Eq.symm⟩

/-- What is fetched is recorded for the dependency at the commit of the snapshot. -/
theorem recordedFor_of_fetch {i : Installer} {h : Host} {name : Text} (hd : d.Fetchable)
    (hp : (i.fetch h name d).1 = .ok p) : ∃ r snapshot, d.revision? = some r ∧
      i.repository d.git r = .ok snapshot ∧ p.RecordedFor d snapshot.commit := by
  unfold Installer.fetch at hp
  dsimp only at hp
  split at hp
  · cases hp
  split at hp
  · cases hp
  split at hp
  · cases hp
  rename_i r hr
  split at hp
  · cases hp
  rename_i snapshot hsnapshot
  rw [hd.git_trim] at hsnapshot
  refine ⟨r, snapshot, hr, hsnapshot, ?_⟩
  split at hp
  · cases hp
  · cases hp
    refine ⟨?_, ?_⟩
    · simp [Dependency.words, hr]
    · rw [hd.git_trim]

/-- The commit of a recorded package is found again, and the package is reused for the
dependency that it was recorded for. It is reused for exactly those whose repository is that
one or stands before an at sign in it, and whose words are those that were asked for, stand
before an at sign in them, or are the whole version. Without at signs, and between dependencies
that ask for a revision of one kind, that is the dependency itself. Whatever is fetched for a
dependency is recorded for it, at the commit that its repository has. -/
theorem recorded_packages_are_reused (hd : d.Fetchable) (he : e.Fetchable)
    (hat : Text.byte '@' ∉ commit) (hp : p.RecordedFor d commit) :
    p.commit = commit ∧ p.isFor d = true ∧
    (p.isFor e = true ↔ Text.Fronts (Text.byte '@') e.git d.git ∧
      (Text.Fronts (Text.byte '@') e.words d.words ∨ e.words = p.version)) ∧
    (d.SameKind e → Text.byte '@' ∉ d.git → Text.byte '@' ∉ d.words → Text.byte '@' ∉ e.words →
      (p.isFor e = true ↔ e = d)) ∧
    ∀ (i : Installer) (h : Host) (name : Text) (q : LockedPackage), (i.fetch h name d).1 = .ok q →
      ∃ r snapshot, d.revision? = some r ∧ i.repository d.git r = .ok snapshot ∧
        q.RecordedFor d snapshot.commit := by
  have hiff : ∀ {e : Dependency}, e.Fetchable → (p.isFor e = true ↔
      Text.Fronts (Text.byte '@') e.git d.git ∧
        (Text.Fronts (Text.byte '@') e.words d.words ∨ e.words = p.version)) := by
    intro e he
    rw [isFor_iff he, hp.source_iff hat, hp.version_iff hd hat]
  have hself : p.isFor d = true := (hiff hd).mpr ⟨Or.inl rfl, Or.inl (Or.inl rfl)⟩
  refine ⟨hp.commit_eq hat, hself, hiff he, fun hkind hgit hwords hwords' => ⟨fun hfor => ?_, ?_⟩,
    fun i h name q hq => recordedFor_of_fetch hd hq⟩
  · obtain ⟨hurl, hrevision⟩ := (hiff he).mp hfor
    refine hd.eq_of_sameKind he hkind (hurl.eq hgit) ?_
    rcases hrevision with hfront | hversion
    · exact hfront.eq hwords
    · obtain ⟨-, -, hne, htrim, -⟩ := hd.forms
      rw [hp.version] at hversion
      rcases Revision.version_cases commit hne htrim with hv | hv
      · exact hversion.trans hv
      · rw [hversion, hv] at hwords'
        exact absurd (by simp) hwords'
  · rintro rfl
    exact hself

/-- A tag of a repository, without at signs. -/
def plainTag : Dependency := ⟨[], "https://host/lib.git", [], "v1.0", []⟩

/-- The tag after it. -/
def nextTag : Dependency := { plainTag with tag := "v1.0.1" }

/-- What is recorded for the first one at the commit `c0de`. -/
def plainPackage : LockedPackage :=
  ⟨"lib", "v1.0@c0de", "git+https://host/lib.git@c0de", "/cache/lib", "sha256:0"⟩

theorem plainPackage_is_reused : plainPackage.RecordedFor plainTag "c0de" ∧
    plainPackage.isFor plainTag = true ∧ plainPackage.isFor nextTag = false := by
  have hd : plainTag.Fetchable := by decide +kernel
  have he : nextTag.Fetchable := by decide +kernel
  have hp : plainPackage.RecordedFor plainTag "c0de" := by decide +kernel
  have hkind : plainTag.SameKind nextTag := ⟨by decide, by decide, by decide⟩
  obtain ⟨-, hself, -, hother, -⟩ := recorded_packages_are_reused hd he (by decide) hp
  have hiff := hother hkind (by decide) (by decide +kernel) (by decide +kernel)
  refine ⟨hp, hself, Bool.eq_false_iff.mpr fun hfor => ?_⟩
  exact absurd (hiff.mp hfor) (by decide)

/-! ## Packages that are reused for others -/

/-- A tag with an at sign, in a repository with one. -/
def betaTag : Dependency := ⟨[], "git@host:lib", [], "v1@beta", []⟩

/-- What is recorded for it at the commit `c`. -/
def betaPackage : LockedPackage :=
  ⟨"lib", "v1@beta@c", "git+git@host:lib@c", "/cache/lib", "sha256:0"⟩

/-- A branch of that name, a tag before the at sign, and a repository before the at sign. -/
def besidesBeta : List Dependency :=
  [⟨[], "git@host:lib", [], [], "v1@beta"⟩, ⟨[], "git@host:lib", [], "v1", []⟩,
    ⟨[], "git", [], "v1@beta", []⟩]

theorem betaPackage_is_reused_for_others :
    betaTag.Fetchable ∧ Text.byte '@' ∉ Text.ofString "c" ∧ betaPackage.RecordedFor betaTag "c" ∧
    ∀ e ∈ besidesBeta, e.Fetchable ∧ e ≠ betaTag ∧ betaPackage.isFor e = true := by
  decide +kernel

end LockedPackage

end Borealis
