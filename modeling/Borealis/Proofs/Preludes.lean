-- Dependencies come before scripts. A session looks at every dependency of
-- its package before it runs the first script, so one that is not locked,
-- was changed, or cannot be read stops a session that has run nothing.
import Borealis.Proofs.Installed

namespace Borealis

namespace Session

variable {h : Host} {lock : Option Lockfile} {name : Text} {names : List Text} {e : SessionError}

/-- The dependency is not locked, or it is not what was locked, or its manifest cannot be read. -/
def Unusable (h : Host) (lock : Option Lockfile) (name : Text) : Prop :=
  lock.bind (·.find? name) = none ∨
    ∃ p, lock.bind (·.find? name) = some p ∧
      ((∃ e, p.verify h = .error e) ∨
        ∃ e, Manifest.load h (Path.join [p.path, Manifest.fileName]) = .error e)

/-- The error names the dependency and says the first thing that is wrong with it. -/
inductive Refuses (h : Host) (lock : Option Lockfile) (name : Text) : SessionError → Prop where
  | notLocked : lock.bind (·.find? name) = none → Refuses h lock name (.notLocked name)
  | unverified {p : LockedPackage} {e : LockedPackage.Mismatch} :
      lock.bind (·.find? name) = some p → p.verify h = .error e →
      Refuses h lock name (.unverified name e)
  | badDependency {p : LockedPackage} {e : ManifestError} :
      lock.bind (·.find? name) = some p → p.verify h = .ok () →
      Manifest.load h (Path.join [p.path, Manifest.fileName]) = .error e →
      Refuses h lock name (.badDependency name e)

/-! ## One dependency -/

theorem refuses_of_error (he : dependencyPrelude h lock name = .error e) :
    Refuses h lock name e := by
  unfold dependencyPrelude at he
  split at he
  · rename_i hnone
    cases he
    exact .notLocked hnone
  · rename_i p hp
    split at he
    · rename_i hverify
      cases he
      exact .unverified hp hverify
    · rename_i hverify
      split at he
      · rename_i hload
        cases he
        exact .badDependency hp hverify hload
      · cases he

/-- Only a dependency that cannot be used has no prelude to list. -/
theorem unusable_iff : Unusable h lock name ↔ ∃ e, dependencyPrelude h lock name = .error e := by
  constructor
  · rintro (hnone | ⟨p, hp, hbad⟩)
    · exact ⟨.notLocked name, by simp only [dependencyPrelude, hnone]⟩
    · cases hverify : p.verify h with
      | error e => exact ⟨.unverified name e, by simp only [dependencyPrelude, hp, hverify]⟩
      | ok =>
        rcases hbad with ⟨e, he⟩ | ⟨e, he⟩
        · cases hverify.symm.trans he
        · exact ⟨.badDependency name e, by simp only [dependencyPrelude, hp, hverify, he]⟩
  · rintro ⟨e, he⟩
    cases refuses_of_error he with
    | notLocked hnone => exact .inl hnone
    | unverified hp hverify => exact .inr ⟨_, hp, .inl ⟨_, hverify⟩⟩
    | badDependency hp _ hload => exact .inr ⟨_, hp, .inr ⟨_, hload⟩⟩

theorem exists_prelude (hn : ¬ Unusable h lock name) :
    ∃ files, dependencyPrelude h lock name = .ok files := by
  cases hd : dependencyPrelude h lock name with
  | ok files => exact ⟨files, rfl⟩
  | error e => exact absurd (unusable_iff.mpr ⟨e, hd⟩) hn

/-! ## All dependencies -/

theorem dependencyPreludes_cons (files : List Text)
    (hf : dependencyPrelude h lock name = .ok files) :
    dependencyPreludes h lock (name :: names) =
      (dependencyPreludes h lock names).map (files ++ ·) := by
  rw [dependencyPreludes, hf]
  cases dependencyPreludes h lock names with
  | error e => rfl
  | ok more => rfl

/-- Wherever a dependency that cannot be used stands, nothing is listed, and the error is about
the first one. -/
theorem dependencyPreludes_refused (hbad : ∃ n ∈ names, Unusable h lock n) :
    ∃ before first after e, names = before ++ first :: after ∧
      (∀ n ∈ before, ¬ Unusable h lock n) ∧ Refuses h lock first e ∧
      dependencyPreludes h lock names = .error e := by
  induction names with
  | nil => simp at hbad
  | cons name names ih =>
    by_cases hname : Unusable h lock name
    · obtain ⟨e, he⟩ := unusable_iff.mp hname
      refine ⟨[], name, names, e, rfl, by simp, refuses_of_error he, ?_⟩
      rw [dependencyPreludes, he]
      rfl
    · obtain ⟨n, hn, hbad⟩ := hbad
      have hmem : n ∈ names :=
        (List.mem_cons.mp hn).resolve_left fun heq => hname (heq ▸ hbad)
      obtain ⟨before, first, after, e, rfl, hbefore, hfirst, hall⟩ := ih ⟨n, hmem, hbad⟩
      obtain ⟨files, hfiles⟩ := exists_prelude hname
      refine ⟨name :: before, first, after, e, rfl, List.forall_mem_cons.mpr ⟨hname, hbefore⟩,
        hfirst, ?_⟩
      rw [dependencyPreludes_cons files hfiles, hall]
      rfl

/-- If a dependency of the package cannot be used, then loading the preludes fails and leaves the
session as it was, with all that its interpreter holds. The error is about the first such
dependency by name. If all of them can be used, then their scripts run, and those of the package
behind them. -/
theorem preludes_wait_for_the_dependencies {s : Session} {m : Manifest} (h : Host)
    (hm : s.manifest = some m) :
    ((∃ name ∈ m.dependencyNames, Unusable h s.lock name) →
      ∃ before first after e, m.dependencyNames = before ++ first :: after ∧
        (∀ n ∈ before, ¬ Unusable h s.lock n) ∧ Refuses h s.lock first e ∧
        s.loadPreludes h = (.error e, s)) ∧
    ((∀ name ∈ m.dependencyNames, ¬ Unusable h s.lock name) →
      ∃ scripts, List.Forall₂ (fun name files => dependencyPrelude h s.lock name = .ok files)
          m.dependencyNames scripts ∧
        s.loadPreludes h = runFiles h (scripts.flatten ++ preludeOf m) s) := by
  refine ⟨fun hbad => ?_, fun hgood => ?_⟩
  · obtain ⟨before, first, after, e, hnames, hbefore, hfirst, hall⟩ :=
      dependencyPreludes_refused hbad
    have hfiles : s.preludeFiles h = .error e := by
      simp only [preludeFiles, hm, hall]
      rfl
    refine ⟨before, first, after, e, hnames, hbefore, hfirst, ?_⟩
    rw [loadPreludes, hfiles]
  · have hown : ∀ n ∈ m.dependencyNames, ∃ files, dependencyPrelude h s.lock n = .ok files ∧
        dependencyPrelude h s.lock n = .ok files := by
      intro n hn
      obtain ⟨files, hfiles⟩ := exists_prelude (hgood n hn)
      exact ⟨files, hfiles, hfiles⟩
    obtain ⟨scripts, hscripts, hall⟩ := dependencyPreludes_eq hown
    have hfiles : s.preludeFiles h = .ok (scripts.flatten ++ preludeOf m) := by
      simp only [preludeFiles, hm, hall]
      rfl
    refine ⟨scripts, hscripts, ?_⟩
    rw [loadPreludes, hfiles]

/-- A machine with a package in a directory, which has a prelude, and an edited checkout. -/
def tampered : Host :=
  ⟨⟨[(["app"], .dir), (["aid"], .dir),
    (["aid", "package.yml"], .file "name: aid\nprelude: p.au\n"),
    (["aid", "p.au"], .file "let x = 1;"), (["lib"], .dir), (["lib", "a"], .file "bd")]⟩,
    "/app", [], [], []⟩

/-- The lock of both. -/
def tamperedLock : Lockfile :=
  ⟨"/app/package.lock", "app", [], [],
    [some ⟨"aid", "v1", "path:/aid", "/aid", []⟩, some ⟨"lib", "c", "git+u@c", "/lib", "sha256:0"⟩]⟩

/-- A session for a package that depends on both. -/
def onTampered : Session :=
  ⟨Interpreter.new 0,
    some ⟨"/app/package.yml", "app", [], [], ["main.au"],
      [("aid", some ⟨"/aid", [], [], [], []⟩), ("lib", some ⟨[], "u", "c", [], []⟩)], ⟨[], [], 0⟩⟩,
    some tamperedLock⟩

/-- The checkout comes second, and yet the prelude of the first dependency does not run. -/
theorem onTampered_waits :
    dependencyPrelude tampered onTampered.lock "aid" = .ok ["/aid/p.au"] ∧
    Unusable tampered onTampered.lock "lib" ∧
    ∃ e, onTampered.loadPreludes tampered = (.error e, onTampered) := by
  have hown : Manifest.load tampered (Path.join [Path.ofPlace ["aid"], Manifest.fileName])
      = .ok ⟨"/aid/package.yml", "aid", [], [], ["p.au"], [], ⟨[], [], 0⟩⟩ := by decide +kernel
  have hfind : tamperedLock.find? "aid" = some ⟨"aid", "v1", "path:/aid", "/aid", []⟩ := rfl
  have haid := dependencyPrelude_eq hfind rfl rfl (by decide) hown
  have hlib : Unusable tampered onTampered.lock "lib" :=
    .inr ⟨_, rfl, .inl ⟨.changed "lib" "/lib", by decide +kernel⟩⟩
  obtain ⟨_, _, _, e, -, -, -, hload⟩ :=
    (preludes_wait_for_the_dependencies tampered (s := onTampered) rfl).1 ⟨"lib", by decide, hlib⟩
  exact ⟨haid, hlib, e, hload⟩

end Session

end Borealis
