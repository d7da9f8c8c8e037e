-- What becomes of the dependencies that a manifest file declares. They are put
-- into a table one by one under their names as packages spell them, in no
-- fixed order, and of those that are spelled alike the last one stays. So every
-- dependency of the manifest was declared, and which ones those are depends on
-- the order exactly if two that are spelled alike are described differently.
import Borealis.Proofs.Locks

namespace Borealis

/-! ## Dependencies under the names of packages -/

namespace ManifestText

variable {m : ManifestText} {order : List (Text × Option Dependency)}

/-- A declared dependency under its name as packages spell it. -/
def spelled (e : Text × Option Dependency) : Text × Option Dependency := (e.1.packageName, e.2)

/-- The manifest if the declared dependencies are gone through in another order. -/
def toManifestBy (m : ManifestText) (order : List (Text × Option Dependency)) (path : Text) :
    Manifest := { m with dependencies := order }.toManifest path

/-- No two dependencies are spelled alike. -/
def Apart (m : ManifestText) : Prop := (m.dependencies.map fun e => (spelled e).1).Nodup

/-- Dependencies that are spelled alike are described alike. -/
def Agreeing (m : ManifestText) : Prop :=
  ∀ d ∈ m.dependencies, ∀ e ∈ m.dependencies, (spelled d).1 = (spelled e).1 → d.2 = e.2

theorem dependencies_toManifestBy (m : ManifestText) (order : List (Text × Option Dependency))
    (path : Text) : (m.toManifestBy order path).dependencies = Table.ofList (order.map spelled) :=
  rfl

/-- What the manifest has was declared. -/
theorem mem_of_mem_toManifestBy {e : Text × Option Dependency} {path : Text}
    (horder : order.Perm m.dependencies) (he : e ∈ (m.toManifestBy order path).dependencies) :
    ∃ d ∈ m.dependencies, spelled d = e := by
  rw [dependencies_toManifestBy] at he
  obtain ⟨d, hd, rfl⟩ := List.mem_map.mp (Table.mem_ofList he)
  exact ⟨d, horder.mem_iff.mp hd, rfl⟩

/-- What was declared has an entry, whoever's description is in it. -/
theorem exists_mem_toManifestBy {d : Text × Option Dependency} (path : Text)
    (horder : order.Perm m.dependencies) (hd : d ∈ m.dependencies) :
    ∃ v, ((spelled d).1, v) ∈ (m.toManifestBy order path).dependencies := by
  have hname : (spelled d).1 ∈ (order.map spelled).map Prod.fst :=
    List.mem_map_of_mem (List.mem_map_of_mem (horder.mem_iff.mpr hd))
  obtain ⟨v, hv⟩ := Table.exists_get?_ofList hname
  exact ⟨v, (Table.sorted_ofList _).get?_eq_some_iff.mp hv⟩

/-- Each declared dependency is the one that stays, if it comes last. -/
theorem exists_order {d : Text × Option Dependency} (path : Text) (hd : d ∈ m.dependencies) :
    ∃ order, order.Perm m.dependencies ∧
      spelled d ∈ (m.toManifestBy order path).dependencies := by
  obtain ⟨front, back, hm⟩ := List.append_of_mem hd
  refine ⟨front ++ back ++ [d], ?_, ?_⟩
  · rw [hm, List.append_assoc]
    exact (List.perm_append_singleton d back).append_left front
  · rw [dependencies_toManifestBy]
    refine (Table.sorted_ofList _).get?_eq_some_iff.mp ?_
    rw [Table.get?_ofList, List.map_append, List.reverse_append]
    exact (Table.get?_cons _ _ _).trans (if_pos rfl)

theorem Agreeing.mem_toManifestBy {e : Text × Option Dependency} (h : m.Agreeing) (path : Text)
    (horder : order.Perm m.dependencies) :
    e ∈ (m.toManifestBy order path).dependencies ↔ ∃ d ∈ m.dependencies, spelled d = e := by
  constructor
  · exact mem_of_mem_toManifestBy horder
  · rintro ⟨d, hd, rfl⟩
    obtain ⟨v, hv⟩ := exists_mem_toManifestBy path horder hd
    obtain ⟨e, he, heq⟩ := mem_of_mem_toManifestBy horder hv
    obtain ⟨hname, rfl⟩ := Prod.mk.inj heq
    rw [h e he d hd hname] at hv
    exact hv

/-- All orders give the same dependencies exactly if those that are spelled alike agree. -/
theorem agreeing_iff (m : ManifestText) (path : Text) : m.Agreeing ↔
    ∀ order, order.Perm m.dependencies →
      (m.toManifestBy order path).dependencies = (m.toManifest path).dependencies := by
  constructor
  · intro h order horder
    refine Table.Sorted.ext (Table.sorted_ofList _) (Table.sorted_ofList _) fun e => ?_
    rw [h.mem_toManifestBy path horder]
    exact (h.mem_toManifestBy path (List.Perm.refl m.dependencies)).symm
  · -- Each of the two comes last in some order, and both orders give one table.
    intro h d hd e he hname
    obtain ⟨first, hfirst, hd⟩ := exists_order path hd
    obtain ⟨second, hsecond, he⟩ := exists_order path he
    rw [h first hfirst] at hd
    rw [h second hsecond] at he
    have hsorted : (m.toManifest path).dependencies.Sorted := Table.sorted_ofList _
    have hd := hsorted.get?_eq_some_iff.mpr hd
    have he := hsorted.get?_eq_some_iff.mpr he
    change Table.get? _ (spelled d).1 = _ at hd
    rw [hname] at hd
    exact Option.some.inj (hd.symm.trans he)

theorem Apart.agreeing (h : m.Apart) : m.Agreeing := by
  intro d hd e he hname
  rw [List.inj_on_of_nodup_map h hd he hname]

/-- There is one entry for each declared dependency exactly if no two are spelled alike. -/
theorem apart_iff (m : ManifestText) (path : Text) : m.Apart ↔
    (m.toManifest path).dependencies.Perm (m.dependencies.map spelled) := by
  have hsorted : (m.toManifest path).dependencies.Sorted := Table.sorted_ofList _
  constructor
  · intro h
    have hnodup : (m.dependencies.map spelled).Nodup :=
      List.Nodup.of_map Prod.fst (by rw [List.map_map]; exact h)
    refine (List.perm_ext_iff_of_nodup hsorted.nodup_entries hnodup).mpr fun e => ?_
    rw [List.mem_map]
    exact h.agreeing.mem_toManifestBy path (List.Perm.refl m.dependencies)
  · intro h
    have hnodup := (h.map Prod.fst).nodup_iff.mp hsorted.nodup
    rw [List.map_map] at hnodup
    exact hnodup

/-- A manifest that was loaded is made of what was read. -/
theorem eq_toManifest_of_load {h : Host} {file t : Text} {manifest : Manifest}
    (ht : h.read (h.absolute file) = .ok t) (hm : ofYaml t = .ok m)
    (hl : Manifest.load h file = .ok manifest) : manifest = m.toManifest (h.absolute file) := by
  obtain ⟨-, -, t', m', ht', hm', rfl⟩ := Manifest.load_eq_ok hl
  cases ht.symm.trans ht'
  cases hm.symm.trans hm'
  rfl

/-- In whatever order the declared dependencies are gone through, those of the manifest are
among them, under their names as packages spell them, and each such name has one. Which one it
is does not depend on the order exactly if those that are spelled alike agree, and otherwise
each of them can be it. There is one for each declared dependency, with its description,
exactly if no two are spelled alike, and a manifest that is loaded is no exception. -/
theorem declared_dependencies_are_kept (m : ManifestText) (path : Text) :
    (∀ order, order.Perm m.dependencies →
      (∀ e ∈ (m.toManifestBy order path).dependencies, ∃ d ∈ m.dependencies, spelled d = e) ∧
      ∀ d ∈ m.dependencies, ∃ v, ((spelled d).1, v) ∈ (m.toManifestBy order path).dependencies) ∧
    (∀ d ∈ m.dependencies, ∃ order, order.Perm m.dependencies ∧
      spelled d ∈ (m.toManifestBy order path).dependencies) ∧
    (m.Agreeing ↔ ∀ order, order.Perm m.dependencies →
      (m.toManifestBy order path).dependencies = (m.toManifest path).dependencies) ∧
    (m.Apart ↔ (m.toManifest path).dependencies.Perm (m.dependencies.map spelled)) ∧
    ∀ h file t manifest, h.read (h.absolute file) = .ok t → ofYaml t = .ok m →
      Manifest.load h file = .ok manifest →
      (m.Apart ↔ manifest.dependencies.Perm (m.dependencies.map spelled)) := by
  refine ⟨fun order horder => ⟨?_, ?_⟩, ?_, agreeing_iff m path, apart_iff m path, ?_⟩
  · intro e he
    exact mem_of_mem_toManifestBy horder he
  · intro d hd
    exact exists_mem_toManifestBy path horder hd
  · intro d hd
    exact exists_order path hd
  · intro h file t manifest ht hm hl
    rw [eq_toManifest_of_load ht hm hl]
    exact apart_iff m _

/-- A manifest file with two dependencies. -/
def twoDependencies (second : String) : Text :=
  "name: app\ndependencies:\n  a-b: lib\n  " ++ second ++ ": ./lib\n"

/-- A machine with that file. -/
def declaring (second : String) : Host :=
  ⟨⟨[(["app"], .dir), (["app", "package.yml"], .file (twoDependencies second))]⟩,
    "/app", [], [], []⟩

/-- A dependency in a directory, under a name. -/
def inDirectory (name path : Text) : Text × Option Dependency := (name, some ⟨path, [], [], [], []⟩)

/-- What the file says. -/
def declared (second : String) : ManifestText :=
  ⟨"app", [], [], [], [inDirectory "a-b" "lib", inDirectory second "./lib"], ⟨[], [], 0⟩⟩

theorem declaring_keeps_both :
    ofYaml (twoDependencies "c-d") = .ok (declared "c-d") ∧
    ∃ manifest, Manifest.load (declaring "c-d") "package.yml" = .ok manifest ∧
      manifest.dependencies.Perm [inDirectory "a_b" "lib", inDirectory "c_d" "./lib"] := by
  have hread : (declaring "c-d").read ((declaring "c-d").absolute "package.yml")
      = .ok (twoDependencies "c-d") := by decide +kernel
  have hm : ofYaml (twoDependencies "c-d") = .ok (declared "c-d") := by decide +kernel
  have hl : Manifest.load (declaring "c-d") "package.yml"
      = .ok ((declared "c-d").toManifest "/app/package.yml") := by decide +kernel
  have hapart : (declared "c-d").Apart := by
    unfold Apart
    decide +kernel
  obtain ⟨-, -, -, -, hload⟩ := declared_dependencies_are_kept (declared "c-d") []
  exact ⟨hm, _, hl, (hload _ _ _ _ hread hm hl).mp hapart⟩

/-- Of two dependencies that are spelled alike one is lost, and the order tells which one. -/
theorem declaring_loses_one :
    ofYaml (twoDependencies "a_b") = .ok (declared "a_b") ∧
    Manifest.load (declaring "a_b") "package.yml"
      = .ok ((declared "a_b").toManifest "/app/package.yml") ∧
    ((declared "a_b").toManifest "/app/package.yml").dependencies = [inDirectory "a_b" "./lib"] ∧
    (declared "a_b").dependencies.reverse.Perm (declared "a_b").dependencies ∧
    ((declared "a_b").toManifestBy (declared "a_b").dependencies.reverse
      "/app/package.yml").dependencies = [inDirectory "a_b" "lib"] := by
  decide +kernel

end ManifestText

end Borealis
