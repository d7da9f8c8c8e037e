-- Tables of values by name. However a table is filled, each of its names stands
-- once and in order, and the value under a name is the last one that was put
-- there.
import Borealis.Table
import Mathlib.Data.List.Nodup
import Mathlib.Data.List.Induction

namespace Borealis

/-- Where each key stands once, a value is looked up exactly if it stands there. -/
theorem lookup_eq_some_iff_mem {α β : Type} [BEq α] [LawfulBEq α] {l : List (α × β)}
    (h : (l.map Prod.fst).Nodup) {k : α} {v : β} : l.lookup k = some v ↔ (k, v) ∈ l := by
  induction l with
  | nil => simp
  | cons e l ih =>
    rw [List.map_cons, List.nodup_cons] at h
    rw [List.lookup_cons]
    by_cases hk : k = e.1
    · subst hk
      have hnone : (e.1, v) ∉ l := fun hmem => h.1 (List.mem_map.mpr ⟨_, hmem, rfl⟩)
      simp only [beq_self_eq_true, List.mem_cons, hnone, or_false, Option.some.injEq]
      exact ⟨fun hv => by rw [← hv], fun hv => by rw [← hv]⟩
    · have hne : (k, v) ≠ e := fun he => hk (by rw [← he])
      simp [beq_false_of_ne hk, hne, ih h.2]

namespace Table

variable {α : Type} {t t' : Table α} {es : List (Text × α)} {n : Text} {v : α}

/-! ## Names in order -/

/-- Every name stands once, and the names are in order. -/
def Sorted (t : Table α) : Prop := t.names.Pairwise (· < ·)

theorem mem_names_insert {name n : Text} {value : α} :
    n ∈ names (insert name value t) ↔ n = name ∨ n ∈ names t := by
  induction t with
  | nil => simp [insert, names]
  | cons e t ih =>
    obtain ⟨k, v⟩ := e
    unfold insert
    split
    · rename_i h
      subst h
      simp [names]
    · split
      · simp [names]
      · simp only [names, List.map_cons, List.mem_cons] at ih ⊢
        rw [ih]
        exact or_left_comm

theorem Sorted.insert (h : t.Sorted) (name : Text) (value : α) : (t.insert name value).Sorted := by
  induction t with
  | nil => simp [Table.insert, Sorted, names]
  | cons e t ih =>
    obtain ⟨k, v⟩ := e
    simp only [Sorted, names, List.map_cons, List.pairwise_cons] at h
    unfold Table.insert
    split
    · rename_i hk
      subst hk
      exact List.pairwise_cons.mpr h
    · rename_i hne
      split
      · rename_i hlt
        refine List.pairwise_cons.mpr ⟨fun n hn => ?_, List.pairwise_cons.mpr h⟩
        rcases List.mem_cons.mp hn with rfl | hn
        · exact hlt
        · exact List.lt_trans hlt (h.1 n hn)
      · rename_i hge
        refine List.pairwise_cons.mpr ⟨fun n hn => ?_, ih h.2⟩
        rcases mem_names_insert.mp hn with rfl | hn
        · exact Std.lt_of_le_of_ne hge fun heq => hne heq.symm
        · exact h.1 n hn

theorem sorted_ofList (entries : List (Text × α)) : (ofList entries).Sorted :=
  List.foldlRecOn entries _ List.Pairwise.nil fun _ h e _ => h.insert e.1 e.2

theorem mem_names_ofList {entries : List (Text × α)} {n : Text} (h : n ∈ names (ofList entries)) :
    n ∈ entries.map Prod.fst := by
  refine List.foldlRecOn (motive := fun t => n ∈ names t → n ∈ entries.map Prod.fst) entries _
    (fun hn => absurd hn List.not_mem_nil) (fun t ht e he hn => ?_) h
  rcases mem_names_insert.mp hn with rfl | hn
  · exact List.mem_map_of_mem he
  · exact ht hn

theorem Sorted.nodup (h : t.Sorted) : t.names.Nodup := by
  refine List.Pairwise.imp (fun hlt => ?_) h
  rintro rfl
  exact List.lt_irrefl _ hlt

theorem Sorted.get?_eq_some_iff (h : t.Sorted) {n : Text} {v : α} :
    t.get? n = some v ↔ (n, v) ∈ t :=
  lookup_eq_some_iff_mem h.nodup

/-! ## The values -/

theorem get?_cons (e : Text × α) (t : Table α) (n : Text) :
    get? (e :: t) n = if n = e.1 then some e.2 else t.get? n := by
  unfold get?
  rw [List.lookup_cons]
  by_cases hn : n = e.1
  · simp [hn]
  · simp [hn, beq_eq_false_iff_ne.mpr hn]

theorem get?_insert (t : Table α) (name n : Text) (v : α) :
    (t.insert name v).get? n = if n = name then some v else t.get? n := by
  induction t with
  | nil => exact get?_cons (name, v) [] n
  | cons e t ih =>
    obtain ⟨k, w⟩ := e
    unfold insert
    by_cases hk : name = k
    · subst hk
      by_cases hn : n = name <;> simp [get?_cons, hn]
    · rw [if_neg hk]
      split
      · rw [get?_cons]
      · rw [get?_cons, get?_cons, ih]
        by_cases hn : n = name <;> simp [hn, hk]

/-- Of several values for one name, the last one stays. -/
theorem get?_ofList (es : List (Text × α)) (n : Text) :
    (ofList es).get? n = get? es.reverse n := by
  induction es using List.reverseRecOn with
  | nil => rfl
  | append_singleton es e ih =>
    have hlast : ofList (es ++ [e]) = (ofList es).insert e.1 e.2 := by simp [ofList]
    rw [hlast, get?_insert, ih, List.reverse_append, List.reverse_singleton, List.singleton_append,
      get?_cons]

theorem mem_of_get?_ofList (h : (ofList es).get? n = some v) : (n, v) ∈ es := by
  rw [get?_ofList] at h
  obtain ⟨l, l', hl, -⟩ := List.lookup_eq_some_iff.mp h
  rw [← List.mem_reverse, hl]
  simp

theorem mem_ofList {e : Text × α} (h : e ∈ ofList es) : e ∈ es :=
  mem_of_get?_ofList ((sorted_ofList es).get?_eq_some_iff.mpr h)

theorem exists_get?_ofList (h : n ∈ es.map Prod.fst) : ∃ v, (ofList es).get? n = some v := by
  rw [get?_ofList]
  match hget : get? es.reverse n with
  | some v => exact ⟨v, rfl⟩
  | none =>
    obtain ⟨e, he, rfl⟩ := List.mem_map.mp h
    have hne := List.lookup_eq_none_iff.mp hget e (List.mem_reverse.mpr he)
    simp at hne

theorem Sorted.nodup_entries (h : t.Sorted) : List.Nodup t := List.Nodup.of_map _ h.nodup

/-- Tables are told apart by their entries. -/
theorem Sorted.ext (h : t.Sorted) (h' : t'.Sorted) (hmem : ∀ e, e ∈ t ↔ e ∈ t') : t = t' := by
  have hperm : t.Perm t' :=
    (List.perm_ext_iff_of_nodup h.nodup_entries h'.nodup_entries).mpr hmem
  have hlt : t.Pairwise fun e e' => e.1 < e'.1 := List.pairwise_map.mp h
  have hlt' : t'.Pairwise fun e e' => e.1 < e'.1 := List.pairwise_map.mp h'
  refine hperm.eq_of_pairwise (fun e e' _ _ hle hge => ?_) hlt hlt'
  exact absurd (List.lt_trans hle hge) (List.lt_irrefl _)

end Table

end Borealis
