-- Scopes and what was done with them. Scopes are made below older ones, and
-- names are bound in them in any order. So the way from a scope to its root
-- ends, and what a name means there is what it was bound to last in the first
-- scope on the way that ever bound it.
import Borealis.Proofs.Tables
import Borealis.Store

namespace Borealis

/-! ## Histories -/

/-- One thing that is done with scopes. -/
inductive ScopeStep where
  /-- A scope is made below another one, or as a root. -/
  | nest (parent : Option ScopeId)
  /-- A name is bound in a scope. -/
  | bind (scope : ScopeId) (name : Text) (value : Value)

/-- All that was done with scopes, the oldest first. -/
abbrev ScopeHistory := List ScopeStep

namespace ScopeHistory

/-- The store that a history leaves. A scope is there before another one is made below it and before
a name is bound in it. -/
inductive Leaves : ScopeHistory → Store → Prop where
  | start : Leaves [] Store.empty
  | nest {h : ScopeHistory} {s : Store} {parent : Option ScopeId} : Leaves h s →
      (∀ p ∈ parent, p < s.scopes.size) → Leaves (h ++ [.nest parent]) (s.newScope parent).2
  | bind {h : ScopeHistory} {s : Store} {scope : ScopeId} {name : Text} {value : Value} :
      Leaves h s → scope < s.scopes.size →
      Leaves (h ++ [.bind scope name value]) (s.set scope name value)

/-- The parents of all scopes, in the order in which the scopes were made. -/
def parents (h : ScopeHistory) : List (Option ScopeId) :=
  h.filterMap fun
    | .nest parent => some parent
    | .bind .. => none

/-- The scopes from one scope to its root, the nearest first. -/
inductive Chain (h : ScopeHistory) : ScopeId → List ScopeId → Prop where
  | root {f : ScopeId} : h.parents[f]? = some none → Chain h f [f]
  | under {f p : ScopeId} {c : List ScopeId} : h.parents[f]? = some (some p) → Chain h p c →
      Chain h f (f :: c)

/-- The name was bound in the scope. -/
def Binds (h : ScopeHistory) (e : ScopeId) (n : Text) : Prop := ∃ v, ScopeStep.bind e n v ∈ h

/-- The name was bound to the value in the scope, and to no other one after that. -/
def BindsLast (h : ScopeHistory) (e : ScopeId) (n : Text) (v : Value) : Prop :=
  ∃ before after, h = before ++ .bind e n v :: after ∧ ¬ Binds after e n

/-- The scope is one of the chain, and none that is nearer binds the name. -/
def InSight (h : ScopeHistory) (c : List ScopeId) (n : Text) (e : ScopeId) : Prop :=
  ∃ near far, c = near ++ e :: far ∧ ∀ x ∈ near, ¬ h.Binds x n

variable {h : ScopeHistory} {e f : ScopeId} {n m : Text} {v w : Value}

/-! ## One step more -/

theorem parents_nest (h : ScopeHistory) (parent : Option ScopeId) :
    parents (h ++ [.nest parent]) = h.parents ++ [parent] := by
  simp [parents, List.filterMap_append]

theorem parents_bind (h : ScopeHistory) (e : ScopeId) (n : Text) (v : Value) :
    parents (h ++ [.bind e n v]) = h.parents := by
  simp [parents, List.filterMap_append]

theorem binds_bind : Binds (h ++ [.bind f m w]) e n ↔ h.Binds e n ∨ e = f ∧ n = m := by
  simp only [Binds, List.mem_append, List.mem_singleton, ScopeStep.bind.injEq]
  constructor
  · rintro ⟨v, hv | ⟨rfl, rfl, rfl⟩⟩
    · exact Or.inl ⟨v, hv⟩
    · exact Or.inr ⟨rfl, rfl⟩
  · rintro (⟨v, hv⟩ | ⟨rfl, rfl⟩)
    · exact ⟨v, Or.inl hv⟩
    · exact ⟨w, Or.inr ⟨rfl, rfl, rfl⟩⟩

/-- The last step binds the name in the scope, or it changes nothing about it. -/
theorem bindsLast_concat {step : ScopeStep} : BindsLast (h ++ [step]) e n v ↔
    step = .bind e n v ∨ (∀ u, step ≠ .bind e n u) ∧ h.BindsLast e n v := by
  constructor
  · rintro ⟨before, after, heq, hlast⟩
    rcases List.eq_nil_or_concat after with rfl | ⟨after, last, rfl⟩
    · obtain ⟨-, hstep⟩ := List.append_inj' heq rfl
      exact Or.inl (List.cons.inj hstep).1
    · rw [List.concat_eq_append, ← List.cons_append, ← List.append_assoc] at heq
      obtain ⟨rfl, hstep⟩ := List.append_inj' heq rfl
      obtain ⟨rfl, -⟩ := List.cons.inj hstep
      refine Or.inr ⟨fun u hu => hlast ⟨u, by simp [hu]⟩, before, after, rfl, ?_⟩
      rintro ⟨u, hu⟩
      exact hlast ⟨u, by simp [hu]⟩
  · rintro (rfl | ⟨hstep, before, after, rfl, hlast⟩)
    · exact ⟨h, [], rfl, by simp [Binds]⟩
    · refine ⟨before, after ++ [step], by simp, ?_⟩
      rintro ⟨u, hu⟩
      rcases List.mem_append.mp hu with hu | hu
      · exact hlast ⟨u, hu⟩
      · exact hstep u (List.mem_singleton.mp hu).symm

/-- A name that was bound was bound to something last. -/
theorem binds_iff : h.Binds e n ↔ ∃ v, h.BindsLast e n v := by
  constructor
  · intro hbinds
    induction h using List.reverseRecOn with
    | nil => simp [Binds] at hbinds
    | append_singleton h step ih =>
      by_cases hstep : ∃ u, step = .bind e n u
      · obtain ⟨u, hu⟩ := hstep
        exact ⟨u, bindsLast_concat.mpr (Or.inl hu)⟩
      · rw [not_exists] at hstep
        obtain ⟨u, hu⟩ := hbinds
        rcases List.mem_append.mp hu with hu | hu
        · obtain ⟨v, hv⟩ := ih ⟨u, hu⟩
          exact ⟨v, bindsLast_concat.mpr (Or.inr ⟨hstep, hv⟩)⟩
        · exact absurd (List.mem_singleton.mp hu).symm (hstep u)
  · rintro ⟨v, before, after, rfl, -⟩
    exact ⟨v, by simp⟩

end ScopeHistory

/-! ## What a store keeps of its history -/

/-- Bindings are a table of values. -/
theorem insertBinding_eq (name : Text) (value : Value) (bs : List (Text × Value)) :
    insertBinding name value bs = Table.insert name value bs := by
  induction bs with
  | nil => rfl
  | cons b bs ih =>
    obtain ⟨k, v⟩ := b
    simp only [insertBinding, Table.insert, ih]

namespace Store

theorem bindings_newScope (s : Store) (parent : Option ScopeId) (e : ScopeId) :
    (s.newScope parent).2.bindings e = s.bindings e := by
  unfold bindings newScope
  simp only [Array.getElem?_push]
  by_cases he : e = s.scopes.size
  · simp [he]
  · simp [he]

theorem bindings_set (s : Store) (scope : ScopeId) (name : Text) (value : Value) (e : ScopeId) :
    (s.set scope name value).bindings e =
      if scope = e ∧ e < s.scopes.size then Table.insert name value (s.bindings e)
      else s.bindings e := by
  unfold bindings set
  simp only [Array.getElem?_modify]
  by_cases hscope : scope = e
  · by_cases he : e < s.scopes.size
    · simp [hscope, he, Scope.set, insertBinding_eq]
    · simp [hscope, he]
  · simp [hscope]

theorem parents_newScope (s : Store) (parent : Option ScopeId) :
    (s.newScope parent).2.scopes.toList.map Scope.parent =
      s.scopes.toList.map Scope.parent ++ [parent] := by
  simp [newScope]

theorem parents_set (s : Store) (scope : ScopeId) (name : Text) (value : Value) :
    (s.set scope name value).scopes.toList.map Scope.parent =
      s.scopes.toList.map Scope.parent := by
  apply List.ext_getElem?
  intro i
  simp only [set, List.getElem?_map, Array.getElem?_toList, Array.getElem?_modify]
  split
  · cases s.scopes[i]? <;> rfl
  · rfl

end Store

namespace ScopeHistory

variable {h : ScopeHistory} {s : Store} {e f : ScopeId} {n m : Text} {v : Value}
  {c : List ScopeId} {parent : Option ScopeId}

/-- What a store has kept of the history that left it. -/
structure Kept (h : ScopeHistory) (s : Store) : Prop where
  parents : s.scopes.toList.map Scope.parent = h.parents
  /-- A parent is older than the scopes below it. -/
  older : ∀ f p : ScopeId, h.parents[f]? = some (some p) → p < f
  sorted : ∀ e, Table.Sorted (s.bindings e)
  values : ∀ e n v, Table.get? (s.bindings e) n = some v ↔ h.BindsLast e n v

theorem Kept.size (hk : h.Kept s) : h.parents.length = s.scopes.size := by
  rw [← hk.parents, List.length_map, Array.length_toList]

theorem Kept.start : Kept [] Store.empty := by
  refine ⟨rfl, by simp [ScopeHistory.parents], fun e => ?_, fun e n v => ?_⟩
  · simp [Store.bindings, Store.empty, Table.Sorted, Table.names]
  · simp [Store.bindings, Store.empty, Table.get?, BindsLast]

theorem Kept.nest (hk : h.Kept s) (hp : ∀ p ∈ parent, p < s.scopes.size) :
    Kept (h ++ [.nest parent]) (s.newScope parent).2 := by
  refine ⟨?_, ?_, fun e => ?_, fun e n v => ?_⟩
  · rw [Store.parents_newScope, parents_nest, hk.parents]
  · intro f p hf
    rw [parents_nest, List.getElem?_append] at hf
    split at hf
    · exact hk.older f p hf
    · rename_i hlt
      rw [List.getElem?_singleton] at hf
      split at hf
      · cases hf
        have hpsize := hp p rfl
        rw [← hk.size] at hpsize
        exact Nat.lt_of_lt_of_le hpsize (Nat.le_of_not_lt hlt)
      · cases hf
  · rw [Store.bindings_newScope]
    exact hk.sorted e
  · rw [Store.bindings_newScope, hk.values, bindsLast_concat]
    simp

theorem Kept.bind (hk : h.Kept s) (hf : f < s.scopes.size) (m : Text) (w : Value) :
    Kept (h ++ [.bind f m w]) (s.set f m w) := by
  refine ⟨?_, ?_, fun e => ?_, fun e n v => ?_⟩
  · rw [Store.parents_set, parents_bind, hk.parents]
  · rw [parents_bind]
    exact hk.older
  · rw [Store.bindings_set]
    split
    · exact (hk.sorted e).insert m w
    · exact hk.sorted e
  · rw [Store.bindings_set]
    by_cases he : f = e
    · subst he
      rw [if_pos ⟨rfl, hf⟩, Table.get?_insert]
      by_cases hn : n = m
      · simp [hn, bindsLast_concat]
      · simp [hn, Ne.symm hn, bindsLast_concat, hk.values]
    · simp [he, bindsLast_concat, hk.values]

theorem Leaves.kept (hl : h.Leaves s) : h.Kept s := by
  induction hl with
  | start => exact .start
  | nest _ hp ih => exact ih.nest hp
  | bind _ hscope ih => exact ih.bind hscope _ _

theorem Kept.exists_scope (hk : h.Kept s) (hf : h.parents[f]? = some parent) :
    ∃ x, s.scopes[f]? = some x ∧ x.parent = parent ∧ s.bindings f = x.bindings := by
  rw [← hk.parents, List.getElem?_map, Array.getElem?_toList] at hf
  obtain ⟨x, hx, hparent⟩ := Option.map_eq_some_iff.mp hf
  exact ⟨x, hx, hparent, by simp [Store.bindings, hx]⟩

theorem Kept.get?_eq_none_iff (hk : h.Kept s) :
    Table.get? (s.bindings e) n = none ↔ ¬ h.Binds e n := by
  rw [binds_iff, Option.eq_none_iff_forall_ne_some, not_exists]
  exact forall_congr' fun v => not_congr (hk.values e n v)

/-! ## Chains -/

/-- The way to the root ends, as every parent is older than what is below it. -/
theorem Kept.exists_chain (hk : h.Kept s) (hf : f < s.scopes.size) : ∃ c, h.Chain f c := by
  induction f using Nat.strongRecOn with
  | ind f ih =>
    have hmade : f < h.parents.length := hk.size ▸ hf
    have hparent : h.parents[f]? = some h.parents[f] := List.getElem?_eq_getElem hmade
    cases hp : h.parents[f] with
    | none =>
      rw [hp] at hparent
      exact ⟨[f], .root hparent⟩
    | some p =>
      rw [hp] at hparent
      have holder := hk.older f p hparent
      obtain ⟨c, hc⟩ := ih p holder (Nat.lt_trans holder hf)
      exact ⟨f :: c, .under hparent hc⟩

theorem Chain.le (hk : h.Kept s) (hc : h.Chain f c) : ∀ x ∈ c, x ≤ f := by
  induction hc with
  | root => simp
  | @under f p c hp _ ih =>
    have holder := hk.older f p hp
    rw [List.forall_mem_cons]
    exact ⟨Nat.le_refl f, fun x hx => Nat.le_trans (ih x hx) (Nat.le_of_lt holder)⟩

/-- Each scope of a chain is older than those before it. -/
theorem Chain.pairwise (hk : h.Kept s) (hc : h.Chain f c) : c.Pairwise (· > ·) := by
  induction hc with
  | root => exact List.pairwise_singleton _ _
  | @under f p c hp hc ih =>
    have holder := hk.older f p hp
    refine List.pairwise_cons.mpr ⟨fun x hx => ?_, ih⟩
    exact Nat.lt_of_le_of_lt (hc.le hk x hx) holder

theorem Chain.nodup (hk : h.Kept s) (hc : h.Chain f c) : c.Nodup :=
  (hc.pairwise hk).imp Nat.ne_of_gt

theorem Chain.length_le (hk : h.Kept s) (hc : h.Chain f c) : c.length ≤ f + 1 := by
  induction hc with
  | root => simp
  | @under f p c hp _ ih =>
    rw [List.length_cons]
    exact Nat.succ_le_succ (Nat.le_trans ih (hk.older f p hp))

theorem Chain.bind (hc : h.Chain f c) (e : ScopeId) (n : Text) (v : Value) :
    Chain (h ++ [.bind e n v]) f c := by
  induction hc with
  | root hp => exact .root (by rwa [parents_bind])
  | under hp _ ih => exact .under (by rwa [parents_bind]) ih

/-! ## Looking up -/

/-- What is looked up is the first value on the chain, once the walk may be as long as the chain. -/
theorem Kept.find?_eq (hk : h.Kept s) (hc : h.Chain f c) (n : Text) {k : Nat}
    (hlength : c.length ≤ k) :
    s.find? n k f = c.findSome? fun e => Table.get? (s.bindings e) n := by
  induction hc generalizing k with
  | root hp =>
    obtain ⟨k, rfl⟩ := Nat.exists_eq_succ_of_ne_zero (Nat.ne_zero_of_lt hlength)
    obtain ⟨x, hx, hparent, hbindings⟩ := hk.exists_scope hp
    rw [List.findSome?_singleton, hbindings]
    simp only [Store.find?, hx, Scope.get?, hparent, Table.get?]
    cases x.bindings.lookup n <;> rfl
  | under hp _ ih =>
    obtain ⟨k, rfl⟩ := Nat.exists_eq_succ_of_ne_zero (Nat.ne_zero_of_lt hlength)
    obtain ⟨x, hx, hparent, hbindings⟩ := hk.exists_scope hp
    rw [List.findSome?_cons, hbindings, ← ih (Nat.le_of_succ_le_succ hlength)]
    simp only [Store.find?, hx, Scope.get?, hparent, Table.get?]
    cases x.bindings.lookup n <;> rfl

theorem Chain.lt_size (hk : h.Kept s) (hc : h.Chain f c) : f < s.scopes.size := by
  rw [← hk.size]
  cases hc with
  | root hp | under hp _ => exact (List.getElem?_eq_some_iff.mp hp).1

theorem Kept.get?_eq (hk : h.Kept s) (hc : h.Chain f c) (n : Text) :
    s.get? f n = c.findSome? fun e => Table.get? (s.bindings e) n :=
  hk.find?_eq hc n (Nat.le_trans (hc.length_le hk) (hc.lt_size hk))

theorem Kept.get?_eq_some_iff (hk : h.Kept s) (hc : h.Chain f c) :
    s.get? f n = some v ↔ ∃ e, h.InSight c n e ∧ h.BindsLast e n v := by
  rw [hk.get?_eq hc, List.findSome?_eq_some_iff]
  constructor
  · rintro ⟨near, e, far, hc, hv, hnear⟩
    exact ⟨e, ⟨near, far, hc, fun x hx => hk.get?_eq_none_iff.mp (hnear x hx)⟩,
      (hk.values e n v).mp hv⟩
  · rintro ⟨e, ⟨near, far, hc, hnear⟩, hv⟩
    exact ⟨near, e, far, hc, (hk.values e n v).mpr hv,
      fun x hx => hk.get?_eq_none_iff.mpr (hnear x hx)⟩

theorem Kept.get?_chain_eq_none_iff (hk : h.Kept s) (hc : h.Chain f c) :
    s.get? f n = none ↔ ∀ e ∈ c, ¬ h.Binds e n := by
  rw [hk.get?_eq hc, List.findSome?_eq_none_iff]
  exact forall₂_congr fun e _ => hk.get?_eq_none_iff

/-! ## Binding a name -/

/-- A scope that is nearer than one in sight is in sight too. -/
theorem inSight_of_near {near far : List ScopeId} (hnear : ∀ x ∈ near, ¬ h.Binds x n)
    (he : e ∈ near) : h.InSight (near ++ far) n e := by
  obtain ⟨front, back, rfl⟩ := List.append_of_mem he
  exact ⟨front, back ++ far, by simp, fun x hx => hnear x (List.mem_append_left _ hx)⟩

/-- Where the scope is in sight, the name means the new value. -/
theorem Kept.get?_set_of_inSight (hk : h.Kept s) (hc : h.Chain f c) (he : e < s.scopes.size)
    (hsight : h.InSight c n e) (v : Value) : (s.set e n v).get? f n = some v := by
  obtain ⟨near, far, rfl, hnear⟩ := hsight
  have happart := List.disjoint_of_nodup_append (hc.nodup hk)
  rw [(hk.bind he n v).get?_eq_some_iff (hc.bind e n v)]
  refine ⟨e, ⟨near, far, rfl, fun x hx hbinds => ?_⟩, bindsLast_concat.mpr (Or.inl rfl)⟩
  rcases binds_bind.mp hbinds with hbinds | ⟨rfl, -⟩
  · exact hnear x hx hbinds
  · exact happart hx List.mem_cons_self

/-- Where the scope is not in sight, and for all other names, nothing changes. -/
theorem Kept.get?_set_of_not_inSight (hk : h.Kept s) (hc : h.Chain f c) (he : e < s.scopes.size)
    (hother : ¬ (m = n ∧ h.InSight c n e)) (v : Value) :
    (s.set e n v).get? f m = s.get? f m := by
  have hstep : ∀ x u, h.InSight c m x → ScopeStep.bind e n v ≠ .bind x m u := by
    rintro x u hsight hstep
    cases hstep
    exact hother ⟨rfl, hsight⟩
  apply Option.ext
  intro w
  rw [(hk.bind he n v).get?_eq_some_iff (hc.bind e n v), hk.get?_eq_some_iff hc]
  constructor
  · rintro ⟨x, ⟨near, far, hx, hnear⟩, hlast⟩
    have hsight : h.InSight c m x :=
      ⟨near, far, hx, fun y hy hbinds => hnear y hy (binds_bind.mpr (Or.inl hbinds))⟩
    rcases bindsLast_concat.mp hlast with hlast | ⟨-, hlast⟩
    · exact absurd hlast (hstep x w hsight)
    · exact ⟨x, hsight, hlast⟩
  · rintro ⟨x, hsight, hlast⟩
    refine ⟨x, ?_, bindsLast_concat.mpr (Or.inr ⟨fun u => hstep x u hsight, hlast⟩)⟩
    obtain ⟨near, far, rfl, hnear⟩ := hsight
    refine ⟨near, far, rfl, fun y hy hbinds => ?_⟩
    rcases binds_bind.mp hbinds with hbinds | ⟨rfl, rfl⟩
    · exact hnear y hy hbinds
    · exact hother ⟨rfl, inSight_of_near hnear hy⟩

theorem Kept.parent?_eq (hk : h.Kept s) (f : ScopeId) : s.parent? f = h.parents[f]?.join := by
  rw [← hk.parents, List.getElem?_map, Array.getElem?_toList, Store.parent?]
  cases s.scopes[f]? <;> rfl

theorem Kept.mem_keys (hk : h.Kept s) : n ∈ s.keys e ↔ h.Binds e n := by
  rw [binds_iff]
  constructor
  · intro hn
    obtain ⟨b, hb, rfl⟩ := List.mem_map.mp hn
    exact ⟨b.2, (hk.values e b.1 b.2).mp ((hk.sorted e).get?_eq_some_iff.mpr hb)⟩
  · rintro ⟨v, hv⟩
    have hmem := (hk.sorted e).get?_eq_some_iff.mp ((hk.values e n v).mpr hv)
    exact List.mem_map.mpr ⟨(n, v), hmem, rfl⟩

/-- Whatever was done with scopes, they are numbered as they were made, and each one stands below
the one it was made under, which is older. So there is a chain from every scope to its root, a walk
along it is over after as many scopes as there are up to the first one, and a name means what it was
bound to last in the nearest scope of the chain that ever bound it, if one did. Binding a name in a
scope changes this only for that name, where the scope is in the chain and no nearer one binds the
name, and then it is the new value. A scope lists the names that were bound in it, in order. -/
theorem names_mean_their_nearest_binding (hl : h.Leaves s) :
    (∀ parent, (s.newScope parent).1 = h.parents.length) ∧
    (∀ f, s.parent? f = h.parents[f]?.join) ∧
    (∀ f p : ScopeId, s.parent? f = some p → p < f) ∧
    (∀ f < s.scopes.size, ∃ c, h.Chain f c) ∧
    (∀ f c, h.Chain f c → c.Pairwise (· > ·) ∧
      (∀ n k, f < k → s.find? n k f = s.get? f n) ∧
      (∀ n v, s.get? f n = some v ↔ ∃ e, h.InSight c n e ∧ h.BindsLast e n v) ∧
      (∀ n, s.get? f n = none ↔ ∀ e ∈ c, ¬ h.Binds e n) ∧
      ∀ e < s.scopes.size, ∀ n v m,
        (m = n ∧ h.InSight c n e → (s.set e n v).get? f m = some v) ∧
        (¬ (m = n ∧ h.InSight c n e) → (s.set e n v).get? f m = s.get? f m)) ∧
    ∀ e, (s.keys e).Pairwise (· < ·) ∧ ∀ n, n ∈ s.keys e ↔ h.Binds e n := by
  have hk := hl.kept
  refine ⟨fun _ => hk.size.symm, hk.parent?_eq, fun f p hp => ?_,
    fun f hf => hk.exists_chain hf, fun f c hc => ?_,
    fun e => ⟨hk.sorted e, fun n => hk.mem_keys⟩⟩
  · rw [hk.parent?_eq] at hp
    exact hk.older f p (Option.join_eq_some_iff.mp hp)
  · refine ⟨hc.pairwise hk, fun n k hfk => ?_, fun n v => hk.get?_eq_some_iff hc,
      fun n => hk.get?_chain_eq_none_iff hc, fun e he n v m => ⟨?_, fun hother => ?_⟩⟩
    · rw [hk.find?_eq hc n (Nat.le_trans (hc.length_le hk) hfk), hk.get?_eq hc]
    · rintro ⟨rfl, hsight⟩
      exact hk.get?_set_of_inSight hc he hsight v
    · exact hk.get?_set_of_not_inSight hc he hother v

/-- Two scopes below one that binds the same name as its root. The root binds it again later. -/
def siblings : ScopeHistory :=
  [.nest none, .bind 0 "x" (.int 1), .nest (some 0), .bind 1 "x" (.bool true), .nest (some 1),
    .nest (some 1), .bind 0 "x" (.int 2)]

/-- The scopes of that history. -/
def siblingScopes : Store :=
  ⟨#[⟨none, [("x", .int 2)]⟩, ⟨some 0, [("x", .bool true)]⟩, ⟨some 1, []⟩, ⟨some 1, []⟩], 0⟩

theorem siblings_leave : siblings.Leaves siblingScopes := by
  have hroot : Leaves ([] ++ [.nest none]) _ := .nest .start nofun
  have hone : Leaves (_ ++ [.bind 0 "x" (.int 1)]) _ := .bind hroot (by decide)
  have hbelow : Leaves (_ ++ [.nest (some 0)]) _ := .nest hone (by decide)
  have hshadow : Leaves (_ ++ [.bind 1 "x" (.bool true)]) _ := .bind hbelow (by decide)
  have hleft : Leaves (_ ++ [.nest (some 1)]) _ := .nest hshadow (by decide)
  have hright : Leaves (_ ++ [.nest (some 1)]) _ := .nest hleft (by decide)
  exact .bind hright (by decide)

/-- From one of the two scopes, the name is what the scope above both binds it to. Binding it there
is seen from it, and binding it in the other one or in the root is not. -/
theorem siblings_mean : siblings.Leaves siblingScopes ∧ siblings.Chain 2 [2, 1, 0] ∧
    siblingScopes.get? 2 "x" = some (.bool true) ∧
    (siblingScopes.set 1 "x" .null).get? 2 "x" = some .null ∧
    (∀ e, e = 0 ∨ e = 3 →
      (siblingScopes.set e "x" .null).get? 2 "x" = siblingScopes.get? 2 "x") ∧
    siblings.Binds 0 "x" ∧ Text.ofString "x" ∈ siblingScopes.keys 0 := by
  have hchain : siblings.Chain 2 [2, 1, 0] := .under rfl (.under rfl (.root rfl))
  have hsight : siblings.InSight [2, 1, 0] "x" 1 := ⟨[2], [0], rfl, by simp [siblings, Binds]⟩
  have hlast : siblings.BindsLast 1 "x" (.bool true) :=
    ⟨siblings.take 3, siblings.drop 4, rfl, by simp [siblings, Binds]⟩
  have hbinds : siblings.Binds 0 "x" := ⟨.int 2, by simp [siblings]⟩
  have hhidden : ∀ e, e = 0 ∨ e = 3 → ¬ siblings.InSight [2, 1, 0] "x" e := by
    rintro e he ⟨near, far, hc, hnear⟩
    match near with
    | [] | [_] => rcases he with rfl | rfl <;> simp at hc
    | _ :: b :: near =>
      simp only [List.cons_append, List.cons.injEq] at hc
      exact hnear b (by simp) ⟨.bool true, by simp [siblings, ← hc.2.1]⟩
  obtain ⟨-, -, -, -, hmeans, hkeys⟩ := names_mean_their_nearest_binding siblings_leave
  obtain ⟨-, -, hfound, -, hset⟩ := hmeans 2 [2, 1, 0] hchain
  refine ⟨siblings_leave, hchain, (hfound _ _).mpr ⟨1, hsight, hlast⟩, ?_, fun e he => ?_, hbinds,
    ((hkeys 0).2 _).mpr hbinds⟩
  · exact (hset 1 (by decide) _ _ _).1 ⟨rfl, hsight⟩
  · have hsize : e < siblingScopes.scopes.size := by
      rcases he with rfl | rfl <;> decide
    exact (hset e hsize _ _ _).2 fun h => hhidden e he h.2

end ScopeHistory

end Borealis
