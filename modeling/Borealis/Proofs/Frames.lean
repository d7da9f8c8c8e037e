-- Which scopes an evaluation can change. Statements bind names in the scope
-- they are evaluated in, and a call makes a scope of its own. So of all scopes
-- that were there before, an evaluation changes no other than its own, and a
-- call changes none.
import Borealis.Proofs.Traces

namespace Borealis

/-! ## What a store keeps -/

/-- `s'` has all the scopes and functions of `s`, and maybe more. -/
structure Store.Grows (s s' : Store) : Prop where
  size : s.scopes.size ≤ s'.scopes.size
  functions : s.functions ≤ s'.functions

/-- `s'` has grown from `s`, and its scopes other than `scope` are the same there. -/
structure Store.Keeps (scope : ScopeId) (s s' : Store) : Prop extends s.Grows s' where
  others : ∀ i < s.scopes.size, i ≠ scope → s'.scopes[i]? = s.scopes[i]?

namespace Store.Grows

variable {s s' s'' : Store}

theorem refl (s : Store) : s.Grows s := ⟨Nat.le_refl _, Nat.le_refl _⟩

theorem trans (h : s.Grows s') (h' : s'.Grows s'') : s.Grows s'' :=
  ⟨Nat.le_trans h.size h'.size, Nat.le_trans h.functions h'.functions⟩

theorem newScope (s : Store) (parent : Option ScopeId) : s.Grows (s.newScope parent).2 :=
  ⟨by simp [Store.newScope], Nat.le_refl _⟩

theorem newFunction (s : Store) (f : Option Declaration) (home : ScopeId) :
    s.Grows (s.newFunction f home).2 := ⟨Nat.le_refl _, Nat.le_succ _⟩

theorem set (s : Store) (scope : ScopeId) (name : Text) (v : Value) :
    s.Grows (s.set scope name v) := ⟨by simp [Store.set], Nat.le_refl _⟩

end Store.Grows

namespace Store.Keeps

variable {scope : ScopeId} {s s' s'' : Store}

theorem refl (scope : ScopeId) (s : Store) : s.Keeps scope s :=
  ⟨.refl s, fun _ _ _ => rfl⟩

theorem trans (h : s.Keeps scope s') (h' : s'.Keeps scope s'') : s.Keeps scope s'' := by
  refine ⟨h.toGrows.trans h'.toGrows, fun i hi hne => ?_⟩
  rw [h'.others i (Nat.lt_of_lt_of_le hi h.size) hne, h.others i hi hne]

/-- What keeps all but a scope that was not there keeps all that was. -/
theorem of_new (h : s.Keeps s.scopes.size s') (scope : ScopeId) : s.Keeps scope s' :=
  ⟨h.toGrows, fun i hi _ => h.others i hi (Nat.ne_of_lt hi)⟩

theorem newScope (s : Store) (parent : Option ScopeId) (scope : ScopeId) :
    s.Keeps scope (s.newScope parent).2 := by
  refine ⟨.newScope s parent, fun i hi _ => ?_⟩
  simp only [Store.newScope]
  rw [Array.getElem?_push, if_neg (Nat.ne_of_lt hi)]

theorem newFunction (s : Store) (f : Option Declaration) (home scope : ScopeId) :
    s.Keeps scope (s.newFunction f home).2 := ⟨.newFunction s f home, fun _ _ _ => rfl⟩

theorem set (s : Store) (scope : ScopeId) (name : Text) (v : Value) :
    s.Keeps scope (s.set scope name v) := by
  refine ⟨.set s scope name v, fun i _ hne => ?_⟩
  simp only [Store.set]
  rw [Array.getElem?_modify, if_neg hne.symm]

theorem bindAll (s : Store) (scope : ScopeId) (bindings : List (Text × Value)) :
    s.Keeps scope (bindAll scope bindings s) := by
  induction bindings generalizing s with
  | nil => exact refl scope s
  | cons b bindings ih => exact (set s scope b.1 b.2).trans (ih _)

/-- The scope that is made for the body of a function is the only one that changes. -/
theorem entered (s : Store) (home : ScopeId) (bindings : List (Text × Value)) :
    s.Keeps s.scopes.size (s.entered home bindings) :=
  (newScope s (some home) s.scopes.size).trans (bindAll _ _ _)

end Store.Keeps

/-! ## Evaluations and calls -/

theorem Trace.Formed.keeps {limit room : Nat} {scope : ScopeId} {s : Store} {t : Trace}
    (h : Formed limit room scope s t) : s.Keeps scope t.result.2 := by
  induction h with
  | still r _ => exact .refl _ _
  | @makes _ scope s f => exact .newFunction s (some f) scope scope
  | @binds _ scope s name v => exact .set s scope name v
  | @andThen room scope s t next _ _ ih ihn =>
    rcases andThen_cases t next with h | ⟨v, s', hr, -, h⟩
    · rw [h]
      exact ih
    · rw [h]
      rw [hr] at ih
      exact ih.trans (ihn v s' hr)
  | node n _ ih =>
    simp only [during, ending_store]
    exact ih
  | refused f args => exact .refl _ _
  | @called room scope s t f args home bindings _ ih =>
    simp only [during, behind, ending_store]
    exact ((Store.Keeps.entered s home bindings).trans ih).of_new scope

theorem evalNode_keeps (limit : Nat) (n : Node) (scope : ScopeId) (s : Store) :
    s.Keeps scope (evalNode limit n scope s).2 := by
  rw [← traceNode_result]
  exact (traceNode_formed limit n scope s).keeps

theorem invoke_keeps (limit room : Nat) (declaration : Option Declaration) (home : ScopeId)
    (args : List Value) (s : Store) (scope : ScopeId) :
    s.Keeps scope (invoke limit room declaration home args s).2 := by
  rw [← traceInvoke_result]
  exact (traceInvoke_formed limit room declaration home args s scope).keeps

/-- However an evaluation ends, the bindings and the parent of every scope that was there before
are the same afterwards, but for the scope of the evaluation. A call leaves all of them the same. -/
theorem other_scopes_stay (limit : Nat) (s : Store) :
    (∀ n scope, ∀ i < s.scopes.size, i ≠ scope →
      (evalNode limit n scope s).2.scopes[i]? = s.scopes[i]?) ∧
    ∀ room declaration home args, ∀ i < s.scopes.size,
      (invoke limit room declaration home args s).2.scopes[i]? = s.scopes[i]? := by
  constructor
  · intro n scope
    exact (evalNode_keeps limit n scope s).others
  · intro room declaration home args i hi
    have h := invoke_keeps limit room declaration home args s s.scopes.size
    exact h.others i hi (Nat.ne_of_lt hi)

/-- Binds a name to its argument. -/
def rebinder : Declaration := ⟨["x"], some [.bind (some "y") (.ident "x")]⟩

/-- Two scopes, the second below the first. The first has the function, and the name bound. -/
def rebinding : Store :=
  ⟨#[⟨none, [("f", .fn 0 (some rebinder) 0), ("y", .int 1)]⟩, ⟨some 0, []⟩], 1⟩

/-- Binds the name to what a call of the function gives. -/
def rebind : Node := .stmt (.bind (some "y") (.call (.ident "f") [.int 7]))

theorem rebinding_stays :
    (evalNode 3 rebind 1 rebinding).2.get? 1 "y" = some (.int 7) ∧
      (evalNode 3 rebind 1 rebinding).2.scopes[0]? = rebinding.scopes[0]? ∧
      (invoke 3 1 (some rebinder) 0 [.int 7] rebinding).2.scopes[0]? = rebinding.scopes[0]? := by
  obtain ⟨hnode, hcall⟩ := other_scopes_stay 3 rebinding
  refine ⟨rfl, hnode rebind 1 0 (by decide) (by decide), ?_⟩
  exact hcall 1 (some rebinder) 0 [.int 7] 0 (by decide)

end Borealis
