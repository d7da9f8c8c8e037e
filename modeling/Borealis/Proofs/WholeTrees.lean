-- Trees with nothing left out. Reading tokens gives whole trees, whatever was
-- wrong with them: a statement that fails is dropped and not kept in part.
import Borealis.Proofs.Complaints

namespace Borealis

/-! ## Whole trees -/

mutual

/-- No child of the expression was left out, and none inside it. -/
def Expr.Whole : Expr → Prop
  | .hole | .stub _ => False
  | .ident _ | .int _ | .bool _ => True
  | .unary _ operand => operand.Whole
  | .binary _ left right => left.Whole ∧ right.Whole
  | .ifThen test yes => test.Whole ∧ Stmt.AllWhole yes
  | .ifElse test yes no => test.Whole ∧ Stmt.AllWhole yes ∧ Stmt.AllWhole no
  | .fn _ body => Stmt.AllWhole body
  | .call callee args => callee.Whole ∧ Expr.AllWhole args

def Expr.AllWhole : List Expr → Prop
  | [] => True
  | e :: es => e.Whole ∧ Expr.AllWhole es

/-- No child of the statement was left out, and neither was the name that it binds. -/
def Stmt.Whole : Stmt → Prop
  | .bind none _ => False
  | .bind (some _) value => value.Whole
  | .ret value | .expr value => value.Whole
  | .block body => Stmt.AllWhole body

def Stmt.AllWhole : List Stmt → Prop
  | [] => True
  | s :: ss => s.Whole ∧ Stmt.AllWhole ss

end

theorem Expr.allWhole_iff {es : List Expr} : Expr.AllWhole es ↔ ∀ e ∈ es, e.Whole := by
  induction es with
  | nil => simp [Expr.AllWhole]
  | cons e es ih => simp [Expr.AllWhole, ih]

theorem Stmt.allWhole_iff {ss : List Stmt} : Stmt.AllWhole ss ↔ ∀ s ∈ ss, s.Whole := by
  induction ss with
  | nil => simp [Stmt.AllWhole]
  | cons s ss ih => simp [Stmt.AllWhole, ih]

theorem Stmt.AllWhole.append {ss ts : List Stmt} (h : Stmt.AllWhole ss) (h' : Stmt.AllWhole ts) :
    Stmt.AllWhole (ss ++ ts) := by
  rw [Stmt.allWhole_iff] at *
  intro s hs
  rcases List.mem_append.mp hs with hs | hs
  · exact h s hs
  · exact h' s hs

theorem Stmt.allWhole_toList {o : Option Stmt} (h : ∀ s, o = some s → s.Whole) :
    Stmt.AllWhole o.toList := by
  cases o with
  | none => trivial
  | some s => exact ⟨h s rfl, trivial⟩

/-! ## Trees from tokens -/

namespace Rule

variable {σ α β : Type}

/-- What the rule gives, if it gives anything, is as `P` says. -/
def Yields (r : Rule σ α) (P : α → Prop) : Prop :=
  ∀ (c c' : Cursor σ) (a : α), r c = (some a, c') → P a

theorem yields_pure {P : α → Prop} {a : α} (h : P a) : (pure a : Rule σ α).Yields P := by
  intro c c' b hb
  injection hb with hb
  injection hb with hb
  exact hb ▸ h

theorem yields_any (r : Rule σ α) : r.Yields fun _ => True := fun _ _ _ _ => trivial

theorem Yields.bind {r : Rule σ α} {f : α → Rule σ β} {Q : α → Prop} {P : β → Prop}
    (hr : r.Yields Q) (hf : ∀ a, Q a → (f a).Yields P) : (r >>= f).Yields P := by
  intro c c' b hb
  rw [bind_apply] at hb
  split at hb
  · rename_i a c1 hrun
    exact hf a (hr c c1 a hrun) c1 c' b hb
  · exact absurd hb (by simp)

/-- A rule whose result does not matter, and then one whose result does. -/
theorem yields_after (r : Rule σ α) {f : α → Rule σ β} {P : β → Prop}
    (hf : ∀ a, (f a).Yields P) : (r >>= f).Yields P :=
  (yields_any r).bind fun a _ => hf a

/-- A rule that fails gives nothing. -/
theorem yields_nothing {r : Rule σ α} {P : α → Prop} (h : ∀ c, (r c).1 = none) : r.Yields P := by
  intro c c' a ha
  have hnone := h c
  rw [ha] at hnone
  exact absurd hnone (by simp)

theorem Yields.attempt {r : Rule σ α} {P : α → Prop} (h : r.Yields P) :
    (attempt r).Yields fun o => ∀ a, o = some a → P a := by
  intro c c' o ho a ha
  subst ha
  injection ho with ho hc
  injection ho with ho
  exact h c (r c).2 a (Prod.ext ho rfl)

end Rule

namespace Grammar

open Rule

variable {σ : Type}

theorem whole_integer : (integer : Rule σ Expr).Yields Expr.Whole := by
  refine yields_after _ fun here => ?_
  split
  · exact yields_pure trivial
  · exact yields_nothing fun _ => rfl

variable [TokenSource σ] {inner : Inner σ}

theorem whole_statement (h : ∀ p, (inner p).Yields Expr.Whole) :
    (statement inner).Yields Stmt.Whole := by
  refine yields_after _ fun here => ?_
  split
  · refine yields_after _ fun name => yields_after _ fun _ => yields_after _ fun _ => ?_
    exact (h _).bind fun e he => yields_after _ fun _ => yields_pure he
  · refine yields_after _ fun _ => ?_
    exact (h _).bind fun e he => yields_after _ fun _ => yields_pure he
  · exact (h _).bind fun e he => yields_after _ fun _ => yields_pure he

theorem whole_blockStatements (h : ∀ p, (inner p).Yields Expr.Whole) (rounds : Nat) :
    (blockStatements inner rounds).Yields Stmt.AllWhole := by
  induction rounds with
  | zero => exact yields_nothing fun _ => rfl
  | succ rounds ih =>
    refine yields_after _ fun here => ?_
    split
    · exact yields_pure trivial
    · exact yields_nothing fun _ => rfl
    · refine (whole_statement h).attempt.bind fun first hfirst => yields_after _ fun _ => ?_
      exact ih.bind fun others ho => yields_pure ((Stmt.allWhole_toList hfirst).append ho)

theorem whole_block (h : ∀ p, (inner p).Yields Expr.Whole) :
    (block inner).Yields Stmt.AllWhole :=
  yields_after _ fun _ => yields_after _ fun rounds => whole_blockStatements h rounds

theorem whole_conditional (h : ∀ p, (inner p).Yields Expr.Whole) :
    (conditional inner).Yields Expr.Whole := by
  refine yields_after _ fun _ => yields_after _ fun _ => (h _).bind fun test ht => ?_
  refine yields_after _ fun _ => yields_after _ fun _ => (whole_block h).bind fun yes hy => ?_
  refine yields_after _ fun next => ?_
  split
  · refine yields_after _ fun _ => yields_after _ fun _ => (whole_block h).bind fun no hn => ?_
    exact yields_pure ⟨ht, hy, hn⟩
  · exact yields_pure ⟨ht, hy⟩

theorem whole_operand (h : ∀ p, (inner p).Yields Expr.Whole) :
    (operand inner).Yields Expr.Whole := by
  have hunary : (unary inner).Yields Expr.Whole := by
    refine yields_after _ fun op => yields_after _ fun _ => ?_
    exact (h _).bind fun e he => yields_pure he
  refine yields_after _ fun here => ?_
  split
  · exact yields_pure trivial
  · exact whole_integer
  · exact yields_pure trivial
  · exact yields_pure trivial
  · exact hunary
  · exact hunary
  · refine yields_after _ fun _ => (h _).bind fun e he => ?_
    exact yields_after _ fun _ => yields_pure he
  · exact whole_conditional h
  · refine yields_after _ fun _ => yields_after _ fun params => yields_after _ fun _ => ?_
    exact (whole_block h).bind fun body hb => yields_pure hb
  · exact yields_nothing fun _ => rfl
  · exact yields_nothing fun _ => rfl

theorem whole_moreArguments (h : ∀ p, (inner p).Yields Expr.Whole) (rounds : Nat) :
    (moreArguments inner rounds).Yields Expr.AllWhole := by
  induction rounds with
  | zero => exact yields_nothing fun _ => rfl
  | succ rounds ih =>
    refine yields_after _ fun next => ?_
    split
    · refine yields_after _ fun _ => yields_after _ fun _ => (h _).bind fun e he => ?_
      exact ih.bind fun es hes => yields_pure ⟨he, hes⟩
    · exact yields_after _ fun _ => yields_pure trivial

theorem whole_arguments (h : ∀ p, (inner p).Yields Expr.Whole) :
    (arguments inner).Yields Expr.AllWhole := by
  refine yields_after _ fun next => ?_
  split
  · exact yields_after _ fun _ => yields_pure trivial
  · refine yields_after _ fun _ => (h _).bind fun e he => yields_after _ fun rounds => ?_
    exact (whole_moreArguments h rounds).bind fun es hes => yields_pure ⟨he, hes⟩

theorem whole_operation (h : ∀ p, (inner p).Yields Expr.Whole) {left : Expr}
    (hl : left.Whole) : (operation inner left).Yields Expr.Whole := by
  refine yields_after _ fun op => ?_
  split
  · exact (whole_arguments h).bind fun args ha => yields_pure ⟨hl, ha⟩
  · refine yields_after _ fun _ => (h _).bind fun right hr => ?_
    exact yields_pure ⟨hl, hr⟩

theorem whole_operations (h : ∀ p, (inner p).Yields Expr.Whole) (strength rounds : Nat)
    {left : Expr} (hl : left.Whole) :
    (operations inner strength rounds left).Yields Expr.Whole := by
  induction rounds generalizing left with
  | zero => exact yields_pure hl
  | succ rounds ih =>
    refine yields_after _ fun next => ?_
    split
    · exact yields_after _ fun _ => (whole_operation h hl).bind fun left hl => ih hl
    · exact yields_pure hl

theorem whole_expression (room strength : Nat) :
    (expression room strength : Rule σ Expr).Yields Expr.Whole := by
  induction room generalizing strength with
  | zero => exact yields_nothing fun _ => rfl
  | succ room ih =>
    refine (whole_operand ih).bind fun left hl => yields_after _ fun rounds => ?_
    exact whole_operations ih strength rounds hl

theorem whole_statements (rounds : Nat) (c : Cursor σ) :
    Stmt.AllWhole (statements rounds c).1 := by
  induction rounds generalizing c with
  | zero => trivial
  | succ rounds ih =>
    unfold statements
    split
    · trivial
    · refine Stmt.AllWhole.append (Stmt.allWhole_toList fun s hs => ?_) (ih _)
      exact whole_statement (whole_expression maxNesting) c _ s (Prod.ext hs rfl)

end Grammar

/-- Whatever is read from a source is whole. -/
theorem Program.ofSource_whole {σ : Type} [TokenSource σ] (source : σ) :
    Stmt.AllWhole (Program.ofSource source).program.statements :=
  Grammar.whole_statements (Cursor.ofSource source).remaining (Cursor.ofSource source)

end Borealis
