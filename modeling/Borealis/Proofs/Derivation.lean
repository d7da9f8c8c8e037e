-- The grammar of the language, as a relation between words and trees.
-- Expressions come in layers, from the operators that bind least to the
-- atoms, and each derivation counts how deeply its expressions nest.
import Borealis.Proofs.Ahead

namespace Borealis

/-! ## Operators and statements -/

/-- The operators of a layer. Only layers 2 to 5 have operators between two operands: equality,
relational, additive and multiplicative ones. -/
def layerOperators : Nat → List TokenKind
  | 2 => [.equal, .notEqual]
  | 3 => [.less, .greater]
  | 4 => [.plus, .minus]
  | 5 => [.asterisk, .slash]
  | _ => []

/-- The kinds of words that an atom can start with. -/
def atomStarts : List TokenKind :=
  [.ident, .int, .trueWord, .falseWord, .leftParen, .ifWord, .functionWord]

/-- The kinds of words that an expression can start with. -/
def expressionStarts : List TokenKind := .bang :: .minus :: atomStarts

/-- The kinds of words that a statement can start with. -/
def statementStarts : List TokenKind := .letWord :: .returnWord :: expressionStarts

/-- How statements without a semicolon may stand side by side. -/
inductive Seam where
  /-- In any way. -/
  | loose
  /-- Only where the next word cannot go on with the expression before it. -/
  | firm
  deriving DecidableEq

/-- Whether a statement without a semicolon may stand before a word of that kind. -/
def Seam.Allows : Seam → TokenKind → Prop
  | loose, _ => True
  | firm, k => k.binding ≤ Binding.lowest

/-! ## Parameters -/

/-- Parameters after the first one, each behind a comma. -/
inductive MoreParameters : List Word → List Text → Prop where
  | last : MoreParameters [] []
  | next {comma w : Word} {ws : List Word} {names : List Text} : comma.kind = .comma →
      w.kind = .ident → MoreParameters ws names →
      MoreParameters (comma :: w :: ws) (w.literal :: names)

/-- Parameters with commas between them. -/
inductive Parameters : List Word → List Text → Prop where
  | none : Parameters [] []
  | some {w : Word} {ws : List Word} {names : List Text} : w.kind = .ident →
      MoreParameters ws names → Parameters (w :: ws) (w.literal :: names)

/-! ## Phrases -/

/-- What a phrase of the language may be. -/
inductive Phrase where
  /-- An expression of a layer or of a tighter one. The layers are 2 equality, 3 relational,
  4 additive, 5 multiplicative, 6 prefix, 7 call and 8 atom. -/
  | expr (layer : Nat)
  /-- What stands between the parentheses of a call. -/
  | arguments
  /-- The arguments after the first one. -/
  | moreArguments
  /-- A statement without its semicolon. -/
  | statement
  /-- Statements, each with or without a semicolon. -/
  | statements

/-- The tree of a phrase. -/
abbrev Phrase.Tree : Phrase → Type
  | expr _ => Expr
  | arguments | moreArguments => List Expr
  | statement => Stmt
  | statements => List Stmt

/-- The layer of an expression. -/
def Phrase.layer : Phrase → Nat
  | expr k => k
  | _ => 0

/-- The phrases that have at least one expression. -/
def Phrase.IsFull : Phrase → Prop
  | expr _ | statement => True
  | _ => False

/-- The kinds of words that a phrase with an expression can start with. -/
def Phrase.starts : Phrase → List TokenKind
  | expr layer => if 7 ≤ layer then atomStarts else expressionStarts
  | _ => statementStarts

/-- The words are a phrase with that tree, and its expressions nest so many levels deep. An
expression counts itself. Its operand on the left is on its own level, and every expression
inside it is one level deeper. -/
inductive Derives (seam : Seam) : (n : Phrase) → List Word → n.Tree → Nat → Prop where
  -- Layer 8: atoms.
  | ident {w : Word} : w.kind = .ident → Derives seam (.expr 8) [w] (.ident w.literal) 1
  | int {w : Word} {v : Int64} : w.kind = .int → w.literal.toInt64 = .ok v →
      Derives seam (.expr 8) [w] (.int v) 1
  | yes {w : Word} : w.kind = .trueWord → Derives seam (.expr 8) [w] (.bool true) 1
  | no {w : Word} : w.kind = .falseWord → Derives seam (.expr 8) [w] (.bool false) 1
  | group {l r : Word} {ws : List Word} {e : Expr} {d : Nat} : l.kind = .leftParen →
      Derives seam (.expr 2) ws e d → r.kind = .rightParen →
      Derives seam (.expr 8) (l :: ws ++ [r]) e (d + 1)
  | ifThen {i l r b z : Word} {ts ys : List Word} {test : Expr} {yes : List Stmt} {d m : Nat} :
      i.kind = .ifWord → l.kind = .leftParen → Derives seam (.expr 2) ts test d →
      r.kind = .rightParen → b.kind = .leftBrace → Derives seam .statements ys yes m →
      z.kind = .rightBrace →
      Derives seam (.expr 8) (i :: l :: ts ++ r :: b :: ys ++ [z]) (.ifThen test yes)
        (max d m + 1)
  | ifElse {i l r b z o q y : Word} {ts ys ns : List Word} {test : Expr} {yes no : List Stmt}
      {d m k : Nat} :
      i.kind = .ifWord → l.kind = .leftParen → Derives seam (.expr 2) ts test d →
      r.kind = .rightParen → b.kind = .leftBrace → Derives seam .statements ys yes m →
      z.kind = .rightBrace → o.kind = .elseWord → q.kind = .leftBrace →
      Derives seam .statements ns no k → y.kind = .rightBrace →
      Derives seam (.expr 8) (i :: l :: ts ++ r :: b :: ys ++ z :: o :: q :: ns ++ [y])
        (.ifElse test yes no) (max d (max m k) + 1)
  | fn {f l r b z : Word} {ps bs : List Word} {params : List Text} {body : List Stmt} {d : Nat} :
      f.kind = .functionWord → l.kind = .leftParen → Parameters ps params →
      r.kind = .rightParen → b.kind = .leftBrace → Derives seam .statements bs body d →
      z.kind = .rightBrace →
      Derives seam (.expr 8) (f :: l :: ps ++ r :: b :: bs ++ [z]) (.fn params body) (d + 1)
  -- Layer 7: calls.
  | call {l r : Word} {fs as : List Word} {f : Expr} {args : List Expr} {d m : Nat} :
      Derives seam (.expr 7) fs f d → l.kind = .leftParen → Derives seam .arguments as args m →
      r.kind = .rightParen →
      Derives seam (.expr 7) (fs ++ l :: as ++ [r]) (.call f args) (max d (m + 1))
  -- Layer 6: operators in front of their operand.
  | unary {w : Word} {ws : List Word} {e : Expr} {d : Nat} : w.kind = .bang ∨ w.kind = .minus →
      Derives seam (.expr 6) ws e d → Derives seam (.expr 6) (w :: ws) (.unary w.literal e) (d + 1)
  -- Layers 5 to 2: operators between operands, which group to the left.
  | binary {w : Word} {layer : Nat} {ls rs : List Word} {l r : Expr} {d m : Nat} :
      Derives seam (.expr layer) ls l d → w.kind ∈ layerOperators layer →
      Derives seam (.expr (layer + 1)) rs r m →
      Derives seam (.expr layer) (ls ++ w :: rs) (.binary w.literal l r) (max d (m + 1))
  | tighter {layer : Nat} {ws : List Word} {e : Expr} {d : Nat} :
      Derives seam (.expr (layer + 1)) ws e d → Derives seam (.expr layer) ws e d
  -- Arguments.
  | noArguments : Derives seam .arguments [] [] 0
  | someArguments {ws vs : List Word} {e : Expr} {es : List Expr} {d m : Nat} :
      Derives seam (.expr 2) ws e d → Derives seam .moreArguments vs es m →
      Derives seam .arguments (ws ++ vs) (e :: es) (max d m)
  | lastArgument : Derives seam .moreArguments [] [] 0
  | nextArgument {comma : Word} {ws vs : List Word} {e : Expr} {es : List Expr} {d m : Nat} :
      comma.kind = .comma → Derives seam (.expr 2) ws e d → Derives seam .moreArguments vs es m →
      Derives seam .moreArguments (comma :: ws ++ vs) (e :: es) (max d m)
  -- Statements.
  | bind {w name eq : Word} {ws : List Word} {e : Expr} {d : Nat} : w.kind = .letWord →
      name.kind = .ident → eq.kind = .assign → Derives seam (.expr 2) ws e d →
      Derives seam .statement (w :: name :: eq :: ws) (.bind (some name.literal) e) d
  | ret {w : Word} {ws : List Word} {e : Expr} {d : Nat} : w.kind = .returnWord →
      Derives seam (.expr 2) ws e d → Derives seam .statement (w :: ws) (.ret e) d
  | expr {ws : List Word} {e : Expr} {d : Nat} : Derives seam (.expr 2) ws e d →
      Derives seam .statement ws (.expr e) d
  | nil : Derives seam .statements [] [] 0
  | closed {w : Word} {ws vs : List Word} {s : Stmt} {ss : List Stmt} {d m : Nat} :
      Derives seam .statement ws s d → w.kind = .semicolon → Derives seam .statements vs ss m →
      Derives seam .statements (ws ++ w :: vs) (s :: ss) (max d m)
  | opened {ws vs : List Word} {s : Stmt} {ss : List Stmt} {d m : Nat} :
      Derives seam .statement ws s d → seam.Allows (front vs) → Derives seam .statements vs ss m →
      Derives seam .statements (ws ++ vs) (s :: ss) (max d m)

/-! ## Layers and binding strengths -/

/-- The operators of a layer bind as tightly as the layer says. -/
theorem binding_of_mem_layerOperators {k : TokenKind} {layer : Nat}
    (h : k ∈ layerOperators layer) : k.binding = layer ∧ 2 ≤ layer ∧ layer ≤ 5 := by
  unfold layerOperators at h
  split at h
  all_goals simp only [List.mem_cons, List.not_mem_nil, or_false] at h
  all_goals
    rcases h with rfl | rfl
    all_goals decide

/-- What binds more than nothing is an operator of a layer, or opens a call. -/
theorem mem_layerOperators_of_binding {k : TokenKind} (h : Binding.lowest < k.binding) :
    k = .leftParen ∨ k ∈ layerOperators k.binding := by
  cases k with
  | other n => exact absurd h (Nat.lt_irrefl 1)
  | _ => first
    | exact absurd h (by decide)
    | exact Or.inl rfl
    | exact Or.inr (by decide)

theorem binding_le_call (k : TokenKind) : k.binding ≤ 7 := by
  cases k with
  | other n => exact (by decide : 1 ≤ 7)
  | _ => decide

namespace Derives

variable {seam : Seam}

/-- A phrase with firm seams is a phrase. -/
theorem loosen {n : Phrase} {ws : List Word} {a : n.Tree} {d : Nat} (h : Derives .firm n ws a d) :
    Derives .loose n ws a d := by
  induction h with
  | ident h => exact .ident h
  | int h hv => exact .int h hv
  | yes h => exact .yes h
  | no h => exact .no h
  | group hl _ hr ih => exact .group hl ih hr
  | ifThen hi hl _ hr hb _ hz iht ihy => exact .ifThen hi hl iht hr hb ihy hz
  | ifElse hi hl _ hr hb _ hz ho hq _ hy iht ihy ihn =>
    exact .ifElse hi hl iht hr hb ihy hz ho hq ihn hy
  | fn hf hl hp hr hb _ hz ih => exact .fn hf hl hp hr hb ih hz
  | call _ hl _ hr ihf iha => exact .call ihf hl iha hr
  | unary hw _ ih => exact .unary hw ih
  | binary _ hw _ ihl ihr => exact .binary ihl hw ihr
  | tighter _ ih => exact .tighter ih
  | noArguments => exact .noArguments
  | someArguments _ _ ihe ihm => exact .someArguments ihe ihm
  | lastArgument => exact .lastArgument
  | nextArgument hc _ _ ihe ihm => exact .nextArgument hc ihe ihm
  | bind hw hn he _ ih => exact .bind hw hn he ih
  | ret hw _ ih => exact .ret hw ih
  | expr _ ih => exact .expr ih
  | nil => exact .nil
  | closed _ hw _ ihs ihm => exact .closed ihs hw ihm
  | opened _ _ _ ihs ihm => exact .opened ihs trivial ihm

/-- An expression of a layer is one of every looser layer. -/
theorem down {k j : Nat} {ws : List Word} {e : Expr} {d : Nat} (h : Derives seam (.expr k) ws e d)
    (hj : j ≤ k) : Derives seam (.expr j) ws e d := by
  obtain ⟨m, rfl⟩ := Nat.exists_eq_add_of_le hj
  induction m with
  | zero => exact h
  | succ m ih => exact ih (.tighter h) (Nat.le_add_right j m)

/-- Expressions and statements have a word and a level. -/
theorem full {n : Phrase} {ws : List Word} {a : n.Tree} {d : Nat} (h : Derives seam n ws a d) :
    n.IsFull → ws ≠ [] ∧ 0 < d := by
  induction h with
  | ident | int | yes | no | group | ifThen | ifElse | fn | unary =>
    exact fun _ => ⟨by simp, by omega⟩
  | call _ _ _ _ ihf _ => exact fun hn => ⟨by simp, by have := (ihf hn).2; omega⟩
  | binary _ _ _ ihl _ => exact fun hn => ⟨by simp, by have := (ihl hn).2; omega⟩
  | tighter _ ih => exact ih
  | bind _ _ _ _ ih => exact fun hn => ⟨by simp, (ih hn).2⟩
  | ret _ _ ih => exact fun hn => ⟨by simp, (ih hn).2⟩
  | expr _ ih => exact ih
  | noArguments | someArguments | lastArgument | nextArgument | nil | closed | opened =>
    exact fun hn => hn.elim

theorem starts_tighter {layer : Nat} {k : TokenKind} (h : k ∈ (Phrase.expr (layer + 1)).starts) :
    k ∈ (Phrase.expr layer).starts := by
  simp only [Phrase.starts] at h ⊢
  by_cases hl : 7 ≤ layer
  · rw [if_pos hl]
    rwa [if_pos (Nat.le_succ_of_le hl)] at h
  · rw [if_neg hl]
    split at h
    · exact List.mem_cons_of_mem _ (List.mem_cons_of_mem _ h)
    · exact h

theorem starts_expr {layer : Nat} {k : TokenKind} (h : k ∈ (Phrase.expr layer).starts) :
    k ∈ statementStarts := by
  induction layer with
  | zero => exact List.mem_cons_of_mem _ (List.mem_cons_of_mem _ h)
  | succ layer ih => exact ih (starts_tighter h)

/-- Expressions and statements begin with a word that can start one. -/
theorem front_mem {n : Phrase} {ws : List Word} {a : n.Tree} {d : Nat} (h : Derives seam n ws a d) :
    n.IsFull → front ws ∈ n.starts := by
  induction h with
  | ident hk | int hk | yes hk | no hk | group hk | ifThen hk | ifElse hk | fn hk =>
    intro _
    simp [Phrase.starts, atomStarts, hk]
  | unary hk =>
    intro _
    rcases hk with hk | hk
    all_goals simp [Phrase.starts, expressionStarts, hk]
  | call hf _ _ _ ihf _ =>
    intro hn
    rw [List.append_assoc, front_append (hf.full hn).1]
    exact ihf hn
  | binary hl _ _ ihl _ =>
    intro hn
    rw [front_append (hl.full hn).1]
    exact ihl hn
  | tighter _ ih => exact fun hn => starts_tighter (ih hn)
  | bind hk | ret hk =>
    intro _
    simp [Phrase.starts, statementStarts, hk]
  | expr _ ih => exact fun _ => starts_expr (ih trivial)
  | noArguments | someArguments | lastArgument | nextArgument | nil | closed | opened =>
    exact fun hn => hn.elim

/-- Statements begin with a word that can start one, if there are any. -/
theorem front_statements {ws : List Word} {ss : List Stmt} {d : Nat}
    (h : Derives seam .statements ws ss d) : ws = [] ∨ front ws ∈ statementStarts := by
  cases h with
  | nil => exact Or.inl rfl
  | closed hs =>
    rw [front_append (hs.full trivial).1]
    exact Or.inr (hs.front_mem trivial)
  | opened hs =>
    rw [front_append (hs.full trivial).1]
    exact Or.inr (hs.front_mem trivial)

theorem front_moreArguments {ws : List Word} {es : List Expr} {d : Nat}
    (h : Derives seam .moreArguments ws es d) : ws = [] ∨ front ws = .comma := by
  cases h with
  | lastArgument => exact Or.inl rfl
  | nextArgument hc => exact Or.inr hc

/-- A statement by itself needs no semicolon. -/
theorem only {ws : List Word} {s : Stmt} {d : Nat} (h : Derives .firm .statement ws s d) :
    Derives .firm .statements ws [s] d := by
  have hs : Derives .firm .statements (ws ++ []) [s] (max d 0) := .opened h (Nat.le_refl 1) .nil
  rwa [List.append_nil, Nat.max_zero] at hs

end Derives

/-- Where a statement may end before two lists of words, it may end before the first. -/
theorem Seam.Allows.front_left {xs ys : List Word} (h : Seam.firm.Allows (front (xs ++ ys))) :
    Seam.firm.Allows (front xs) := by
  cases xs with
  | nil => exact Nat.le_refl 1
  | cons w xs => exact h

end Borealis
