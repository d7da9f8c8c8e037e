-- Rules never take a complaint back. So if none was noted at the end of a
-- rule, none was noted on the way, and every rule inside it gave a result.
import Borealis.Proofs.Ahead

namespace Borealis

namespace Cursor

variable {σ : Type}

/-- Every complaint of the first cursor is one of the second, at the same place in the list. -/
def NotesOf (c c' : Cursor σ) : Prop := c.diagnostics.toList <+: c'.diagnostics.toList

theorem NotesOf.refl (c : Cursor σ) : c.NotesOf c := List.prefix_rfl

theorem NotesOf.trans {a b c : Cursor σ} (h : a.NotesOf b) (h' : b.NotesOf c) : a.NotesOf c :=
  List.IsPrefix.trans h h'

/-- What lies between two equal lists of complaints is equal to them. -/
theorem NotesOf.eq {a b c : Cursor σ} (h : a.NotesOf b) (h' : b.NotesOf c)
    (he : c.diagnostics = a.diagnostics) : b.diagnostics = a.diagnostics := by
  have hl := h.length_le
  have hl' := h'.length_le
  rw [he] at hl'
  exact (Array.toList_inj.mp (h.eq_of_length (Nat.le_antisymm hl hl'))).symm

theorem notesOf_complain (c : Cursor σ) (t : Token) (what : Complaint) :
    c.NotesOf (c.complain t what) := by
  unfold complain
  split
  · exact NotesOf.refl c
  · simp [NotesOf]

/-- A complaint that is noted changes the list of complaints. -/
theorem complain_diagnostics_ne {c : Cursor σ} (hc : c.abandoned = false) (t : Token)
    (what : Complaint) : (c.complain t what).diagnostics ≠ c.diagnostics := by
  intro h
  have hsize := congrArg Array.size h
  simp [complain, hc] at hsize

variable [TokenSource σ]

theorem toEnd_diagnostics (n : Nat) (c : Cursor σ) : (toEnd n c).diagnostics = c.diagnostics := by
  induction n generalizing c with
  | zero => rfl
  | succ n ih =>
    unfold toEnd
    split
    · rfl
    · exact ih c.advance

theorem notesOf_abandon (c : Cursor σ) (what : Complaint) : c.NotesOf (c.abandon what) := by
  unfold NotesOf abandon
  rw [toEnd_diagnostics]
  exact notesOf_complain c c.current what

end Cursor

namespace Rule

variable {σ α β : Type}

/-! ## Complaints stay -/

/-- The rule never takes a complaint back. -/
def Grows (r : Rule σ α) : Prop := ∀ c : Cursor σ, c.NotesOf (r c).2

theorem grows_pure (a : α) : (pure a : Rule σ α).Grows := Cursor.NotesOf.refl

theorem grows_fail : (fail : Rule σ α).Grows := Cursor.NotesOf.refl

theorem grows_current : (current : Rule σ Token).Grows := Cursor.NotesOf.refl

theorem grows_peek : (peek : Rule σ Token).Grows := Cursor.NotesOf.refl

theorem grows_reject (t : Token) (what : Complaint) : (reject t what : Rule σ α).Grows :=
  fun c => Cursor.notesOf_complain c t what

theorem bind_apply (r : Rule σ α) (f : α → Rule σ β) (c : Cursor σ) :
    (r >>= f) c = match r c with
      | (some a, c') => f a c'
      | (none, c') => (none, c') := rfl

theorem bind_of_some {r : Rule σ α} {f : α → Rule σ β} {c c' : Cursor σ} {a : α}
    (h : r c = (some a, c')) : (r >>= f) c = f a c' := by
  rw [bind_apply, h]

theorem bind_of_none {r : Rule σ α} {f : α → Rule σ β} {c c' : Cursor σ}
    (h : r c = (none, c')) : (r >>= f) c = (none, c') := by
  rw [bind_apply, h]

theorem Grows.bind {r : Rule σ α} {f : α → Rule σ β} (hr : r.Grows) (hf : ∀ a, (f a).Grows) :
    (r >>= f).Grows := by
  intro c
  have h := hr c
  rcases hc : r c with ⟨_ | a, c'⟩
  · rw [bind_of_none hc]
    rw [hc] at h
    exact h
  · rw [bind_of_some hc]
    rw [hc] at h
    exact h.trans (hf a c')

theorem Grows.attempt {r : Rule σ α} (hr : r.Grows) : (attempt r).Grows := hr

theorem grows_ite {p : Prop} [Decidable p] {r s : Rule σ α} (hr : r.Grows) (hs : s.Grows) :
    (if p then r else s).Grows := by
  split
  · exact hr
  · exact hs

section

variable [TokenSource σ]

theorem grows_remaining : (remaining : Rule σ Nat).Grows := Cursor.NotesOf.refl

theorem grows_advance : (advance : Rule σ Unit).Grows := Cursor.NotesOf.refl

theorem grows_giveUp (what : Complaint) : (giveUp what : Rule σ α).Grows :=
  fun c => Cursor.notesOf_abandon c what

theorem grows_expect (kind : TokenKind) : (expect kind : Rule σ Token).Grows := by
  intro c
  unfold expect
  split
  · exact Cursor.NotesOf.refl c
  · exact Cursor.notesOf_complain c _ _

theorem grows_skip (kind : TokenKind) : (skip kind : Rule σ Unit).Grows := by
  intro c
  unfold skip
  split
  · exact Cursor.NotesOf.refl c
  · exact Cursor.NotesOf.refl c

end

/-! ## Reading without a complaint -/

/-- If the rule notes no complaint from this cursor, then it gives a result, and what `Q` says
holds of the result and the cursor behind it. -/
def Sound (r : Rule σ α) (c : Cursor σ) (Q : α → Cursor σ → Prop) : Prop :=
  c.abandoned = false → (r c).2.diagnostics = c.diagnostics →
    ∃ a c', r c = (some a, c') ∧ c'.abandoned = false ∧ Q a c'

variable {c : Cursor σ} {Q : β → Cursor σ → Prop} {f : α → Rule σ β}

theorem sound_pure {P : α → Cursor σ → Prop} {a : α} (h : P a c) :
    (pure a : Rule σ α).Sound c P := fun hc _ => ⟨a, c, rfl, hc, h⟩

theorem Sound.bind {r : Rule σ α} {P : α → Cursor σ → Prop} (hr : r.Sound c P) (hg : r.Grows)
    (hf : ∀ a, (f a).Grows) (h : ∀ a c', P a c' → (f a).Sound c' Q) : (r >>= f).Sound c Q := by
  intro hc hd
  have hg' := hg c
  rcases hrc : r c with ⟨_ | a, c'⟩
  · rw [bind_of_none hrc] at hd
    obtain ⟨a, c'', hr', -⟩ := hr hc (by rw [hrc]; exact hd)
    rw [hrc] at hr'
    simp at hr'
  · rw [bind_of_some hrc] at hd ⊢
    rw [hrc] at hg'
    have hd' : c'.diagnostics = c.diagnostics := hg'.eq (hf a c') hd
    obtain ⟨a', c'', hr', hc', hP⟩ := hr hc (by rw [hrc]; exact hd')
    rw [hrc] at hr'
    simp only [Prod.mk.injEq, Option.some.injEq] at hr'
    obtain ⟨rfl, rfl⟩ := hr'
    exact h a c' hP hc' (hd.trans hd'.symm)

theorem Sound.attempt {r : Rule σ α} {P : α → Cursor σ → Prop} (h : r.Sound c P) :
    (attempt r).Sound c (fun o c' => ∃ a, o = some a ∧ P a c') := by
  intro hc hd
  obtain ⟨a, c', hr, hc', hP⟩ := h hc hd
  refine ⟨some a, c', ?_, hc', a, rfl, hP⟩
  unfold Rule.attempt
  rw [hr]

theorem sound_reject {P : α → Cursor σ → Prop} (t : Token) (what : Complaint) :
    (reject t what : Rule σ α).Sound c P :=
  fun hc hd => absurd hd (Cursor.complain_diagnostics_ne hc t what)

theorem sound_current {f : Token → Rule σ β} (h : (f c.current).Sound c Q) :
    (current >>= f).Sound c Q := h

theorem sound_peek {f : Token → Rule σ β} (h : (f c.peek).Sound c Q) :
    (peek >>= f).Sound c Q := h

variable [TokenSource σ]

theorem sound_giveUp {P : α → Cursor σ → Prop} (what : Complaint) :
    (giveUp what : Rule σ α).Sound c P := by
  intro hc hd
  unfold giveUp Cursor.abandon at hd
  rw [Cursor.toEnd_diagnostics] at hd
  exact absurd hd (Cursor.complain_diagnostics_ne hc c.current what)

theorem sound_remaining {f : Nat → Rule σ β} (h : (f c.remaining).Sound c Q) :
    (remaining >>= f).Sound c Q := h

theorem sound_advance {f : Unit → Rule σ β} (h : (f ()).Sound c.advance Q) :
    (advance >>= f).Sound c Q := h

theorem sound_expect {kind : TokenKind} {f : Token → Rule σ β}
    (h : c.peek.word.kind = kind → (f c.peek).Sound c.advance Q) :
    (expect kind >>= f).Sound c Q := by
  intro hc hd
  by_cases hk : c.peek.kind = kind
  · have he : (expect kind : Rule σ Token) c = (some c.peek, c.advance) := by simp [expect, hk]
    rw [bind_of_some he] at hd ⊢
    exact h hk hc hd
  · have he : (expect kind : Rule σ Token) c =
        (none, c.complain c.peek (.expected kind c.peek.kind)) := by simp [expect, hk]
    rw [bind_of_none he] at hd
    exact absurd hd (Cursor.complain_diagnostics_ne hc _ _)

theorem sound_skip {kind : TokenKind} {f : Unit → Rule σ β}
    (h : c.peek.kind = kind → (f ()).Sound c.advance Q)
    (h' : c.peek.kind ≠ kind → (f ()).Sound c Q) : (skip kind >>= f).Sound c Q := by
  by_cases hk : c.peek.kind = kind
  · have he : (skip kind : Rule σ Unit) c = (some (), c.advance) := by simp [skip, hk]
    have hs := h hk
    unfold Sound at hs ⊢
    rw [bind_of_some he]
    exact hs
  · have he : (skip kind : Rule σ Unit) c = (some (), c) := by simp [skip, hk]
    have hs := h' hk
    unfold Sound at hs ⊢
    rw [bind_of_some he]
    exact hs

end Rule

/-! ## The rules of the grammar -/

namespace Grammar

open Rule

variable {σ : Type}

theorem grows_integer : (integer : Rule σ Expr).Grows := by
  refine grows_current.bind fun here => ?_
  split
  · exact grows_pure _
  · exact grows_reject _ _

variable [TokenSource σ] {inner : Inner σ}

theorem grows_statement (h : ∀ p, (inner p).Grows) : (statement inner).Grows := by
  refine grows_current.bind fun here => ?_
  split
  · exact (grows_expect _).bind fun _ => (grows_expect _).bind fun _ => grows_advance.bind fun _ =>
      (h _).bind fun _ => (grows_skip _).bind fun _ => grows_pure _
  · exact grows_advance.bind fun _ => (h _).bind fun _ => (grows_skip _).bind fun _ => grows_pure _
  · exact (h _).bind fun _ => (grows_skip _).bind fun _ => grows_pure _

theorem grows_blockStatements (h : ∀ p, (inner p).Grows) (rounds : Nat) :
    (blockStatements inner rounds).Grows := by
  induction rounds with
  | zero => exact grows_fail
  | succ rounds ih =>
    refine grows_current.bind fun here => ?_
    split
    · exact grows_pure _
    · exact grows_reject _ _
    · exact (grows_statement h).attempt.bind fun _ => grows_advance.bind fun _ => ih.bind fun _ =>
        grows_pure _

theorem grows_block (h : ∀ p, (inner p).Grows) : (block inner).Grows :=
  grows_advance.bind fun _ => grows_remaining.bind fun _ => grows_blockStatements h _

/-- The part of a condition behind its first block. -/
def alternative (inner : Inner σ) (test : Expr) (yes : List Stmt) : Rule σ Expr := do
  if (← peek).kind = .elseWord then
    advance
    let _ ← expect .leftBrace
    let no ← block inner
    return .ifElse test yes no
  else return .ifThen test yes

theorem conditional_eq (inner : Inner σ) : conditional inner = (do
    let _ ← expect .leftParen
    advance
    let test ← inner Binding.lowest
    let _ ← expect .rightParen
    let _ ← expect .leftBrace
    let yes ← block inner
    alternative inner test yes) := rfl

theorem grows_alternative (h : ∀ p, (inner p).Grows) (test : Expr) (yes : List Stmt) :
    (alternative inner test yes).Grows :=
  grows_peek.bind fun _ => grows_ite (grows_advance.bind fun _ => (grows_expect _).bind fun _ =>
    (grows_block h).bind fun _ => grows_pure _) (grows_pure _)

theorem grows_conditional (h : ∀ p, (inner p).Grows) : (conditional inner).Grows :=
  (grows_expect _).bind fun _ => grows_advance.bind fun _ => (h _).bind fun _ =>
    (grows_expect _).bind fun _ => (grows_expect _).bind fun _ => (grows_block h).bind fun _ =>
    grows_alternative h _ _

theorem grows_moreParameters (rounds : Nat) : (moreParameters rounds : Rule σ (List Text)).Grows := by
  induction rounds with
  | zero => exact grows_fail
  | succ rounds ih =>
    refine grows_peek.bind fun _ => grows_ite ?_ ?_
    · exact grows_advance.bind fun _ => (grows_expect _).bind fun _ => ih.bind fun _ => grows_pure _
    · exact (grows_expect _).bind fun _ => grows_pure _

theorem grows_parameters : (parameters : Rule σ (List Text)).Grows := by
  refine grows_peek.bind fun _ => grows_ite ?_ ?_
  · exact grows_advance.bind fun _ => grows_pure _
  · exact (grows_expect _).bind fun _ => grows_remaining.bind fun _ =>
      (grows_moreParameters _).bind fun _ => grows_pure _

theorem grows_function (h : ∀ p, (inner p).Grows) : (function inner).Grows :=
  (grows_expect _).bind fun _ => grows_parameters.bind fun _ => (grows_expect _).bind fun _ =>
    (grows_block h).bind fun _ => grows_pure _

theorem grows_operand (h : ∀ p, (inner p).Grows) : (operand inner).Grows := by
  refine grows_current.bind fun here => ?_
  split
  · exact grows_pure _
  · exact grows_integer
  · exact grows_pure _
  · exact grows_pure _
  · exact grows_current.bind fun _ => grows_advance.bind fun _ => (h _).bind fun _ => grows_pure _
  · exact grows_current.bind fun _ => grows_advance.bind fun _ => (h _).bind fun _ => grows_pure _
  · exact grows_advance.bind fun _ => (h _).bind fun _ => (grows_expect _).bind fun _ =>
      grows_pure _
  · exact grows_conditional h
  · exact grows_function h
  · exact grows_reject _ _
  · exact grows_reject _ _

theorem grows_moreArguments (h : ∀ p, (inner p).Grows) (rounds : Nat) :
    (moreArguments inner rounds).Grows := by
  induction rounds with
  | zero => exact grows_fail
  | succ rounds ih =>
    refine grows_peek.bind fun _ => grows_ite ?_ ?_
    · exact grows_advance.bind fun _ => grows_advance.bind fun _ => (h _).bind fun _ =>
        ih.bind fun _ => grows_pure _
    · exact (grows_expect _).bind fun _ => grows_pure _

theorem grows_arguments (h : ∀ p, (inner p).Grows) : (arguments inner).Grows := by
  refine grows_peek.bind fun _ => grows_ite ?_ ?_
  · exact grows_advance.bind fun _ => grows_pure _
  · exact grows_advance.bind fun _ => (h _).bind fun _ => grows_remaining.bind fun _ =>
      (grows_moreArguments h _).bind fun _ => grows_pure _

theorem grows_operation (h : ∀ p, (inner p).Grows) (left : Expr) : (operation inner left).Grows := by
  refine grows_current.bind fun op => grows_ite ?_ ?_
  · exact (grows_arguments h).bind fun _ => grows_pure _
  · exact grows_advance.bind fun _ => (h _).bind fun _ => grows_pure _

theorem grows_operations (h : ∀ p, (inner p).Grows) (strength rounds : Nat) (left : Expr) :
    (operations inner strength rounds left).Grows := by
  induction rounds generalizing left with
  | zero => exact grows_pure _
  | succ rounds ih =>
    refine grows_peek.bind fun _ => grows_ite ?_ (grows_pure _)
    exact grows_advance.bind fun _ => (grows_operation h left).bind fun left => ih left

theorem grows_expression (room strength : Nat) :
    (expression room strength : Rule σ Expr).Grows := by
  induction room generalizing strength with
  | zero => exact grows_giveUp _
  | succ room ih =>
    exact (grows_operand ih).bind fun _ => grows_remaining.bind fun _ =>
      grows_operations ih strength _ _

variable {c : Cursor σ}

theorem statements_end (rounds : Nat) (hk : c.current.kind = .eof) :
    statements rounds c = ([], c) := by
  cases rounds with
  | zero => rfl
  | succ rounds => simp [statements, hk]

theorem statements_step (rounds : Nat) (hk : c.current.kind ≠ .eof) :
    statements (rounds + 1) c =
      ((statement (expression maxNesting) c).1.toList ++
          (statements rounds (statement (expression maxNesting) c).2.advance).1,
        (statements rounds (statement (expression maxNesting) c).2.advance).2) := by
  simp [statements, hk]

theorem statements_notesOf (rounds : Nat) (c : Cursor σ) : c.NotesOf (statements rounds c).2 := by
  induction rounds generalizing c with
  | zero => exact Cursor.NotesOf.refl c
  | succ rounds ih =>
    by_cases hk : c.current.kind = .eof
    · rw [statements_end _ hk]
      exact Cursor.NotesOf.refl c
    · rw [statements_step _ hk]
      exact (grows_statement (grows_expression maxNesting) c).trans
        (ih (statement (expression maxNesting) c).2.advance)

end Grammar

end Borealis
