-- What holds of a cursor all along a reading. Rules move the cursor in few
-- ways: they go on, they complain about one of the two tokens in sight, they
-- give up, and after a failure they go on behind it. What these few steps keep
-- is kept by every rule, whether it gives a result or fails.
import Borealis.Proofs.Complaints

namespace Borealis

/-! ## Steps of a cursor -/

namespace Cursor

variable {σ : Type}

@[simp] theorem complain_current (c : Cursor σ) (t : Token) (what : Complaint) :
    (c.complain t what).current = c.current := by
  unfold complain
  split
  · rfl
  · rfl

@[simp] theorem complain_peek (c : Cursor σ) (t : Token) (what : Complaint) :
    (c.complain t what).peek = c.peek := by
  unfold complain
  split
  · rfl
  · rfl

@[simp] theorem complain_source (c : Cursor σ) (t : Token) (what : Complaint) :
    (c.complain t what).source = c.source := by
  unfold complain
  split
  · rfl
  · rfl

/-- What was noted is not seen through the window. -/
theorem Window.congr [TokenSource σ] {c c' : Cursor σ} {s : σ} (h : c.Window s)
    (hc : c'.current = c.current) (hp : c'.peek = c.peek) (hs : c'.source = c.source) :
    c'.Window s := ⟨hc.trans h.current, hp.trans h.peek, hs.trans h.source⟩

end Cursor

/-- What the steps of a reading keep. `good` holds of a cursor as long as rules give results, and
`bad` where a rule failed. Only giving up complains of depth. -/
structure Invariant {σ : Type} [TokenSource σ] (good bad : Cursor σ → Prop) : Prop where
  fails {c : Cursor σ} : good c → bad c
  resumes {c : Cursor σ} : bad c → good c.advance
  here {c : Cursor σ} {what : Complaint} : good c → what ≠ .tooDeep →
    bad (c.complain c.current what)
  ahead {c : Cursor σ} {what : Complaint} : good c → what ≠ .tooDeep →
    bad (c.complain c.peek what)
  abandons {c : Cursor σ} : good c →
    good { c.complain c.current .tooDeep with abandoned := true }

namespace Invariant

variable {σ : Type} [TokenSource σ] {good bad : Cursor σ → Prop} {c : Cursor σ}

theorem advance (h : Invariant good bad) (hc : good c) : good c.advance := h.resumes (h.fails hc)

theorem toEnd (h : Invariant good bad) (n : Nat) (hc : good c) : good (c.toEnd n) := by
  induction n generalizing c with
  | zero => exact hc
  | succ n ih =>
    unfold Cursor.toEnd
    split
    · exact hc
    · exact ih (h.advance hc)

end Invariant

/-! ## Rules -/

namespace Rule

variable {σ α β : Type}

/-- From this cursor the rule comes to a good one with a result, and to a bad one without. -/
def Keeps (good bad : Cursor σ → Prop) (r : Rule σ α) (c : Cursor σ) : Prop :=
  (∀ a c', r c = (some a, c') → good c') ∧ ∀ c', r c = (none, c') → bad c'

variable {good bad : Cursor σ → Prop} {c : Cursor σ}

theorem keeps_pure {a : α} (hc : good c) : (pure a : Rule σ α).Keeps good bad c := by
  refine ⟨fun b c' h => ?_, fun c' h => ?_⟩
  · exact (Prod.mk.inj h).2 ▸ hc
  · exact absurd (Prod.mk.inj h).1 (by simp)

/-- A rule that fails, whatever the cursor is. -/
theorem keeps_failure {r : Rule σ α} (hr : (r c).1 = none) (hc : bad (r c).2) :
    r.Keeps good bad c := by
  refine ⟨fun a c' h => ?_, fun c' h => ?_⟩
  · rw [h] at hr
    exact absurd hr (by simp)
  · rw [h] at hc
    exact hc

/-- Only what the rule does from the cursor counts. -/
theorem Keeps.congr {r s : Rule σ α} {c' : Cursor σ} (h : s.Keeps good bad c') (he : r c = s c') :
    r.Keeps good bad c := by
  unfold Keeps at h ⊢
  rwa [he]

theorem Keeps.bind {r : Rule σ α} {f : α → Rule σ β} (hr : r.Keeps good bad c)
    (hf : ∀ a c', good c' → (f a).Keeps good bad c') : (r >>= f).Keeps good bad c := by
  rcases hrc : r c with ⟨_ | a, c'⟩
  · exact keeps_failure (by rw [bind_of_none hrc]) (by rw [bind_of_none hrc]; exact hr.2 c' hrc)
  · exact (hf a c' (hr.1 a c' hrc)).congr (bind_of_some hrc)

theorem keeps_current {f : Token → Rule σ β} (h : (f c.current).Keeps good bad c) :
    (current >>= f).Keeps good bad c := h

theorem keeps_peek {f : Token → Rule σ β} (h : (f c.peek).Keeps good bad c) :
    (peek >>= f).Keeps good bad c := h

variable [TokenSource σ]

theorem keeps_remaining {f : Nat → Rule σ β} (h : (f c.remaining).Keeps good bad c) :
    (remaining >>= f).Keeps good bad c := h

theorem keeps_fail (h : Invariant good bad) (hc : good c) :
    (fail : Rule σ α).Keeps good bad c := keeps_failure rfl (h.fails hc)

theorem keeps_reject (h : Invariant good bad) {what : Complaint} (hc : good c)
    (hw : what ≠ .tooDeep) : (reject c.current what : Rule σ α).Keeps good bad c :=
  keeps_failure rfl (h.here hc hw)

theorem keeps_giveUp (h : Invariant good bad) (hc : good c) :
    (giveUp .tooDeep : Rule σ α).Keeps good bad c :=
  keeps_failure rfl (h.fails (h.toEnd _ (h.abandons hc)))

theorem keeps_advance (h : Invariant good bad) {f : Unit → Rule σ β} (hc : good c)
    (hf : ∀ c', good c' → (f ()).Keeps good bad c') : (advance >>= f).Keeps good bad c :=
  hf c.advance (h.advance hc)

theorem keeps_expect (h : Invariant good bad) {kind : TokenKind} {f : Token → Rule σ β}
    (hc : good c) (hf : ∀ t c', good c' → (f t).Keeps good bad c') :
    (expect kind >>= f).Keeps good bad c := by
  by_cases hk : c.peek.kind = kind
  · have he : (expect kind : Rule σ Token) c = (some c.peek, c.advance) := by simp [expect, hk]
    exact (hf c.peek c.advance (h.advance hc)).congr (bind_of_some he)
  · have he : (expect kind : Rule σ Token) c =
        (none, c.complain c.peek (.expected kind c.peek.kind)) := by simp [expect, hk]
    have hwhat : Complaint.expected kind c.peek.kind ≠ .tooDeep := by simp
    have hbad := h.ahead hc hwhat
    exact keeps_failure (by rw [bind_of_none he]) (by rw [bind_of_none he]; exact hbad)

theorem keeps_skip (h : Invariant good bad) {kind : TokenKind} {f : Unit → Rule σ β} (hc : good c)
    (hf : ∀ c', good c' → (f ()).Keeps good bad c') : (skip kind >>= f).Keeps good bad c := by
  by_cases hk : c.peek.kind = kind
  · have he : (skip kind : Rule σ Unit) c = (some (), c.advance) := by simp [skip, hk]
    exact (hf c.advance (h.advance hc)).congr (bind_of_some he)
  · have he : (skip kind : Rule σ Unit) c = (some (), c) := by simp [skip, hk]
    exact (hf c hc).congr (bind_of_some he)

/-- Whether a rule gave a result or failed, one token further the cursor is good. -/
theorem Keeps.advance (h : Invariant good bad) {r : Rule σ α} (hr : r.Keeps good bad c) :
    good (r c).2.advance := by
  rcases hrc : r c with ⟨_ | a, c'⟩
  · exact h.resumes (hr.2 c' hrc)
  · exact h.advance (hr.1 a c' hrc)

end Rule

/-! ## The rules of the grammar -/

namespace Grammar

open Rule

variable {σ : Type} [TokenSource σ] {good bad : Cursor σ → Prop} {inner : Inner σ} {c : Cursor σ}

/-- The rule for the expressions inside keeps it. -/
def KeepsInside (good bad : Cursor σ → Prop) (inner : Inner σ) : Prop :=
  ∀ p c, good c → (inner p).Keeps good bad c

theorem keeps_statement (h : Invariant good bad) (hi : KeepsInside good bad inner) (hc : good c) :
    (statement inner).Keeps good bad c := by
  have hvalue : ∀ (s : Expr → Stmt) (c : Cursor σ), good c →
      (inner Binding.lowest >>= fun e => skip .semicolon >>= fun _ => pure (s e)
        : Rule σ Stmt).Keeps good bad c :=
    fun s c hc => (hi _ c hc).bind fun e c hc => keeps_skip h hc fun c hc => keeps_pure hc
  refine keeps_current ?_
  split
  · exact keeps_expect h hc fun name c hc => keeps_expect h hc fun _ c hc =>
      keeps_advance h hc fun c hc => hvalue _ c hc
  · exact keeps_advance h hc fun c hc => hvalue _ c hc
  · exact hvalue _ c hc

theorem keeps_blockStatements (h : Invariant good bad) (hi : KeepsInside good bad inner)
    (rounds : Nat) (hc : good c) : (blockStatements inner rounds).Keeps good bad c := by
  induction rounds generalizing c with
  | zero => exact keeps_fail h hc
  | succ rounds ih =>
    refine keeps_current ?_
    split
    · exact keeps_pure hc
    · exact keeps_reject h hc (by simp)
    · -- A statement may fail here, and the block goes on one token behind it.
      have hnext : good (statement inner c).2.advance := (keeps_statement h hi hc).advance h
      exact (ih hnext).bind fun others c hc => keeps_pure hc

theorem keeps_block (h : Invariant good bad) (hi : KeepsInside good bad inner)
    (hc : good c) : (block inner).Keeps good bad c :=
  keeps_advance h hc fun _ hc => keeps_remaining (keeps_blockStatements h hi _ hc)

theorem keeps_integer (h : Invariant good bad) (hc : good c) :
    (integer : Rule σ Expr).Keeps good bad c := by
  refine keeps_current ?_
  split
  · exact keeps_pure hc
  · exact keeps_reject h hc (by simp)

theorem keeps_unary (h : Invariant good bad) (hi : KeepsInside good bad inner)
    (hc : good c) : (unary inner).Keeps good bad c :=
  keeps_current (keeps_advance h hc fun c hc => (hi _ c hc).bind fun _ _ hc => keeps_pure hc)

theorem keeps_grouped (h : Invariant good bad) (hi : KeepsInside good bad inner)
    (hc : good c) : (grouped inner).Keeps good bad c :=
  keeps_advance h hc fun c hc => (hi _ c hc).bind fun _ _ hc => keeps_expect h hc fun _ _ hc =>
    keeps_pure hc

theorem keeps_alternative (h : Invariant good bad) (hi : KeepsInside good bad inner) (test : Expr)
    (yes : List Stmt) (hc : good c) : (alternative inner test yes).Keeps good bad c := by
  refine keeps_peek ?_
  split
  · exact keeps_advance h hc fun _ hc => keeps_expect h hc fun _ _ hc =>
      (keeps_block h hi hc).bind fun _ _ hc => keeps_pure hc
  · exact keeps_pure hc

theorem keeps_conditional (h : Invariant good bad) (hi : KeepsInside good bad inner) (hc : good c) :
    (conditional inner).Keeps good bad c := by
  rw [conditional_eq]
  exact keeps_expect h hc fun _ _ hc => keeps_advance h hc fun c hc => (hi _ c hc).bind
    fun test _ hc => keeps_expect h hc fun _ _ hc => keeps_expect h hc fun _ _ hc =>
      (keeps_block h hi hc).bind fun yes _ hc => keeps_alternative h hi test yes hc

theorem keeps_moreParameters (h : Invariant good bad) (rounds : Nat) (hc : good c) :
    (moreParameters rounds : Rule σ (List Text)).Keeps good bad c := by
  induction rounds generalizing c with
  | zero => exact keeps_fail h hc
  | succ rounds ih =>
    refine keeps_peek ?_
    split
    · exact keeps_advance h hc fun _ hc => keeps_expect h hc fun _ _ hc =>
        (ih hc).bind fun _ _ hc => keeps_pure hc
    · exact keeps_expect h hc fun _ _ hc => keeps_pure hc

theorem keeps_parameters (h : Invariant good bad) (hc : good c) :
    (parameters : Rule σ (List Text)).Keeps good bad c := by
  refine keeps_peek ?_
  split
  · exact keeps_advance h hc fun _ hc => keeps_pure hc
  · exact keeps_expect h hc fun _ _ hc => keeps_remaining
      ((keeps_moreParameters h _ hc).bind fun _ _ hc => keeps_pure hc)

theorem keeps_function (h : Invariant good bad) (hi : KeepsInside good bad inner)
    (hc : good c) : (function inner).Keeps good bad c :=
  keeps_expect h hc fun _ _ hc => (keeps_parameters h hc).bind fun _ _ hc =>
    keeps_expect h hc fun _ _ hc => (keeps_block h hi hc).bind fun _ _ hc => keeps_pure hc

theorem keeps_operand (h : Invariant good bad) (hi : KeepsInside good bad inner) (hc : good c) :
    (operand inner).Keeps good bad c := by
  refine keeps_current ?_
  split
  · exact keeps_pure hc
  · exact keeps_integer h hc
  · exact keeps_pure hc
  · exact keeps_pure hc
  · exact keeps_unary h hi hc
  · exact keeps_unary h hi hc
  · exact keeps_grouped h hi hc
  · exact keeps_conditional h hi hc
  · exact keeps_function h hi hc
  · exact keeps_reject h hc (by simp)
  · exact keeps_reject h hc (by simp)

theorem keeps_moreArguments (h : Invariant good bad) (hi : KeepsInside good bad inner)
    (rounds : Nat) (hc : good c) : (moreArguments inner rounds).Keeps good bad c := by
  induction rounds generalizing c with
  | zero => exact keeps_fail h hc
  | succ rounds ih =>
    refine keeps_peek ?_
    split
    · exact keeps_advance h hc fun _ hc => keeps_advance h hc fun c hc => (hi _ c hc).bind
        fun _ _ hc => (ih hc).bind fun _ _ hc => keeps_pure hc
    · exact keeps_expect h hc fun _ _ hc => keeps_pure hc

theorem keeps_arguments (h : Invariant good bad) (hi : KeepsInside good bad inner) (hc : good c) :
    (arguments inner).Keeps good bad c := by
  refine keeps_peek ?_
  split
  · exact keeps_advance h hc fun _ hc => keeps_pure hc
  · exact keeps_advance h hc fun c hc => (hi _ c hc).bind fun _ _ hc => keeps_remaining
      ((keeps_moreArguments h hi _ hc).bind fun _ _ hc => keeps_pure hc)

theorem keeps_operation (h : Invariant good bad) (hi : KeepsInside good bad inner) (left : Expr)
    (hc : good c) : (operation inner left).Keeps good bad c := by
  refine keeps_current ?_
  split
  · exact (keeps_arguments h hi hc).bind fun _ _ hc => keeps_pure hc
  · exact keeps_advance h hc fun c hc => (hi _ c hc).bind fun _ _ hc => keeps_pure hc

theorem keeps_operations (h : Invariant good bad) (hi : KeepsInside good bad inner)
    (strength rounds : Nat) (left : Expr) (hc : good c) :
    (operations inner strength rounds left).Keeps good bad c := by
  induction rounds generalizing c left with
  | zero => exact keeps_pure hc
  | succ rounds ih =>
    refine keeps_peek ?_
    split
    · exact keeps_advance h hc fun _ hc => (keeps_operation h hi left hc).bind
        fun left _ hc => ih left hc
    · exact keeps_pure hc

theorem keeps_expression (h : Invariant good bad) (room strength : Nat) (hc : good c) :
    (expression room strength : Rule σ Expr).Keeps good bad c := by
  induction room generalizing c strength with
  | zero => exact keeps_giveUp h hc
  | succ room ih =>
    have hi : KeepsInside good bad (expression room : Inner σ) := fun p _ hc => ih p hc
    exact (keeps_operand h hi hc).bind fun left _ hc => keeps_remaining
      (keeps_operations h hi strength _ left hc)

/-- One statement of a program, and the token behind it. -/
theorem keeps_next (h : Invariant good bad) (hc : good c) :
    good (statement (expression maxNesting) c).2.advance :=
  (keeps_statement h (fun p _ hc => keeps_expression h maxNesting p hc) hc).advance h

/-- What the steps keep holds at the end of a program. -/
theorem keeps_statements (h : Invariant good bad) (rounds : Nat) (hc : good c) :
    good (statements rounds c).2 := by
  induction rounds generalizing c with
  | zero => exact hc
  | succ rounds ih =>
    by_cases hk : c.current.kind = .eof
    · rw [statements_end _ hk]
      exact hc
    · rw [statements_step _ hk]
      exact ih (keeps_next h hc)

end Grammar

/-- What holds of the first cursor and is kept by every step holds of the cursor that a source is
read with, when it comes to the end. -/
theorem Invariant.ofSource {σ : Type} [TokenSource σ] {good bad : Cursor σ → Prop}
    (h : Invariant good bad) {s : σ} (hs : good (Cursor.ofSource s)) :
    ∃ c : Cursor σ, good c ∧ (Program.ofSource s).diagnostics = c.diagnostics.toList :=
  ⟨(Grammar.statements (Cursor.ofSource s).remaining (Cursor.ofSource s)).2,
    Grammar.keeps_statements h _ hs, rfl⟩

end Borealis
