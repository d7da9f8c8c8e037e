-- The nesting limit, statement by statement. A program in compact form is read
-- up to the first statement that nests deeper than the grammar allows. Those
-- before it are kept as they were, and it is all that is complained about.
import Borealis.Proofs.CompactForm
import Borealis.Proofs.DiagnosticOrder

namespace Borealis

/-- Whether the compact form of a statement nests no deeper than the grammar allows. -/
def Stmt.fits (s : Stmt) : Bool := s.levels ≤ maxNesting

theorem Stmt.fits_iff (s : Stmt) : s.fits = true ↔ s.levels ≤ maxNesting := decide_eq_true_iff

/-! ## Rows of statements -/

/-- The words are statements one after the other, each with the levels of its compact form. -/
inductive Rows : List Word → List Stmt → Prop where
  | nil : Rows [] []
  | cons {ws us vs : List Word} {s : Stmt} {ss : List Stmt} :
      Derives .firm .statement ws s s.levels → Grammar.Follows us vs → Rows vs ss →
      Rows (ws ++ us) (s :: ss)

namespace Grammar

variable {σ : Type} [TokenSource σ] {c : Cursor σ}

/-- Of the statements those before the first one that nests too deeply were read. If there is such
a one, then the only complaint is about that. -/
structure CutOff (c : Cursor σ) (ss : List Stmt) (out : List Stmt × Cursor σ) : Prop where
  kept : out.1 = ss.takeWhile Stmt.fits
  quiet : ss.all Stmt.fits = true → out.2.diagnostics = c.diagnostics
  noted : ss.all Stmt.fits = false → ∃ t : Token,
    out.2.diagnostics = c.diagnostics.push ⟨.tooDeep, t.pos, t.kind⟩

theorem cutOff_nil (rounds : Nat) (hs : c.Sees []) : CutOff c [] (statements rounds c) := by
  rw [statements_end rounds hs.kind]
  exact ⟨rfl, fun _ => rfl, fun h => absurd h (by simp)⟩

/-- A statement within the limit is kept, and reading goes on behind it. Any other one ends the
reading. -/
theorem cutOff_cons {ws us vs : List Word} {s : Stmt} {ss : List Stmt}
    (h : Derives .firm .statement ws s s.levels) (hu : Follows us vs) (rounds : Nat)
    (hm : ∀ c : Cursor σ, c.Sees vs → c.abandoned = false → CutOff c ss (statements rounds c))
    (hs : c.Sees (ws ++ us)) (hc : c.abandoned = false) :
    CutOff c (s :: ss) (statements (rounds + 1) c) := by
  have hstop := hu.stops [] (Or.inl rfl)
  have hafter := hu.after [] (Or.inl rfl)
  rw [List.append_nil] at hstop hafter
  have hfirst := complete h maxNesting us c hstop hs hc
  rw [hafter, List.append_nil] at hfirst
  have hk : c.current.kind ≠ .eof := by
    obtain ⟨w, ws, rfl⟩ := List.exists_cons_of_ne_nil (h.full trivial).1
    rw [hs.kind]
    exact hs.ne_eof
  rw [statements_step rounds hk]
  by_cases hfits : s.levels ≤ maxNesting
  · have hyes : s.fits = true := s.fits_iff.mpr hfits
    obtain ⟨c1, hrun, hq, hb⟩ := hfirst.read hfits
    have hrest := hm c1.advance hb.advance hq.abandoned
    rw [hrun]
    refine ⟨?_, fun hall => ?_, fun hall => ?_⟩
    · rw [hrest.kept, List.takeWhile_cons_of_pos hyes]
      rfl
    · rw [List.all_cons, hyes, Bool.true_and] at hall
      exact (hrest.quiet hall).trans hq.diagnostics
    · rw [List.all_cons, hyes, Bool.true_and] at hall
      obtain ⟨t, hdiag⟩ := hrest.noted hall
      exact ⟨t, by rw [hdiag, hq.advance.diagnostics]⟩
  · have hno : s.fits = false := by simpa [Stmt.fits] using hfits
    obtain ⟨c1, t, hrun, hs1, -, hdiag⟩ := hfirst.gaveUp hfits
    rw [hrun, statements_end rounds hs1.tail.advance.kind]
    refine ⟨?_, fun hall => ?_, fun _ => ⟨t, hdiag⟩⟩
    · rw [List.takeWhile_cons_of_neg (by simp [hno])]
      rfl
    · rw [List.all_cons, hno, Bool.false_and] at hall
      exact absurd hall Bool.false_ne_true

theorem cutOff_of_rows {ws : List Word} {ss : List Stmt} (h : Rows ws ss) (rounds : Nat)
    (hs : c.Sees ws) (hc : c.abandoned = false) (hn : ws.length < rounds) :
    CutOff c ss (statements rounds c) := by
  induction h generalizing c rounds with
  | nil => exact cutOff_nil rounds hs
  | @cons ws us vs s ss hd hu _ ih =>
    obtain ⟨rounds, rfl⟩ := Nat.exists_eq_succ_of_ne_zero (Nat.ne_zero_of_lt hn)
    have hpos : 0 < ws.length := List.length_pos_iff.mpr (hd.full trivial).1
    have hle := hu.length_le
    rw [List.length_append] at hn
    exact cutOff_cons hd hu rounds (fun c hs hc => ih rounds hs hc (by omega)) hs hc

end Grammar

/-- A source with a row of statements is read up to the first one that nests too deeply. -/
theorem ofSource_of_rows {σ : Type} [TokenSource σ] {s : σ} {ts : List Token} {ss : List Stmt}
    (hg : TokenSource.Gives s ts) (h : Rows (ts.map Token.word) ss) :
    (ss.all Stmt.fits = true → Program.ofSource s = ⟨⟨ss⟩, []⟩) ∧
    (ss.all Stmt.fits = false → ∃ t : Token,
      Program.ofSource s = ⟨⟨ss.takeWhile Stmt.fits⟩, [⟨.tooDeep, t.pos, t.kind⟩]⟩) := by
  have hs := Cursor.Sees.ofSource hg
  obtain ⟨hkept, hquiet, hnoted⟩ := Grammar.cutOff_of_rows h _ hs rfl hs.length_lt
  refine ⟨fun hall => ?_, fun hall => ?_⟩
  · rw [List.takeWhile_eq_self_iff.mpr (List.all_eq_true.mp hall)] at hkept
    unfold Program.ofSource
    simp only [hkept, hquiet hall]
    rfl
  · obtain ⟨t, hdiag⟩ := hnoted hall
    refine ⟨t, ?_⟩
    unfold Program.ofSource
    simp only [hkept, hdiag]
    rfl

/-! ## Compact forms -/

/-- The compact form of statements is a row of them, with a semicolon behind each but the last. -/
theorem Stmt.AllWritable.rows {ss : List Stmt} (h : Stmt.AllWritable ss) :
    ∃ ws, Scans (Stmt.compactList ss) ws [] ∧ Rows ws ss := by
  induction ss with
  | nil => exact ⟨[], .done [], .nil⟩
  | cons s ss ih =>
    obtain ⟨hs, hss⟩ := h
    cases ss with
    | nil =>
      obtain ⟨ws, hws, hd⟩ := hs.writes [] (by simp [Ends])
      have hlast : Grammar.Follows [] [] := Grammar.follows_opened (Nat.le_refl 1) (Or.inl rfl)
      have hrow := Rows.cons hd hlast .nil
      rw [List.append_nil] at hws hrow
      exact ⟨ws, hws, hrow⟩
    | cons x ss =>
      obtain ⟨vs, hvs, hrows⟩ := ih hss
      have e : ("; " : Text) = TokenKind.semicolon.name ++ " " := by decide
      have hmore := hvs.space.mark (k := .semicolon) (by decide) (by decide)
      rw [← List.append_assoc, ← e] at hmore
      obtain ⟨ws, hws, hd⟩ := hs.writes ("; " ++ Stmt.compactList (x :: ss))
        (ends_append _ (by decide))
      refine ⟨ws ++ sign .semicolon :: vs, ?_, .cons hd (Grammar.follows_closed rfl vs) hrows⟩
      have hl : Stmt.compactList (s :: x :: ss) = s.compact ++ "; " ++ Stmt.compactList (x :: ss) :=
        rfl
      rw [hl, List.append_assoc]
      exact hws.append hmore

/-- The compact form of a program whose tree can be written down is read with the same tree, if
each of its statements is within the limit. Otherwise the program that is read has just the
statements before the first one that is not, and the only complaint is about depth, at a token of
the text. -/
theorem a_compact_form_is_read_up_to_the_limit (p : Program) (h : Stmt.AllWritable p.statements) :
    ((∀ s ∈ p.statements, s.levels ≤ maxNesting) → Program.ofText p.compact = ⟨p, []⟩) ∧
    (¬ (∀ s ∈ p.statements, s.levels ≤ maxNesting) → ∃ token ∈ lex p.compact,
      Program.ofText p.compact =
        ⟨⟨p.statements.takeWhile fun s => s.levels ≤ maxNesting⟩,
          [⟨.tooDeep, token.pos, token.kind⟩]⟩) := by
  obtain ⟨ws, hscans, hrows⟩ := h.rows
  obtain ⟨ts, hgives, rfl⟩ := Lexer.gives_of_scans hscans rfl Position.start
  obtain ⟨hread, hcut⟩ := ofSource_of_rows hgives hrows
  have hall : p.statements.all Stmt.fits = true ↔ ∀ s ∈ p.statements, s.levels ≤ maxNesting := by
    simp only [List.all_eq_true, Stmt.fits_iff]
  refine ⟨fun hfits => hread (hall.mpr hfits), fun hfits => ?_⟩
  rw [← hall, Bool.not_eq_true] at hfits
  obtain ⟨t, ht⟩ := hcut hfits
  replace ht : Program.ofText p.compact =
      ⟨⟨p.statements.takeWhile Stmt.fits⟩, [⟨.tooDeep, t.pos, t.kind⟩]⟩ := ht
  obtain ⟨_, horderly⟩ := orderly_ofText p.compact
  rw [ht] at horderly
  obtain ⟨token, htoken, hpos, hkind⟩ := horderly.real _ (List.mem_singleton_self _)
  refine ⟨token, htoken, ?_⟩
  rw [← hpos, ← hkind]
  exact ht

/-! ## At the limit -/

theorem levels_ones (n : Nat) : (onesTree (n + 1)).levels = n + 3 := by
  induction n with
  | zero => rfl
  | succ n ih =>
    rw [onesTree, Expr.levels, ih]
    simp [Expr.levels]

/-- A sum of ones between two other statements. -/
def sumBetween (n : Nat) : Program :=
  ⟨[.bind (some "a") (.int 1), .expr (onesTree n), .ret (.ident "a")]⟩

theorem writable_sumBetween (n : Nat) : Stmt.AllWritable (sumBetween n).statements := by
  refine ⟨⟨⟨by decide, by decide⟩, ?_⟩, writable_ones n, ⟨by decide, by decide⟩, trivial⟩
  exact (by decide : 0 ≤ (1 : Int64).toInt)

/-- Nine hundred and ninety-eight plus signs are within the limit, and one more is not. -/
theorem sumBetween_is_read_up_to_the_limit :
    Program.ofText (sumBetween 998).compact = ⟨sumBetween 998, []⟩ ∧
    ∃ token ∈ lex (sumBetween 999).compact, Program.ofText (sumBetween 999).compact =
      ⟨⟨[.bind (some "a") (.int 1)]⟩, [⟨.tooDeep, token.pos, token.kind⟩]⟩ := by
  have hwithin : (onesTree 998).levels = 1000 := levels_ones 997
  have hbeyond : (onesTree 999).levels = 1001 := levels_ones 998
  have hread := a_compact_form_is_read_up_to_the_limit _ (writable_sumBetween 998)
  have hcut := a_compact_form_is_read_up_to_the_limit _ (writable_sumBetween 999)
  have hkept : (sumBetween 999).statements.takeWhile (fun s => s.levels ≤ maxNesting) =
      [.bind (some "a") (.int 1)] := by
    simp [sumBetween, Stmt.levels, Expr.levels, hbeyond, maxNesting]
  rw [hkept] at hcut
  refine ⟨hread.1 ?_, hcut.2 ?_⟩
  · simp [sumBetween, Stmt.levels, Expr.levels, hwithin, maxNesting]
  · simp [sumBetween, Stmt.levels, Expr.levels, hbeyond, maxNesting]

end Borealis
