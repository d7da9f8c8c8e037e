-- What follows the grammar is read, as far as its expressions do not nest too
-- deeply. A phrase with firm seams is read to its end with its own tree; if
-- it nests deeper than there is room for, reading is given up with one
-- complaint, about the nesting, and nothing else is said.
import Borealis.Proofs.Complaints
import Borealis.Proofs.Derivation

namespace Borealis

namespace Grammar

open Rule

variable {σ α β : Type}

theorem bind_current {c : Cursor σ} (f : Token → Rule σ β) :
    (current >>= f) c = f c.current c := rfl

theorem bind_peek {c : Cursor σ} (f : Token → Rule σ β) : (peek >>= f) c = f c.peek c := rfl

/-! ## Two ways to end -/

/-- Nothing was noted on the way from one cursor to the other. -/
structure Quiet (c c' : Cursor σ) : Prop where
  diagnostics : c'.diagnostics = c.diagnostics
  abandoned : c'.abandoned = false

theorem Quiet.trans {c c' c'' : Cursor σ} (h : Quiet c c') (h' : Quiet c' c'') : Quiet c c'' :=
  ⟨h'.diagnostics.trans h.diagnostics, h'.abandoned⟩

variable [TokenSource σ]

/-- A rule gave this result without a complaint and left these words behind its cursor. -/
def Read (c : Cursor σ) (out : Option α × Cursor σ) (a : α) (rest : List Word) : Prop :=
  ∃ c', out = (some a, c') ∧ Quiet c c' ∧ c'.Behind rest

/-- Reading was given up: the only complaint is that expressions nest too deeply. -/
def GaveUp (c : Cursor σ) (out : Option α × Cursor σ) : Prop :=
  ∃ c' t, out = (none, c') ∧ c'.Sees [] ∧ c'.abandoned = true ∧
    c'.diagnostics = c.diagnostics.push ⟨.tooDeep, Token.pos t, t.kind⟩

/-- A rule reads if there is room, and gives up if there is none. -/
structure Meets (fits : Prop) (c : Cursor σ) (out : Option α × Cursor σ) (a : α)
    (rest : List Word) : Prop where
  read : fits → Read c out a rest
  gaveUp : ¬ fits → GaveUp c out

theorem Quiet.advance {c c' : Cursor σ} (h : Quiet c c') : Quiet c c'.advance :=
  ⟨h.diagnostics, h.abandoned⟩

theorem GaveUp.of_quiet {c c' : Cursor σ} {out : Option α × Cursor σ} (hq : Quiet c c')
    (h : GaveUp c' out) : GaveUp c out := by
  obtain ⟨c'', t, ho, hs, ha, hd⟩ := h
  exact ⟨c'', t, ho, hs, ha, by rw [hd, hq.diagnostics]⟩

theorem GaveUp.bind {c : Cursor σ} {r : Rule σ α} {f : α → Rule σ β} (h : GaveUp c (r c)) :
    GaveUp c ((r >>= f) c) := by
  obtain ⟨c', t, ho, h⟩ := h
  exact ⟨c', t, bind_of_none ho, h⟩

namespace Meets

variable {p q : Prop} {c : Cursor σ} {out : Option α × Cursor σ} {a : α} {rest : List Word}

theorem of_quiet {c' : Cursor σ} (hq : Quiet c c') (h : Meets p c' out a rest) :
    Meets p c out a rest := by
  refine ⟨fun hp => ?_, fun hp => (h.gaveUp hp).of_quiet hq⟩
  obtain ⟨c'', ho, hq', hb⟩ := h.read hp
  exact ⟨c'', ho, hq.trans hq', hb⟩

theorem of_advance (hc : c.abandoned = false) (h : Meets p c.advance out a rest) :
    Meets p c out a rest := h.of_quiet (Quiet.advance ⟨rfl, hc⟩)

theorem congr (h : Meets p c out a rest) (hpq : p ↔ q) : Meets q c out a rest :=
  ⟨fun hq => h.read (hpq.mpr hq), fun hq => h.gaveUp fun hp => hq (hpq.mp hp)⟩

theorem of_read (h : Read c out a rest) (hp : p) : Meets p c out a rest :=
  ⟨fun _ => h, fun hn => absurd hp hn⟩

/-- One rule after the other needs the room of both. -/
theorem bind {r : Rule σ α} {f : α → Rule σ β} {b : β} {rest' : List Word}
    (hr : Meets p c (r c) a rest)
    (hf : ∀ c', Quiet c c' → c'.Behind rest → Meets q c' (f a c') b rest') :
    Meets (p ∧ q) c ((r >>= f) c) b rest' := by
  by_cases hp : p
  · obtain ⟨c', ho, hq, hb⟩ := hr.read hp
    rw [bind_of_some ho]
    exact ((hf c' hq hb).of_quiet hq).congr (by simp [hp])
  · exact ⟨fun h => absurd h.1 hp, fun _ => (hr.gaveUp hp).bind⟩

/-- One rule, and then one that always reads. -/
theorem bind_read {r : Rule σ α} {f : α → Rule σ β} {b : β} {rest' : List Word}
    (hr : Meets p c (r c) a rest)
    (hf : ∀ c', Quiet c c' → c'.Behind rest → Read c' (f a c') b rest') :
    Meets p c ((r >>= f) c) b rest' :=
  (hr.bind fun c' hq hb => of_read (hf c' hq hb) trivial).congr (iff_of_eq (and_true p))

end Meets

/-! ## Single steps -/

variable {c : Cursor σ} {rest : List Word}

theorem bind_advance (f : Unit → Rule σ β) : (advance >>= f) c = f () c.advance := rfl

theorem bind_remaining (f : Nat → Rule σ β) : (remaining >>= f) c = f c.remaining c := rfl

theorem bind_expect {kind : TokenKind} {f : Token → Rule σ β} (h : c.peek.kind = kind) :
    (expect kind >>= f) c = f c.peek c.advance := by
  have he : (expect kind : Rule σ Token) c = (some c.peek, c.advance) := by simp [expect, h]
  exact bind_of_some he

/-- The words behind an optional semicolon. -/
def afterSemicolon : List Word → List Word
  | [] => []
  | w :: ws => if w.kind = .semicolon then ws else w :: ws

theorem read_terminator (s : Stmt) (hb : c.Behind rest) (hc : c.abandoned = false) :
    Read c ((skip .semicolon >>= fun _ => pure s : Rule σ Stmt) c) s (afterSemicolon rest) := by
  by_cases hk : c.peek.kind = .semicolon
  · have he : (skip .semicolon : Rule σ Unit) c = (some (), c.advance) := by simp [skip, hk]
    obtain ⟨vs, rfl⟩ := hb.exists_cons hk (by decide)
    have ha : afterSemicolon (c.peek.word :: vs) = vs := by simp [afterSemicolon, hk]
    rw [bind_of_some he, ha]
    exact ⟨c.advance, rfl, ⟨rfl, hc⟩, hb.advance.behind⟩
  · have he : (skip .semicolon : Rule σ Unit) c = (some (), c) := by simp [skip, hk]
    have ha : afterSemicolon rest = rest := by
      cases rest with
      | nil => rfl
      | cons w ws =>
        rw [hb.kind] at hk
        exact if_neg hk
    rw [bind_of_some he, ha]
    exact ⟨c, rfl, ⟨rfl, hc⟩, hb⟩

theorem operations_stop {inner : Inner σ} {p : Nat} (rounds : Nat) {left : Expr}
    (h : c.peek.kind.binding ≤ p) : operations inner p rounds left c = (some left, c) := by
  cases rounds with
  | zero => rfl
  | succ rounds =>
    show (if p < c.peek.kind.binding then _ else _ : Rule σ Expr) c = _
    rw [if_neg (Nat.not_lt.mpr h)]
    rfl

theorem operations_step {inner : Inner σ} {p rounds : Nat} {left : Expr}
    (h : p < c.peek.kind.binding) :
    operations inner p (rounds + 1) left c =
      (operation inner left >>= fun left => operations inner p rounds left) c.advance := by
  show (if p < c.peek.kind.binding then _ else _ : Rule σ Expr) c = _
  rw [if_pos h]
  rfl

theorem gaveUp_expression_zero {ws : List Word} (p : Nat) (hs : c.Sees ws)
    (hc : c.abandoned = false) : GaveUp c ((expression 0 p : Rule σ Expr) c) := by
  obtain ⟨h1, h2, h3⟩ := hs.abandon .tooDeep hc
  exact ⟨_, c.current, rfl, h1, h2, h3⟩

/-! ## Phrases that are read -/

/-- A word of this kind behind an expression of a layer is no part of it. -/
structure Stops (layer : Nat) (k : TokenKind) : Prop where
  binding_le : k.binding ≤ layer
  ne_else : k ≠ .elseWord

theorem Stops.mono {layer layer' : Nat} {k : TokenKind} (h : Stops layer k)
    (hl : layer ≤ layer') : Stops layer' k := ⟨Nat.le_trans h.binding_le hl, h.ne_else⟩

/-- The rule for a phrase reads its words, if there is room for its levels, and gives its tree.

An expression of a layer is read by a rule of a lower strength up to the loop over operators,
which goes on behind it with its tree on the left: the words behind may belong to it. -/
def Complete (σ : Type) [TokenSource σ] : (n : Phrase) → List Word → n.Tree → Nat → Prop
  | .expr layer, ws, e, d => 0 < d ∧ ∀ (room p : Nat) (rest : List Word) (c : Cursor σ),
      p ≤ 6 → (layer < 6 → p < layer) → Stops layer (front rest) → c.Sees (ws ++ rest) →
      c.abandoned = false →
      (d ≤ room + 1 → ∃ c' rounds, Quiet c c' ∧ c'.Behind rest ∧ rest.length < rounds ∧
        expression (room + 1) p c = operations (expression room) p rounds e c') ∧
      (¬ d ≤ room + 1 → GaveUp c (expression (room + 1) p c))
  | .arguments, ws, es, d => ∀ (room : Nat) (z : Word) (rest : List Word) (c : Cursor σ),
      z.kind = .rightParen → c.Behind (ws ++ z :: rest) → c.abandoned = false →
      Meets (d ≤ room) c (arguments (expression room) c) es rest
  | .moreArguments, ws, es, d =>
      ∀ (room rounds : Nat) (z : Word) (rest : List Word) (c : Cursor σ),
      z.kind = .rightParen → c.Behind (ws ++ z :: rest) → c.abandoned = false →
      ws.length < rounds → Meets (d ≤ room) c (moreArguments (expression room) rounds c) es rest
  | .statement, ws, s, d => ∀ (room : Nat) (rest : List Word) (c : Cursor σ),
      Stops Binding.lowest (front rest) → c.Sees (ws ++ rest) → c.abandoned = false →
      Meets (d ≤ room) c (statement (expression room) c) s (afterSemicolon rest)
  | .statements, ws, ss, d =>
      (∀ (room rounds : Nat) (z : Word) (rest : List Word) (c : Cursor σ),
        z.kind = .rightBrace → c.Sees (ws ++ z :: rest) → c.abandoned = false →
        ws.length < rounds →
        Meets (d ≤ room) c (blockStatements (expression room) rounds c) ss rest) ∧
      ∀ (rounds : Nat) (c : Cursor σ), c.Sees ws → c.abandoned = false → ws.length < rounds →
        (d ≤ maxNesting → (statements rounds c).1 = ss ∧
          (statements rounds c).2.diagnostics = c.diagnostics) ∧
        (¬ d ≤ maxNesting → ∃ t : Token, (statements rounds c).2.diagnostics =
          c.diagnostics.push ⟨.tooDeep, t.pos, t.kind⟩)

/-- Behind an expression that cannot go on, the rule has read it. -/
theorem Complete.expression {layer : Nat} {ws : List Word} {e : Expr} {d : Nat}
    (h : Complete σ (.expr layer) ws e d) (room p : Nat) (hp : p ≤ 6) (hl : layer < 6 → p < layer)
    (hf : Stops layer (front rest)) (hf' : (front rest).binding ≤ p)
    (hs : c.Sees (ws ++ rest)) (hc : c.abandoned = false) :
    Meets (d ≤ room) c (Grammar.expression room p c) e rest := by
  obtain ⟨hd, h⟩ := h
  cases room with
  | zero => exact ⟨fun hle => by omega, fun _ => gaveUp_expression_zero p hs hc⟩
  | succ room =>
    obtain ⟨hread, hgave⟩ := h room p rest c hp hl hf hs hc
    refine ⟨fun hle => ?_, hgave⟩
    obtain ⟨c', rounds, hq, hb, -, heq⟩ := hread hle
    rw [← hb.kind] at hf'
    exact ⟨c', heq.trans (operations_stop rounds hf'), hq, hb⟩

/-- The expressions of statements, groups and arguments. -/
theorem Complete.lowest {ws : List Word} {e : Expr} {d : Nat} (h : Complete σ (.expr 2) ws e d)
    (room : Nat) (hf : Stops Binding.lowest (front rest)) (hs : c.Sees (ws ++ rest))
    (hc : c.abandoned = false) :
    Meets (d ≤ room) c (Grammar.expression room Binding.lowest c) e rest :=
  h.expression room 1 (by decide) (fun _ => by decide) (hf.mono (by decide)) hf.binding_le hs hc

/-- What is read as an operand is read as an expression. -/
theorem complete_of_operand {layer : Nat} {ws : List Word} {e : Expr} {d : Nat} (hd : 0 < d)
    (h : ∀ (room : Nat) (rest : List Word) (c : Cursor σ), Stops layer (front rest) →
      c.Sees (ws ++ rest) → c.abandoned = false →
      Meets (d ≤ room + 1) c (operand (expression room) c) e rest) :
    Complete σ (.expr layer) ws e d := by
  refine ⟨hd, fun room p rest c _ _ hf hs hc => ⟨fun hle => ?_, fun hle => ?_⟩⟩
  · obtain ⟨c', ho, hq, hb⟩ := (h room rest c hf hs hc).read hle
    exact ⟨c', c'.remaining, hq, hb, hb.length_lt, bind_of_some ho⟩
  · exact ((h room rest c hf hs hc).gaveUp hle).bind

theorem complete_atom {w : Word} {e : Expr}
    (h : ∀ (room : Nat) (c : Cursor σ), c.current.word = w →
      operand (expression room) c = (some e, c)) : Complete σ (.expr 8) [w] e 1 := by
  refine complete_of_operand Nat.one_pos fun room rest c _ hs hc => ?_
  exact Meets.of_read ⟨c, h room c hs.word, ⟨rfl, hc⟩, hs.behind⟩ (by omega)

/-! ## Atoms -/

theorem complete_ident {w : Word} (hk : w.kind = .ident) :
    Complete σ (.expr 8) [w] (.ident w.literal) 1 := by
  refine complete_atom fun room c hw => ?_
  subst hw
  rw [Token.word_kind] at hk
  simp only [operand, bind_current, hk]
  rfl

theorem complete_int {w : Word} {v : Int64} (hk : w.kind = .int)
    (hv : w.literal.toInt64 = .ok v) : Complete σ (.expr 8) [w] (.int v) 1 := by
  refine complete_atom fun room c hw => ?_
  subst hw
  rw [Token.word_kind] at hk
  rw [Token.word_literal] at hv
  simp only [operand, integer, bind_current, hk, hv]
  rfl

theorem complete_yes {w : Word} (hk : w.kind = .trueWord) :
    Complete σ (.expr 8) [w] (.bool true) 1 := by
  refine complete_atom fun room c hw => ?_
  subst hw
  rw [Token.word_kind] at hk
  simp only [operand, bind_current, hk]
  rfl

theorem complete_no {w : Word} (hk : w.kind = .falseWord) :
    Complete σ (.expr 8) [w] (.bool false) 1 := by
  refine complete_atom fun room c hw => ?_
  subst hw
  rw [Token.word_kind] at hk
  simp only [operand, bind_current, hk]
  rfl

/-- A closing word ends every expression before it. -/
theorem stops_rightParen {z : Word} (hz : z.kind = .rightParen) (rest : List Word) :
    Stops Binding.lowest (front (z :: rest)) := by
  rw [front_cons, hz]
  exact ⟨by decide, by decide⟩

theorem complete_group {l r : Word} {ws : List Word} {e : Expr} {d : Nat}
    (hl : l.kind = .leftParen) (h : Complete σ (.expr 2) ws e d) (hr : r.kind = .rightParen) :
    Complete σ (.expr 8) (l :: ws ++ [r]) e (d + 1) := by
  refine complete_of_operand (Nat.succ_pos d) fun room rest c _ hs hc => ?_
  simp only [List.cons_append, List.append_assoc, List.nil_append] at hs
  have hk : c.current.kind = .leftParen := hs.kind.trans hl
  simp only [operand, grouped, bind_current, hk, bind_advance]
  have he := h.lowest room (stops_rightParen hr rest) hs.behind.advance hc
  refine ((he.bind_read fun c' hq hb => ?_).of_advance hc).congr Nat.succ_le_succ_iff.symm
  have hp : c'.peek.kind = .rightParen := hb.kind.trans hr
  rw [bind_expect hp]
  exact ⟨_, rfl, ⟨rfl, hq.abandoned⟩, hb.advance.behind⟩

theorem complete_block {ys : List Word} {body : List Stmt} {m : Nat} {z : Word}
    (h : Complete σ .statements ys body m) (hz : z.kind = .rightBrace) (room : Nat)
    (hb : c.Behind (ys ++ z :: rest)) (hc : c.abandoned = false) :
    Meets (m ≤ room) c (block (expression room) c) body rest := by
  have hlt := hb.advance.length_lt
  simp only [List.length_append] at hlt
  have hm := h.1 room c.advance.remaining z rest c.advance hz hb.advance hc (by omega)
  exact hm.of_advance hc

/-- A condition is read up to the end of its first block, and then what is behind it. -/
theorem meets_conditional {i l r b z : Word} {ts ys rest' : List Word} {test e : Expr}
    {yes : List Stmt} {d m room : Nat} {q : Prop} (hl : l.kind = .leftParen)
    (ht : Complete σ (.expr 2) ts test d) (hr : r.kind = .rightParen) (hbr : b.kind = .leftBrace)
    (hy : Complete σ .statements ys yes m) (hz : z.kind = .rightBrace)
    (hs : c.Sees (i :: l :: (ts ++ r :: b :: (ys ++ z :: rest')))) (hc : c.abandoned = false)
    (htail : ∀ c' : Cursor σ, c'.abandoned = false → c'.Behind rest' →
      Meets q c' (alternative (expression room) test yes c') e rest) :
    Meets (d ≤ room ∧ m ≤ room ∧ q) c (conditional (expression room) c) e rest := by
  have hkl : c.peek.kind = .leftParen := hs.behind.kind.trans hl
  have hs1 := hs.behind.advance.behind.advance
  have htest := ht.lowest room (stops_rightParen hr _) hs1 hc
  simp only [conditional_eq, bind_expect hkl, bind_advance]
  refine Meets.of_advance hc (Meets.of_advance hc (htest.bind fun c1 hq hb => ?_))
  have hkr : c1.peek.kind = .rightParen := hb.kind.trans hr
  have hb1 := hb.advance.behind
  have hkb : c1.advance.peek.kind = .leftBrace := hb1.kind.trans hbr
  have hyes := complete_block hy hz room hb1.advance.behind hq.abandoned
  rw [bind_expect hkr, bind_expect hkb]
  refine Meets.of_advance hq.abandoned (Meets.of_advance hq.abandoned ?_)
  exact hyes.bind fun c2 hq2 hb2 => htail c2 hq2.abandoned hb2

theorem complete_ifThen {i l r b z : Word} {ts ys : List Word} {test : Expr} {yes : List Stmt}
    {d m : Nat} (hi : i.kind = .ifWord) (hl : l.kind = .leftParen)
    (ht : Complete σ (.expr 2) ts test d) (hr : r.kind = .rightParen) (hbr : b.kind = .leftBrace)
    (hy : Complete σ .statements ys yes m) (hz : z.kind = .rightBrace) :
    Complete σ (.expr 8) (i :: l :: ts ++ r :: b :: ys ++ [z]) (.ifThen test yes)
      (max d m + 1) := by
  refine complete_of_operand (Nat.succ_pos _) fun room rest c hstop hs hc => ?_
  simp only [List.cons_append, List.append_assoc, List.nil_append] at hs
  have hk : c.current.kind = .ifWord := hs.kind.trans hi
  simp only [operand, bind_current, hk]
  refine Meets.congr (meets_conditional (q := True) hl ht hr hbr hy hz hs hc
    fun c' hc' hb => ?_) (by rw [and_true]; omega)
  have hne : c'.peek.kind ≠ .elseWord := by
    rw [hb.kind]
    exact hstop.ne_else
  rw [alternative, bind_peek, if_neg hne]
  exact Meets.of_read ⟨c', rfl, ⟨rfl, hc'⟩, hb⟩ trivial

theorem complete_ifElse {i l r b z o q y : Word} {ts ys ns : List Word} {test : Expr}
    {yes no : List Stmt} {d m k : Nat} (hi : i.kind = .ifWord) (hl : l.kind = .leftParen)
    (ht : Complete σ (.expr 2) ts test d) (hr : r.kind = .rightParen) (hbr : b.kind = .leftBrace)
    (hy : Complete σ .statements ys yes m) (hz : z.kind = .rightBrace) (ho : o.kind = .elseWord)
    (hq : q.kind = .leftBrace) (hn : Complete σ .statements ns no k) (hy' : y.kind = .rightBrace) :
    Complete σ (.expr 8) (i :: l :: ts ++ r :: b :: ys ++ z :: o :: q :: ns ++ [y])
      (.ifElse test yes no) (max d (max m k) + 1) := by
  refine complete_of_operand (Nat.succ_pos _) fun room rest c _ hs hc => ?_
  simp only [List.cons_append, List.append_assoc, List.nil_append] at hs
  have hk : c.current.kind = .ifWord := hs.kind.trans hi
  simp only [operand, bind_current, hk]
  refine Meets.congr (meets_conditional (q := k ≤ room) hl ht hr hbr hy hz hs hc
    fun c' hc' hb => ?_) (by omega)
  have hke : c'.peek.kind = .elseWord := hb.kind.trans ho
  have hb1 := hb.advance.behind
  have hkb : c'.advance.peek.kind = .leftBrace := hb1.kind.trans hq
  have hno := complete_block hn hy' room hb1.advance.behind hc'
  rw [alternative, bind_peek, if_pos hke, bind_advance, bind_expect hkb]
  refine Meets.of_advance hc' (Meets.of_advance hc' ?_)
  exact hno.bind_read fun c2 hq2 hb2 => ⟨c2, rfl, ⟨rfl, hq2.abandoned⟩, hb2⟩

theorem read_moreParameters {xs : List Word} {names : List Text} (h : MoreParameters xs names)
    {z : Word} (hz : z.kind = .rightParen) (rounds : Nat) (hb : c.Behind (xs ++ z :: rest))
    (hc : c.abandoned = false) (hn : xs.length < rounds) :
    Read c ((moreParameters rounds : Rule σ (List Text)) c) names rest := by
  induction h generalizing c rounds with
  | last =>
    obtain ⟨rounds, rfl⟩ := Nat.exists_eq_succ_of_ne_zero (Nat.pos_iff_ne_zero.mp hn)
    have hk : c.peek.kind = .rightParen := hb.kind.trans hz
    have hne : c.peek.kind ≠ .comma := by
      rw [hk]
      decide
    simp only [moreParameters, bind_peek, if_neg hne, bind_expect hk]
    exact ⟨_, rfl, ⟨rfl, hc⟩, hb.advance.behind⟩
  | next hk hi _ ih =>
    rw [List.cons_append, List.cons_append] at hb
    obtain ⟨rounds, rfl⟩ := Nat.exists_eq_succ_of_ne_zero (Nat.ne_zero_of_lt hn)
    simp only [List.length_cons] at hn
    have hb1 := hb.advance.behind
    have hkc : c.peek.kind = .comma := hb.kind.trans hk
    have hki : c.advance.peek.kind = .ident := hb1.kind.trans hi
    obtain ⟨c', hrun, hq, hb'⟩ := ih rounds hb1.advance.behind hc (by omega)
    simp only [moreParameters, bind_peek, if_pos hkc, bind_advance, bind_expect hki,
      bind_of_some hrun]
    rw [show c.advance.peek.literal = _ from congrArg Word.literal hb1.word]
    exact ⟨c', rfl, ⟨hq.diagnostics, hq.abandoned⟩, hb'⟩

theorem read_parameters {ps : List Word} {params : List Text} (h : Parameters ps params)
    {z : Word} (hz : z.kind = .rightParen) (hb : c.Behind (ps ++ z :: rest))
    (hc : c.abandoned = false) :
    Read c ((parameters : Rule σ (List Text)) c) params rest := by
  cases h with
  | none =>
    have hk : c.peek.kind = .rightParen := hb.kind.trans hz
    rw [parameters, bind_peek, if_pos hk, bind_advance]
    exact ⟨_, rfl, ⟨rfl, hc⟩, hb.advance.behind⟩
  | some hi hm =>
    rw [List.cons_append] at hb
    have hki : c.peek.kind = .ident := hb.kind.trans hi
    have hne : c.peek.kind ≠ .rightParen := by
      rw [hki]
      decide
    have hb1 := hb.advance.behind
    have hlt := hb1.length_lt
    simp only [List.length_append] at hlt
    obtain ⟨c', hrun, hq, hb'⟩ := read_moreParameters hm hz c.advance.remaining hb1 hc (by omega)
    rw [parameters, bind_peek, if_neg hne, bind_expect hki, bind_remaining, bind_of_some hrun]
    rw [show c.peek.literal = _ from congrArg Word.literal hb.word]
    exact ⟨c', rfl, ⟨hq.diagnostics, hq.abandoned⟩, hb'⟩

theorem complete_fn {f l r b z : Word} {ps bs : List Word} {params : List Text}
    {body : List Stmt} {d : Nat} (hf : f.kind = .functionWord) (hl : l.kind = .leftParen)
    (hp : Parameters ps params) (hr : r.kind = .rightParen) (hbr : b.kind = .leftBrace)
    (hd : Complete σ .statements bs body d) (hz : z.kind = .rightBrace) :
    Complete σ (.expr 8) (f :: l :: ps ++ r :: b :: bs ++ [z]) (.fn params body) (d + 1) := by
  refine complete_of_operand (Nat.succ_pos _) fun room rest c _ hs hc => ?_
  simp only [List.cons_append, List.append_assoc, List.nil_append] at hs
  have hk : c.current.kind = .functionWord := hs.kind.trans hf
  have hkl : c.peek.kind = .leftParen := hs.behind.kind.trans hl
  obtain ⟨c1, hrun, hq, hb⟩ := read_parameters hp hr hs.behind.advance.behind hc
  have hkb : c1.peek.kind = .leftBrace := hb.kind.trans hbr
  have hbody := complete_block hd hz room hb.advance.behind hq.abandoned
  simp only [operand, function, bind_current, hk, bind_expect hkl, bind_of_some hrun,
    bind_expect hkb]
  refine Meets.of_advance hc (Meets.of_quiet hq (Meets.of_advance hq.abandoned ?_))
  refine Meets.congr (hbody.bind_read fun c2 hq2 hb2 => ?_) Nat.succ_le_succ_iff.symm
  exact ⟨c2, rfl, ⟨rfl, hq2.abandoned⟩, hb2⟩

/-! ## Operators -/

theorem complete_unary {w : Word} {ws : List Word} {e : Expr} {d : Nat}
    (hw : w.kind = .bang ∨ w.kind = .minus) (h : Complete σ (.expr 6) ws e d) :
    Complete σ (.expr 6) (w :: ws) (.unary w.literal e) (d + 1) := by
  refine complete_of_operand (Nat.succ_pos _) fun room rest c hstop hs hc => ?_
  rw [List.cons_append] at hs
  have he := h.expression room 6 (Nat.le_refl 6) (fun h => absurd h (Nat.lt_irrefl 6)) hstop
    hstop.binding_le hs.behind.advance hc
  have hop : operand (expression room) c = unary (expression room) c := by
    rcases hw with hw | hw
    · have hk : c.current.kind = .bang := hs.kind.trans hw
      simp only [operand, bind_current, hk]
    · have hk : c.current.kind = .minus := hs.kind.trans hw
      simp only [operand, bind_current, hk]
  have hlit : c.current.literal = w.literal := congrArg Word.literal hs.word
  rw [hop, unary, bind_current, bind_advance, hlit]
  refine Meets.of_advance hc (Meets.congr (he.bind_read fun c' hq hb => ?_)
    Nat.succ_le_succ_iff.symm)
  exact ⟨c', rfl, ⟨rfl, hq.abandoned⟩, hb⟩

/-- An operation goes on with the loop, if the operation is read. -/
theorem complete_operation {layer : Nat} {ls rs : List Word} {w : Word} {l e : Expr} {d m : Nat}
    (hl : Complete σ (.expr layer) ls l d) (hw : w.kind.binding = layer)
    (hlayer : 2 ≤ layer ∧ layer ≤ 5 ∨ layer = 7)
    (hop : ∀ (room : Nat) (rest : List Word) (c : Cursor σ), Stops layer (front rest) →
      c.Sees (w :: (rs ++ rest)) → c.abandoned = false →
      Meets (m ≤ room) c (operation (expression room) l c) e rest) :
    Complete σ (.expr layer) (ls ++ w :: rs) e (max d (m + 1)) := by
  obtain ⟨hd, hl⟩ := hl
  refine ⟨by omega, fun room p rest c hp hp' hstop hs hc => ?_⟩
  rw [List.append_assoc, List.cons_append] at hs
  have hpl : p < layer := by omega
  have hnext : Stops layer (front (w :: (rs ++ rest))) := by
    refine ⟨Nat.le_of_eq hw, fun he => ?_⟩
    rw [front_cons] at he
    rw [he] at hw
    subst hw
    exact absurd hlayer (by decide)
  obtain ⟨hread, hgave⟩ := hl room p _ c hp hp' hnext hs hc
  by_cases hfit : d ≤ room + 1
  · obtain ⟨c1, rounds, hq, hb, hn, heq⟩ := hread hfit
    have hlt : p < c1.peek.kind.binding := by rw [hb.kind, front_cons, hw]; exact hpl
    obtain ⟨n, rfl⟩ := Nat.exists_eq_succ_of_ne_zero (Nat.ne_zero_of_lt hn)
    have hm := hop room rest c1.advance hstop hb.advance hq.abandoned
    rw [heq, operations_step hlt]
    refine ⟨fun hle => ?_, fun hle => ?_⟩
    · obtain ⟨c2, hrun, hq2, hb2⟩ := hm.read (by omega)
      rw [bind_of_some hrun]
      simp only [List.length_cons, List.length_append] at hn
      exact ⟨c2, n, hq.advance.trans hq2, hb2, by omega, rfl⟩
    · exact (hm.gaveUp (by omega)).bind.of_quiet hq.advance
  · exact ⟨fun hle => absurd hle (by omega), fun _ => hgave hfit⟩

theorem complete_call {l r : Word} {fs as : List Word} {f : Expr} {args : List Expr} {d m : Nat}
    (hf : Complete σ (.expr 7) fs f d) (hl : l.kind = .leftParen)
    (ha : Complete σ .arguments as args m) (hr : r.kind = .rightParen) :
    Complete σ (.expr 7) (fs ++ l :: as ++ [r]) (.call f args) (max d (m + 1)) := by
  rw [List.append_assoc, List.cons_append]
  refine complete_operation hf (by rw [hl]; rfl) (Or.inr rfl) fun room rest c _ hs hc => ?_
  rw [List.append_assoc, List.cons_append, List.nil_append] at hs
  have hk : c.current.kind = .leftParen := hs.kind.trans hl
  rw [operation, bind_current, if_pos hk]
  exact (ha room r rest c hr hs.behind hc).bind_read fun c' hq hb =>
    ⟨c', rfl, ⟨rfl, hq.abandoned⟩, hb⟩

theorem complete_binary {w : Word} {layer : Nat} {ls rs : List Word} {l r : Expr} {d m : Nat}
    (hl : Complete σ (.expr layer) ls l d) (hw : w.kind ∈ layerOperators layer)
    (hr : Complete σ (.expr (layer + 1)) rs r m) :
    Complete σ (.expr layer) (ls ++ w :: rs) (.binary w.literal l r) (max d (m + 1)) := by
  obtain ⟨hb, h2, h5⟩ := binding_of_mem_layerOperators hw
  refine complete_operation hl hb (Or.inl ⟨h2, h5⟩) fun room rest c hstop hs hc => ?_
  have hk : c.current.kind = w.kind := hs.kind
  have hne : c.current.kind ≠ .leftParen := by
    intro he
    have h7 : TokenKind.leftParen.binding = 7 := rfl
    rw [← hk, he, h7] at hb
    omega
  have hlit : c.current.literal = w.literal := congrArg Word.literal hs.word
  have he := hr.expression room layer (by omega) (fun _ => Nat.lt_succ_self layer)
    (hstop.mono (Nat.le_succ layer)) hstop.binding_le hs.behind.advance hc
  rw [operation, bind_current, if_neg hne, bind_advance, hk, hb, hlit]
  exact Meets.of_advance hc (he.bind_read fun c' hq hb => ⟨c', rfl, ⟨rfl, hq.abandoned⟩, hb⟩)

theorem complete_tighter {layer : Nat} {ws : List Word} {e : Expr} {d : Nat}
    (h : Complete σ (.expr (layer + 1)) ws e d) : Complete σ (.expr layer) ws e d := by
  obtain ⟨hd, h⟩ := h
  refine ⟨hd, fun room p rest c hp hp' hstop hs hc => ?_⟩
  exact h room p rest c hp (fun hl => by omega) (hstop.mono (Nat.le_succ layer)) hs hc

/-! ## Arguments -/

theorem complete_noArguments : Complete σ .arguments [] [] 0 := by
  intro room z rest c hz hb hc
  have hk : c.peek.kind = .rightParen := hb.kind.trans hz
  rw [arguments, bind_peek, if_pos hk, bind_advance]
  exact Meets.of_read ⟨_, rfl, ⟨rfl, hc⟩, hb.advance.behind⟩ (Nat.zero_le room)

theorem complete_lastArgument : Complete σ .moreArguments [] [] 0 := by
  intro room rounds z rest c hz hb hc hn
  obtain ⟨rounds, rfl⟩ := Nat.exists_eq_succ_of_ne_zero (Nat.ne_zero_of_lt hn)
  have hk : c.peek.kind = .rightParen := hb.kind.trans hz
  have hne : c.peek.kind ≠ .comma := by
    rw [hk]
    decide
  simp only [moreArguments, bind_peek, if_neg hne, bind_expect hk]
  exact Meets.of_read ⟨_, rfl, ⟨rfl, hc⟩, hb.advance.behind⟩ (Nat.zero_le room)

/-- An argument ends before a comma and before the closing parenthesis. -/
theorem stops_argument {vs : List Word} {z : Word} (hv : vs = [] ∨ front vs = .comma)
    (hz : z.kind = .rightParen) (rest : List Word) :
    Stops Binding.lowest (front (vs ++ z :: rest)) := by
  rcases hv with rfl | hv
  · exact stops_rightParen hz rest
  · have hne : vs ≠ [] := by
      rintro rfl
      exact absurd hv (by decide)
    rw [front_append hne, hv]
    exact ⟨by decide, by decide⟩

/-- One argument and those behind it. -/
theorem meets_argument {ws vs : List Word} {e : Expr} {es : List Expr} {d m room : Nat}
    {z : Word} {k : Rule σ (List Expr)} (h : Complete σ (.expr 2) ws e d)
    (hv : vs = [] ∨ front vs = .comma) (hz : z.kind = .rightParen)
    (hs : c.Sees (ws ++ (vs ++ z :: rest))) (hc : c.abandoned = false)
    (hk : ∀ c', Quiet c c' → c'.Behind (vs ++ z :: rest) → Meets (m ≤ room) c' (k c') es rest) :
    Meets (max d m ≤ room) c
      ((expression room Binding.lowest >>= fun e => k >>= fun es => pure (e :: es)) c)
      (e :: es) rest := by
  have he := h.lowest room (stops_argument hv hz rest) hs hc
  refine Meets.congr (he.bind fun c' hq hb => ?_) Nat.max_le.symm
  exact (hk c' hq hb).bind_read fun c2 hq2 hb2 => ⟨c2, rfl, ⟨rfl, hq2.abandoned⟩, hb2⟩

theorem complete_someArguments {ws vs : List Word} {e : Expr} {es : List Expr} {d m : Nat}
    (h : Complete σ (.expr 2) ws e d) (hw : ws ≠ []) (hf : front ws ∈ expressionStarts)
    (hm : Complete σ .moreArguments vs es m) (hv : vs = [] ∨ front vs = .comma) :
    Complete σ .arguments (ws ++ vs) (e :: es) (max d m) := by
  intro room z rest c hz hb hc
  rw [List.append_assoc] at hb
  have hne : c.peek.kind ≠ .rightParen := by
    rw [hb.kind, front_append hw]
    intro he
    rw [he] at hf
    exact absurd hf (by decide)
  rw [arguments, bind_peek, if_neg hne, bind_advance]
  refine Meets.of_advance hc (meets_argument h hv hz hb.advance hc fun c' hq hb' => ?_)
  have hlt := hb'.length_lt
  simp only [List.length_append] at hlt
  exact hm room c'.remaining z rest c' hz hb' hq.abandoned (by omega)

theorem complete_nextArgument {comma : Word} {ws vs : List Word} {e : Expr} {es : List Expr}
    {d m : Nat} (hk : comma.kind = .comma) (h : Complete σ (.expr 2) ws e d)
    (hm : Complete σ .moreArguments vs es m) (hv : vs = [] ∨ front vs = .comma) :
    Complete σ .moreArguments (comma :: ws ++ vs) (e :: es) (max d m) := by
  intro room rounds z rest c hz hb hc hn
  obtain ⟨rounds, rfl⟩ := Nat.exists_eq_succ_of_ne_zero (Nat.ne_zero_of_lt hn)
  simp only [List.cons_append, List.append_assoc] at hb
  simp only [List.cons_append, List.length_cons, List.length_append] at hn
  have hkc : c.peek.kind = .comma := hb.kind.trans hk
  simp only [moreArguments, bind_peek, if_pos hkc, bind_advance]
  refine Meets.of_advance hc (Meets.of_advance hc ?_)
  refine meets_argument h hv hz hb.advance.behind.advance hc fun c' hq hb' => ?_
  exact hm room rounds z rest c' hz hb' hq.abandoned (by omega)

/-! ## Statements -/

theorem complete_bind {w name eq : Word} {ws : List Word} {e : Expr} {d : Nat}
    (hw : w.kind = .letWord) (hn : name.kind = .ident) (heq : eq.kind = .assign)
    (h : Complete σ (.expr 2) ws e d) :
    Complete σ .statement (w :: name :: eq :: ws) (.bind (some name.literal) e) d := by
  intro room rest c hstop hs hc
  simp only [List.cons_append] at hs
  have hk : c.current.kind = .letWord := hs.kind.trans hw
  have hb := hs.behind
  have hkn : c.peek.kind = .ident := hb.kind.trans hn
  have hb1 := hb.advance.behind
  have hke : c.advance.peek.kind = .assign := hb1.kind.trans heq
  have hlit : c.peek.literal = name.literal := congrArg Word.literal hb.word
  have he := h.lowest room hstop hb1.advance.behind.advance hc
  simp only [statement, letStatement, bind_current, hk, bind_expect hkn, bind_expect hke,
    bind_advance, hlit]
  refine Meets.of_advance hc (Meets.of_advance hc (Meets.of_advance hc ?_))
  exact he.bind_read fun c' hq hb' => read_terminator _ hb' hq.abandoned

theorem complete_ret {w : Word} {ws : List Word} {e : Expr} {d : Nat} (hw : w.kind = .returnWord)
    (h : Complete σ (.expr 2) ws e d) : Complete σ .statement (w :: ws) (.ret e) d := by
  intro room rest c hstop hs hc
  rw [List.cons_append] at hs
  have hk : c.current.kind = .returnWord := hs.kind.trans hw
  have he := h.lowest room hstop hs.behind.advance hc
  simp only [statement, returnStatement, bind_current, hk, bind_advance]
  refine Meets.of_advance hc ?_
  exact he.bind_read fun c' hq hb' => read_terminator _ hb' hq.abandoned

theorem complete_expr {ws : List Word} {e : Expr} {d : Nat} (h : Complete σ (.expr 2) ws e d)
    (hw : ws ≠ []) (hf : front ws ∈ expressionStarts) : Complete σ .statement ws (.expr e) d := by
  intro room rest c hstop hs hc
  have hk : c.current.kind ∈ expressionStarts := by
    rw [hs.kind, front_append hw]
    exact hf
  have hrule : statement (expression room) c = expressionStatement (expression room) c := by
    rw [statement, bind_current]
    refine congrFun ?_ c
    split
    · rename_i hl
      rw [hl] at hk
      exact absurd hk (by decide)
    · rename_i hr
      rw [hr] at hk
      exact absurd hk (by decide)
    · rfl
  rw [hrule]
  exact (h.lowest room hstop hs hc).bind_read fun c' hq hb' => read_terminator _ hb' hq.abandoned

/-- The words `us` behind a statement are its semicolon, if it has one, and the statements `vs`,
in a block and at the end of a program. -/
structure Follows (us vs : List Word) : Prop where
  stops : ∀ tail, tail = [] ∨ front tail = .rightBrace → Stops Binding.lowest (front (us ++ tail))
  after : ∀ tail, tail = [] ∨ front tail = .rightBrace → afterSemicolon (us ++ tail) = vs ++ tail
  length_le : vs.length ≤ us.length

theorem follows_closed {w : Word} (hw : w.kind = .semicolon) (vs : List Word) :
    Follows (w :: vs) vs := by
  refine ⟨fun tail _ => ?_, fun tail _ => if_pos hw, Nat.le_succ _⟩
  rw [List.cons_append, front_cons, hw]
  exact ⟨by decide, by decide⟩

theorem follows_opened {vs : List Word} (ha : Seam.firm.Allows (front vs))
    (hv : vs = [] ∨ front vs ∈ statementStarts) : Follows vs vs := by
  have hfront : ∀ tail, tail = [] ∨ front tail = .rightBrace →
      (front (vs ++ tail)).binding ≤ Binding.lowest ∧ front (vs ++ tail) ≠ .elseWord ∧
        front (vs ++ tail) ≠ .semicolon := by
    intro tail htail
    cases vs with
    | nil =>
      rcases htail with rfl | ht
      · decide
      · rw [List.nil_append, ht]
        decide
    | cons w vs =>
      have hw : w.kind ∈ statementStarts := hv.resolve_left (List.cons_ne_nil w vs)
      refine ⟨ha, fun he => ?_, fun he => ?_⟩
      · rw [List.cons_append, front_cons] at he
        rw [he] at hw
        exact absurd hw (by decide)
      · rw [List.cons_append, front_cons] at he
        rw [he] at hw
        exact absurd hw (by decide)
  refine ⟨fun tail ht => ⟨(hfront tail ht).1, (hfront tail ht).2.1⟩, fun tail ht => ?_,
    Nat.le_refl _⟩
  have hne := (hfront tail ht).2.2
  cases hvt : vs ++ tail with
  | nil => rfl
  | cons w us =>
    rw [hvt, front_cons] at hne
    exact if_neg hne

/-- Once reading was given up, a block has no end. -/
theorem blockStatements_abandoned (inner : Inner σ) (rounds : Nat) (hs : c.Sees [])
    (hc : c.abandoned = true) : blockStatements inner rounds c = (none, c) := by
  cases rounds with
  | zero => rfl
  | succ rounds =>
    have hk : c.current.kind = .eof := hs.kind
    simp [blockStatements, bind_current, hk, reject, Cursor.complain, hc]

theorem complete_nil : Complete σ .statements [] [] 0 := by
  refine ⟨fun room rounds z rest c hz hs hc hn => ?_, fun rounds c hs hc hn => ?_⟩
  · obtain ⟨rounds, rfl⟩ := Nat.exists_eq_succ_of_ne_zero (Nat.ne_zero_of_lt hn)
    have hk : c.current.kind = .rightBrace := hs.kind.trans hz
    simp only [blockStatements, bind_current, hk]
    exact Meets.of_read ⟨c, rfl, ⟨rfl, hc⟩, hs.behind⟩ (Nat.zero_le room)
  · rw [statements_end rounds hs.kind]
    exact ⟨fun _ => ⟨rfl, rfl⟩, fun h => absurd (Nat.zero_le _) h⟩

/-- In a block, a statement in front of others. -/
theorem complete_cons_block {ws us vs : List Word} {s : Stmt} {ss : List Stmt} {d m room : Nat}
    {z : Word} (h : Complete σ .statement ws s d) (hw : ws ≠ [])
    (hf : front ws ∈ statementStarts) (hu : Follows us vs)
    (hm : Complete σ .statements vs ss m) (hz : z.kind = .rightBrace) (rounds : Nat)
    (hs : c.Sees (ws ++ (us ++ z :: rest))) (hc : c.abandoned = false)
    (hn : us.length < rounds) :
    Meets (max d m ≤ room) c (blockStatements (expression room) (rounds + 1) c) (s :: ss) rest := by
  have hfirst := h room _ c (hu.stops (z :: rest) (Or.inr hz)) hs hc
  rw [hu.after (z :: rest) (Or.inr hz)] at hfirst
  have hk : c.current.kind ∈ statementStarts := by
    rw [hs.kind, front_append hw]
    exact hf
  have hrule : blockStatements (expression room) (rounds + 1) c =
      (attempt (statement (expression room)) >>= fun first => advance >>= fun _ =>
        blockStatements (expression room) rounds >>= fun others =>
          pure (first.toList ++ others)) c := by
    rw [blockStatements, bind_current]
    refine congrFun ?_ c
    split
    · rename_i hb
      rw [hb] at hk
      exact absurd hk (by decide)
    · rename_i he
      rw [he] at hk
      exact absurd hk (by decide)
    · rfl
  rw [hrule]
  by_cases hd : d ≤ room
  · obtain ⟨c1, hrun, hq, hb⟩ := hfirst.read hd
    have hatt : attempt (statement (expression room)) c = (some (some s), c1) := by
      rw [attempt, hrun]
    have hothers := hm.1 room rounds z rest c1.advance hz hb.advance hq.abandoned
      (Nat.lt_of_le_of_lt hu.length_le hn)
    rw [bind_of_some hatt, bind_advance]
    refine Meets.of_quiet hq.advance (Meets.congr (hothers.bind_read fun c2 hq2 hb2 => ?_)
      (by omega))
    exact ⟨c2, rfl, ⟨rfl, hq2.abandoned⟩, hb2⟩
  · obtain ⟨c1, t, hrun, hs1, ha, hdiag⟩ := hfirst.gaveUp hd
    have hatt : attempt (statement (expression room)) c = (some none, c1) := by
      rw [attempt, hrun]
    have hend := blockStatements_abandoned (expression room) rounds hs1.tail.advance ha
    rw [bind_of_some hatt, bind_advance, bind_of_none hend]
    exact ⟨fun hle => by omega, fun _ => ⟨_, t, rfl, hs1.tail.advance, ha, hdiag⟩⟩

/-- At the end of a program, a statement in front of others. -/
theorem complete_cons_program {ws us vs : List Word} {s : Stmt} {ss : List Stmt} {d m : Nat}
    (h : Complete σ .statement ws s d) (hw : ws ≠ []) (hu : Follows us vs)
    (hm : Complete σ .statements vs ss m) (rounds : Nat) (hs : c.Sees (ws ++ us))
    (hc : c.abandoned = false) (hn : us.length < rounds) :
    (max d m ≤ maxNesting → (statements (rounds + 1) c).1 = s :: ss ∧
      (statements (rounds + 1) c).2.diagnostics = c.diagnostics) ∧
    (¬ max d m ≤ maxNesting → ∃ t : Token, (statements (rounds + 1) c).2.diagnostics =
      c.diagnostics.push ⟨.tooDeep, t.pos, t.kind⟩) := by
  have hstop := hu.stops [] (Or.inl rfl)
  have hafter := hu.after [] (Or.inl rfl)
  rw [List.append_nil] at hstop hafter
  have hfirst := h maxNesting us c hstop hs hc
  rw [hafter, List.append_nil] at hfirst
  have hk : c.current.kind ≠ .eof := by
    obtain ⟨w, ws, rfl⟩ := List.exists_cons_of_ne_nil hw
    rw [hs.kind]
    exact hs.ne_eof
  rw [statements_step rounds hk]
  by_cases hd : d ≤ maxNesting
  · obtain ⟨c1, hrun, hq, hb⟩ := hfirst.read hd
    obtain ⟨hread, hgave⟩ := hm.2 rounds c1.advance hb.advance hq.abandoned
      (Nat.lt_of_le_of_lt hu.length_le hn)
    rw [hrun]
    refine ⟨fun hle => ?_, fun hle => ?_⟩
    · obtain ⟨hss, hdiag⟩ := hread (Nat.le_trans (Nat.le_max_right d m) hle)
      exact ⟨by rw [hss]; rfl, hdiag.trans hq.diagnostics⟩
    · obtain ⟨t, hdiag⟩ := hgave fun hm' => hle (Nat.max_le.mpr ⟨hd, hm'⟩)
      exact ⟨t, by rw [hdiag, hq.advance.diagnostics]⟩
  · obtain ⟨c1, t, hrun, hs1, -, hdiag⟩ := hfirst.gaveUp hd
    rw [hrun, statements_end rounds hs1.tail.advance.kind]
    exact ⟨fun hle => absurd (Nat.le_trans (Nat.le_max_left d m) hle) hd, fun _ => ⟨t, hdiag⟩⟩

theorem complete_cons {ws us vs : List Word} {s : Stmt} {ss : List Stmt} {d m : Nat}
    (h : Complete σ .statement ws s d) (hw : ws ≠ []) (hf : front ws ∈ statementStarts)
    (hu : Follows us vs) (hm : Complete σ .statements vs ss m) :
    Complete σ .statements (ws ++ us) (s :: ss) (max d m) := by
  have hpos : 0 < ws.length := List.length_pos_iff.mpr hw
  refine ⟨fun room rounds z rest c hz hs hc hn => ?_, fun rounds c hs hc hn => ?_⟩
  · obtain ⟨rounds, rfl⟩ := Nat.exists_eq_succ_of_ne_zero (Nat.ne_zero_of_lt hn)
    rw [List.append_assoc] at hs
    rw [List.length_append] at hn
    exact complete_cons_block h hw hf hu hm hz rounds hs hc (by omega)
  · obtain ⟨rounds, rfl⟩ := Nat.exists_eq_succ_of_ne_zero (Nat.ne_zero_of_lt hn)
    rw [List.length_append] at hn
    exact complete_cons_program h hw hu hm rounds hs hc (by omega)

/-- Every phrase with firm seams is read. -/
theorem complete {n : Phrase} {ws : List Word} {a : n.Tree} {d : Nat}
    (h : Derives .firm n ws a d) : Complete σ n ws a d := by
  induction h with
  | ident hk => exact complete_ident hk
  | int hk hv => exact complete_int hk hv
  | yes hk => exact complete_yes hk
  | no hk => exact complete_no hk
  | group hl _ hr ih => exact complete_group hl ih hr
  | ifThen hi hl _ hr hb _ hz iht ihy => exact complete_ifThen hi hl iht hr hb ihy hz
  | ifElse hi hl _ hr hb _ hz ho hq _ hy iht ihy ihn =>
    exact complete_ifElse hi hl iht hr hb ihy hz ho hq ihn hy
  | fn hf hl hp hr hb _ hz ih => exact complete_fn hf hl hp hr hb ih hz
  | call _ hl _ hr ihf iha => exact complete_call ihf hl iha hr
  | unary hw _ ih => exact complete_unary hw ih
  | binary _ hw _ ihl ihr => exact complete_binary ihl hw ihr
  | tighter _ ih => exact complete_tighter ih
  | noArguments => exact complete_noArguments
  | someArguments he hm ihe ihm =>
    exact complete_someArguments ihe (he.full trivial).1 (he.front_mem trivial) ihm
      hm.front_moreArguments
  | lastArgument => exact complete_lastArgument
  | nextArgument hc _ hm ihe ihm => exact complete_nextArgument hc ihe ihm hm.front_moreArguments
  | bind hw hn he _ ih => exact complete_bind hw hn he ih
  | ret hw _ ih => exact complete_ret hw ih
  | expr he ih => exact complete_expr ih (he.full trivial).1 (he.front_mem trivial)
  | nil => exact complete_nil
  | closed hs hw _ ihs ihm =>
    exact complete_cons ihs (hs.full trivial).1 (hs.front_mem trivial) (follows_closed hw _) ihm
  | opened hs ha hm ihs ihm =>
    exact complete_cons ihs (hs.full trivial).1 (hs.front_mem trivial)
      (follows_opened ha hm.front_statements) ihm

end Grammar

/-- A source whose words are statements with firm seams is read with their trees, unless they
nest too deeply: then the only complaint is about that. -/
theorem ofSource_of_derives {σ : Type} [TokenSource σ] {s : σ} {ts : List Token}
    {ss : List Stmt} {d : Nat} (hg : TokenSource.Gives s ts)
    (h : Derives .firm .statements (ts.map Token.word) ss d) :
    (d ≤ maxNesting → Program.ofSource s = ⟨⟨ss⟩, []⟩) ∧
    (¬ d ≤ maxNesting → ∃ t : Token,
      (Program.ofSource s).diagnostics = [⟨.tooDeep, t.pos, t.kind⟩]) := by
  have hs := Cursor.Sees.ofSource hg
  obtain ⟨hread, hgave⟩ := (Grammar.complete h).2 _ _ hs rfl hs.length_lt
  refine ⟨fun hle => ?_, fun hle => ?_⟩
  · obtain ⟨hss, hdiag⟩ := hread hle
    unfold Program.ofSource
    simp only [hss, hdiag]
    rfl
  · obtain ⟨t, hdiag⟩ := hgave hle
    refine ⟨t, ?_⟩
    unfold Program.ofSource
    simp only [hdiag]
    rfl

end Borealis
