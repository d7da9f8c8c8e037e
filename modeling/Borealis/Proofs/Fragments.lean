-- What is read in spite of complaints. Where a statement fails, the words that
-- it took are left out and reading goes on behind them. So the program is
-- always the tree of some of the words, in the order in which they stand.
import Borealis.Proofs.Invariants
import Borealis.Proofs.Soundness

namespace Borealis

/-! ## Results of a rule -/

namespace Rule

variable {σ α β : Type}

/-- If the rule gives a result from this cursor, then what `Q` says holds of the result and the
cursor behind it. -/
def Gets (r : Rule σ α) (c : Cursor σ) (Q : α → Cursor σ → Prop) : Prop :=
  ∀ a c', r c = (some a, c') → Q a c'

variable {c : Cursor σ} {Q : β → Cursor σ → Prop}

theorem gets_pure {P : α → Cursor σ → Prop} {a : α} (h : P a c) :
    (pure a : Rule σ α).Gets c P := by
  intro b c' hb
  obtain ⟨ha, rfl⟩ := Prod.mk.inj hb
  exact Option.some.inj ha ▸ h

theorem gets_nothing {r : Rule σ α} {P : α → Cursor σ → Prop} (h : (r c).1 = none) :
    r.Gets c P := by
  intro a c' ha
  rw [ha] at h
  exact absurd h (by simp)

theorem Gets.bind {r : Rule σ α} {f : α → Rule σ β} {P : α → Cursor σ → Prop} (hr : r.Gets c P)
    (hf : ∀ a c', P a c' → (f a).Gets c' Q) : (r >>= f).Gets c Q := by
  intro b c' hb
  rw [bind_apply] at hb
  split at hb
  · rename_i a c1 hrun
    exact hf a c1 (hr a c1 hrun) b c' hb
  · exact absurd hb (by simp)

theorem gets_current {f : Token → Rule σ β} (h : (f c.current).Gets c Q) :
    (current >>= f).Gets c Q := h

theorem gets_peek {f : Token → Rule σ β} (h : (f c.peek).Gets c Q) : (peek >>= f).Gets c Q := h

variable [TokenSource σ]

theorem gets_remaining {f : Nat → Rule σ β} (h : (f c.remaining).Gets c Q) :
    (remaining >>= f).Gets c Q := h

theorem gets_advance {f : Unit → Rule σ β} (h : (f ()).Gets c.advance Q) :
    (advance >>= f).Gets c Q := h

theorem gets_expect {kind : TokenKind} {f : Token → Rule σ β}
    (h : c.peek.word.kind = kind → (f c.peek).Gets c.advance Q) :
    (expect kind >>= f).Gets c Q := by
  refine Gets.bind (P := fun t c' => c.peek.kind = kind ∧ t = c.peek ∧ c' = c.advance) ?_ ?_
  · intro t c' ht
    unfold expect at ht
    split at ht
    · rename_i hk
      obtain ⟨hpeek, hnext⟩ := Prod.mk.inj ht
      exact ⟨hk, (Option.some.inj hpeek).symm, hnext.symm⟩
    · exact absurd (Prod.mk.inj ht).1 (by simp)
  · rintro t c' ⟨hk, rfl, rfl⟩
    exact h hk

theorem gets_skip {kind : TokenKind} {f : Unit → Rule σ β}
    (h : c.peek.kind = kind → (f ()).Gets c.advance Q) (h' : (f ()).Gets c Q) :
    (skip kind >>= f).Gets c Q := by
  refine Gets.bind (P := fun _ c' => c.peek.kind = kind ∧ c' = c.advance ∨ c' = c) ?_ ?_
  · intro _ c' ht
    unfold skip at ht
    split at ht
    · rename_i hk
      exact Or.inl ⟨hk, (Prod.mk.inj ht).2.symm⟩
    · exact Or.inr (Prod.mk.inj ht).2.symm
  · rintro _ c' (⟨hk, rfl⟩ | rfl)
    · exact h hk
    · exact h'

end Rule

/-! ## Words that are picked -/

/-- Of the words `ws` some were picked that are a phrase with this tree, and `rest` is behind
them. -/
def Picks (n : Phrase) (ws rest : List Word) (a : n.Tree) : Prop :=
  ∃ xs d, Derives .loose n xs a d ∧ (xs ++ rest).Sublist ws

namespace Picks

variable {n : Phrase} {ws vs rest : List Word} {a : n.Tree}

/-- More words that are left out before the phrase. -/
theorem after (h : Picks n vs rest a) (hs : vs.Sublist ws) : Picks n ws rest a := by
  obtain ⟨xs, d, hd, hx⟩ := h
  exact ⟨xs, d, hd, hx.trans hs⟩

/-- More words that are left out behind the phrase. -/
theorem before (h : Picks n ws rest a) (hs : vs.Sublist rest) : Picks n ws vs a := by
  obtain ⟨xs, d, hd, hx⟩ := h
  exact ⟨xs, d, hd, (hs.append_left xs).trans hx⟩

theorem down {j k : Nat} {e : Expr} (h : Picks (.expr k) ws rest e) (hj : j ≤ k) :
    Picks (.expr j) ws rest e := by
  obtain ⟨xs, d, hd, hx⟩ := h
  exact ⟨xs, d, hd.down hj, hx⟩

end Picks

namespace Grammar

open Rule

variable {σ : Type} [TokenSource σ]

/-- A phrase was picked from the words `ws`. The cursor stands before what is behind it, whose
first word is of an allowed kind. -/
def HasPicked (n : Phrase) (allowed : TokenKind → Prop) (ws : List Word) (a : n.Tree)
    (c : Cursor σ) : Prop :=
  ∃ rest, Picks n ws rest a ∧ allowed (front rest) ∧ c.Behind rest

/-- A phrase and the word that closes it were picked from the words `ws`. -/
def HasPickedTo (n : Phrase) (close : TokenKind) (ws : List Word) (a : n.Tree) (c : Cursor σ) :
    Prop :=
  ∃ z rest, z.kind = close ∧ Picks n ws (z :: rest) a ∧ c.Behind rest

/-- The rule for the expressions inside picks expressions, and keeps what the steps of a reading
keep. -/
structure PicksExpressions (inner : Inner σ) : Prop where
  gets {p : Nat} {c : Cursor σ} {ws : List Word} : 1 ≤ p → p ≤ 6 → c.Sees ws →
    (inner p).Gets c (HasPicked (.expr (layerAbove p)) (fun k => k.binding ≤ p) ws)
  keeps {good bad : Cursor σ → Prop} : Invariant good bad → KeepsInside good bad inner

variable {inner : Inner σ} {c : Cursor σ} {ws : List Word}

/-- The expressions of statements, groups and arguments. -/
theorem PicksExpressions.lowest (h : PicksExpressions inner) (hs : c.Sees ws) :
    (inner Binding.lowest).Gets c
      (HasPicked (.expr 2) (fun k => k.binding ≤ Binding.lowest) ws) :=
  h.gets (Nat.le_refl 1) (by decide) hs

/-! ## Statements -/

theorem gets_terminator {rest : List Word} {s : Stmt} (hp : Picks .statement ws rest s)
    (hb : c.Behind rest) :
    (skip .semicolon >>= fun _ => pure s : Rule σ Stmt).Gets c
      (HasPicked .statement (fun _ => True) ws) := by
  refine gets_skip (fun hk => gets_pure ?_) (gets_pure ⟨rest, hp, trivial, hb⟩)
  obtain ⟨vs, rfl⟩ := hb.exists_cons hk (by decide)
  exact ⟨vs, hp.before (List.sublist_cons_self _ _), trivial, hb.advance.behind⟩

theorem gets_statement (h : PicksExpressions inner) (hs : c.Sees ws) :
    (statement inner).Gets c (HasPicked .statement (fun _ => True) ws) := by
  refine gets_current ?_
  split
  · rename_i hk
    refine gets_expect fun hn => gets_expect fun he => gets_advance ?_
    obtain ⟨vs, rfl⟩ := hs.exists_cons hk (by decide)
    obtain ⟨us, rfl⟩ := hs.behind.exists_cons hn (by decide)
    have hs1 := hs.behind.advance
    obtain ⟨ts, rfl⟩ := hs1.behind.exists_cons he (by decide)
    refine (h.lowest hs1.behind.advance.behind.advance).bind ?_
    rintro e c' ⟨rest, ⟨xs, d, hd, hx⟩, -, hb⟩
    exact gets_terminator ⟨_ :: _ :: _ :: xs, d, .bind hk hn he hd, hx.append_left [_, _, _]⟩ hb
  · rename_i hk
    obtain ⟨vs, rfl⟩ := hs.exists_cons hk (by decide)
    refine gets_advance ((h.lowest hs.behind.advance).bind ?_)
    rintro e c' ⟨rest, ⟨xs, d, hd, hx⟩, -, hb⟩
    exact gets_terminator ⟨_ :: xs, d, .ret hk hd, hx.append_left [_]⟩ hb
  · refine (h.lowest hs).bind ?_
    rintro e c' ⟨rest, ⟨xs, d, hd, hx⟩, -, hb⟩
    exact gets_terminator ⟨xs, d, .expr hd, hx⟩ hb

/-- Whatever the steps of a reading are, what is behind the cursor was behind it before. -/
theorem invariant_behind (ws : List Word) :
    Invariant (fun c : Cursor σ => ∃ rest, c.Behind rest ∧ rest.Sublist ws)
      (fun c => ∃ rest, c.Behind rest ∧ rest.Sublist ws) where
  fails h := h
  resumes := by
    rintro c ⟨rest, hb, hr⟩
    exact ⟨rest.tail, hb.advance.tail, (List.tail_sublist rest).trans hr⟩
  here := by
    rintro c what ⟨rest, ⟨s, ts, hw, hg⟩, hr⟩ -
    exact ⟨rest, ⟨s, ts, hw.congr (by simp) (by simp) (by simp), hg⟩, hr⟩
  ahead := by
    rintro c what ⟨rest, ⟨s, ts, hw, hg⟩, hr⟩ -
    exact ⟨rest, ⟨s, ts, hw.congr (by simp) (by simp) (by simp), hg⟩, hr⟩
  abandons := by
    rintro c ⟨rest, ⟨s, ts, hw, hg⟩, hr⟩
    exact ⟨rest, ⟨s, ts, hw.congr (by simp) (by simp) (by simp), hg⟩, hr⟩

/-- Behind a statement that failed, some of the words are still there. -/
theorem behind_failure (h : PicksExpressions inner) (hs : c.Sees ws) {c' : Cursor σ}
    (hrun : statement inner c = (none, c')) : ∃ rest, c'.Behind rest ∧ rest.Sublist ws :=
  (keeps_statement (invariant_behind ws) (h.keeps (invariant_behind ws))
    ⟨ws.tail, hs.tail, List.tail_sublist ws⟩).2 c' hrun

/-- A statement that gave a result is picked before the others, and one that failed is left out. -/
theorem picks_first (h : PicksExpressions inner) (hs : c.Sees ws) :
    ∃ vs, (statement inner c).2.advance.Sees vs ∧ ∀ rest others, Picks .statements vs rest others →
      Picks .statements ws rest ((statement inner c).1.toList ++ others) := by
  rcases hrun : statement inner c with ⟨_ | s, c'⟩
  · obtain ⟨vs, hb, hv⟩ := behind_failure h hs hrun
    exact ⟨vs, hb.advance, fun rest others ho => ho.after hv⟩
  · obtain ⟨vs, ⟨xs, d, hd, hx⟩, -, hb⟩ := gets_statement h hs s c' hrun
    refine ⟨vs, hb.advance, fun rest others ⟨ys, m, hm, hy⟩ => ?_⟩
    refine ⟨xs ++ ys, _, .opened hd trivial hm, ?_⟩
    rw [List.append_assoc]
    exact (hy.append_left xs).trans hx

theorem gets_blockStatements (h : PicksExpressions inner) (rounds : Nat) (hs : c.Sees ws) :
    (blockStatements inner rounds).Gets c (HasPickedTo .statements .rightBrace ws) := by
  induction rounds generalizing c ws with
  | zero => exact gets_nothing rfl
  | succ rounds ih =>
    refine gets_current ?_
    split
    · rename_i hk
      obtain ⟨vs, rfl⟩ := hs.exists_cons hk (by decide)
      exact gets_pure ⟨_, vs, hk, ⟨[], 0, .nil, List.Sublist.refl _⟩, hs.behind⟩
    · exact gets_nothing rfl
    · -- Trying a statement never fails, so the others are read from the cursor behind it.
      obtain ⟨vs, hv, hfirst⟩ := picks_first h hs
      refine (ih hv).bind fun others c' ⟨z, rest, hz, hp, hb⟩ => gets_pure ?_
      exact ⟨z, rest, hz, hfirst _ _ hp, hb⟩

theorem gets_block (h : PicksExpressions inner) (hb : c.Behind ws) :
    (block inner).Gets c (HasPickedTo .statements .rightBrace ws) :=
  gets_advance (gets_remaining (gets_blockStatements h _ hb.advance))

/-! ## Operands -/

/-- An operand was picked: an atom, or a prefix operator with its operand, behind which no call
can go on. -/
def HasPickedOperand (ws : List Word) (e : Expr) (c : Cursor σ) : Prop :=
  ∃ layer, 6 ≤ layer ∧ HasPicked (.expr layer) (fun k => k.binding ≤ layer) ws e c

theorem hasPickedOperand_atom {rest : List Word} {e : Expr} (hp : Picks (.expr 8) ws rest e)
    (hb : c.Behind rest) : HasPickedOperand ws e c :=
  ⟨8, by omega, rest, hp, Nat.le_succ_of_le (binding_le_call _), hb⟩

theorem gets_integer (hs : c.Sees ws) (hk : c.current.kind = .int) :
    (integer : Rule σ Expr).Gets c (HasPickedOperand ws) := by
  refine gets_current ?_
  obtain ⟨vs, rfl⟩ := hs.exists_cons hk (by decide)
  split
  · rename_i v hv
    exact gets_pure (hasPickedOperand_atom ⟨[_], 1, .int hk hv, List.Sublist.refl _⟩ hs.behind)
  · exact gets_nothing rfl

theorem gets_unary (h : PicksExpressions inner) (hs : c.Sees ws)
    (hk : c.current.kind = .bang ∨ c.current.kind = .minus) :
    (unary inner).Gets c (HasPickedOperand ws) := by
  obtain ⟨vs, rfl⟩ := hs.exists_cons rfl (by rcases hk with hk | hk <;> rw [hk] <;> decide)
  have hoperand := h.gets (p := 6) (by decide) (by decide) hs.behind.advance
  refine gets_current (gets_advance (hoperand.bind ?_))
  rintro e c' ⟨rest, ⟨xs, d, hd, hx⟩, hle, hb⟩
  exact gets_pure ⟨6, by omega, rest, ⟨_ :: xs, _, .unary hk hd, hx.append_left [_]⟩, hle, hb⟩

theorem gets_grouped (h : PicksExpressions inner) (hs : c.Sees ws)
    (hk : c.current.word.kind = .leftParen) : (grouped inner).Gets c (HasPickedOperand ws) := by
  obtain ⟨vs, rfl⟩ := hs.exists_cons hk (by decide)
  refine gets_advance ((h.lowest hs.behind.advance).bind ?_)
  rintro e c' ⟨rest, ⟨xs, d, hd, hx⟩, -, hb⟩
  refine gets_expect fun hp => gets_pure ?_
  obtain ⟨us, rfl⟩ := hb.exists_cons hp (by decide)
  exact hasPickedOperand_atom ⟨_, _, .group hk hd hp, by simpa using hx⟩ hb.advance.behind

theorem gets_conditional (h : PicksExpressions inner) (hs : c.Sees ws)
    (hk : c.current.word.kind = .ifWord) : (conditional inner).Gets c (HasPickedOperand ws) := by
  obtain ⟨vs, rfl⟩ := hs.exists_cons hk (by decide)
  rw [conditional_eq]
  refine gets_expect fun hl => ?_
  obtain ⟨us, rfl⟩ := hs.behind.exists_cons hl (by decide)
  refine gets_advance ((h.lowest hs.behind.advance.behind.advance).bind ?_)
  rintro test c1 ⟨rest, ⟨ts, d, hd, ht⟩, -, hb⟩
  refine gets_expect fun hp => gets_expect fun hbr => ?_
  obtain ⟨rest, rfl⟩ := hb.exists_cons hp (by decide)
  have hb := hb.advance.behind
  obtain ⟨rest, rfl⟩ := hb.exists_cons hbr (by decide)
  refine (gets_block h hb.advance.behind).bind ?_
  rintro yes c2 ⟨z, rest, hz, ⟨ys, m, hm, hy⟩, hb⟩
  -- The words of the test and of the first block, before what is behind them.
  have hyes := (hy.append_left (ts ++ [c1.peek.word, c1.advance.peek.word])).trans
    (by simpa using ht)
  refine gets_peek ?_
  split
  · rename_i helse
    obtain ⟨rest, rfl⟩ := hb.exists_cons helse (by decide)
    refine gets_advance (gets_expect fun hbr' => ?_)
    have hb := hb.advance.behind
    obtain ⟨rest, rfl⟩ := hb.exists_cons hbr' (by decide)
    refine (gets_block h hb.advance.behind).bind ?_
    rintro no c3 ⟨y, rest, hy', ⟨ns, k, hn, hno⟩, hb⟩
    have helse : c2.peek.word.kind = .elseWord := helse
    refine gets_pure (hasPickedOperand_atom
      ⟨_, _, .ifElse hk hl hd hp hbr hm hz helse hbr' hn hy', ?_⟩ hb)
    have hall := (hno.append_left (ts ++ [c1.peek.word, c1.advance.peek.word] ++ ys ++
      [z, c2.peek.word, c2.advance.peek.word])).trans (by simpa using hyes)
    simpa using hall
  · refine gets_pure (hasPickedOperand_atom ⟨_, _, .ifThen hk hl hd hp hbr hm hz, ?_⟩ hb)
    simpa using hyes

theorem gets_moreParameters (rounds : Nat) (hb : c.Behind ws) :
    (moreParameters rounds : Rule σ (List Text)).Gets c (fun names c' =>
      ∃ xs z rest, ws = xs ++ z :: rest ∧ z.kind = .rightParen ∧ MoreParameters xs names ∧
        c'.Behind rest) := by
  induction rounds generalizing c ws with
  | zero => exact gets_nothing rfl
  | succ rounds ih =>
    refine gets_peek ?_
    split
    · rename_i hk
      obtain ⟨vs, rfl⟩ := hb.exists_cons hk (by decide)
      have hb1 := hb.advance.behind
      refine gets_advance (gets_expect fun hi => ?_)
      obtain ⟨us, rfl⟩ := hb1.exists_cons hi (by decide)
      refine (ih hb1.advance.behind).bind ?_
      rintro names c' ⟨xs, z, rest, rfl, hz, hm, hb'⟩
      exact gets_pure ⟨_ :: _ :: xs, z, rest, rfl, hz, .next hk hi hm, hb'⟩
    · refine gets_expect fun hz => gets_pure ?_
      obtain ⟨vs, rfl⟩ := hb.exists_cons hz (by decide)
      exact ⟨[], _, vs, rfl, hz, .last, hb.advance.behind⟩

theorem gets_parameters (hb : c.Behind ws) :
    (parameters : Rule σ (List Text)).Gets c (fun names c' =>
      ∃ xs z rest, ws = xs ++ z :: rest ∧ z.kind = .rightParen ∧ Parameters xs names ∧
        c'.Behind rest) := by
  refine gets_peek ?_
  split
  · rename_i hz
    obtain ⟨vs, rfl⟩ := hb.exists_cons hz (by decide)
    exact gets_advance (gets_pure ⟨[], _, vs, rfl, hz, .none, hb.advance.behind⟩)
  · refine gets_expect fun hi => ?_
    obtain ⟨vs, rfl⟩ := hb.exists_cons hi (by decide)
    refine gets_remaining ((gets_moreParameters _ hb.advance.behind).bind ?_)
    rintro names c' ⟨xs, z, rest, rfl, hz, hm, hb'⟩
    exact gets_pure ⟨_ :: xs, z, rest, rfl, hz, .some hi hm, hb'⟩

theorem gets_function (h : PicksExpressions inner) (hs : c.Sees ws)
    (hk : c.current.word.kind = .functionWord) :
    (function inner).Gets c (HasPickedOperand ws) := by
  obtain ⟨vs, rfl⟩ := hs.exists_cons hk (by decide)
  refine gets_expect fun hl => ?_
  obtain ⟨us, rfl⟩ := hs.behind.exists_cons hl (by decide)
  refine (gets_parameters hs.behind.advance.behind).bind ?_
  rintro params c1 ⟨ps, r, rest, rfl, hr, hp, hb⟩
  refine gets_expect fun hbr => ?_
  obtain ⟨rest, rfl⟩ := hb.exists_cons hbr (by decide)
  refine (gets_block h hb.advance.behind).bind ?_
  rintro body c2 ⟨z, rest, hz, ⟨bs, d, hd, hy⟩, hb⟩
  refine gets_pure (hasPickedOperand_atom ⟨_, _, .fn hk hl hp hr hbr hd hz, ?_⟩ hb)
  simpa using hy

theorem gets_operand (h : PicksExpressions inner) (hs : c.Sees ws) :
    (operand inner).Gets c (HasPickedOperand ws) := by
  have hword : ∀ {e : Expr}, c.current.kind ≠ .eof →
      Derives .loose (.expr 8) [c.current.word] e 1 → HasPickedOperand ws e c := by
    intro e hk hd
    obtain ⟨vs, rfl⟩ := hs.exists_cons rfl hk
    exact hasPickedOperand_atom ⟨[_], 1, hd, List.Sublist.refl _⟩ hs.behind
  refine gets_current ?_
  split
  · rename_i hk
    exact gets_pure (hword (by simp [hk]) (.ident hk))
  · rename_i hk
    exact gets_integer hs hk
  · rename_i hk
    exact gets_pure (hword (by simp [hk]) (.yes hk))
  · rename_i hk
    exact gets_pure (hword (by simp [hk]) (.no hk))
  · rename_i hk
    exact gets_unary h hs (Or.inl hk)
  · rename_i hk
    exact gets_unary h hs (Or.inr hk)
  · rename_i hk
    exact gets_grouped h hs hk
  · rename_i hk
    exact gets_conditional h hs hk
  · rename_i hk
    exact gets_function h hs hk
  · exact gets_nothing rfl
  · exact gets_nothing rfl

/-! ## Operators -/

theorem gets_moreArguments (h : PicksExpressions inner) (rounds : Nat) (hb : c.Behind ws) :
    (moreArguments inner rounds).Gets c (HasPickedTo .moreArguments .rightParen ws) := by
  induction rounds generalizing c ws with
  | zero => exact gets_nothing rfl
  | succ rounds ih =>
    refine gets_peek ?_
    split
    · rename_i hk
      obtain ⟨vs, rfl⟩ := hb.exists_cons hk (by decide)
      refine gets_advance (gets_advance ((h.lowest hb.advance.behind.advance).bind ?_))
      rintro e c1 ⟨us, ⟨xs, d, hd, hx⟩, -, hb1⟩
      refine (ih hb1).bind ?_
      rintro es c2 ⟨z, rest, hz, ⟨ys, m, hm, hy⟩, hb2⟩
      have hk : c.peek.word.kind = .comma := hk
      refine gets_pure ⟨z, rest, hz, ⟨_, _, .nextArgument hk hd hm, ?_⟩, hb2⟩
      have hall := (hy.append_left xs).trans hx
      simpa using hall
    · refine gets_expect fun hz => gets_pure ?_
      obtain ⟨vs, rfl⟩ := hb.exists_cons hz (by decide)
      exact ⟨_, vs, hz, ⟨[], 0, .lastArgument, List.Sublist.refl _⟩, hb.advance.behind⟩

theorem gets_arguments (h : PicksExpressions inner) (hb : c.Behind ws) :
    (arguments inner).Gets c (HasPickedTo .arguments .rightParen ws) := by
  refine gets_peek ?_
  split
  · rename_i hz
    obtain ⟨vs, rfl⟩ := hb.exists_cons hz (by decide)
    exact gets_advance (gets_pure
      ⟨_, vs, hz, ⟨[], 0, .noArguments, List.Sublist.refl _⟩, hb.advance.behind⟩)
  · refine gets_advance ((h.lowest hb.advance).bind ?_)
    rintro e c1 ⟨us, ⟨xs, d, hd, hx⟩, -, hb1⟩
    refine gets_remaining ((gets_moreArguments h _ hb1).bind ?_)
    rintro es c2 ⟨z, rest, hz, ⟨ys, m, hm, hy⟩, hb2⟩
    refine gets_pure ⟨z, rest, hz, ⟨_, _, .someArguments hd hm, ?_⟩, hb2⟩
    rw [List.append_assoc]
    exact (hy.append_left xs).trans hx

/-- What the loop over operators has picked so far: an expression of a layer at least as tight as
what is asked for, behind which no operator of a tighter layer stands. -/
def HasPickedLeft (strength : Nat) (ws : List Word) (left : Expr) (rest : List Word) : Prop :=
  ∃ layer, Picks (.expr layer) ws rest left ∧ layerAbove strength ≤ layer ∧
    (front rest).binding ≤ layer

theorem gets_operation (h : PicksExpressions inner) {p : Nat} (hp : 1 ≤ p) {left : Expr}
    {rest : List Word} {w : Word} (hleft : HasPickedLeft p ws left (w :: rest))
    (hlt : p < w.kind.binding) (hs : c.Sees (w :: rest)) :
    (operation inner left).Gets c (fun e c' =>
      ∃ rest', HasPickedLeft p ws e rest' ∧ c'.Behind rest' ∧ rest'.length ≤ rest.length) := by
  obtain ⟨layer, ⟨xs, d, hd, hx⟩, hlayer, hfront⟩ := hleft
  have hkind : c.current.kind = w.kind := hs.kind
  rw [front_cons] at hfront
  refine gets_current ?_
  split
  · rename_i hk
    rw [hkind] at hk
    have h7 : 7 ≤ layer := by rw [hk] at hfront; exact hfront
    refine (gets_arguments h hs.behind).bind ?_
    rintro args c' ⟨r, rest', hz, ⟨as, m, hm, ha⟩, hb⟩
    have hall := (ha.append_left (xs ++ [w])).trans (by simpa using hx)
    refine gets_pure ⟨rest', ⟨7, ⟨_, _, .call (hd.down h7) hk hm hz, by simpa using hall⟩, ?_,
      binding_le_call _⟩, hb, ?_⟩
    · unfold layerAbove
      omega
    · have hle := ha.length_le
      simp only [List.length_append, List.length_cons] at hle
      omega
  · rename_i hk
    rw [hkind] at hk
    rcases mem_layerOperators_of_binding (k := w.kind) (Nat.lt_of_le_of_lt hp hlt) with hk' | hmem
    · exact absurd hk' hk
    have hrange := (binding_of_mem_layerOperators hmem).2
    have habove : layerAbove w.kind.binding = w.kind.binding + 1 := by
      unfold layerAbove
      omega
    refine gets_advance ((h.gets (p := c.current.kind.binding) (by rw [hkind]; omega)
      (by rw [hkind]; omega) hs.behind.advance).bind ?_)
    rintro e c' ⟨rest', ⟨ys, m, hm, hy⟩, hle, hb⟩
    rw [hkind, habove] at hm
    rw [hkind] at hle
    have hbin := Derives.binary (hd.down hfront) hmem hm
    rw [show w.literal = c.current.literal by rw [← hs.word]; rfl] at hbin
    have hall := (hy.append_left (xs ++ [w])).trans (by simpa using hx)
    refine gets_pure ⟨rest', ⟨w.kind.binding, ⟨_, _, hbin, by simpa using hall⟩, ?_, hle⟩, hb, ?_⟩
    · unfold layerAbove
      omega
    · have hle := hy.length_le
      simp only [List.length_append] at hle
      omega

theorem gets_operations (h : PicksExpressions inner) {p : Nat} (hp : 1 ≤ p) (rounds : Nat)
    {left : Expr} {rest : List Word} (hleft : HasPickedLeft p ws left rest) (hb : c.Behind rest)
    (hn : rest.length < rounds) :
    (operations inner p rounds left).Gets c
      (HasPicked (.expr (layerAbove p)) (fun k => k.binding ≤ p) ws) := by
  induction rounds generalizing c left rest with
  | zero => omega
  | succ rounds ih =>
    refine gets_peek ?_
    split
    · rename_i hlt
      have hne : c.peek.kind ≠ .eof := by
        intro he
        rw [he] at hlt
        exact absurd hlt (Nat.not_lt.mpr hp)
      obtain ⟨vs, rfl⟩ := hb.exists_cons rfl hne
      refine gets_advance ((gets_operation h hp hleft hlt hb.advance).bind ?_)
      rintro e c' ⟨rest', hleft', hb', hle⟩
      simp only [List.length_cons] at hn
      exact ih hleft' hb' (by omega)
    · rename_i hle
      obtain ⟨layer, hpicks, hlayer, -⟩ := hleft
      refine gets_pure ⟨rest, hpicks.down hlayer, ?_, hb⟩
      rw [← hb.kind]
      exact Nat.le_of_not_lt hle

/-- Every expression that is read is picked from the words, whatever was wrong inside it. -/
theorem picksExpressions (room : Nat) : PicksExpressions (expression room : Inner σ) := by
  refine ⟨?_, fun h p c hc => keeps_expression h room p hc⟩
  induction room with
  | zero => exact fun _ _ _ => gets_nothing rfl
  | succ room ih =>
    intro p c ws hp hp' hs
    have hinner : PicksExpressions (expression room : Inner σ) :=
      ⟨ih, fun h p c hc => keeps_expression h room p hc⟩
    refine (gets_operand hinner hs).bind ?_
    rintro e c' ⟨layer, hlayer, rest, hpicks, hle, hb⟩
    refine gets_remaining (gets_operations hinner hp _ ⟨layer, hpicks, ?_, hle⟩ hb hb.length_lt)
    unfold layerAbove
    omega

/-! ## Programs -/

theorem picks_statements (rounds : Nat) (hs : c.Sees ws) :
    Picks .statements ws [] (statements rounds c).1 := by
  induction rounds generalizing c ws with
  | zero => exact ⟨[], 0, .nil, List.nil_sublist ws⟩
  | succ rounds ih =>
    by_cases hk : c.current.kind = .eof
    · rw [statements_end _ hk]
      exact ⟨[], 0, .nil, List.nil_sublist ws⟩
    · rw [statements_step _ hk]
      obtain ⟨vs, hv, hfirst⟩ := picks_first (picksExpressions maxNesting) hs
      exact hfirst _ _ (ih hv)

end Grammar

/-- Whatever is wrong with a source, the program that is read is the tree of some of its words, in
the order in which they stand. -/
theorem ofSource_derives_some {σ : Type} [TokenSource σ] {s : σ} {ts : List Token}
    (hg : TokenSource.Gives s ts) : ∃ ws d, ws.Sublist (ts.map Token.word) ∧
      Derives .loose .statements ws (Program.ofSource s).program.statements d := by
  obtain ⟨ws, d, hd, hws⟩ := Grammar.picks_statements (Cursor.ofSource s).remaining
    (Cursor.Sees.ofSource hg)
  rw [List.append_nil] at hws
  exact ⟨ws, d, hws, hd⟩

end Borealis
