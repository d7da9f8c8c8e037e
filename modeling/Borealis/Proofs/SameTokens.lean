-- Reading depends on the tokens alone, and not on where they come from. Two
-- sources that give the same tokens, and the same end token for ever, are
-- read to the same tree with the same complaints. Their bounds may differ:
-- both leave every loop more rounds than it needs.
import Borealis.Proofs.Complaints
import Borealis.Proofs.Pieces

namespace Borealis

open TokenSource (Streams)

variable {σ τ : Type} [TokenSource σ] [TokenSource τ]

/-! ## Cursors on the same tokens -/

namespace Cursor

/-- The two cursors have the same tokens ahead, and the same was noted on the way to them. -/
structure Twins (ts : List Token) (c : Cursor σ) (c' : Cursor τ) : Prop where
  ahead : ∃ s s' last, c.Window s ∧ c'.Window s' ∧ Streams s ts last ∧ Streams s' ts last
  diagnostics : c.diagnostics = c'.diagnostics
  abandoned : c.abandoned = c'.abandoned

theorem twins_ofSource {s : σ} {s' : τ} {ts : List Token} {last : Token} (h : Streams s ts last)
    (h' : Streams s' ts last) : Twins ts (ofSource s) (ofSource s') :=
  ⟨⟨s, s', last, window_ofSource s, window_ofSource s', h, h'⟩, rfl, rfl⟩

namespace Twins

variable {ts : List Token} {c : Cursor σ} {c' : Cursor τ}

theorem current (h : Twins ts c c') : c.current = c'.current := by
  obtain ⟨s, s', last, hw, hw', hs, hs'⟩ := h.ahead
  rw [hw.current, hw'.current, hs.next_eq, hs'.next_eq]

theorem advance (h : Twins ts c c') : Twins ts.tail c.advance c'.advance := by
  obtain ⟨s, s', last, hw, hw', hs, hs'⟩ := h.ahead
  exact ⟨⟨_, _, last, hw.advance, hw'.advance, hs.tail, hs'.tail⟩, h.diagnostics, h.abandoned⟩

theorem peek (h : Twins ts c c') : c.peek = c'.peek := h.advance.current

theorem sees (h : Twins ts c c') :
    c.Sees (ts.map Token.word) ∧ c'.Sees (ts.map Token.word) := by
  obtain ⟨s, s', last, hw, hw', hs, hs'⟩ := h.ahead
  exact ⟨⟨s, ts, hw, hs.gives, rfl⟩, ⟨s', ts, hw', hs'.gives, rfl⟩⟩

/-- Both bounds are larger than what is ahead. -/
theorem length_lt (h : Twins ts c c') : ts.length < c.remaining ∧ ts.length < c'.remaining := by
  have hlt := h.sees.1.length_lt
  have hlt' := h.sees.2.length_lt
  rw [List.length_map] at hlt hlt'
  exact ⟨hlt, hlt'⟩

theorem length_pos (h : Twins ts c c') (hk : c.current.kind ≠ .eof) : 0 < ts.length := by
  cases ts with
  | nil => exact absurd h.sees.1.kind hk
  | cons t ts => exact Nat.succ_pos _

/-- Where the next token is not the end token, there is one token less ahead of it. -/
theorem length_tail_lt (h : Twins ts c c') (hk : c.peek.kind ≠ .eof) :
    ts.tail.length < ts.length := by
  have hpos := h.advance.length_pos hk
  rw [List.length_tail] at hpos ⊢
  omega

theorem complain (h : Twins ts c c') (about : Token) (what : Complaint) :
    Twins ts (c.complain about what) (c'.complain about what) := by
  obtain ⟨s, s', last, hw, hw', hs, hs'⟩ := h.ahead
  unfold Cursor.complain
  rw [← h.abandoned]
  split
  · exact h
  · refine ⟨⟨s, s', last, ⟨hw.current, hw.peek, hw.source⟩,
      ⟨hw'.current, hw'.peek, hw'.source⟩, hs, hs'⟩, ?_, rfl⟩
    rw [h.diagnostics]

theorem toEnd (h : Twins ts c c') {n n' : Nat} (hn : ts.length ≤ n) (hn' : ts.length ≤ n') :
    Twins [] (toEnd n c) (toEnd n' c') := by
  induction ts generalizing c c' n n' with
  | nil =>
    have hstays : ∀ {ρ : Type} [TokenSource ρ] (m : Nat) {d : Cursor ρ}, d.Sees [] →
        Cursor.toEnd m d = d := by
      intro ρ _ m d hd
      cases m with
      | zero => rfl
      | succ m => exact if_pos hd.kind
    rw [hstays n h.sees.1, hstays n' h.sees.2]
    exact h
  | cons t ts ih =>
    obtain ⟨n, rfl⟩ := Nat.exists_eq_succ_of_ne_zero (Nat.ne_zero_of_lt hn)
    obtain ⟨n', rfl⟩ := Nat.exists_eq_succ_of_ne_zero (Nat.ne_zero_of_lt hn')
    have hk : c.current.kind ≠ .eof := by
      rw [h.sees.1.kind]
      exact h.sees.1.ne_eof
    have hk' : c'.current.kind ≠ .eof := by rwa [← h.current]
    unfold Cursor.toEnd
    rw [if_neg hk, if_neg hk']
    exact ih h.advance (Nat.le_of_succ_le_succ hn) (Nat.le_of_succ_le_succ hn')

theorem abandon (h : Twins ts c c') (what : Complaint) :
    Twins [] (c.abandon what) (c'.abandon what) := by
  have hnoted := h.complain c.current what
  obtain ⟨s, s', last, hw, hw', hs, hs'⟩ := hnoted.ahead
  unfold Cursor.abandon
  rw [← h.current]
  have hgiven : Twins ts { c.complain c.current what with abandoned := true }
      { c'.complain c.current what with abandoned := true } :=
    ⟨⟨s, s', last, ⟨hw.current, hw.peek, hw.source⟩, ⟨hw'.current, hw'.peek, hw'.source⟩, hs, hs'⟩,
      hnoted.diagnostics, rfl⟩
  exact hgiven.toEnd (Nat.le_of_lt h.length_lt.1) (Nat.le_of_lt h.length_lt.2)

end Twins

end Cursor

/-! ## Rules on the same tokens -/

namespace Rule

open Cursor (Twins)

variable {α β : Type} {c : Cursor σ} {c' : Cursor τ} {r : Rule σ α} {r' : Rule τ α}
  {n m : Nat} {ts : List Token}

/-- On these two cursors the rules give the same, and leave the same tokens ahead, at most `n`. -/
def AgreeAt (n : Nat) (c : Cursor σ) (c' : Cursor τ) (r : Rule σ α) (r' : Rule τ α) : Prop :=
  (r c).1 = (r' c').1 ∧ ∃ us, us.length ≤ n ∧ Twins us (r c).2 (r' c').2

/-- The rules give the same wherever the same tokens are ahead, and never go back. -/
def Agree (r : Rule σ α) (r' : Rule τ α) : Prop :=
  ∀ ts c c', Twins ts c c' → AgreeAt ts.length c c' r r'

theorem AgreeAt.mono (h : AgreeAt n c c' r r') (hn : n ≤ m) : AgreeAt m c c' r r' := by
  obtain ⟨hresult, us, hle, htwins⟩ := h
  exact ⟨hresult, us, Nat.le_trans hle hn, htwins⟩

theorem AgreeAt.bind {f : α → Rule σ β} {f' : α → Rule τ β} (h : AgreeAt n c c' r r')
    (hf : ∀ a us c₁ c₁', us.length ≤ n → Twins us c₁ c₁' → AgreeAt us.length c₁ c₁' (f a) (f' a)) :
    AgreeAt n c c' (r >>= f) (r' >>= f') := by
  obtain ⟨hresult, us, hle, htwins⟩ := h
  rcases hr : r c with ⟨o, c₁⟩
  rcases hr' : r' c' with ⟨o', c₁'⟩
  rw [hr, hr'] at hresult htwins
  obtain rfl : o = o' := hresult
  cases o with
  | none =>
    unfold AgreeAt
    rw [bind_of_none hr, bind_of_none hr']
    exact ⟨rfl, us, hle, htwins⟩
  | some a =>
    unfold AgreeAt
    rw [bind_of_some hr, bind_of_some hr']
    exact (hf a us c₁ c₁' hle htwins).mono hle

/-- Rules that agree everywhere agree wherever others have led. -/
theorem AgreeAt.bind_agree {f : α → Rule σ β} {f' : α → Rule τ β} (h : AgreeAt n c c' r r')
    (hf : ∀ a, Agree (f a) (f' a)) : AgreeAt n c c' (r >>= f) (r' >>= f') :=
  h.bind fun a us c₁ c₁' _ htwins => hf a us c₁ c₁' htwins

theorem Agree.bind {f : α → Rule σ β} {f' : α → Rule τ β} (h : Agree r r')
    (hf : ∀ a, Agree (f a) (f' a)) : Agree (r >>= f) (r' >>= f') :=
  fun ts c c' hc => (h ts c c' hc).bind_agree hf

theorem Agree.attempt (h : Agree r r') : Agree (attempt r) (attempt r') := by
  intro ts c c' hc
  obtain ⟨hresult, hleft⟩ := h ts c c' hc
  exact ⟨congrArg some hresult, hleft⟩

theorem agree_pure (a : α) : Agree (pure a : Rule σ α) (pure a : Rule τ α) :=
  fun ts _ _ hc => ⟨rfl, ts, Nat.le_refl _, hc⟩

theorem agree_current : Agree (current : Rule σ Token) (current : Rule τ Token) :=
  fun ts _ _ hc => ⟨congrArg some hc.current, ts, Nat.le_refl _, hc⟩

theorem agree_peek : Agree (peek : Rule σ Token) (peek : Rule τ Token) :=
  fun ts _ _ hc => ⟨congrArg some hc.peek, ts, Nat.le_refl _, hc⟩

theorem agree_reject (about : Token) (what : Complaint) :
    Agree (reject about what : Rule σ α) (reject about what : Rule τ α) :=
  fun ts _ _ hc => ⟨rfl, ts, Nat.le_refl _, hc.complain about what⟩

theorem agree_giveUp (what : Complaint) :
    Agree (giveUp what : Rule σ α) (giveUp what : Rule τ α) :=
  fun _ _ _ hc => ⟨rfl, [], Nat.zero_le _, hc.abandon what⟩

theorem agree_advance : Agree (advance : Rule σ Unit) (advance : Rule τ Unit) :=
  fun ts _ _ hc => ⟨rfl, ts.tail, by simp, hc.advance⟩

theorem agree_expect (kind : TokenKind) :
    Agree (expect kind : Rule σ Token) (expect kind : Rule τ Token) := by
  intro ts c c' hc
  unfold AgreeAt expect
  rw [← hc.peek]
  split
  · exact ⟨rfl, ts.tail, by simp, hc.advance⟩
  · exact ⟨rfl, ts, Nat.le_refl _, hc.complain _ _⟩

theorem agree_skip (kind : TokenKind) :
    Agree (skip kind : Rule σ Unit) (skip kind : Rule τ Unit) := by
  intro ts c c' hc
  unfold AgreeAt skip
  rw [← hc.peek]
  split
  · exact ⟨rfl, ts.tail, by simp, hc.advance⟩
  · exact ⟨rfl, ts, Nat.le_refl _, hc⟩

/-- A rule that looks at the current token finds the same one. -/
theorem agreeAt_current {f : Token → Rule σ α} {f' : Token → Rule τ α} (hc : Twins ts c c')
    (h : AgreeAt n c c' (f c.current) (f' c.current)) :
    AgreeAt n c c' (current >>= f) (current >>= f') := by
  have hsame : f' c.current = f' c'.current := by rw [hc.current]
  rw [hsame] at h
  exact h

theorem agreeAt_peek {f : Token → Rule σ α} {f' : Token → Rule τ α} (hc : Twins ts c c')
    (h : AgreeAt n c c' (f c.peek) (f' c.peek)) :
    AgreeAt n c c' (peek >>= f) (peek >>= f') := by
  have hsame : f' c.peek = f' c'.peek := by rw [hc.peek]
  rw [hsame] at h
  exact h

theorem agreeAt_advance {f : Unit → Rule σ α} {f' : Unit → Rule τ α}
    (h : AgreeAt n c.advance c'.advance (f ()) (f' ())) :
    AgreeAt n c c' (advance >>= f) (advance >>= f') := h

/-- A loop that takes its rounds from the bound has more of them than there are tokens ahead. -/
theorem agree_remaining {f : Nat → Rule σ α} {f' : Nat → Rule τ α}
    (h : ∀ {ts c c' rounds rounds'}, Twins ts c c' → ts.length < rounds → ts.length < rounds' →
      AgreeAt ts.length c c' (f rounds) (f' rounds')) :
    Agree (remaining >>= f) (remaining >>= f') :=
  fun _ _ _ hc => h hc hc.length_lt.1 hc.length_lt.2

end Rule

/-! ## The grammar on the same tokens -/

namespace Grammar

open Rule
open Cursor (Twins)

variable {inner : Inner σ} {inner' : Inner τ} {c : Cursor σ} {c' : Cursor τ} {ts : List Token}
  {rounds rounds' : Nat}

/-- The rules for the expressions inside agree, at every strength that an expression can have. At
a lower one the end token would count as an operator. -/
def Agreeing (inner : Inner σ) (inner' : Inner τ) : Prop :=
  ∀ strength, Binding.lowest ≤ strength → Agree (inner strength) (inner' strength)

theorem Agreeing.lowest (h : Agreeing inner inner') :
    Agree (inner Binding.lowest) (inner' Binding.lowest) := h _ (Nat.le_refl _)

theorem agree_terminator (s : Stmt) :
    Agree (skip .semicolon >>= fun _ => pure s : Rule σ Stmt)
      (skip .semicolon >>= fun _ => pure s : Rule τ Stmt) :=
  (agree_skip _).bind fun _ => agree_pure s

theorem agree_statement (h : Agreeing inner inner') :
    Agree (statement inner) (statement inner') := by
  refine agree_current.bind fun here => ?_
  split
  · refine (agree_expect _).bind fun name => (agree_expect _).bind fun _ => ?_
    exact agree_advance.bind fun _ => h.lowest.bind fun e => agree_terminator _
  · exact agree_advance.bind fun _ => h.lowest.bind fun e => agree_terminator _
  · exact h.lowest.bind fun e => agree_terminator _

theorem agree_blockStatements (h : Agreeing inner inner') (hc : Twins ts c c')
    (hn : ts.length < rounds) (hn' : ts.length < rounds') :
    AgreeAt ts.length c c' (blockStatements inner rounds) (blockStatements inner' rounds') := by
  induction rounds generalizing rounds' ts c c' with
  | zero => omega
  | succ rounds ih =>
    obtain ⟨rounds', rfl⟩ := Nat.exists_eq_succ_of_ne_zero (Nat.ne_zero_of_lt hn')
    refine agreeAt_current hc ?_
    split
    · exact agree_pure [] ts c c' hc
    · exact agree_reject _ _ ts c c' hc
    · rename_i hk
      have hpos := hc.length_pos hk
      refine ((agree_statement h).attempt ts c c' hc).bind fun first us c₁ c₁' hle hc₁ => ?_
      have hlength : us.tail.length ≤ us.length := by simp
      have hless : us.tail.length < ts.length := by
        rw [List.length_tail]
        omega
      refine agreeAt_advance (AgreeAt.mono ?_ hlength)
      exact (ih hc₁.advance (by omega) (by omega)).bind_agree fun others => agree_pure _

theorem agree_block (h : Agreeing inner inner') :
    Agree (block inner) (block inner') :=
  agree_advance.bind fun _ => agree_remaining (agree_blockStatements h)

theorem agree_integer : Agree (integer : Rule σ Expr) (integer : Rule τ Expr) := by
  refine agree_current.bind fun here => ?_
  split
  · exact agree_pure _
  · exact agree_reject _ _

theorem agree_conditional (h : Agreeing inner inner') :
    Agree (conditional inner) (conditional inner') := by
  refine (agree_expect _).bind fun _ => agree_advance.bind fun _ => h.lowest.bind fun test => ?_
  refine (agree_expect _).bind fun _ => (agree_expect _).bind fun _ => ?_
  refine (agree_block h).bind fun yes => agree_peek.bind fun next => ?_
  split
  · refine agree_advance.bind fun _ => (agree_expect _).bind fun _ => ?_
    exact (agree_block h).bind fun no => agree_pure _
  · exact agree_pure _

theorem agree_moreParameters (hc : Twins ts c c') (hn : ts.length < rounds)
    (hn' : ts.length < rounds') :
    AgreeAt ts.length c c' (moreParameters rounds) (moreParameters rounds') := by
  induction rounds generalizing rounds' ts c c' with
  | zero => omega
  | succ rounds ih =>
    obtain ⟨rounds', rfl⟩ := Nat.exists_eq_succ_of_ne_zero (Nat.ne_zero_of_lt hn')
    refine agreeAt_peek hc ?_
    split
    · rename_i hk
      have hless := hc.length_tail_lt (by simp [hk])
      refine agreeAt_advance (AgreeAt.mono ?_ (Nat.le_of_lt hless))
      refine (agree_expect _ _ _ _ hc.advance).bind fun name us c₁ c₁' hle hc₁ => ?_
      exact (ih hc₁ (by omega) (by omega)).bind_agree fun others => agree_pure _
    · exact (agree_expect _).bind (fun _ => agree_pure []) ts c c' hc

theorem agree_parameters : Agree (parameters : Rule σ (List Text)) (parameters : Rule τ _) := by
  refine agree_peek.bind fun next => ?_
  split
  · exact agree_advance.bind fun _ => agree_pure []
  · refine (agree_expect _).bind fun name => agree_remaining fun hc hn hn' => ?_
    exact (agree_moreParameters hc hn hn').bind_agree fun others => agree_pure _

theorem agree_operand (h : Agreeing inner inner') :
    Agree (operand inner) (operand inner') := by
  have hunary : Agree (unary inner) (unary inner') :=
    agree_current.bind fun op => agree_advance.bind fun _ =>
      (h Binding.unary (by decide)).bind fun e => agree_pure _
  refine agree_current.bind fun here => ?_
  split
  · exact agree_pure _
  · exact agree_integer
  · exact agree_pure _
  · exact agree_pure _
  · exact hunary
  · exact hunary
  · refine agree_advance.bind fun _ => h.lowest.bind fun e => ?_
    exact (agree_expect _).bind fun _ => agree_pure _
  · exact agree_conditional h
  · refine (agree_expect _).bind fun _ => agree_parameters.bind fun params => ?_
    exact (agree_expect _).bind fun _ => (agree_block h).bind fun body => agree_pure _
  · exact agree_reject _ _
  · exact agree_reject _ _

theorem agree_moreArguments (h : Agreeing inner inner') (hc : Twins ts c c')
    (hn : ts.length < rounds) (hn' : ts.length < rounds') :
    AgreeAt ts.length c c' (moreArguments inner rounds) (moreArguments inner' rounds') := by
  induction rounds generalizing rounds' ts c c' with
  | zero => omega
  | succ rounds ih =>
    obtain ⟨rounds', rfl⟩ := Nat.exists_eq_succ_of_ne_zero (Nat.ne_zero_of_lt hn')
    refine agreeAt_peek hc ?_
    split
    · rename_i hk
      have hless := hc.length_tail_lt (by simp [hk])
      refine agreeAt_advance (AgreeAt.mono ?_ (Nat.le_of_lt hless))
      refine (agree_advance.bind fun _ => h.lowest) _ _ _ hc.advance |>.bind
        fun e us c₁ c₁' hle hc₁ => ?_
      exact (ih hc₁ (by omega) (by omega)).bind_agree fun others => agree_pure _
    · exact (agree_expect _).bind (fun _ => agree_pure []) ts c c' hc

theorem agree_arguments (h : Agreeing inner inner') :
    Agree (arguments inner) (arguments inner') := by
  refine agree_peek.bind fun next => ?_
  split
  · exact agree_advance.bind fun _ => agree_pure []
  · refine agree_advance.bind fun _ => h.lowest.bind fun e => agree_remaining fun hc hn hn' => ?_
    exact (agree_moreArguments h hc hn hn').bind_agree fun others => agree_pure _

theorem agree_operation (h : Agreeing inner inner') (left : Expr) :
    Agree (operation inner left) (operation inner' left) := by
  refine agree_current.bind fun op => ?_
  split
  · exact (agree_arguments h).bind fun args => agree_pure _
  · refine agree_advance.bind fun _ => (h _ op.kind.lowest_le_binding).bind fun right => ?_
    exact agree_pure _

theorem agree_operations (h : Agreeing inner inner') (strength : Nat) (left : Expr)
    (hs : Binding.lowest ≤ strength) (hc : Twins ts c c') (hn : ts.length < rounds)
    (hn' : ts.length < rounds') :
    AgreeAt ts.length c c' (operations inner strength rounds left)
      (operations inner' strength rounds' left) := by
  induction rounds generalizing rounds' ts c c' left with
  | zero => omega
  | succ rounds ih =>
    obtain ⟨rounds', rfl⟩ := Nat.exists_eq_succ_of_ne_zero (Nat.ne_zero_of_lt hn')
    refine agreeAt_peek hc ?_
    split
    · rename_i hk
      have hless := hc.length_tail_lt fun heof => by
        rw [heof] at hk
        exact absurd hk (Nat.not_lt.mpr hs)
      refine agreeAt_advance (AgreeAt.mono ?_ (Nat.le_of_lt hless))
      refine (agree_operation h left _ _ _ hc.advance).bind fun e us c₁ c₁' hle hc₁ => ?_
      exact ih e hc₁ (by omega) (by omega)
    · exact agree_pure _ ts c c' hc

theorem agreeing_expression (room : Nat) :
    Agreeing (expression room : Inner σ) (expression room : Inner τ) := by
  induction room with
  | zero => exact fun _ _ => agree_giveUp _
  | succ room ih =>
    intro strength hs
    refine (agree_operand ih).bind fun left => agree_remaining fun hc hn hn' => ?_
    exact agree_operations ih strength left hs hc hn hn'

/-- The loop over the statements of a program gives the same on the same tokens. -/
theorem statements_eq (hc : Twins ts c c') (hn : ts.length < rounds) (hn' : ts.length < rounds') :
    (statements rounds c).1 = (statements rounds' c').1 ∧
      (statements rounds c).2.diagnostics = (statements rounds' c').2.diagnostics := by
  induction rounds generalizing rounds' ts c c' with
  | zero => omega
  | succ rounds ih =>
    obtain ⟨rounds', rfl⟩ := Nat.exists_eq_succ_of_ne_zero (Nat.ne_zero_of_lt hn')
    by_cases hk : c.current.kind = .eof
    · have hk' : c'.current.kind = .eof := by rwa [← hc.current]
      rw [statements_end _ hk, statements_end _ hk']
      exact ⟨rfl, hc.diagnostics⟩
    · have hk' : c'.current.kind ≠ .eof := by rwa [← hc.current]
      have hpos := hc.length_pos hk
      obtain ⟨hfirst, us, hle, hus⟩ :=
        agree_statement (agreeing_expression maxNesting) ts c c' hc
      have hless : us.tail.length < rounds ∧ us.tail.length < rounds' := by
        rw [List.length_tail]
        omega
      obtain ⟨hothers, hnotes⟩ := ih hus.advance hless.1 hless.2
      rw [statements_step _ hk, statements_step _ hk']
      simp only [hfirst, hothers, hnotes, and_self]

end Grammar

/-- Sources that give the same tokens are read to the same. -/
theorem Program.ofSource_congr {s : σ} {s' : τ} {ts : List Token} {last : Token}
    (h : Streams s ts last) (h' : Streams s' ts last) :
    Program.ofSource s = Program.ofSource s' := by
  have hc := Cursor.twins_ofSource h h'
  obtain ⟨hstatements, hnotes⟩ := Grammar.statements_eq hc hc.length_lt.1 hc.length_lt.2
  unfold Program.ofSource
  simp only [hstatements, hnotes]

/-! ## Token lists -/

/-- A token list gives its tokens up to the end token, and that one for ever. -/
theorem TokenList.streams {ts : List Token} {last : Token} (h : ∀ t ∈ ts, t.kind ≠ .eof)
    (hk : last.kind = .eof) (hl : last.literal = []) (before : Position) :
    Streams (⟨ts ++ [last], before⟩ : TokenList) ts last := by
  induction ts generalizing before with
  | nil =>
    obtain ⟨kind, literal, pos⟩ := last
    obtain rfl : kind = .eof := hk
    obtain rfl : literal = [] := hl
    exact .of_stays rfl rfl rfl
  | cons t ts ih =>
    obtain ⟨ht, hts⟩ := List.forall_mem_cons.mp h
    have hnext : TokenSource.next (⟨t :: ts ++ [last], before⟩ : TokenList) =
        (t, ⟨ts ++ [last], t.pos⟩) := if_neg ht
    refine .cons ?_ (congrArg Prod.fst hnext) ht ?_
    · rw [hnext]
      exact ih hts t.pos
    · show ts.length < (t :: ts ++ [last]).length
      simp only [List.length_append, List.length_cons]
      omega

/-- The tree of the tokens of a text is the tree of the text, with the same complaints. -/
theorem reading_tokens_is_reading_text (t : Text) :
    Program.ofTokens (lex t) = Program.ofText t := by
  obtain ⟨ps, tail, h⟩ := Cuts.exist [] t
  have htext : Streams (Lexer.ofText t) _ _ := Lexer.streams_of_cuts h
  have hkinds : ∀ token ∈ ps.map Piece.token, token.kind ≠ .eof := by
    intro token htoken
    obtain ⟨p, hp, rfl⟩ := List.mem_map.mp htoken
    exact h.kind_ne_eof hp
  have htokens : Streams (TokenList.ofList (ps.map Piece.token ++ [⟨.eof, [], Position.behind t⟩]))
      (ps.map Piece.token) ⟨.eof, [], Position.behind t⟩ := TokenList.streams hkinds rfl rfl .unset
  unfold Program.ofTokens Program.ofText
  rw [lex_of_streams htext]
  exact Program.ofSource_congr htokens htext

end Borealis
