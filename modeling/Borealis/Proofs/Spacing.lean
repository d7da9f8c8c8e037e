-- Tokens that are set apart. No token but a quoted string has a blank in it,
-- and what a token is does not depend on its neighbours, as long as blanks keep
-- them away. So the literals of the tokens are the text without its blanks, they
-- can be written with any blanks between them, and lexing gives the tokens back.
import Borealis.Proofs.Pieces

namespace Borealis

/-! ## Blanks -/

/-- There is nothing but blanks in the text. -/
def Blank (t : Text) : Prop := ∀ b ∈ t, isGap b = true

instance (t : Text) : Decidable (Blank t) := decidable_of_iff _ List.all_eq_true

instance (w : Word) : Decidable w.IsPlain :=
  inferInstanceAs (Decidable (w.kind ≠ .string ∧ w.kind ≠ .illegal))

/-- The text is empty or goes on with a blank. -/
def Parted (t : Text) : Prop := ∀ b ∈ t.head?, isGap b = true

theorem Blank.parted {gap : Text} (h : Blank gap) : Parted gap :=
  fun b hb => h b (List.mem_of_mem_head? hb)

theorem Blank.parted_append {gap : Text} (h : Blank gap) (hne : gap ≠ []) (t : Text) :
    Parted (gap ++ t) := by
  intro b hb
  rw [List.head?_append_of_ne_nil gap hne] at hb
  exact h.parted b hb

theorem Parted.ends {t : Text} (h : Parted t) : Ends t := by
  intro b hb
  cases hword : isWordByte b with
  | false => rfl
  | true =>
    have hgap := Lexeme.isGap_of_isWordByte b hword
    rw [h b hb] at hgap
    exact absurd hgap (by decide)

/-! ## Words before a blank -/

/-- A token that is no string is spelled as its literal, also where a blank follows. -/
theorem Spelled.before_blank {k : TokenKind} {literal x rest t : Text}
    (h : Spelled k literal x rest) (hplain : Word.IsPlain ⟨k, literal⟩) (ht : Parted t) :
    Spelled k literal literal t := by
  cases h with
  | word hx _ => exact .word hx ht.ends
  | number hne hx _ =>
    exact .number hne hx fun b hb => (Bool.or_eq_false_iff.mp (ht.ends b hb)).2
  | symbol hk _ =>
    refine .symbol hk fun _ hequals => ?_
    exact absurd (ht _ hequals) (by decide)
  | quoted => exact absurd rfl hplain.1
  | unclosed | stray => exact absurd rfl hplain.2

/-- A token that is no string is spelled as its literal, with no blank in it. -/
theorem Spelled.no_blanks {k : TokenKind} {literal x rest : Text}
    (h : Spelled k literal x rest) (hplain : Word.IsPlain ⟨k, literal⟩) :
    x = literal ∧ ∀ b ∈ literal, isGap b = false := by
  cases h with
  | word hx _ =>
    exact ⟨rfl, fun b hb => Lexeme.isGap_of_isWordByte b (isWordByte_of_isWord hx b hb)⟩
  | number _ hx _ =>
    refine ⟨rfl, fun b hb => Lexeme.isGap_of_isWordByte b ?_⟩
    rw [isWordByte, hx b hb, Bool.or_true]
  | symbol hk _ =>
    have hnames : ∀ k ∈ symbolKinds, k.name.all (!isGap ·) = true := by decide
    refine ⟨rfl, fun b hb => ?_⟩
    simpa using List.all_eq_true.mp (hnames k hk) b hb
  | quoted => exact absurd rfl hplain.1
  | unclosed | stray => exact absurd rfl hplain.2

/-- The word is read wherever its literal stands before a blank. -/
def Word.StandsAlone (w : Word) : Prop :=
  ∀ t, Parted t → Spelled w.kind w.literal w.literal t

theorem Cuts.standsAlone {before t tail : Text} {ps : List Piece} (h : Cuts before t ps tail)
    {p : Piece} (hp : p ∈ ps) (hplain : p.token.word.IsPlain) : p.token.word.StandsAlone := by
  obtain ⟨front, back, hps⟩ := List.append_of_mem hp
  exact fun t ht => (h.spelled front p back hps).before_blank hplain ht

/-- Without strings the literals in a row are the text without its blanks. -/
theorem Cuts.flatten_literals {before t tail : Text} {ps : List Piece} (h : Cuts before t ps tail)
    (hplain : ∀ p ∈ ps, p.token.word.IsPlain) :
    (ps.map (·.token.literal)).flatten = t.filter (!isGap ·) := by
  have hblank : ∀ {gap : Text}, (∀ b ∈ gap, isGap b = true) → gap.filter (!isGap ·) = [] :=
    fun hgap => List.filter_eq_nil_iff.mpr fun b hb => by simp [hgap b hb]
  induction ps generalizing before t with
  | nil =>
    rw [h.text, List.filter_append, hblank h.blank]
    rfl
  | cons p ps ih =>
    rw [List.forall_mem_cons] at hplain
    obtain ⟨hspelling, hnone⟩ := (h.spelled [] p ps rfl).no_blanks hplain.1
    have hkept : p.spelling.filter (!isGap ·) = p.token.literal := by
      rw [hspelling]
      exact List.filter_eq_self.mpr fun b hb => by simp [hnone b hb]
    rw [List.map_cons, List.flatten_cons, ih h.behind_head hplain.2, h.text, Piece.texts_cons]
    simp only [List.filter_append, hblank (h.gaps p List.mem_cons_self), hkept, List.nil_append,
      List.append_assoc]

/-! ## Texts in a row -/

/-- The texts in a row, with a gap behind each one but the last. -/
def Text.spread (gap : Nat → Text) : List Text → Text
  | [] => []
  | [t] => t
  | t :: u :: ts => t ++ gap 0 ++ spread (fun i => gap (i + 1)) (u :: ts)

namespace Scans

variable {t rest : Text} {ws : List Word}

theorem blanks {gap : Text} (hgap : Blank gap) (h : Scans t ws rest) :
    Scans (gap ++ t) ws rest := by
  induction gap with
  | nil => exact h
  | cons b gap ih =>
    obtain ⟨hb, hgap⟩ := List.forall_mem_cons.mp hgap
    exact .gap hb (ih hgap)

/-- Words that are set apart by blanks are scanned one after the other. -/
theorem spread {gap : Nat → Text} (hgap : ∀ i, gap i ≠ [] ∧ Blank (gap i)) {behind : Text}
    (hbehind : Blank behind) (hws : ∀ w ∈ ws, w.StandsAlone) :
    Scans (Text.spread gap (ws.map Word.literal) ++ behind) ws [] := by
  have hend : Scans behind [] [] := by
    have hblanks := (Scans.done []).blanks hbehind
    rwa [List.append_nil] at hblanks
  induction ws generalizing gap with
  | nil => exact hend
  | cons w ws ih =>
    rw [List.forall_mem_cons] at hws
    cases ws with
    | nil => exact hend.token (hws.1 behind hbehind.parted)
    | cons v ws =>
      have hrest := ih (fun i => hgap (i + 1)) hws.2
      have hparted := (hgap 0).2.parted_append (hgap 0).1
        (Text.spread (fun i => gap (i + 1)) ((v :: ws).map Word.literal) ++ behind)
      have htoken := (hrest.blanks (hgap 0).2).token (hws.1 _ hparted)
      rw [← List.append_assoc, ← List.append_assoc] at htoken
      exact htoken

end Scans

/-- What is scanned is what lexing gives before the end token. -/
theorem lex_of_scans {t : Text} {ws : List Word} (h : Scans t ws []) :
    (lex t).map Token.word = ws ++ [⟨.eof, []⟩] := by
  obtain ⟨ps, tail, hcuts⟩ := Cuts.exist [] t
  have hstreams : TokenSource.Streams (Lexer.ofText t) _ _ := Lexer.streams_of_cuts hcuts
  obtain ⟨ts, hgives, rfl⟩ := Lexer.gives_of_scans h rfl Position.start
  rw [lex_of_streams hstreams, hgives.unique hstreams.gives, List.map_append]
  rfl

/-- The literals of the tokens of a text, without the end token. -/
def literals (t : Text) : List Text := ((lex t).filter (·.kind ≠ .eof)).map Token.literal

/-- The tokens of a text without strings and illegal tokens make up the text without its blanks, and
can be written in a row with any blanks between them, before them and behind them: lexing gives the
same kinds and literals again. -/
theorem tokens_set_apart_are_lexed_again (t : Text) (ht : ∀ token ∈ lex t, token.word.IsPlain) :
    (literals t).flatten = t.filter (!isGap ·) ∧
    ∀ before behind : Text, Blank before → Blank behind →
    ∀ gap : Nat → Text, (∀ i, gap i ≠ [] ∧ Blank (gap i)) →
      (lex (before ++ Text.spread gap (literals t) ++ behind)).map Token.word =
        (lex t).map Token.word := by
  obtain ⟨ps, tail, hcuts⟩ := Cuts.exist [] t
  have hlex : lex t = ps.map Piece.token ++ [_] := lex_of_streams (Lexer.streams_of_cuts hcuts)
  have hliterals : literals t = ps.map (·.token.literal) := by
    rw [literals, hlex, List.filter_append, List.filter_eq_self.mpr]
    · simp
    · intro token htoken
      obtain ⟨p, hp, rfl⟩ := List.mem_map.mp htoken
      simpa using hcuts.kind_ne_eof hp
  have hplain : ∀ p ∈ ps, p.token.word.IsPlain := by
    intro p hp
    refine ht _ ?_
    rw [hlex]
    exact List.mem_append_left _ (List.mem_map_of_mem hp)
  refine ⟨hliterals ▸ hcuts.flatten_literals hplain, ?_⟩
  intro before behind hbefore hbehind gap hgap
  have halone : ∀ w ∈ ps.map (·.token.word), w.StandsAlone := by
    intro w hw
    obtain ⟨p, hp, rfl⟩ := List.mem_map.mp hw
    exact hcuts.standsAlone hp (hplain p hp)
  have hscans := (Scans.spread hgap hbehind halone).blanks hbefore
  rw [List.map_map, ← List.append_assoc] at hscans
  rw [hliterals, hlex, List.map_append, List.map_map]
  exact lex_of_scans hscans

/-- A text in which nearly all tokens touch. -/
def touching : Text := "let x=5add==!fn;y!=-1"

theorem touching_is_lexed_again : (∀ token ∈ lex touching, token.word.IsPlain) ∧
    (literals touching).flatten = "letx=5add==!fn;y!=-1" ∧
    (lex ("\r" ++ Text.spread (fun i => if i = 0 then " " else "\t\n") (literals touching)
      ++ "\n")).map Token.word = (lex touching).map Token.word := by
  have hplain : ∀ token ∈ lex touching, token.word.IsPlain := by decide
  obtain ⟨hjoined, hagain⟩ := tokens_set_apart_are_lexed_again touching hplain
  refine ⟨hplain, hjoined.trans (by decide), hagain _ _ (by decide) (by decide) _ ?_⟩
  intro i
  split <;> decide

end Borealis
