-- The words of a text. Scanning passes blanks and cuts one lexeme off after
-- the other; a lexer gives the words of its text, each of them spelled as its
-- kind asks for.
import Borealis.Proofs.Ahead
import Borealis.Proofs.Trimming
import Mathlib.Data.List.TakeWhile

namespace Borealis

/-- What the grammar sees of a lexeme. -/
def Lexeme.word (x : Lexeme) : Word := ⟨x.kind, x.literal⟩

/-- The text starts with these words, and `rest` is behind them. -/
inductive Scans : Text → List Word → Text → Prop where
  | done (t : Text) : Scans t [] t
  | gap {b : UInt8} {t rest : Text} {ws : List Word} : isGap b = true → Scans t ws rest →
      Scans (b :: t) ws rest
  | lexeme {b : UInt8} {t rest : Text} {ws : List Word} : isGap b = false →
      Scans (Lexeme.read b t).rest ws rest → Scans (b :: t) ((Lexeme.read b t).word :: ws) rest

theorem Scans.append {t u rest : Text} {ws vs : List Word} (h : Scans t ws u)
    (h' : Scans u vs rest) : Scans t (ws ++ vs) rest := by
  induction h with
  | done => exact h'
  | gap hb _ ih => exact .gap hb (ih h')
  | lexeme hb _ ih => exact .lexeme hb (ih h')

/-! ## Spellings -/

/-- A byte of an identifier or keyword. -/
def isWordByte (b : UInt8) : Bool := Text.isLetter b || Text.isDigit b

/-- A letter, and then letters and digits. -/
def isWord : Text → Bool
  | [] => false
  | b :: t => Text.isLetter b && t.all isWordByte

theorem isWordByte_of_isWord {t : Text} (h : isWord t = true) : ∀ b ∈ t, isWordByte b = true := by
  cases t with
  | nil => exact List.forall_mem_nil _
  | cons b t =>
    rw [isWord, Bool.and_eq_true, List.all_eq_true] at h
    refine List.forall_mem_cons.mpr ⟨?_, h.2⟩
    rw [isWordByte, h.1, Bool.true_or]

/-- The kinds that are spelled as they are named. -/
def symbolKinds : List TokenKind :=
  [.assign, .plus, .minus, .bang, .asterisk, .slash, .less, .greater, .equal, .notEqual, .comma,
    .semicolon, .leftParen, .rightParen, .leftBrace, .rightBrace]

/-- The kinds of keywords. -/
def keywordKinds : List TokenKind := TokenKind.keywords.map Prod.snd

/-- How the words of a text are spelled. -/
inductive Lexical : Word → Prop where
  | name {t : Text} : isWord t = true → TokenKind.ofWord t = .ident → Lexical ⟨.ident, t⟩
  | keyword {k : TokenKind} (t : Text) : k ∈ keywordKinds → Lexical ⟨k, t⟩
  | number {t : Text} : t ≠ [] → (∀ b ∈ t, Text.isDigit b = true) → Lexical ⟨.int, t⟩
  | symbol {k : TokenKind} : k ∈ symbolKinds → Lexical ⟨k, k.name⟩
  | quoted (t : Text) : Lexical ⟨.string, t⟩
  | illegal (t : Text) : Lexical ⟨.illegal, t⟩

namespace Lexical

variable {w : Word}

theorem ne_eof (h : Lexical w) : w.kind ≠ .eof := by
  cases h with
  | name | number | quoted | illegal => nofun
  | keyword _ hk | symbol hk =>
    rintro rfl
    exact absurd hk (by decide)

theorem isName (h : Lexical w) (hk : w.kind = .ident) :
    isWord w.literal = true ∧ TokenKind.ofWord w.literal = .ident := by
  cases h with
  | name hw ho => exact ⟨hw, ho⟩
  | number | quoted | illegal => nomatch hk
  | keyword _ hm | symbol hm =>
    subst hk
    exact absurd hm (by decide)

theorem isNumber (h : Lexical w) (hk : w.kind = .int) :
    w.literal ≠ [] ∧ ∀ b ∈ w.literal, Text.isDigit b = true := by
  cases h with
  | number hne hd => exact ⟨hne, hd⟩
  | name | quoted | illegal => nomatch hk
  | keyword _ hm | symbol hm =>
    subst hk
    exact absurd hm (by decide)

theorem isSymbol (h : Lexical w) (hk : w.kind ∈ symbolKinds) : w.literal = w.kind.name := by
  cases h with
  | symbol => rfl
  | name | number | quoted | illegal => simp [symbolKinds] at hk
  | @keyword k _ hm =>
    have hdisjoint : ∀ k ∈ keywordKinds, k ∉ symbolKinds := by decide
    exact absurd hk (hdisjoint k hm)

end Lexical

/-! ## Tokens in a text -/

/-- A text that does not go on with a word or a number before it. -/
def Ends (t : Text) : Prop := ∀ b ∈ t.head?, isWordByte b = false

/-- A byte that is neither a blank nor the start of a token. -/
def isStray (b : UInt8) : Bool :=
  !isGap b && !isWordByte b && b != Text.byte '"' && symbolKinds.all fun k => k.name != [b]

/-- How a token of a kind and a literal is spelled, with `rest` behind it. Words and numbers are
as long as they can be, an equals sign joins the sign before it, and a string that nothing closes
is all that is left of the text. -/
inductive Spelled : TokenKind → Text → (spelling rest : Text) → Prop where
  | word {x rest : Text} : isWord x = true → Ends rest → Spelled (TokenKind.ofWord x) x x rest
  | number {x rest : Text} : x ≠ [] → (∀ b ∈ x, Text.isDigit b = true) →
      (∀ b ∈ rest.head?, Text.isDigit b = false) → Spelled .int x x rest
  | symbol {k : TokenKind} {rest : Text} : k ∈ symbolKinds →
      (k = .assign ∨ k = .bang → rest.head? ≠ some (Text.byte '=')) →
      Spelled k k.name k.name rest
  | quoted {t rest : Text} : Text.byte '"' ∉ t →
      Spelled .string t (Text.byte '"' :: t ++ [Text.byte '"']) rest
  | unclosed {t : Text} : Text.byte '"' ∉ t →
      Spelled .illegal (Text.byte '"' :: t) (Text.byte '"' :: t) []
  /-- The literal of a stray byte is the character of that code. -/
  | stray {b : UInt8} {rest : Text} : isStray b = true →
      Spelled .illegal (String.utf8EncodeChar (Char.ofUInt8 b)) [b] rest

theorem takeWhile_ends {p : UInt8 → Bool} {w t : Text} (hw : ∀ b ∈ w, p b = true)
    (ht : ∀ b ∈ t.head?, p b = false) :
    (w ++ t).takeWhile p = w ∧ (w ++ t).dropWhile p = t := by
  rw [List.takeWhile_append_of_pos hw, List.dropWhile_append_of_pos hw]
  cases t with
  | nil => simp
  | cons b t => simp [ht b rfl]

/-! ## Lexemes -/

namespace Lexeme

theorem symbol_name (b : UInt8) : ∀ k ∈ symbol? b, k ∈ symbolKinds ∧ k.name = [b] :=
  forall_byte (p := fun b => ∀ k ∈ symbol? b, k ∈ symbolKinds ∧ k.name = [b])
    (by decide +kernel) b

/-- A byte that is a token of its own starts no other token, and is no blank. -/
theorem symbol_alone (b : UInt8) : (symbol? b).isSome = true →
    Text.isLetter b = false ∧ Text.isDigit b = false ∧ b ≠ Text.byte '"' ∧ isGap b = false :=
  forall_byte (p := fun b => (symbol? b).isSome = true →
      Text.isLetter b = false ∧ Text.isDigit b = false ∧ b ≠ Text.byte '"' ∧ isGap b = false)
    (by decide +kernel) b

theorem isGap_of_isWordByte (b : UInt8) : isWordByte b = true → isGap b = false :=
  forall_byte (p := fun b => isWordByte b = true → isGap b = false) (by decide +kernel) b

theorem isLetter_of_isDigit (b : UInt8) : Text.isDigit b = true → Text.isLetter b = false :=
  forall_byte (p := fun b => Text.isDigit b = true → Text.isLetter b = false)
    (by decide +kernel) b

theorem symbol_spelling : ∀ k ∈ symbolKinds,
    (match k.name with
      | [b] => symbol? b == some k
      | [a, b] => pair? a b == some k
      | _ => false) = true := by decide

/-- Of the symbols of one byte, only the equals sign and the exclamation mark have a longer form. -/
theorem pair_none (b : UInt8) (k : TokenKind) (h : symbol? b = some k)
    (hk : ¬ (k = .assign ∨ k = .bang)) : pair? b (Text.byte '=') = none := by
  have hassign : b ≠ Text.byte '=' := by
    rintro rfl
    exact hk (Or.inl (Option.some.inj h).symm)
  have hbang : b ≠ Text.byte '!' := by
    rintro rfl
    exact hk (Or.inr (Option.some.inj h).symm)
  rw [pair?, if_pos rfl, if_neg hassign, if_neg hbang]

theorem read_equals (t : Text) : (read (Text.byte '=') t).kind = .assign ∨
    (read (Text.byte '=') t).kind = .equal := by
  cases t with
  | nil => exact Or.inl rfl
  | cons c t =>
    by_cases hc : c = Text.byte '='
    · subst hc
      exact Or.inr rfl
    · have hp : pair? (Text.byte '=') c = none := if_neg hc
      have hread : read (Text.byte '=') (c :: t) = single (Text.byte '=') (c :: t) := by
        unfold read
        simp only [hp]
        rfl
      rw [hread]
      exact Or.inl rfl

/-- The first byte of two that are one token together is a token by itself too. -/
theorem pair_name {a b : UInt8} {k : TokenKind} (h : pair? a b = some k) :
    k ∈ symbolKinds ∧ k.name = [a, b] ∧ (symbol? a).isSome = true := by
  unfold pair? at h
  split at h
  · rename_i hb
    split at h
    · rename_i ha
      injection h with h
      subst hb ha h
      decide
    · split at h
      · rename_i ha
        injection h with h
        subst hb ha h
        decide
      · exact absurd h (by simp)
  · exact absurd h (by simp)

theorem ofWord_mem (t : Text) :
    TokenKind.ofWord t = .ident ∨ TokenKind.ofWord t ∈ keywordKinds := by
  unfold TokenKind.ofWord
  cases h : TokenKind.keywords.lookup t with
  | none => exact Or.inl rfl
  | some k =>
    obtain ⟨l, l', hl, -⟩ := List.lookup_eq_some_iff.mp h
    have hmem : (t, k) ∈ TokenKind.keywords := by simp [hl]
    exact Or.inr (List.mem_map_of_mem hmem)

theorem isStray_iff (b : UInt8) : isStray b = true ↔ isGap b = false ∧ Text.isLetter b = false ∧
    Text.isDigit b = false ∧ b ≠ Text.byte '"' ∧ symbol? b = none :=
  forall_byte (p := fun b => isStray b = true ↔ isGap b = false ∧ Text.isLetter b = false ∧
      Text.isDigit b = false ∧ b ≠ Text.byte '"' ∧ symbol? b = none)
    (by decide +kernel) b

/-- The lexeme is a token at the front of the text. -/
structure IsFrontOf (x : Lexeme) (t : Text) : Prop where
  spelled : Spelled x.kind x.literal x.spelling x.rest
  text : t = x.spelling ++ x.rest

theorem run_isFrontOf {kindOf : Text → TokenKind} {p : UInt8 → Bool} {t : Text}
    (h : (∀ b ∈ (t.dropWhile p).head?, p b = false) →
      Spelled (kindOf (t.takeWhile p)) (t.takeWhile p) (t.takeWhile p) (t.dropWhile p)) :
    (run kindOf p t).IsFrontOf t := by
  refine ⟨h fun b hb => ?_, List.takeWhile_append_dropWhile.symm⟩
  have hhead := List.head?_dropWhile_not p t
  rw [Option.mem_def.mp hb] at hhead
  simpa using hhead

/-- A token of one byte is spelled as its kind is named. -/
theorem single_isFrontOf {b : UInt8} {t : Text} (hgap : isGap b = false)
    (hletter : Text.isLetter b = false) (hdigit : Text.isDigit b = false)
    (hquote : b ≠ Text.byte '"') (ht : ∀ c ∈ t.head?, pair? b c = none) :
    (single b t).IsFrontOf (b :: t) := by
  unfold single
  cases h : symbol? b with
  | none => exact ⟨.stray ((isStray_iff b).mpr ⟨hgap, hletter, hdigit, hquote, h⟩), rfl⟩
  | some k =>
    obtain ⟨hk, hname⟩ := symbol_name b k h
    refine ⟨?_, rfl⟩
    have hs : Spelled k k.name k.name t := by
      refine .symbol hk fun hlonger hc => ?_
      have hpair := ht _ hc
      rcases hlonger with rfl | rfl
      all_goals
        obtain ⟨rfl⟩ := List.cons.inj hname
        exact absurd hpair (by decide)
    rw [hname] at hs
    exact hs

theorem quoted_isFrontOf (t : Text) : (quoted t).IsFrontOf (Text.byte '"' :: t) := by
  have hbody : Text.byte '"' ∉ t.takeWhile (· != Text.byte '"') := fun hm => by
    simpa using List.mem_takeWhile_imp hm
  have htext := List.takeWhile_append_dropWhile (p := (· != Text.byte '"')) (l := t)
  have hhead := List.head?_dropWhile_not (· != Text.byte '"') t
  unfold quoted
  dsimp only
  split
  · rename_i c rest h
    rw [h] at htext hhead
    have hc : c = Text.byte '"' := by simpa using hhead
    subst hc
    exact ⟨.quoted hbody, by simp [htext]⟩
  · rename_i h
    rw [h, List.append_nil] at htext
    exact ⟨.unclosed hbody, by simp [htext]⟩

/-- Reading cuts a token off the front of the text. -/
theorem read_isFrontOf {b : UInt8} (hgap : isGap b = false) (t : Text) :
    (read b t).IsFrontOf (b :: t) := by
  unfold read
  split
  · rename_i hb
    refine run_isFrontOf fun hrest => ?_
    have hword : isWord ((b :: t).takeWhile isWordByte) = true := by
      have htake : (b :: t).takeWhile isWordByte = b :: t.takeWhile isWordByte := by
        simp [isWordByte, hb]
      rw [htake, isWord, hb, Bool.true_and, List.all_eq_true]
      exact fun c hc => List.mem_takeWhile_imp hc
    exact .word hword hrest
  · rename_i hletter
    split
    · rename_i hb
      refine run_isFrontOf fun hrest => .number ?_ (fun c hc => List.mem_takeWhile_imp hc) hrest
      simp [hb]
    · rename_i hdigit
      have hletter : Text.isLetter b = false := by simpa using hletter
      have hdigit : Text.isDigit b = false := by simpa using hdigit
      split
      · rename_i hquote
        subst hquote
        exact quoted_isFrontOf t
      · rename_i hquote
        split
        · rename_i c rest
          split
          · rename_i k hk
            obtain ⟨hmem, hname, hsymbol⟩ := pair_name hk
            have hs : Spelled k k.name k.name rest := by
              refine .symbol hmem fun hlonger => ?_
              rcases hlonger with rfl | rfl
              all_goals exact absurd (congrArg List.length hname) (by decide : ¬ 1 = 2)
            rw [hname] at hs
            exact ⟨hs, rfl⟩
          · rename_i hnone
            exact single_isFrontOf hgap hletter hdigit hquote (by simpa using hnone)
        · exact single_isFrontOf hgap hletter hdigit hquote (by simp)

end Lexeme

/-! ## Reading what is spelled -/

namespace Lexeme

variable {b : UInt8} {u rest : Text} {k : TokenKind}

theorem read_word (hw : isWord (b :: u) = true) (ht : Ends rest) : isGap b = false ∧
    read b (u ++ rest) = ⟨TokenKind.ofWord (b :: u), b :: u, b :: u, rest⟩ := by
  have hbytes := isWordByte_of_isWord hw
  obtain ⟨htake, hdrop⟩ := takeWhile_ends hbytes ht
  refine ⟨isGap_of_isWordByte b (hbytes b List.mem_cons_self), ?_⟩
  rw [isWord, Bool.and_eq_true] at hw
  unfold read
  rw [if_pos hw.1]
  show run TokenKind.ofWord isWordByte (b :: u ++ rest) = _
  rw [run, htake, hdrop]

theorem read_number (hd : ∀ c ∈ b :: u, Text.isDigit c = true)
    (ht : ∀ c ∈ rest.head?, Text.isDigit c = false) : isGap b = false ∧
    read b (u ++ rest) = ⟨.int, b :: u, b :: u, rest⟩ := by
  have hb := hd b List.mem_cons_self
  have hbyte : isWordByte b = true := by rw [isWordByte, hb, Bool.or_true]
  obtain ⟨htake, hdrop⟩ := takeWhile_ends hd ht
  refine ⟨isGap_of_isWordByte b hbyte, ?_⟩
  unfold read
  rw [isLetter_of_isDigit b hb, if_neg Bool.false_ne_true, if_pos hb]
  show run (fun _ => .int) Text.isDigit (b :: u ++ rest) = _
  rw [run, htake, hdrop]

/-- Where no word, number or string starts and no pair of bytes is a token, it is the first byte. -/
theorem read_single (hletter : Text.isLetter b = false) (hdigit : Text.isDigit b = false)
    (hquote : b ≠ Text.byte '"') (ht : ∀ c ∈ rest.head?, pair? b c = none) :
    read b rest = single b rest := by
  unfold read
  rw [hletter, hdigit, if_neg Bool.false_ne_true, if_neg Bool.false_ne_true, if_neg hquote]
  cases rest with
  | nil => rfl
  | cons c rest => simp [ht c rfl]

theorem read_symbol (hk : k ∈ symbolKinds) (hname : k.name = b :: u)
    (ht : k = .assign ∨ k = .bang → rest.head? ≠ some (Text.byte '=')) : isGap b = false ∧
    read b (u ++ rest) = ⟨k, b :: u, b :: u, rest⟩ := by
  have hspelled := symbol_spelling k hk
  rw [hname] at hspelled
  split at hspelled
  · rename_i c heq
    obtain ⟨rfl, rfl⟩ := List.cons.inj heq
    have hsymbol := eq_of_beq hspelled
    obtain ⟨hletter, hdigit, hquote, hgap⟩ := symbol_alone b (by simp [hsymbol])
    have hpair : ∀ c ∈ rest.head?, pair? b c = none := by
      intro c hc
      by_cases heq : c = Text.byte '='
      · subst heq
        exact pair_none b k hsymbol fun hlonger => ht hlonger hc
      · exact if_neg heq
    refine ⟨hgap, ?_⟩
    rw [List.nil_append, read_single hletter hdigit hquote hpair]
    simp [single, hsymbol]
  · rename_i c d heq
    obtain ⟨rfl, rfl⟩ := List.cons.inj heq
    have hpair := eq_of_beq hspelled
    obtain ⟨hletter, hdigit, hquote, hgap⟩ := symbol_alone b (pair_name hpair).2.2
    refine ⟨hgap, ?_⟩
    unfold read
    rw [hletter, hdigit, if_neg Bool.false_ne_true, if_neg Bool.false_ne_true, if_neg hquote]
    simp [hpair]
  · exact absurd hspelled Bool.false_ne_true

theorem read_quote (t : Text) : read (Text.byte '"') t = quoted t := rfl

/-- The bytes up to a quote, and from it on. -/
theorem cut_at_quote {t : Text} (hq : Text.byte '"' ∉ t) (rest : Text)
    (ht : ∀ c ∈ rest.head?, c = Text.byte '"') :
    (t ++ rest).takeWhile (· != Text.byte '"') = t ∧
      (t ++ rest).dropWhile (· != Text.byte '"') = rest := by
  refine takeWhile_ends (fun c hc => ?_) fun c hc => ?_
  · exact bne_iff_ne.mpr fun heq => hq (heq ▸ hc)
  · simp [ht c hc]

theorem read_stray (hb : isStray b = true) : isGap b = false ∧ read b rest = stray b rest := by
  obtain ⟨hgap, hletter, hdigit, hquote, hnone⟩ := (isStray_iff b).mp hb
  have hpair : ∀ c ∈ rest.head?, pair? b c = none := by
    intro c _
    cases hp : pair? b c with
    | none => rfl
    | some k =>
      have hsome := (pair_name hp).2.2
      rw [hnone] at hsome
      exact absurd hsome Bool.false_ne_true
  refine ⟨hgap, ?_⟩
  rw [read_single hletter hdigit hquote hpair, single, hnone]

end Lexeme

namespace Spelled

variable {k : TokenKind} {literal x rest : Text}

theorem lexical (h : Spelled k literal x rest) : Lexical ⟨k, literal⟩ := by
  cases h with
  | word hx _ =>
    rcases Lexeme.ofWord_mem literal with hk | hk
    · have hl := Lexical.name hx hk
      rwa [← hk] at hl
    · exact .keyword literal hk
  | number hne hx _ => exact .number hne hx
  | symbol hk _ => exact .symbol hk
  | quoted => exact .quoted _
  | unclosed | stray => exact .illegal _

theorem ne_nil (h : Spelled k literal x rest) : x ≠ [] := by
  cases h with
  | word hx _ =>
    rintro rfl
    exact absurd hx (by decide)
  | number hne _ _ => exact hne
  | symbol hk _ =>
    have hnames : ∀ k ∈ symbolKinds, k.name ≠ [] := by decide
    exact hnames k hk
  | quoted | unclosed | stray => simp

/-- A token that is spelled at the front of a text is the one that is read there. -/
theorem read {b : UInt8} {u : Text} (h : Spelled k literal x rest) (hx : x = b :: u) :
    isGap b = false ∧ Lexeme.read b (u ++ rest) = ⟨k, literal, x, rest⟩ := by
  cases h with
  | word hw ht =>
    subst hx
    exact Lexeme.read_word hw ht
  | number _ hd ht =>
    subst hx
    exact Lexeme.read_number hd ht
  | symbol hk ht =>
    rw [hx]
    exact Lexeme.read_symbol hk hx ht
  | quoted hq =>
    obtain ⟨rfl, hu⟩ := List.cons.inj hx
    replace hu : u ++ rest = literal ++ Text.byte '"' :: rest := by
      rw [← hu]
      simp
    obtain ⟨htake, hdrop⟩ := Lexeme.cut_at_quote hq (Text.byte '"' :: rest) (by simp)
    refine ⟨by decide, ?_⟩
    rw [hu, Lexeme.read_quote, Lexeme.quoted]
    simp only [htake, hdrop]
  | unclosed hq =>
    obtain ⟨rfl, rfl⟩ := List.cons.inj hx
    obtain ⟨htake, hdrop⟩ := Lexeme.cut_at_quote hq [] (by simp)
    refine ⟨by decide, ?_⟩
    rw [Lexeme.read_quote, Lexeme.quoted]
    simp only [htake, hdrop]
  | stray hb =>
    obtain ⟨rfl, rfl⟩ := List.cons.inj hx
    exact Lexeme.read_stray hb

end Spelled

/-- A token takes at least one byte of the text. -/
theorem Lexeme.IsFrontOf.rest_length {x : Lexeme} {t : Text} (h : x.IsFrontOf t) :
    x.rest.length < t.length := by
  have hpos := List.length_pos_iff.mpr h.spelled.ne_nil
  rw [h.text, List.length_append]
  omega

/-! ## Lexers -/

/-- Every text has words, up to its end. -/
theorem exists_scans (t : Text) : ∃ ws, Scans t ws [] ∧ ∀ w ∈ ws, Lexical w := by
  induction hn : t.length using Nat.strongRecOn generalizing t with
  | ind n ih =>
    cases t with
    | nil => exact ⟨[], .done [], by simp⟩
    | cons b t =>
      rw [List.length_cons] at hn
      cases hb : isGap b with
      | true =>
        obtain ⟨ws, hs, hl⟩ := ih t.length (by omega) t rfl
        exact ⟨ws, .gap hb hs, hl⟩
      | false =>
        have hfront := Lexeme.read_isFrontOf hb t
        have hlen := hfront.rest_length
        rw [List.length_cons] at hlen
        obtain ⟨ws, hs, hl⟩ := ih (Lexeme.read b t).rest.length (by omega) _ rfl
        refine ⟨_, .lexeme hb hs, ?_⟩
        intro w hm
        rcases List.mem_cons.mp hm with rfl | hm
        · exact hfront.spelled.lexical
        · exact hl w hm

namespace Lexer

open TokenSource (Gives)

theorem next_gap {b : UInt8} (hb : isGap b = true) (p : Position) (t : Text) :
    Lexer.next ⟨p, b :: t⟩ = Lexer.next ⟨p.step b, t⟩ := by
  simp [Lexer.next, skipGap, hb, Position.advance]

theorem next_lexeme {b : UInt8} (hb : isGap b = false) (p : Position) (t : Text) :
    Lexer.next ⟨p, b :: t⟩ = (⟨(Lexeme.read b t).kind, (Lexeme.read b t).literal, p⟩,
      ⟨p.advance (Lexeme.read b t).spelling, (Lexeme.read b t).rest⟩) := by
  simp [Lexer.next, skipGap, hb, Position.advance]

theorem gives_nil (p : Position) : Gives (⟨p, []⟩ : Lexer) [] := by
  intro n
  have h : TokenSource.after (⟨p, []⟩ : Lexer) n = ⟨p, []⟩ := by
    induction n with
    | zero => rfl
    | succ n ih => exact ih
  rw [h]
  rfl

theorem gives_gap {b : UInt8} (hb : isGap b = true) {p : Position} {t : Text} {ts : List Token}
    (h : Gives (⟨p.step b, t⟩ : Lexer) ts) : Gives (⟨p, b :: t⟩ : Lexer) ts := by
  have hn : TokenSource.next (⟨p, b :: t⟩ : Lexer) = TokenSource.next (⟨p.step b, t⟩ : Lexer) :=
    next_gap hb p t
  cases ts with
  | nil =>
    intro n
    cases n with
    | zero =>
      have h0 := h 0
      simp only [TokenSource.after] at h0 ⊢
      rw [hn]
      exact h0
    | succ n =>
      have hsucc := h (n + 1)
      simp only [TokenSource.after] at hsucc ⊢
      rw [hn]
      exact hsucc
  | cons x ts =>
    obtain ⟨hx, hk, hlt, hg⟩ := h
    exact ⟨by rw [hn]; exact hx, hk, Nat.lt_succ_of_lt hlt, by rw [hn]; exact hg⟩

/-- A lexer gives the words of its text. -/
theorem gives_of_scans {t rest : Text} {ws : List Word} (h : Scans t ws rest) (hr : rest = [])
    (p : Position) : ∃ ts, Gives (⟨p, t⟩ : Lexer) ts ∧ ts.map Token.word = ws := by
  induction h generalizing p with
  | done =>
    subst hr
    exact ⟨[], gives_nil p, rfl⟩
  | @gap b _ _ _ hb _ ih =>
    obtain ⟨ts, hg, hts⟩ := ih hr (p.step b)
    exact ⟨ts, gives_gap hb hg, hts⟩
  | @lexeme b t _ _ hb _ ih =>
    have hfront := Lexeme.read_isFrontOf hb t
    have hlen := hfront.rest_length
    obtain ⟨ts, hg, hts⟩ := ih hr (p.advance (Lexeme.read b t).spelling)
    have hn := next_lexeme hb p t
    refine ⟨⟨(Lexeme.read b t).kind, (Lexeme.read b t).literal, p⟩ :: ts,
      ⟨?_, hfront.spelled.lexical.ne_eof, ?_, ?_⟩, by rw [List.map_cons, hts]; rfl⟩
    · exact congrArg Prod.fst hn
    · have hle : ts.length ≤ (Lexeme.read b t).rest.length := hg.length_le
      exact Nat.lt_of_le_of_lt hle hlen
    · show Gives (Lexer.next ⟨p, b :: t⟩).2 ts
      rw [hn]
      exact hg

end Lexer

/-! ## Writing words -/

namespace Scans

variable {t rest : Text} {ws : List Word}

/-- A token in front of a text. -/
theorem token {k : TokenKind} {literal x : Text} (hx : Spelled k literal x t)
    (h : Scans t ws rest) : Scans (x ++ t) (⟨k, literal⟩ :: ws) rest := by
  obtain ⟨b, u, hbu⟩ := List.exists_cons_of_ne_nil hx.ne_nil
  obtain ⟨hgap, hread⟩ := hx.read hbu
  have hs : Scans (b :: (u ++ t)) ((Lexeme.read b (u ++ t)).word :: ws) rest := by
    refine .lexeme hgap ?_
    rw [hread]
    exact h
  rw [hread] at hs
  rw [hbu]
  exact hs

/-- A keyword or an identifier in front of a text. -/
theorem word {w : Text} (hw : isWord w = true) (ht : Ends t) (h : Scans t ws rest) :
    Scans (w ++ t) (⟨TokenKind.ofWord w, w⟩ :: ws) rest := h.token (.word hw ht)

/-- A number in front of a text. -/
theorem number {w : Text} (hne : w ≠ []) (hw : ∀ b ∈ w, Text.isDigit b = true) (ht : Ends t)
    (h : Scans t ws rest) : Scans (w ++ t) (⟨.int, w⟩ :: ws) rest :=
  h.token (.number hne hw fun c hc => (Bool.or_eq_false_iff.mp (ht c hc)).2)

/-- A symbol in front of a text that does not make another one of it. -/
theorem symbol {k : TokenKind} (hk : k ∈ symbolKinds)
    (ht : k = .assign ∨ k = .bang → t.head? ≠ some (Text.byte '=')) (h : Scans t ws rest) :
    Scans (k.name ++ t) (⟨k, k.name⟩ :: ws) rest := h.token (.symbol hk ht)

/-- A symbol that is never part of another one. -/
theorem mark {k : TokenKind} (hk : k ∈ symbolKinds) (hne : k ≠ .assign ∧ k ≠ .bang)
    (h : Scans t ws rest) : Scans (k.name ++ t) (⟨k, k.name⟩ :: ws) rest :=
  h.symbol hk fun he => absurd he (not_or.mpr hne)

/-- A text does not start with an equals sign, if its first word does not. -/
theorem head_ne_equals (h : Scans t ws rest) (hne : ws ≠ [])
    (hf : front ws ≠ .assign ∧ front ws ≠ .equal) : t.head? ≠ some (Text.byte '=') := by
  cases h with
  | done => exact absurd rfl hne
  | gap hb _ =>
    intro he
    rw [List.head?_cons, Option.some.injEq] at he
    subst he
    exact absurd hb (by decide)
  | @lexeme b t _ _ _ _ =>
    intro he
    rw [List.head?_cons, Option.some.injEq] at he
    subst he
    rcases Lexeme.read_equals t with hk | hk
    · exact hf.1 hk
    · exact hf.2 hk

end Scans

end Borealis
