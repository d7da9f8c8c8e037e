-- What a text is made of. Lexing cuts a text into pieces: blanks, and the
-- spelling of a token behind them. Nothing of the text is lost, every token
-- stands at the line and the column where its spelling starts, and no other
-- tokens can be cut from the text.
import Borealis.Proofs.LineBreaks

namespace Borealis

/-! ## Places -/

namespace Position

/-- The place behind a text. Its line is one more than the line breaks of the text, and its
column one more than the bytes since the last of them. -/
def behind (t : Text) : Position :=
  ⟨1 + t.count lineBreak, 1 + (t.reverse.takeWhile (· != lineBreak)).length⟩

theorem behind_step (t : Text) (b : UInt8) : (behind t).step b = behind (t ++ [b]) := by
  unfold behind step
  by_cases hb : b = lineBreak
  · subst hb
    simp [Int.add_assoc]
  · have hcount : [b].count lineBreak = 0 := by simp [hb]
    rw [if_neg hb, List.count_append, hcount, List.reverse_append, List.reverse_singleton,
      List.singleton_append, List.takeWhile_cons_of_pos (by simpa using hb)]
    simp [Int.add_assoc]

theorem behind_advance (t u : Text) : (behind t).advance u = behind (t ++ u) := by
  induction u generalizing t with
  | nil => simp [advance]
  | cons b u ih =>
    show ((behind t).step b).advance u = _
    rw [behind_step, ih, List.append_assoc, List.singleton_append]

end Position

/-! ## Pieces -/

/-- A token of a text, with the blanks before it and the bytes it is spelled with. -/
structure Piece where
  gap : Text
  token : Token
  spelling : Text

namespace Piece

/-- The bytes of a piece. -/
def text (p : Piece) : Text := p.gap ++ p.spelling

/-- The bytes of pieces, one after the other. -/
def texts (ps : List Piece) : Text := ps.flatMap text

@[simp] theorem texts_cons (p : Piece) (ps : List Piece) :
    texts (p :: ps) = p.gap ++ p.spelling ++ texts ps := List.flatMap_cons

end Piece

/-- A text that stands behind `before` is cut into pieces, with blanks behind the last one. -/
structure Cuts (before t : Text) (ps : List Piece) (tail : Text) : Prop where
  text : t = Piece.texts ps ++ tail
  blank : ∀ b ∈ tail, isGap b = true
  gaps : ∀ p ∈ ps, ∀ b ∈ p.gap, isGap b = true
  /-- A token is spelled as it can be before the bytes behind it. -/
  spelled : ∀ front p back, ps = front ++ p :: back →
    Spelled p.token.kind p.token.literal p.spelling (Piece.texts back ++ tail)
  /-- A token stands behind the pieces before it and its own blanks. -/
  places : ∀ front p back, ps = front ++ p :: back →
    p.token.pos = Position.behind (before ++ Piece.texts front ++ p.gap)

namespace Cuts

variable {before t tail : Text} {p : Piece} {ps : List Piece}

theorem nil (h : ∀ b ∈ tail, isGap b = true) : Cuts before tail [] tail := by
  refine ⟨rfl, h, by simp, ?_, ?_⟩
  all_goals
    intro front p back he
    simp at he

theorem cons (h : Cuts (before ++ p.gap ++ p.spelling) t ps tail)
    (hgap : ∀ b ∈ p.gap, isGap b = true)
    (hspelled : Spelled p.token.kind p.token.literal p.spelling t)
    (hplace : p.token.pos = Position.behind (before ++ p.gap)) :
    Cuts before (p.gap ++ p.spelling ++ t) (p :: ps) tail := by
  refine ⟨by simp [h.text], h.blank, List.forall_mem_cons.mpr ⟨hgap, h.gaps⟩, ?_, ?_⟩
  · intro front q back he
    cases front with
    | nil =>
      obtain ⟨rfl, rfl⟩ := List.cons.inj he
      rwa [← h.text]
    | cons p' front =>
      obtain ⟨-, hps⟩ := List.cons.inj he
      exact h.spelled front q back hps
  · intro front q back he
    cases front with
    | nil =>
      obtain ⟨rfl, rfl⟩ := List.cons.inj he
      simpa [Piece.texts] using hplace
    | cons p' front =>
      obtain ⟨rfl, hps⟩ := List.cons.inj he
      have hq := h.places front q back hps
      simpa using hq

/-- Behind its first piece a text is cut into the others. -/
theorem behind_head (h : Cuts before t (p :: ps) tail) :
    Cuts (before ++ p.gap ++ p.spelling) (Piece.texts ps ++ tail) ps tail := by
  refine ⟨rfl, h.blank, (List.forall_mem_cons.mp h.gaps).2, ?_, ?_⟩
  · exact fun front q back he => h.spelled (p :: front) q back (by rw [he]; rfl)
  · intro front q back he
    have hq := h.places (p :: front) q back (by rw [he]; rfl)
    simpa using hq

theorem kind_ne_eof (h : Cuts before t ps tail) (hp : p ∈ ps) : p.token.kind ≠ .eof := by
  obtain ⟨front, back, he⟩ := List.append_of_mem hp
  exact (h.spelled front p back he).lexical.ne_eof

/-- Every text can be cut into pieces. -/
theorem exist (before t : Text) : ∃ ps tail, Cuts before t ps tail := by
  -- By induction on the length: the token that is read behind the blanks takes at least a byte.
  induction hn : t.length using Nat.strongRecOn generalizing before t with
  | ind n ih =>
    have hgap : ∀ b ∈ t.takeWhile isGap, isGap b = true := fun b hb => List.mem_takeWhile_imp hb
    have htext := List.takeWhile_append_dropWhile (p := isGap) (l := t)
    cases hrest : t.dropWhile isGap with
    | nil =>
      rw [hrest, List.append_nil] at htext
      rw [htext] at hgap
      exact ⟨[], t, .nil hgap⟩
    | cons b u =>
      have hb : isGap b = false := by
        have hhead := List.head?_dropWhile_not isGap t
        rw [hrest] at hhead
        simpa using hhead
      have hfront := Lexeme.read_isFrontOf hb u
      have hlength := hfront.rest_length
      rw [hrest] at htext
      have hlt : (Lexeme.read b u).rest.length < n := by
        rw [← hn, ← htext, List.length_append]
        omega
      obtain ⟨ps, tail, hcuts⟩ := ih _ hlt
        (before ++ t.takeWhile isGap ++ (Lexeme.read b u).spelling) (Lexeme.read b u).rest rfl
      let first : Piece := ⟨t.takeWhile isGap, ⟨(Lexeme.read b u).kind, (Lexeme.read b u).literal,
        Position.behind (before ++ t.takeWhile isGap)⟩, (Lexeme.read b u).spelling⟩
      refine ⟨first :: ps, tail, ?_⟩
      have hcut := hcuts.cons (p := first) hgap hfront.spelled rfl
      rwa [List.append_assoc, ← hfront.text, htext] at hcut

end Cuts

/-! ## Lexers -/

namespace Lexer

open TokenSource (Streams)

theorem next_blank {gap : Text} (h : ∀ b ∈ gap, isGap b = true) (p : Position) :
    Lexer.next ⟨p, gap⟩ = (⟨.eof, [], p.advance gap⟩, ⟨p.advance gap, []⟩) := by
  obtain ⟨htake, hdrop⟩ := takeWhile_ends (t := []) h (by simp)
  rw [List.append_nil] at htake hdrop
  simp only [Lexer.next, skipGap, htake, hdrop]

theorem next_token {gap x rest literal : Text} {k : TokenKind} (h : ∀ b ∈ gap, isGap b = true)
    (hs : Spelled k literal x rest) (p : Position) :
    Lexer.next ⟨p, gap ++ x ++ rest⟩ =
      (⟨k, literal, p.advance gap⟩, ⟨(p.advance gap).advance x, rest⟩) := by
  obtain ⟨b, u, rfl⟩ := List.exists_cons_of_ne_nil hs.ne_nil
  obtain ⟨hgap, hread⟩ := hs.read rfl
  obtain ⟨htake, hdrop⟩ := takeWhile_ends (t := b :: (u ++ rest)) h (by simpa using hgap)
  rw [List.append_assoc, List.cons_append]
  simp only [Lexer.next, skipGap, htake, hdrop, hread]

/-- A lexer gives the tokens into which its text is cut, and then the end token for ever. -/
theorem streams_of_cuts {before t tail : Text} {ps : List Piece} (h : Cuts before t ps tail) :
    Streams (⟨Position.behind before, t⟩ : Lexer) (ps.map Piece.token)
      ⟨.eof, [], Position.behind (before ++ t)⟩ := by
  induction ps generalizing before t with
  | nil =>
    obtain rfl : t = tail := h.text
    have hblank := next_blank h.blank (Position.behind before)
    rw [Position.behind_advance] at hblank
    have hstays := next_blank (List.forall_mem_nil _) (Position.behind (before ++ t))
    exact .of_stays hblank hstays rfl
  | cons p ps ih =>
    have hspelled := h.spelled [] p ps rfl
    have hplace : p.token.pos = Position.behind (before ++ p.gap) := by
      simpa [Piece.texts] using h.places [] p ps rfl
    have ht : t = p.gap ++ p.spelling ++ (Piece.texts ps ++ tail) := by simp [h.text]
    have hnext := next_token (h.gaps p List.mem_cons_self) hspelled (Position.behind before)
    rw [Position.behind_advance, Position.behind_advance, ← hplace, ← ht] at hnext
    have hrest := ih h.behind_head
    have hwhole : before ++ p.gap ++ p.spelling ++ (Piece.texts ps ++ tail) = before ++ t := by
      simp [h.text]
    rw [hwhole] at hrest
    refine .cons ?_ (congrArg Prod.fst hnext) hspelled.lexical.ne_eof ?_
    · show Streams (Lexer.next ⟨Position.behind before, t⟩).2 _ _
      rw [hnext]
      exact hrest
    · have hle : (ps.map Piece.token).length ≤ (Piece.texts ps ++ tail).length :=
        hrest.gives.length_le
      have hpos := List.length_pos_iff.mpr hspelled.ne_nil
      have hlength := congrArg List.length ht
      rw [List.length_append, List.length_append] at hlength
      show _ < t.length
      omega

variable {l : Lexer} {ts : List Token} {last : Token}

theorem take_succ (l : Lexer) (n : Nat) :
    l.take (n + 1) = (TokenSource.next l).1 :: take n (TokenSource.next l).2 := rfl

theorem take_of_streams (h : Streams l ts last) (n : Nat) :
    l.take (ts.length + n) = ts ++ List.replicate n last := by
  induction ts generalizing l with
  | nil =>
    rw [List.length_nil, Nat.zero_add, List.nil_append]
    induction n generalizing l with
    | zero => rfl
    | succ n ih => rw [take_succ, h.next_eq, List.headD_nil, ih h.tail, List.replicate_succ]
  | cons t ts ih =>
    rw [List.length_cons, Nat.succ_add, take_succ, h.next_eq, List.headD_cons, ih h.tail,
      List.cons_append]

/-- The length of the text leaves a lexer enough rounds to come to its end token. -/
theorem drain_of_streams (h : Streams l ts last) {n : Nat} (hn : ts.length ≤ n) :
    (drain n l).1 = ts ++ [last] := by
  induction ts generalizing l n with
  | nil =>
    have hnext : (Lexer.next l).1 = last := h.next_eq
    cases n with
    | zero => exact congrArg (fun t => [t]) hnext
    | succ n =>
      unfold drain
      simp only [hnext, h.kind_last, if_true]
      rfl
  | cons t ts ih =>
    have hnext : (Lexer.next l).1 = t := h.next_eq
    obtain ⟨n, rfl⟩ := Nat.exists_eq_succ_of_ne_zero (Nat.ne_zero_of_lt hn)
    have hrest := ih h.tail (Nat.le_of_succ_le_succ hn)
    unfold drain
    simp only [hnext, h.gives.2.1, if_false]
    exact congrArg (t :: ·) hrest

end Lexer

theorem lex_of_streams {t : Text} {ts : List Token} {last : Token}
    (h : TokenSource.Streams (Lexer.ofText t) ts last) : lex t = ts ++ [last] :=
  Lexer.drain_of_streams h h.gives.length_le

/-- Every text is its pieces and the blanks behind them. The tokens of the pieces are what lexing
gives before the end token, which stands behind the whole text and comes again and again; and
however the text is cut, they are the same. -/
theorem lexing_loses_nothing (t : Text) : ∃ ps tail, Cuts [] t ps tail ∧
    lex t = ps.map Piece.token ++ [⟨.eof, [], Position.behind t⟩] ∧
    (∀ p ∈ ps, p.token.kind ≠ .eof) ∧
    (∀ n, (Lexer.ofText t).take (ps.length + n) =
      ps.map Piece.token ++ List.replicate n ⟨.eof, [], Position.behind t⟩) ∧
    ∀ ps' tail', Cuts [] t ps' tail' → ps'.map Piece.token = ps.map Piece.token := by
  obtain ⟨ps, tail, h⟩ := Cuts.exist [] t
  have hstreams := Lexer.streams_of_cuts h
  refine ⟨ps, tail, h, lex_of_streams hstreams, fun p hp => h.kind_ne_eof hp, fun n => ?_, ?_⟩
  · have htake := Lexer.take_of_streams hstreams n
    rwa [List.length_map] at htake
  · intro ps' tail' h'
    have hlex := lex_of_streams (Lexer.streams_of_cuts h')
    exact List.append_cancel_right (hlex.symm.trans (lex_of_streams hstreams))

end Borealis
