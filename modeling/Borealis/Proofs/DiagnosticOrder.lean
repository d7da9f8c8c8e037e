-- Diagnostics in the order of the text. A rule complains about the token it
-- stands on or about the next one, and after a complaint about the next token
-- it reads on from there at the earliest. So places never go back, and each of
-- them is the place of a token of the text.
import Borealis.Proofs.Invariants
import Borealis.Proofs.Pieces

namespace Borealis

/-! ## The order of places -/

namespace Position

/-- A place is not behind another one: it is on an earlier line, or on the same line and not in a
later column. -/
instance : LE Position where
  le p q := p.line < q.line ∨ p.line = q.line ∧ p.column ≤ q.column

theorem le_iff (p q : Position) :
    p ≤ q ↔ p.line < q.line ∨ p.line = q.line ∧ p.column ≤ q.column := Iff.rfl

instance : DecidableLE Position := fun p q => decidable_of_iff' _ (le_iff p q)

theorem le_refl (p : Position) : p ≤ p := Or.inr ⟨rfl, Int.le_refl _⟩

theorem le_trans {p q r : Position} (h : p ≤ q) (h' : q ≤ r) : p ≤ r := by
  rw [le_iff] at *
  omega

theorem le_step (p : Position) (b : UInt8) : p ≤ p.step b := by
  rw [le_iff]
  unfold step
  split
  · exact Or.inl (Int.lt_succ p.line)
  · exact Or.inr ⟨rfl, Int.le_of_lt (Int.lt_succ p.column)⟩

theorem le_advance (p : Position) (t : Text) : p ≤ p.advance t := by
  induction t generalizing p with
  | nil => exact le_refl p
  | cons b t ih => exact le_trans (le_step p b) (ih (p.step b))

/-- More text does not lead back. -/
theorem behind_le (t u : Text) : behind t ≤ behind (t ++ u) := by
  rw [← behind_advance]
  exact le_advance _ _

end Position

/-- Tokens whose places never go back. -/
def InOrder (ts : List Token) : Prop := ts.Pairwise fun t u => t.pos ≤ u.pos

/-- The tokens into which a text is cut stand in its order, and the end token behind them. -/
theorem Cuts.inOrder {before t tail : Text} {ps : List Piece} (h : Cuts before t ps tail) :
    InOrder (ps.map Piece.token ++ [⟨.eof, [], Position.behind (before ++ t)⟩]) := by
  induction ps generalizing before t with
  | nil => exact List.pairwise_singleton _ _
  | cons p ps ih =>
    have hrest := ih h.behind_head
    have hwhole : before ++ p.gap ++ p.spelling ++ (Piece.texts ps ++ tail) = before ++ t := by
      simp [h.text]
    rw [hwhole] at hrest
    have hplace : p.token.pos = Position.behind (before ++ p.gap) := by
      simpa [Piece.texts] using h.places [] p ps rfl
    refine List.pairwise_cons.mpr ⟨fun u hu => ?_, hrest⟩
    rw [hplace]
    rcases List.mem_append.mp hu with hu | hu
    · obtain ⟨q, hq, rfl⟩ := List.mem_map.mp hu
      obtain ⟨front, back, rfl⟩ := List.append_of_mem hq
      have hle := Position.behind_le (before ++ p.gap) (p.spelling ++ Piece.texts front ++ q.gap)
      rw [h.places (p :: front) q back rfl]
      simpa using hle
    · have hle := Position.behind_le (before ++ p.gap)
        (p.spelling ++ (Piece.texts ps ++ tail))
      obtain rfl := List.mem_singleton.mp hu
      rw [← hwhole]
      simpa using hle

/-! ## Cursors on tokens -/

namespace Cursor

open TokenSource (Streams)

variable {σ : Type} [TokenSource σ] {c : Cursor σ} {all : List Token}

/-- What the cursor has ahead, up to the end token, are the last ones of these tokens. -/
def On (c : Cursor σ) (all : List Token) : Prop :=
  ∃ s ts last, c.Window s ∧ Streams s ts last ∧ ts ++ [last] <:+ all

theorem On.congr {c' : Cursor σ} (h : c.On all) (hc : c'.current = c.current)
    (hp : c'.peek = c.peek) (hs : c'.source = c.source) : c'.On all := by
  obtain ⟨s, ts, last, hw, hstreams, hsuffix⟩ := h
  exact ⟨s, ts, last, hw.congr hc hp hs, hstreams, hsuffix⟩

theorem On.advance (h : c.On all) : c.advance.On all := by
  obtain ⟨s, ts, last, hw, hstreams, hsuffix⟩ := h
  refine ⟨_, ts.tail, last, hw.advance, hstreams.tail, List.IsSuffix.trans ?_ hsuffix⟩
  cases ts with
  | nil => exact List.suffix_rfl
  | cons t ts => exact List.suffix_cons t _

theorem On.current_mem (h : c.On all) : c.current ∈ all := by
  obtain ⟨s, ts, last, hw, hstreams, hsuffix⟩ := h
  refine hsuffix.subset ?_
  rw [hw.current, hstreams.next_eq]
  cases ts with
  | nil => simp
  | cons t ts => simp

theorem On.peek_mem (h : c.On all) : c.peek ∈ all := h.advance.current_mem

/-- The next token does not stand before the current one. -/
theorem On.current_le_peek (h : c.On all) (ho : InOrder all) : c.current.pos ≤ c.peek.pos := by
  obtain ⟨s, ts, last, hw, hstreams, hsuffix⟩ := h
  have hts : InOrder (ts ++ [last]) := ho.sublist hsuffix.sublist
  rw [hw.current, hw.peek, hstreams.next_eq, hstreams.tail.next_eq]
  match ts, hts with
  | [], _ => exact Position.le_refl _
  | [t], hts => exact (List.pairwise_cons.mp hts).1 last (by simp)
  | t :: u :: ts, hts => exact (List.pairwise_cons.mp hts).1 u (by simp)

end Cursor

/-! ## Complaints in order -/

/-- The diagnostics are about tokens of the list, in their order, and none is about a place behind
`upTo`. -/
structure Orderly (all : List Token) (ds : List Diagnostic) (upTo : Position) : Prop where
  order : ds.Pairwise fun d d' => d.pos ≤ d'.pos
  real : ∀ d ∈ ds, ∃ t ∈ all, d.pos = t.pos ∧ d.got = t.kind
  within : ∀ d ∈ ds, d.pos ≤ upTo

namespace Orderly

variable {all : List Token} {ds : List Diagnostic} {p q : Position}

theorem nil : Orderly all [] p :=
  ⟨.nil, List.forall_mem_nil _, List.forall_mem_nil _⟩

theorem mono (h : Orderly all ds p) (hle : p ≤ q) : Orderly all ds q :=
  ⟨h.order, h.real, fun d hd => Position.le_trans (h.within d hd) hle⟩

/-- One more diagnostic, about a token that does not stand before the others. -/
theorem append {t : Token} (h : Orderly all ds t.pos) (ht : t ∈ all) (what : Complaint) :
    Orderly all (ds ++ [⟨what, t.pos, t.kind⟩]) t.pos := by
  refine ⟨?_, ?_, ?_⟩
  · refine List.pairwise_append.mpr ⟨h.order, List.pairwise_singleton _ _, fun d hd d' hd' => ?_⟩
    obtain rfl := List.mem_singleton.mp hd'
    exact h.within d hd
  · refine List.forall_mem_append.mpr ⟨h.real, List.forall_mem_singleton.mpr ?_⟩
    exact ⟨t, ht, rfl, rfl⟩
  · exact List.forall_mem_append.mpr ⟨h.within, List.forall_mem_singleton.mpr (Position.le_refl _)⟩

theorem complain {σ : Type} {c : Cursor σ} {t : Token} (h : Orderly all c.diagnostics.toList t.pos)
    (ht : t ∈ all) (what : Complaint) :
    Orderly all (c.complain t what).diagnostics.toList t.pos := by
  unfold Cursor.complain
  split
  · exact h
  · rw [Array.toList_push]
    exact h.append ht what

end Orderly

/-- The diagnostics up to the current token stay in order, and after a failure those up to the
next one. -/
theorem invariant_orderly {σ : Type} [TokenSource σ] {all : List Token} (ho : InOrder all) :
    Invariant (fun c : Cursor σ => c.On all ∧ Orderly all c.diagnostics.toList c.current.pos)
      (fun c => c.On all ∧ Orderly all c.diagnostics.toList c.peek.pos) where
  fails h := ⟨h.1, h.2.mono (h.1.current_le_peek ho)⟩
  resumes h := ⟨h.1.advance, h.2⟩
  here {c what} h _ := by
    have hd := h.2.complain h.1.current_mem what
    have hle := h.1.current_le_peek ho
    refine ⟨h.1.congr (by simp) (by simp) (by simp), ?_⟩
    rw [Cursor.complain_peek]
    exact hd.mono hle
  ahead {c what} h _ := by
    have hd := (h.2.mono (h.1.current_le_peek ho)).complain h.1.peek_mem what
    refine ⟨h.1.congr (by simp) (by simp) (by simp), ?_⟩
    rw [Cursor.complain_peek]
    exact hd
  abandons {c} h := by
    have hd := h.2.complain h.1.current_mem .tooDeep
    refine ⟨h.1.congr (by simp) (by simp) (by simp), ?_⟩
    show Orderly all _ (c.complain c.current .tooDeep).current.pos
    rw [Cursor.complain_current]
    exact hd

theorem orderly_ofText (t : Text) : ∃ p, Orderly (lex t) (Program.ofText t).diagnostics p := by
  obtain ⟨ps, tail, hcuts⟩ := Cuts.exist [] t
  have hstreams := Lexer.streams_of_cuts hcuts
  have hlex : lex t = ps.map Piece.token ++ [⟨.eof, [], Position.behind t⟩] :=
    lex_of_streams hstreams
  have ho : InOrder (lex t) := by
    rw [hlex]
    exact hcuts.inOrder
  have hstart : (Cursor.ofSource (Lexer.ofText t)).On (lex t) :=
    ⟨_, _, _, Cursor.window_ofSource _, hstreams, by rw [hlex]; exact List.suffix_rfl⟩
  obtain ⟨c, ⟨-, hc⟩, hd⟩ := (invariant_orderly ho).ofSource ⟨hstart, .nil⟩
  rw [Program.ofText, hd]
  exact ⟨_, hc⟩

/-- Whatever is wrong with a text, each diagnostic has the place and the kind of a token of the
text, and the places of the diagnostics never go back. -/
theorem diagnostics_follow_the_text (t : Text) :
    (∀ d ∈ (Program.ofText t).diagnostics, ∃ token ∈ lex t, d.pos = token.pos ∧
      d.got = token.kind) ∧
    (Program.ofText t).diagnostics.Pairwise fun d d' => d.pos ≤ d'.pos := by
  obtain ⟨p, h⟩ := orderly_ofText t
  exact ⟨h.real, h.order⟩

/-- Complaints at the next token, at the current one where a block goes on, and behind the
block. -/
def brokenBlock : Text := "let 1;\nif (x) \x7b let y; (2 z \x7d;\n@"

theorem brokenBlock_diagnostics_follow :
    (Program.ofText brokenBlock).diagnostics.map Diagnostic.pos =
      [⟨1, 5⟩, ⟨2, 15⟩, ⟨2, 15⟩, ⟨2, 20⟩, ⟨3, 1⟩] ∧
    (∀ d ∈ (Program.ofText brokenBlock).diagnostics, ∃ token ∈ lex brokenBlock,
      d.pos = token.pos ∧ d.got = token.kind) ∧
    (Program.ofText brokenBlock).diagnostics.Pairwise fun d d' => d.pos ≤ d'.pos :=
  ⟨by decide, diagnostics_follow_the_text brokenBlock⟩

end Borealis
