-- What a cursor has ahead of it. A source gives some tokens and then the end
-- token for ever; a cursor is a window on a source, two tokens wide. The
-- rules of the grammar ask for nothing else, so their laws speak of the words
-- ahead and not of where tokens come from.
import Borealis.Tree.OfTokens

namespace Borealis

/-! ## Words -/

/-- What the grammar sees of a token: its kind and its literal. -/
structure Word where
  kind : TokenKind
  literal : Text
  deriving DecidableEq, Repr

/-- A token without its place. -/
def Token.word (t : Token) : Word := ⟨t.kind, t.literal⟩

@[simp] theorem Token.word_kind (t : Token) : t.word.kind = t.kind := rfl

@[simp] theorem Token.word_literal (t : Token) : t.word.literal = t.literal := rfl

/-- The kind of the first word, or of the end token behind the last one. -/
def front : List Word → TokenKind
  | [] => .eof
  | w :: _ => w.kind

@[simp] theorem front_cons (w : Word) (ws : List Word) : front (w :: ws) = w.kind := rfl

theorem front_append {xs : List Word} (h : xs ≠ []) (ys : List Word) :
    front (xs ++ ys) = front xs := by
  cases xs with
  | nil => exact absurd rfl h
  | cons w xs => rfl

theorem TokenKind.lowest_le_binding (k : TokenKind) : Binding.lowest ≤ k.binding := by
  cases k with
  | other n => exact Nat.le_refl 1
  | _ => decide

/-! ## Sources -/

namespace TokenSource

variable {σ : Type} [TokenSource σ]

/-- The source behind `n` tokens. -/
def after (s : σ) : Nat → σ
  | 0 => s
  | n + 1 => after (TokenSource.next s).2 n

/-- The source gives these tokens, none of them the end token, and then the end token for ever.
Its bound counts them all. -/
def Gives (s : σ) : List Token → Prop
  | [] => ∀ n, (TokenSource.next (after s n)).1.kind = .eof
  | t :: ts =>
    (TokenSource.next s).1 = t ∧ t.kind ≠ .eof ∧ ts.length < TokenSource.bound s ∧
      Gives (TokenSource.next s).2 ts

theorem Gives.length_le {s : σ} {ts : List Token} (h : Gives s ts) :
    ts.length ≤ TokenSource.bound s := by
  cases ts with
  | nil => exact Nat.zero_le _
  | cons t ts => exact h.2.2.1

theorem Gives.next_nil {s : σ} (h : Gives s []) : Gives (TokenSource.next s).2 [] :=
  fun n => h (n + 1)

/-- The tokens behind the first one. Behind the end token there is nothing. -/
theorem Gives.tail {s : σ} {ts : List Token} (h : Gives s ts) :
    Gives (TokenSource.next s).2 ts.tail := by
  cases ts with
  | nil => exact h.next_nil
  | cons t ts => exact h.2.2.2

/-- A source gives one list of tokens only. -/
theorem Gives.unique {s : σ} {ts us : List Token} (h : Gives s ts) (h' : Gives s us) :
    ts = us := by
  induction ts generalizing s us with
  | nil =>
    cases us with
    | nil => rfl
    | cons u us =>
      have hk : (TokenSource.next s).1.kind = .eof := h 0
      rw [h'.1] at hk
      exact absurd hk h'.2.1
  | cons t ts ih =>
    cases us with
    | nil =>
      have hk : (TokenSource.next s).1.kind = .eof := h' 0
      rw [h.1] at hk
      exact absurd hk h.2.1
    | cons u us => rw [← h.1, ← h'.1, ih h.2.2.2 h'.2.2.2]

/-- The source gives these tokens, and then the end token `last` for ever. -/
structure Streams (s : σ) (ts : List Token) (last : Token) : Prop where
  gives : Gives s ts
  ends : ∀ n, (TokenSource.next (after s (ts.length + n))).1 = last

namespace Streams

variable {s s' : σ} {t last : Token} {ts : List Token}

/-- A source that comes to a place where it stays. -/
theorem of_stays (h : TokenSource.next s = (last, s')) (h' : TokenSource.next s' = (last, s'))
    (hk : last.kind = .eof) : Streams s [] last := by
  have hstays : ∀ n, after s' n = s' := by
    intro n
    induction n with
    | zero => rfl
    | succ n ih =>
      unfold after
      rw [h']
      exact ih
  have hends : ∀ n, (TokenSource.next (after s n)).1 = last := by
    intro n
    cases n with
    | zero =>
      unfold after
      rw [h]
    | succ n =>
      unfold after
      rw [h, hstays, h']
  refine ⟨fun n => ?_, fun n => ?_⟩
  · rw [hends]
    exact hk
  · rw [List.length_nil, Nat.zero_add]
    exact hends n

theorem cons (h : Streams (TokenSource.next s).2 ts last) (ht : (TokenSource.next s).1 = t)
    (hk : t.kind ≠ .eof) (hlt : ts.length < TokenSource.bound s) : Streams s (t :: ts) last := by
  refine ⟨⟨ht, hk, hlt, h.gives⟩, fun n => ?_⟩
  rw [List.length_cons, Nat.succ_add]
  exact h.ends n

theorem next_eq (h : Streams s ts last) : (TokenSource.next s).1 = ts.headD last := by
  cases ts with
  | nil => exact h.ends 0
  | cons t ts => exact h.gives.1

theorem tail (h : Streams s ts last) : Streams (TokenSource.next s).2 ts.tail last := by
  refine ⟨h.gives.tail, fun n => ?_⟩
  cases ts with
  | nil =>
    have hn := h.ends (n + 1)
    rw [List.length_nil, Nat.zero_add] at hn
    rw [List.tail_nil, List.length_nil, Nat.zero_add]
    exact hn
  | cons t ts =>
    have hn := h.ends n
    rw [List.length_cons, Nat.succ_add] at hn
    exact hn

theorem kind_last (h : Streams s ts last) : last.kind = .eof := by
  induction ts generalizing s with
  | nil =>
    rw [← h.ends 0]
    exact h.gives 0
  | cons t ts ih => exact ih h.tail

end Streams

end TokenSource

/-! ## Cursors -/

namespace Cursor

open TokenSource (Gives)

variable {σ : Type} [TokenSource σ]

/-- The cursor is what one sees of the source `s` through a window of two tokens. -/
structure Window (c : Cursor σ) (s : σ) : Prop where
  current : c.current = (TokenSource.next s).1
  peek : c.peek = (TokenSource.next (TokenSource.next s).2).1
  source : c.source = (TokenSource.next (TokenSource.next s).2).2

theorem window_ofSource (s : σ) : (Cursor.ofSource s).Window s := ⟨rfl, rfl, rfl⟩

theorem Window.advance {c : Cursor σ} {s : σ} (h : c.Window s) :
    c.advance.Window (TokenSource.next s).2 := by
  refine ⟨h.peek, ?_, ?_⟩
  · rw [← h.source]
    rfl
  · rw [← h.source]
    rfl

/-- The words from the cursor on, up to the end token. -/
def Sees (c : Cursor σ) (ws : List Word) : Prop :=
  ∃ s ts, c.Window s ∧ Gives s ts ∧ ws = ts.map Token.word

/-- The words behind the token that the cursor stands on. -/
def Behind (c : Cursor σ) (ws : List Word) : Prop :=
  ∃ s ts, c.Window s ∧ Gives (TokenSource.next s).2 ts ∧ ws = ts.map Token.word

/-- Only the window counts, not what was noted. -/
theorem Sees.congr {c c' : Cursor σ} {ws : List Word} (h : c.Sees ws)
    (hc : c'.current = c.current) (hp : c'.peek = c.peek) (hs : c'.source = c.source) :
    c'.Sees ws := by
  obtain ⟨s, ts, hw, hg, hws⟩ := h
  exact ⟨s, ts, ⟨hc.trans hw.current, hp.trans hw.peek, hs.trans hw.source⟩, hg, hws⟩

theorem Sees.kind {c : Cursor σ} {ws : List Word} (h : c.Sees ws) :
    c.current.kind = front ws := by
  obtain ⟨s, ts, hw, hg, rfl⟩ := h
  rw [hw.current]
  cases ts with
  | nil => exact hg 0
  | cons t ts => rw [hg.1]; rfl

theorem Sees.word {c : Cursor σ} {w : Word} {ws : List Word} (h : c.Sees (w :: ws)) :
    c.current.word = w := by
  obtain ⟨s, ts, hw, hg, he⟩ := h
  cases ts with
  | nil => simp at he
  | cons t ts =>
    simp only [List.map_cons, List.cons.injEq] at he
    rw [hw.current, hg.1, he.1]

theorem Sees.ne_eof {c : Cursor σ} {w : Word} {ws : List Word} (h : c.Sees (w :: ws)) :
    w.kind ≠ .eof := by
  obtain ⟨s, ts, hw, hg, he⟩ := h
  cases ts with
  | nil => simp at he
  | cons t ts =>
    simp only [List.map_cons, List.cons.injEq] at he
    rw [he.1]
    exact hg.2.1

/-- A cursor that does not stand on the end token stands on a first word. -/
theorem Sees.exists_cons {c : Cursor σ} {ws : List Word} (h : c.Sees ws) {k : TokenKind}
    (hk : c.current.kind = k) (hne : k ≠ .eof) : ∃ vs, ws = c.current.word :: vs := by
  cases ws with
  | nil => exact absurd (hk.symm.trans h.kind) hne
  | cons w vs => exact ⟨vs, by rw [h.word]⟩

theorem Sees.tail {c : Cursor σ} {ws : List Word} (h : c.Sees ws) : c.Behind ws.tail := by
  obtain ⟨s, ts, hw, hg, rfl⟩ := h
  exact ⟨s, ts.tail, hw, hg.tail, by simp⟩

theorem Sees.behind {c : Cursor σ} {w : Word} {ws : List Word} (h : c.Sees (w :: ws)) :
    c.Behind ws := h.tail

/-- One token further, the cursor stands on what was behind it. -/
theorem Behind.advance {c : Cursor σ} {ws : List Word} (h : c.Behind ws) : c.advance.Sees ws := by
  obtain ⟨s, ts, hw, hg, hws⟩ := h
  exact ⟨_, ts, hw.advance, hg, hws⟩

theorem Behind.kind {c : Cursor σ} {ws : List Word} (h : c.Behind ws) :
    c.peek.kind = front ws := h.advance.kind

theorem Behind.word {c : Cursor σ} {w : Word} {ws : List Word} (h : c.Behind (w :: ws)) :
    c.peek.word = w := h.advance.word

theorem Behind.exists_cons {c : Cursor σ} {ws : List Word} (h : c.Behind ws) {k : TokenKind}
    (hk : c.peek.kind = k) (hne : k ≠ .eof) : ∃ vs, ws = c.peek.word :: vs :=
  h.advance.exists_cons hk hne

/-- The bound on the rounds of a loop is larger than what is behind the cursor. -/
theorem Behind.length_lt {c : Cursor σ} {ws : List Word} (h : c.Behind ws) :
    ws.length < c.remaining := by
  obtain ⟨s, ts, hw, hg, rfl⟩ := h
  have hb := hg.tail.length_le
  rw [← hw.source] at hb
  simp only [List.length_tail, List.length_map] at hb ⊢
  unfold remaining
  omega

/-- The bound on the rounds of a loop is larger than what is ahead. -/
theorem Sees.length_lt {c : Cursor σ} {ws : List Word} (h : c.Sees ws) :
    ws.length < c.remaining := by
  obtain ⟨s, ts, hw, hg, rfl⟩ := h
  have hb := hg.tail.tail.length_le
  rw [← hw.source] at hb
  simp only [List.length_tail, List.length_map] at hb ⊢
  unfold remaining
  omega

theorem Sees.ofSource {s : σ} {ts : List Token} (h : Gives s ts) :
    (Cursor.ofSource s).Sees (ts.map Token.word) := ⟨s, ts, window_ofSource s, h, rfl⟩

/-! ## Going to the end -/

/-- Going to the end passes every word and notes nothing. -/
theorem Sees.toEnd {c : Cursor σ} {ws : List Word} (h : c.Sees ws) {n : Nat}
    (hn : ws.length ≤ n) :
    (toEnd n c).Sees [] ∧ (toEnd n c).diagnostics = c.diagnostics ∧
      (toEnd n c).abandoned = c.abandoned := by
  induction n generalizing c ws with
  | zero =>
    have hws : ws = [] := List.length_eq_zero_iff.mp (Nat.le_zero.mp hn)
    subst hws
    exact ⟨h, rfl, rfl⟩
  | succ n ih =>
    unfold Cursor.toEnd
    cases ws with
    | nil =>
      have hk : c.current.kind = .eof := h.kind
      rw [if_pos hk]
      exact ⟨h, rfl, rfl⟩
    | cons w ws =>
      have hk : c.current.kind ≠ .eof := by
        rw [h.kind]
        exact h.ne_eof
      rw [if_neg hk]
      exact ih h.behind.advance (by simpa using hn)

/-- Giving up goes to the end with one more complaint, about the current token. -/
theorem Sees.abandon {c : Cursor σ} {ws : List Word} (h : c.Sees ws) (what : Complaint)
    (hc : c.abandoned = false) :
    (c.abandon what).Sees [] ∧ (c.abandon what).abandoned = true ∧
      (c.abandon what).diagnostics =
        c.diagnostics.push ⟨what, c.current.pos, c.current.kind⟩ := by
  have hd : c.complain c.current what =
      { c with diagnostics := c.diagnostics.push ⟨what, c.current.pos, c.current.kind⟩ } := by
    simp [complain, hc]
  unfold Cursor.abandon
  rw [hd]
  have hs : ({ c with
      diagnostics := c.diagnostics.push ⟨what, c.current.pos, c.current.kind⟩
      abandoned := true } : Cursor σ).Sees ws := h.congr rfl rfl rfl
  obtain ⟨h1, h2, h3⟩ := hs.toEnd (Nat.le_of_lt h.length_lt)
  exact ⟨h1, h3, h2⟩

end Cursor

/-! ## Token lists -/

namespace TokenList

open TokenSource (Gives)

theorem gives_nil (p : Position) : Gives (⟨[], p⟩ : TokenList) [] := by
  intro n
  have h : TokenSource.after (⟨[], p⟩ : TokenList) n = ⟨[], p⟩ := by
    induction n with
    | zero => rfl
    | succ n ih => exact ih
  rw [h]
  rfl

/-- A token list gives its tokens before the first end token. -/
theorem gives (ts : List Token) (p : Position) :
    Gives (⟨ts, p⟩ : TokenList) (ts.takeWhile fun t => t.kind ≠ .eof) := by
  induction ts generalizing p with
  | nil => exact gives_nil p
  | cons t ts ih =>
    by_cases hk : t.kind = .eof
    · rw [List.takeWhile_cons_of_neg (by simpa using hk)]
      intro n
      cases n with
      | zero =>
        show (TokenList.next ⟨t :: ts, p⟩).1.kind = .eof
        simp [TokenList.next, hk]
      | succ n =>
        have hn : (TokenSource.next (⟨t :: ts, p⟩ : TokenList)).2 = ⟨[], t.pos⟩ := by
          show (TokenList.next ⟨t :: ts, p⟩).2 = _
          simp [TokenList.next, hk]
        unfold TokenSource.after
        rw [hn]
        exact gives_nil t.pos n
    · rw [List.takeWhile_cons_of_pos (by simpa using hk)]
      have hn : TokenSource.next (⟨t :: ts, p⟩ : TokenList) = (t, ⟨ts, t.pos⟩) := by
        show TokenList.next ⟨t :: ts, p⟩ = _
        simp [TokenList.next, hk]
      refine ⟨by rw [hn], hk, ?_, ?_⟩
      · have hl := (List.takeWhile_sublist (l := ts) fun t => decide (t.kind ≠ .eof)).length_le
        show _ < (t :: ts).length
        simp only [List.length_cons]
        omega
      · rw [hn]
        exact ih t.pos

end TokenList

end Borealis
