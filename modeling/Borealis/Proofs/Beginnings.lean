-- The first lines of a program. In a text that was cut off, the rules do what
-- they do in the whole text, as long as there is something to read. From the
-- cut on they see the end token only, and whatever they miss then, they
-- complain about nothing else.
import Borealis.Loop
import Borealis.Proofs.Completeness
import Borealis.Proofs.LineBreaks
import Borealis.Proofs.Soundness
import Borealis.Proofs.Trimming

namespace Borealis

namespace Cursor

variable {σ : Type}

/-! ## At the end of a text -/

/-- All that was noted on the way from one cursor to the other is about the end token. -/
def NotesEnd (c c' : Cursor σ) : Prop :=
  ∃ ds, c'.diagnostics.toList = c.diagnostics.toList ++ ds ∧ ∀ d ∈ ds, d.got = .eof

theorem NotesEnd.of_eq {c c' : Cursor σ} (h : c'.diagnostics = c.diagnostics) : c.NotesEnd c' :=
  ⟨[], by rw [h, List.append_nil], by simp⟩

theorem NotesEnd.trans {a b c : Cursor σ} (h : a.NotesEnd b) (h' : b.NotesEnd c) :
    a.NotesEnd c := by
  obtain ⟨ds, hb, hds⟩ := h
  obtain ⟨ds', hc, hds'⟩ := h'
  refine ⟨ds ++ ds', by rw [hc, hb, List.append_assoc], ?_⟩
  exact List.forall_mem_append.mpr ⟨hds, hds'⟩

theorem notesEnd_complain (c : Cursor σ) {t : Token} (ht : t.kind = .eof) (what : Complaint) :
    c.NotesEnd (c.complain t what) := by
  unfold complain
  split
  · exact .of_eq rfl
  · exact ⟨[⟨what, t.pos, t.kind⟩], by simp, by simpa using ht⟩

variable [TokenSource σ]

theorem Behind.complain {c : Cursor σ} {ws : List Word} (h : c.Behind ws) (t : Token)
    (what : Complaint) : (c.complain t what).Behind ws := by
  unfold Cursor.complain
  split
  · exact h
  · obtain ⟨s, ts, hw, hg, hws⟩ := h
    exact ⟨s, ts, ⟨hw.current, hw.peek, hw.source⟩, hg, hws⟩

/-- The way led to the end of the text, and no complaint on it is about anything else. -/
structure Ended (c c' : Cursor σ) : Prop where
  behind : c'.Behind []
  notes : c.NotesEnd c'

theorem Ended.refl {c : Cursor σ} (h : c.Behind []) : c.Ended c := ⟨h, .of_eq rfl⟩

theorem Ended.of_eq {a b c : Cursor σ} (h : b.diagnostics = a.diagnostics) (h' : b.Ended c) :
    a.Ended c := ⟨h'.behind, (NotesEnd.of_eq h).trans h'.notes⟩

theorem Ended.of_advance {c c' : Cursor σ} (h : c.advance.Ended c') : c.Ended c' :=
  ⟨h.behind, h.notes⟩

theorem ended_complain {c : Cursor σ} (h : c.Behind []) {t : Token} (ht : t.kind = .eof)
    (what : Complaint) : c.Ended (c.complain t what) :=
  ⟨h.complain t what, c.notesEnd_complain ht what⟩

theorem ended_abandon {c : Cursor σ} (h : c.Sees []) (what : Complaint) :
    c.Ended (c.abandon what) := by
  have hs : ({ c.complain c.current what with abandoned := true } : Cursor σ).Sees [] := by
    refine h.congr ?_ ?_ ?_
    all_goals
      unfold complain
      split <;> rfl
  have hend := (hs.toEnd (Nat.zero_le c.remaining)).1
  obtain ⟨ds, hds, hall⟩ := c.notesEnd_complain h.kind what
  refine ⟨hend.tail, ds, ?_, hall⟩
  rw [abandon, toEnd_diagnostics]
  exact hds

end Cursor

namespace Rule

open Cursor (Ended NotesEnd)

variable {σ α β : Type} [TokenSource σ]

/-- With nothing behind the cursor, the rule complains of the end at most. -/
def Ends (r : Rule σ α) : Prop := ∀ c : Cursor σ, c.Behind [] → Ended c (r c).2

/-- On the end token, the rule complains of it at most. -/
def EndsAt (r : Rule σ α) : Prop := ∀ c : Cursor σ, c.Sees [] → Ended c (r c).2

theorem Ends.endsAt {r : Rule σ α} (h : r.Ends) : r.EndsAt := fun c hs => h c hs.tail

theorem ends_pure (a : α) : (pure a : Rule σ α).Ends := fun _ hb => .refl hb

theorem ends_fail : (fail : Rule σ α).Ends := fun _ hb => .refl hb

theorem ends_peek : (peek : Rule σ Token).Ends := fun _ hb => .refl hb

theorem ends_remaining : (remaining : Rule σ Nat).Ends := fun _ hb => .refl hb

theorem ends_bind {r : Rule σ α} {f : α → Rule σ β} {c : Cursor σ} (hr : Ended c (r c).2)
    (hf : ∀ a, (f a).Ends) : Ended c ((r >>= f) c).2 := by
  rcases hc : r c with ⟨_ | a, c'⟩
  · rw [bind_of_none hc]
    rwa [hc] at hr
  · rw [bind_of_some hc]
    rw [hc] at hr
    have h := hf a c' hr.behind
    exact ⟨h.behind, hr.notes.trans h.notes⟩

theorem Ends.bind {r : Rule σ α} {f : α → Rule σ β} (hr : r.Ends) (hf : ∀ a, (f a).Ends) :
    (r >>= f).Ends := fun c hb => ends_bind (hr c hb) hf

theorem EndsAt.bind {r : Rule σ α} {f : α → Rule σ β} (hr : r.EndsAt) (hf : ∀ a, (f a).Ends) :
    (r >>= f).EndsAt := fun c hs => ends_bind (hr c hs) hf

/-- From the last token, one step leads to the end token. -/
theorem ends_advance {f : Unit → Rule σ β} (h : (f ()).EndsAt) : (advance >>= f).Ends :=
  fun c hb => (h c.advance hb.advance).of_advance

theorem ends_expect {kind : TokenKind} (hk : kind ≠ .eof) : (expect kind : Rule σ Token).Ends := by
  intro c hb
  have he : c.peek.kind = .eof := hb.kind
  have hne : c.peek.kind ≠ kind := fun h => hk (h.symm.trans he)
  rw [expect, if_neg hne]
  exact Cursor.ended_complain hb he _

theorem ends_skip {kind : TokenKind} (hk : kind ≠ .eof) : (skip kind : Rule σ Unit).Ends := by
  intro c hb
  have he : c.peek.kind = .eof := hb.kind
  have hne : c.peek.kind ≠ kind := fun h => hk (h.symm.trans he)
  rw [skip, if_neg hne]
  exact .refl hb

theorem ends_ite {p : Prop} [Decidable p] {r s : Rule σ α} (hr : r.Ends) (hs : s.Ends) :
    (if p then r else s).Ends := by
  split
  · exact hr
  · exact hs

end Rule

namespace Grammar

open Rule

variable {σ : Type} [TokenSource σ] {inner : Inner σ}

theorem ends_terminator (s : Stmt) :
    (skip .semicolon >>= fun _ => pure s : Rule σ Stmt).Ends :=
  (ends_skip (by decide)).bind fun _ => ends_pure s

theorem endsAt_statement (h : (inner Binding.lowest).EndsAt) : (statement inner).EndsAt := by
  intro c hs
  have hk : c.current.kind = .eof := hs.kind
  simp only [statement, bind_current, hk]
  exact h.bind (fun _ => ends_terminator _) c hs

theorem endsAt_blockStatements (inner : Inner σ) (rounds : Nat) :
    (blockStatements inner rounds).EndsAt := by
  intro c hs
  cases rounds with
  | zero => exact ends_fail.endsAt c hs
  | succ rounds =>
    have hk : c.current.kind = .eof := hs.kind
    simp only [blockStatements, bind_current, hk]
    exact Cursor.ended_complain hs.tail hk _

theorem ends_block (inner : Inner σ) : (block inner).Ends :=
  ends_advance fun c hs => endsAt_blockStatements inner c.remaining c hs

theorem ends_alternative (inner : Inner σ) (test : Expr) (yes : List Stmt) :
    (alternative inner test yes).Ends := by
  refine ends_peek.bind fun _ => ends_ite (ends_advance ?_) (ends_pure _)
  exact ((ends_expect (by decide)).bind fun _ => (ends_block inner).bind fun _ =>
    ends_pure _).endsAt

theorem ends_moreParameters (rounds : Nat) : (moreParameters rounds : Rule σ (List Text)).Ends := by
  induction rounds with
  | zero => exact ends_fail
  | succ rounds ih =>
    refine ends_peek.bind fun _ => ends_ite (ends_advance (Ends.endsAt ?_)) ?_
    · exact (ends_expect (by decide)).bind fun _ => ih.bind fun _ => ends_pure _
    · exact (ends_expect (by decide)).bind fun _ => ends_pure _

theorem ends_parameters : (parameters : Rule σ (List Text)).Ends := by
  refine ends_peek.bind fun _ => ends_ite (ends_advance (ends_pure _).endsAt) ?_
  exact (ends_expect (by decide)).bind fun _ => ends_remaining.bind fun _ =>
    (ends_moreParameters _).bind fun _ => ends_pure _

theorem endsAt_operand (inner : Inner σ) : (operand inner).EndsAt := by
  intro c hs
  have hk : c.current.kind = .eof := hs.kind
  simp only [operand, bind_current, hk]
  exact Cursor.ended_complain hs.tail hk _

theorem ends_moreArguments (h : (inner Binding.lowest).EndsAt) (rounds : Nat) :
    (moreArguments inner rounds).Ends := by
  induction rounds with
  | zero => exact ends_fail
  | succ rounds ih =>
    refine ends_peek.bind fun _ => ends_ite (ends_advance (Ends.endsAt (ends_advance ?_))) ?_
    · exact h.bind fun _ => ih.bind fun _ => ends_pure _
    · exact (ends_expect (by decide)).bind fun _ => ends_pure _

theorem ends_arguments (h : (inner Binding.lowest).EndsAt) : (arguments inner).Ends := by
  refine ends_peek.bind fun _ => ends_ite (ends_advance (ends_pure _).endsAt) (ends_advance ?_)
  exact h.bind fun _ => ends_remaining.bind fun _ => (ends_moreArguments h _).bind fun _ =>
    ends_pure _

/-- The end token is no operator. -/
theorem ends_operations (inner : Inner σ) {p : Nat} (hp : 1 ≤ p) (rounds : Nat) (left : Expr) :
    (operations inner p rounds left).Ends := by
  intro c hb
  have hle : c.peek.kind.binding ≤ p := by
    rw [hb.kind]
    exact hp
  rw [operations_stop rounds hle]
  exact .refl hb

theorem endsAt_expression (room : Nat) {p : Nat} (hp : 1 ≤ p) :
    (expression room p : Rule σ Expr).EndsAt := by
  cases room with
  | zero => exact fun c hs => Cursor.ended_abandon hs .tooDeep
  | succ room =>
    exact (endsAt_operand _).bind fun _ => ends_remaining.bind fun _ => ends_operations _ hp _ _

/-! ## In a text and in its beginning -/

/-- The first cursor stands where the second one does, and behind what the second one has ahead,
it has the words `ys` too. -/
structure Facing (ys xs : List Word) (c c' : Cursor σ) : Prop where
  sees : c.Sees (xs ++ ys)
  sees' : c'.Sees xs
  abandoned : c.abandoned = false
  abandoned' : c'.abandoned = false

/-- The same of what is behind the two cursors. -/
structure Beside (ys xs : List Word) (c c' : Cursor σ) : Prop where
  behind : c.Behind (xs ++ ys)
  behind' : c'.Behind xs
  abandoned : c.abandoned = false
  abandoned' : c'.abandoned = false

variable {α β : Type} {xs ys : List Word} {w : Word} {c c' : Cursor σ} {n m : Nat}

theorem Facing.behind (h : Facing ys (w :: xs) c c') : Beside ys xs c c' :=
  ⟨h.sees.behind, h.sees'.behind, h.abandoned, h.abandoned'⟩

theorem Beside.advance (h : Beside ys xs c c') : Facing ys xs c.advance c'.advance :=
  ⟨h.behind.advance, h.behind'.advance, h.abandoned, h.abandoned'⟩

/-- Of two runs, let the first one note nothing. Then the second one gave the same and has so many
words left at most, or it came to the end of its words. -/
def Tracks (ys : List Word) (n : Nat) (c c' : Cursor σ) (r r' : Rule σ α) : Prop :=
  (r c).2.diagnostics = c.diagnostics →
    (∃ a c₁ c₁' xs, r c = (some a, c₁) ∧ r' c' = (some a, c₁') ∧ Beside ys xs c₁ c₁' ∧
      c₁'.diagnostics = c'.diagnostics ∧ xs.length ≤ n) ∨ c'.Ended (r' c').2

theorem Tracks.mono {r r' : Rule σ α} (h : Tracks ys n c c' r r') (hn : n ≤ m) :
    Tracks ys m c c' r r' := by
  intro hd
  rcases h hd with ⟨a, c₁, c₁', xs, ho, ho', hb, hd', hl⟩ | h
  · exact Or.inl ⟨a, c₁, c₁', xs, ho, ho', hb, hd', Nat.le_trans hl hn⟩
  · exact Or.inr h

theorem tracks_pure (a : α) (h : Beside ys xs c c') (hn : xs.length ≤ n) :
    Tracks ys n c c' (pure a) (pure a) :=
  fun _ => Or.inl ⟨a, c, c', xs, rfl, rfl, h, rfl, hn⟩

theorem tracks_reject {r' : Rule σ α} (hc : c.abandoned = false) (t : Token)
    (what : Complaint) : Tracks ys n c c' (reject t what) r' :=
  fun hd => absurd hd (Cursor.complain_diagnostics_ne hc t what)

theorem Tracks.bind {r r' : Rule σ α} {f f' : α → Rule σ β} (hr : Tracks ys n c c' r r')
    (hg : r.Grows) (hf : ∀ a, (f a).Grows)
    (hnext : ∀ a c₁ c₁' xs, Beside ys xs c₁ c₁' → xs.length ≤ n → Tracks ys m c₁ c₁' (f a) (f' a))
    (hend : ∀ a, (f' a).Ends) : Tracks ys m c c' (r >>= f) (r' >>= f') := by
  intro hd
  have hquiet : (r c).2.diagnostics = c.diagnostics := by
    have hg' := hg c
    rcases hrc : r c with ⟨_ | a, c₁⟩
    · rwa [bind_of_none hrc] at hd
    · rw [bind_of_some hrc] at hd
      rw [hrc] at hg'
      exact hg'.eq (hf a c₁) hd
  rcases hr hquiet with ⟨a, c₁, c₁', xs, ho, ho', hb, hd', hl⟩ | h
  · rw [ho] at hquiet
    rw [bind_of_some ho] at hd ⊢
    rw [bind_of_some ho']
    rcases hnext a c₁ c₁' xs hb hl (hd.trans hquiet.symm) with
      ⟨b, c₂, c₂', zs, ho₂, ho₂', hb₂, hd₂, hl₂⟩ | h
    · exact Or.inl ⟨b, c₂, c₂', zs, ho₂, ho₂', hb₂, hd₂.trans hd', hl₂⟩
    · exact Or.inr (h.of_eq hd')
  · exact Or.inr (ends_bind h hend)

theorem Tracks.attempt {r r' : Rule σ α} (h : Tracks ys n c c' r r') :
    Tracks ys n c c' (Rule.attempt r) (Rule.attempt r') := by
  intro hd
  rcases h hd with ⟨a, c₁, c₁', xs, ho, ho', hb, hd', hl⟩ | h
  · refine Or.inl ⟨some a, c₁, c₁', xs, ?_, ?_, hb, hd', hl⟩
    · rw [Rule.attempt, ho]
    · rw [Rule.attempt, ho']
  · exact Or.inr h

theorem tracks_current {f f' : Token → Rule σ β}
    (h : Tracks ys n c c' (f c.current) (f' c'.current)) :
    Tracks ys n c c' (current >>= f) (current >>= f') := h

theorem tracks_peek {f f' : Token → Rule σ β} (h : Tracks ys n c c' (f c.peek) (f' c'.peek)) :
    Tracks ys n c c' (peek >>= f) (peek >>= f') := h

theorem tracks_remaining {f f' : Nat → Rule σ β}
    (h : Tracks ys n c c' (f c.remaining) (f' c'.remaining)) :
    Tracks ys n c c' (remaining >>= f) (remaining >>= f') := h

theorem tracks_advance {f f' : Unit → Rule σ β}
    (h : Tracks ys n c.advance c'.advance (f ()) (f' ())) :
    Tracks ys n c c' (advance >>= f) (advance >>= f') := by
  intro hd
  rcases h hd with h | h
  · exact Or.inl h
  · exact Or.inr h.of_advance

/-- A word that is expected is there in both, or the words of the second are at their end. -/
theorem tracks_expect {kind : TokenKind} {f f' : Token → Rule σ β} (hk : kind ≠ .eof)
    (h : Beside ys xs c c') (hend : ∀ t, (f' t).Ends)
    (hnext : ∀ w vs, xs = w :: vs → c.peek.word = w → c'.peek.word = w →
      Beside ys vs c.advance c'.advance →
      Tracks ys n c.advance c'.advance (f c.peek) (f' c'.peek)) :
    Tracks ys n c c' (expect kind >>= f) (expect kind >>= f') := by
  intro hd
  cases xs with
  | nil => exact Or.inr (ends_bind (ends_expect hk c' h.behind') hend)
  | cons w vs =>
    by_cases hw : w.kind = kind
    · have hp : c.peek.kind = kind := h.behind.kind.trans hw
      have hp' : c'.peek.kind = kind := h.behind'.kind.trans hw
      rw [bind_expect hp] at hd ⊢
      rw [bind_expect hp']
      rcases hnext w vs rfl h.behind.word h.behind'.word h.advance.behind hd with h | h
      · exact Or.inl h
      · exact Or.inr h.of_advance
    · have hp : c.peek.kind ≠ kind := by
        rw [h.behind.kind]
        exact hw
      have he : (expect kind : Rule σ Token) c =
          (none, c.complain c.peek (.expected kind c.peek.kind)) := by simp [expect, hp]
      rw [bind_of_none he] at hd
      exact absurd hd (Cursor.complain_diagnostics_ne h.abandoned _ _)

/-- The rule for the expressions inside does the same in a text and in its beginning. -/
structure Tracking (inner : Inner σ) : Prop where
  grows : ∀ p, (inner p).Grows
  endsAt : ∀ p, 1 ≤ p → (inner p).EndsAt
  tracks : ∀ p ys xs (c c' : Cursor σ), 1 ≤ p → Facing ys xs c c' →
    Tracks ys (xs.length - 1) c c' (inner p) (inner p)

theorem Tracking.endsAt_lowest (h : Tracking inner) : (inner Binding.lowest).EndsAt :=
  h.endsAt 1 (Nat.le_refl 1)

/-- The expressions of statements, groups and arguments, and what is read behind them. -/
theorem Tracking.lowest (h : Tracking inner) {f f' : Expr → Rule σ β} (hf : Facing ys xs c c')
    (hg : ∀ e, (f e).Grows) (hend : ∀ e, (f' e).Ends)
    (hnext : ∀ e c₁ c₁' vs, Beside ys vs c₁ c₁' → vs.length ≤ xs.length - 1 →
      Tracks ys n c₁ c₁' (f e) (f' e)) :
    Tracks ys n c c' (inner Binding.lowest >>= f) (inner Binding.lowest >>= f') :=
  (h.tracks 1 ys xs c c' (Nat.le_refl 1) hf).bind (h.grows _) hg hnext hend

/-! ## Statements in a text and in its beginning -/

theorem grows_terminator (s : Stmt) :
    (skip .semicolon >>= fun _ => pure s : Rule σ Stmt).Grows :=
  (grows_skip _).bind fun _ => grows_pure _

theorem tracks_terminator (s : Stmt) (h : Beside ys xs c c') (hn : xs.length ≤ n) :
    Tracks ys n c c' (skip .semicolon >>= fun _ => pure s)
      (skip .semicolon >>= fun _ => pure s) := by
  have hsemicolon : ∀ {c : Cursor σ}, c.peek.kind = .semicolon →
      (skip .semicolon : Rule σ Unit) c = (some (), c.advance) := fun hp => by simp [skip, hp]
  have hother : ∀ {c : Cursor σ}, c.peek.kind ≠ .semicolon →
      (skip .semicolon : Rule σ Unit) c = (some (), c) := fun hp => by simp [skip, hp]
  intro hd
  cases xs with
  | nil => exact Or.inr (ends_terminator s c' h.behind')
  | cons w vs =>
    rw [List.length_cons] at hn
    have hp : c.peek.kind = w.kind := h.behind.kind
    have hp' : c'.peek.kind = w.kind := h.behind'.kind
    by_cases hw : w.kind = .semicolon
    · rw [bind_of_some (hsemicolon (hp.trans hw)), bind_of_some (hsemicolon (hp'.trans hw))]
      exact Or.inl ⟨s, _, _, vs, rfl, rfl, h.advance.behind, rfl, by omega⟩
    · rw [bind_of_some (hother (hp ▸ hw)), bind_of_some (hother (hp' ▸ hw))]
      exact Or.inl ⟨s, _, _, w :: vs, rfl, rfl, h, rfl, hn⟩

theorem tracks_statement (h : Tracking inner) (hf : Facing ys xs c c') :
    Tracks ys (xs.length - 1) c c' (statement inner) (statement inner) := by
  have hlast : ∀ (s : Expr → Stmt) {vs : List Word} {c c' : Cursor σ}, Facing ys vs c c' →
      vs.length ≤ xs.length →
      Tracks ys (xs.length - 1) c c'
        (inner Binding.lowest >>= fun e => skip .semicolon >>= fun _ => pure (s e))
        (inner Binding.lowest >>= fun e => skip .semicolon >>= fun _ => pure (s e)) := by
    intro s vs c c' hf hn
    refine h.lowest hf (fun e => grows_terminator _) (fun e => ends_terminator _) ?_
    exact fun e c₁ c₁' us hb hl => tracks_terminator _ hb (by omega)
  have hend : ∀ s : Expr → Stmt, (advance >>= fun _ => inner Binding.lowest >>= fun e =>
      skip .semicolon >>= fun _ => pure (s e) : Rule σ Stmt).Ends := fun s =>
    ends_advance (h.endsAt_lowest.bind fun _ => ends_terminator _)
  cases xs with
  | nil => exact fun _ => Or.inr (endsAt_statement h.endsAt_lowest c' hf.sees')
  | cons w vs =>
    have hk : c.current.kind = w.kind := hf.sees.kind
    have hk' : c'.current.kind = w.kind := hf.sees'.kind
    refine tracks_current ?_
    rw [hk, hk']
    split
    · refine tracks_expect (by decide) hf.behind
        (fun t => (ends_expect (by decide)).bind fun _ => hend _) fun name us hus hw hw' hb => ?_
      refine tracks_expect (by decide) hb (fun _ => hend _) fun eq us' hus' _ _ hb' => ?_
      have hlit : c.peek.literal = c'.peek.literal := congrArg Word.literal (hw.trans hw'.symm)
      rw [hlit]
      subst hus hus'
      refine tracks_advance (hlast _ hb'.advance ?_)
      simp only [List.length_cons]
      omega
    · exact tracks_advance (hlast _ hf.behind.advance (Nat.le_succ _))
    · exact hlast _ hf (Nat.le_refl _)

/-- Statements up to a closing brace, with enough rounds for all words. -/
theorem tracks_blockStatements (h : Tracking inner) (rounds rounds' : Nat)
    (hf : Facing ys xs c c') (hn : (xs ++ ys).length < rounds) (hn' : xs.length < rounds') :
    Tracks ys (xs.length - 1) c c' (blockStatements inner rounds)
      (blockStatements inner rounds') := by
  induction rounds generalizing rounds' xs c c' with
  | zero => omega
  | succ rounds ih =>
    obtain ⟨rounds', rfl⟩ := Nat.exists_eq_succ_of_ne_zero (Nat.ne_zero_of_lt hn')
    cases xs with
    | nil => exact fun _ => Or.inr (endsAt_blockStatements inner _ c' hf.sees')
    | cons w vs =>
      have hk : c.current.kind = w.kind := hf.sees.kind
      have hk' : c'.current.kind = w.kind := hf.sees'.kind
      rw [List.length_append, List.length_cons] at hn
      rw [List.length_cons] at hn'
      refine tracks_current ?_
      rw [hk, hk']
      split
      · exact tracks_pure [] hf.behind (Nat.le_refl _)
      · exact tracks_reject hf.abandoned _ _
      · have hrest : ∀ first : Option Stmt,
            (advance >>= fun _ => blockStatements inner rounds' >>= fun others =>
              pure (first.toList ++ others) : Rule σ (List Stmt)).Ends := fun first =>
          ends_advance ((endsAt_blockStatements inner rounds').bind fun _ => ends_pure _)
        refine (tracks_statement h hf).attempt.bind (grows_statement h.grows).attempt
          (fun _ => grows_advance.bind fun _ => (grows_blockStatements h.grows _).bind fun _ =>
            grows_pure _) (fun first c₁ c₁' us hb hl => ?_) hrest
        rw [List.length_cons, Nat.add_sub_cancel] at hl
        have hothers := ih rounds' hb.advance (by rw [List.length_append]; omega) (by omega)
        refine tracks_advance (hothers.bind (grows_blockStatements h.grows _)
          (fun _ => grows_pure _) (fun others c₂ c₂' vs' hb' hl' => ?_) fun _ => ends_pure _)
        exact tracks_pure _ hb' (by rw [List.length_cons]; omega)

theorem tracks_block (h : Tracking inner) (hb : Beside ys xs c c') :
    Tracks ys xs.length c c' (block inner) (block inner) := by
  have hf := hb.advance
  refine tracks_advance (tracks_remaining ?_)
  exact (tracks_blockStatements h _ _ hf hf.sees.length_lt hf.sees'.length_lt).mono (by omega)

/-! ## Operands in a text and in its beginning -/

theorem tracks_integer (hf : Facing ys (w :: xs) c c') :
    Tracks ys xs.length c c' (integer : Rule σ Expr) integer := by
  have hlit : c.current.literal = c'.current.literal :=
    congrArg Word.literal (hf.sees.word.trans hf.sees'.word.symm)
  refine tracks_current ?_
  rw [hlit]
  split
  · exact tracks_pure _ hf.behind (Nat.le_refl _)
  · exact tracks_reject hf.abandoned _ _

theorem tracks_unary (h : Tracking inner) (hf : Facing ys (w :: xs) c c') :
    Tracks ys xs.length c c' (unary inner) (unary inner) := by
  have hlit : c.current.literal = c'.current.literal :=
    congrArg Word.literal (hf.sees.word.trans hf.sees'.word.symm)
  refine tracks_current (tracks_advance ?_)
  rw [hlit]
  refine (h.tracks 6 ys xs _ _ (by decide) hf.behind.advance).bind (h.grows _)
    (fun _ => grows_pure _) (fun e c₁ c₁' vs hb hl => ?_) fun _ => ends_pure _
  exact tracks_pure _ hb (by omega)

theorem tracks_grouped (h : Tracking inner) (hf : Facing ys (w :: xs) c c') :
    Tracks ys xs.length c c' (grouped inner) (grouped inner) := by
  refine tracks_advance (h.lowest hf.behind.advance
    (fun _ => (grows_expect _).bind fun _ => grows_pure _)
    (fun _ => (ends_expect (by decide)).bind fun _ => ends_pure _)
    fun e c₁ c₁' vs hb hl => ?_)
  refine tracks_expect (by decide) hb (fun _ => ends_pure _) fun r us hus _ _ hb' => ?_
  subst hus
  rw [List.length_cons] at hl
  exact tracks_pure _ hb' (by omega)

theorem tracks_alternative (h : Tracking inner) (test : Expr) (yes : List Stmt)
    (hb : Beside ys xs c c') :
    Tracks ys xs.length c c' (alternative inner test yes) (alternative inner test yes) := by
  cases xs with
  | nil => exact fun _ => Or.inr (ends_alternative inner test yes c' hb.behind')
  | cons w vs =>
    have hk : c.peek.kind = w.kind := hb.behind.kind
    have hk' : c'.peek.kind = w.kind := hb.behind'.kind
    refine tracks_peek ?_
    rw [hk, hk']
    split
    · refine tracks_advance (tracks_expect (by decide) hb.advance.behind
        (fun _ => (ends_block inner).bind fun _ => ends_pure _) fun q us hus _ _ hb' => ?_)
      subst hus
      refine (tracks_block h hb').bind (grows_block h.grows) (fun _ => grows_pure _)
        (fun no c₁ c₁' us' hb₁ hl => tracks_pure _ hb₁ ?_) fun _ => ends_pure _
      simp only [List.length_cons]
      omega
    · exact tracks_pure _ hb (Nat.le_refl _)

theorem tracks_conditional (h : Tracking inner) (hf : Facing ys (w :: xs) c c') :
    Tracks ys xs.length c c' (conditional inner) (conditional inner) := by
  have hblock : ∀ test : Expr, (block inner >>= fun yes => alternative inner test yes).Ends :=
    fun test => (ends_block inner).bind fun yes => ends_alternative inner test yes
  have hgrows : ∀ test : Expr, (block inner >>= fun yes => alternative inner test yes).Grows :=
    fun test => (grows_block h.grows).bind fun yes => grows_alternative h.grows test yes
  rw [conditional_eq]
  refine tracks_expect (by decide) hf.behind (fun _ => ends_advance (h.endsAt_lowest.bind fun _ =>
    (ends_expect (by decide)).bind fun _ => (ends_expect (by decide)).bind fun _ => hblock _))
    fun l us hus _ _ hb => ?_
  refine tracks_advance (h.lowest hb.advance
    (fun _ => (grows_expect _).bind fun _ => (grows_expect _).bind fun _ => hgrows _)
    (fun _ => (ends_expect (by decide)).bind fun _ => (ends_expect (by decide)).bind fun _ =>
      hblock _) fun test c₁ c₁' vs hb₁ hl => ?_)
  refine tracks_expect (by decide) hb₁ (fun _ => (ends_expect (by decide)).bind fun _ => hblock _)
    fun r us₁ hus₁ _ _ hb₂ => ?_
  refine tracks_expect (by decide) hb₂ (fun _ => hblock _) fun b us₂ hus₂ _ _ hb₃ => ?_
  subst hus hus₁ hus₂
  simp only [List.length_cons] at hl
  refine (tracks_block h hb₃).bind (grows_block h.grows) (fun _ => grows_alternative h.grows _ _)
    (fun yes c₂ c₂' us₃ hb₄ hl₂ => ?_) fun _ => ends_alternative inner _ _
  exact (tracks_alternative h test yes hb₄).mono (by rw [List.length_cons]; omega)

theorem tracks_moreParameters (rounds rounds' : Nat) (hb : Beside ys xs c c')
    (hn : (xs ++ ys).length < rounds) (hn' : xs.length < rounds') :
    Tracks ys xs.length c c' (moreParameters rounds : Rule σ (List Text))
      (moreParameters rounds') := by
  induction rounds generalizing rounds' xs c c' with
  | zero => omega
  | succ rounds ih =>
    obtain ⟨rounds', rfl⟩ := Nat.exists_eq_succ_of_ne_zero (Nat.ne_zero_of_lt hn')
    cases xs with
    | nil => exact fun _ => Or.inr (ends_moreParameters _ c' hb.behind')
    | cons w vs =>
      have hk : c.peek.kind = w.kind := hb.behind.kind
      have hk' : c'.peek.kind = w.kind := hb.behind'.kind
      rw [List.length_append, List.length_cons] at hn
      rw [List.length_cons] at hn'
      refine tracks_peek ?_
      rw [hk, hk']
      split
      · refine tracks_advance (tracks_expect (by decide) hb.advance.behind
          (fun _ => (ends_moreParameters _).bind fun _ => ends_pure _)
          fun name us hus hw hw' hb' => ?_)
        subst hus
        rw [List.length_cons] at hn hn'
        have hlit : c.advance.peek.literal = c'.advance.peek.literal :=
          congrArg Word.literal (hw.trans hw'.symm)
        rw [hlit]
        refine (ih rounds' hb' (by rw [List.length_append]; omega) (by omega)).bind
          (grows_moreParameters _) (fun _ => grows_pure _)
          (fun names c₁ c₁' us' hb₁ hl => tracks_pure _ hb₁ ?_) fun _ => ends_pure _
        simp only [List.length_cons]
        omega
      · refine tracks_expect (by decide) hb (fun _ => ends_pure _) fun r us hus _ _ hb' => ?_
        obtain ⟨-, rfl⟩ := List.cons.inj hus
        exact tracks_pure _ hb' (Nat.le_succ _)

theorem tracks_parameters (hb : Beside ys xs c c') :
    Tracks ys xs.length c c' (parameters : Rule σ (List Text)) parameters := by
  cases xs with
  | nil => exact fun _ => Or.inr (ends_parameters c' hb.behind')
  | cons w vs =>
    have hk : c.peek.kind = w.kind := hb.behind.kind
    have hk' : c'.peek.kind = w.kind := hb.behind'.kind
    refine tracks_peek ?_
    rw [hk, hk']
    split
    · exact tracks_advance (tracks_pure _ hb.advance.behind (Nat.le_succ _))
    · refine tracks_expect (by decide) hb (fun _ => ends_remaining.bind fun _ =>
        (ends_moreParameters _).bind fun _ => ends_pure _) fun name us hus hw hw' hb' => ?_
      obtain ⟨-, rfl⟩ := List.cons.inj hus
      have hlit : c.peek.literal = c'.peek.literal := congrArg Word.literal (hw.trans hw'.symm)
      rw [hlit]
      refine tracks_remaining ((tracks_moreParameters _ _ hb' hb'.behind.length_lt
        hb'.behind'.length_lt).bind (grows_moreParameters _) (fun _ => grows_pure _)
        (fun names c₁ c₁' us' hb₁ hl => tracks_pure _ hb₁ ?_) fun _ => ends_pure _)
      rw [List.length_cons]
      omega

theorem tracks_function (h : Tracking inner) (hf : Facing ys (w :: xs) c c') :
    Tracks ys xs.length c c' (function inner) (function inner) := by
  have hbody : ∀ params : List Text, (block inner >>= fun body =>
      pure (.fn params body) : Rule σ Expr).Ends := fun params =>
    (ends_block inner).bind fun _ => ends_pure _
  refine tracks_expect (by decide) hf.behind (fun _ => ends_parameters.bind fun _ =>
    (ends_expect (by decide)).bind fun _ => hbody _) fun l us hus _ _ hb => ?_
  subst hus
  refine (tracks_parameters hb).bind grows_parameters
    (fun _ => (grows_expect _).bind fun _ => (grows_block h.grows).bind fun _ => grows_pure _)
    (fun params c₁ c₁' vs hb₁ hl => ?_) fun _ => (ends_expect (by decide)).bind fun _ => hbody _
  refine tracks_expect (by decide) hb₁ (fun _ => hbody _) fun b us₁ hus₁ _ _ hb₂ => ?_
  subst hus₁
  refine (tracks_block h hb₂).bind (grows_block h.grows) (fun _ => grows_pure _)
    (fun body c₂ c₂' us₂ hb₃ hl₂ => tracks_pure _ hb₃ ?_) fun _ => ends_pure _
  simp only [List.length_cons] at hl ⊢
  omega

theorem tracks_operand (h : Tracking inner) (hf : Facing ys xs c c') :
    Tracks ys (xs.length - 1) c c' (operand inner) (operand inner) := by
  cases xs with
  | nil => exact fun _ => Or.inr (endsAt_operand inner c' hf.sees')
  | cons w vs =>
    have hk : c.current.kind = w.kind := hf.sees.kind
    have hk' : c'.current.kind = w.kind := hf.sees'.kind
    have hlit : c.current.literal = c'.current.literal :=
      congrArg Word.literal (hf.sees.word.trans hf.sees'.word.symm)
    have hatom : ∀ e : Expr, Tracks ys vs.length c c' (pure e) (pure e) :=
      fun e => tracks_pure e hf.behind (Nat.le_refl _)
    refine tracks_current ?_
    rw [hk, hk', hlit]
    split
    · exact hatom _
    · exact tracks_integer hf
    · exact hatom _
    · exact hatom _
    · exact tracks_unary h hf
    · exact tracks_unary h hf
    · exact tracks_grouped h hf
    · exact tracks_conditional h hf
    · exact tracks_function h hf
    · exact tracks_reject hf.abandoned _ _
    · exact tracks_reject hf.abandoned _ _

/-! ## Operators in a text and in its beginning -/

theorem tracks_moreArguments (h : Tracking inner) (rounds rounds' : Nat)
    (hb : Beside ys xs c c') (hn : (xs ++ ys).length < rounds) (hn' : xs.length < rounds') :
    Tracks ys xs.length c c' (moreArguments inner rounds) (moreArguments inner rounds') := by
  induction rounds generalizing rounds' xs c c' with
  | zero => omega
  | succ rounds ih =>
    obtain ⟨rounds', rfl⟩ := Nat.exists_eq_succ_of_ne_zero (Nat.ne_zero_of_lt hn')
    cases xs with
    | nil => exact fun _ => Or.inr (ends_moreArguments h.endsAt_lowest _ c' hb.behind')
    | cons w vs =>
      have hk : c.peek.kind = w.kind := hb.behind.kind
      have hk' : c'.peek.kind = w.kind := hb.behind'.kind
      rw [List.length_append, List.length_cons] at hn
      rw [List.length_cons] at hn'
      refine tracks_peek ?_
      rw [hk, hk']
      split
      · refine tracks_advance (tracks_advance (h.lowest hb.advance.behind.advance
          (fun _ => (grows_moreArguments h.grows _).bind fun _ => grows_pure _)
          (fun _ => (ends_moreArguments h.endsAt_lowest _).bind fun _ => ends_pure _)
          fun e c₁ c₁' us hb₁ hl => ?_))
        refine (ih rounds' hb₁ (by rw [List.length_append]; omega) (by omega)).bind
          (grows_moreArguments h.grows _) (fun _ => grows_pure _)
          (fun es c₂ c₂' us' hb₂ hl₂ => tracks_pure _ hb₂ ?_) fun _ => ends_pure _
        rw [List.length_cons]
        omega
      · refine tracks_expect (by decide) hb (fun _ => ends_pure _) fun r us hus _ _ hb' => ?_
        obtain ⟨-, rfl⟩ := List.cons.inj hus
        exact tracks_pure _ hb' (Nat.le_succ _)

theorem tracks_arguments (h : Tracking inner) (hb : Beside ys xs c c') :
    Tracks ys xs.length c c' (arguments inner) (arguments inner) := by
  cases xs with
  | nil => exact fun _ => Or.inr (ends_arguments h.endsAt_lowest c' hb.behind')
  | cons w vs =>
    have hk : c.peek.kind = w.kind := hb.behind.kind
    have hk' : c'.peek.kind = w.kind := hb.behind'.kind
    refine tracks_peek ?_
    rw [hk, hk']
    split
    · exact tracks_advance (tracks_pure _ hb.advance.behind (Nat.le_succ _))
    · refine tracks_advance (h.lowest hb.advance
        (fun _ => grows_remaining.bind fun _ => (grows_moreArguments h.grows _).bind fun _ =>
          grows_pure _)
        (fun _ => ends_remaining.bind fun _ => (ends_moreArguments h.endsAt_lowest _).bind fun _ =>
          ends_pure _) fun e c₁ c₁' us hb₁ hl => ?_)
      refine tracks_remaining ((tracks_moreArguments h _ _ hb₁ hb₁.behind.length_lt
        hb₁.behind'.length_lt).bind (grows_moreArguments h.grows _) (fun _ => grows_pure _)
        (fun es c₂ c₂' us' hb₂ hl₂ => tracks_pure _ hb₂ ?_) fun _ => ends_pure _)
      rw [List.length_cons] at hl ⊢
      omega

theorem tracks_operation (h : Tracking inner) (left : Expr) (hf : Facing ys (w :: xs) c c')
    (hw : 1 ≤ w.kind.binding) :
    Tracks ys xs.length c c' (operation inner left) (operation inner left) := by
  have hk : c.current.kind = w.kind := hf.sees.kind
  have hk' : c'.current.kind = w.kind := hf.sees'.kind
  have hlit : c.current.literal = c'.current.literal :=
    congrArg Word.literal (hf.sees.word.trans hf.sees'.word.symm)
  refine tracks_current ?_
  rw [hk, hk', hlit]
  split
  · exact (tracks_arguments h hf.behind).bind (grows_arguments h.grows) (fun _ => grows_pure _)
      (fun args c₁ c₁' us hb hl => tracks_pure _ hb hl) fun _ => ends_pure _
  · refine tracks_advance ((h.tracks _ ys xs _ _ hw hf.behind.advance).bind (h.grows _)
      (fun _ => grows_pure _) (fun e c₁ c₁' us hb hl => tracks_pure _ hb ?_) fun _ => ends_pure _)
    omega

theorem tracks_operations (h : Tracking inner) {p : Nat} (hp : 1 ≤ p) (rounds rounds' : Nat)
    (left : Expr) (hb : Beside ys xs c c') (hn : (xs ++ ys).length < rounds)
    (hn' : xs.length < rounds') :
    Tracks ys xs.length c c' (operations inner p rounds left)
      (operations inner p rounds' left) := by
  induction rounds generalizing rounds' xs c c' left with
  | zero => omega
  | succ rounds ih =>
    obtain ⟨rounds', rfl⟩ := Nat.exists_eq_succ_of_ne_zero (Nat.ne_zero_of_lt hn')
    cases xs with
    | nil => exact fun _ => Or.inr (ends_operations inner hp _ left c' hb.behind')
    | cons w vs =>
      have hk : c.peek.kind = w.kind := hb.behind.kind
      have hk' : c'.peek.kind = w.kind := hb.behind'.kind
      rw [List.length_append, List.length_cons] at hn
      rw [List.length_cons] at hn'
      refine tracks_peek ?_
      rw [hk, hk']
      split
      · rename_i hlt
        refine tracks_advance ((tracks_operation h left hb.advance (by omega)).bind
          (grows_operation h.grows left) (fun e => grows_operations h.grows p rounds e)
          (fun e c₁ c₁' us hb₁ hl => ?_) fun e => ends_operations inner hp rounds' e)
        refine (ih rounds' e hb₁ ?_ (by omega)).mono (by rw [List.length_cons]; omega)
        rw [List.length_append]
        omega
      · exact tracks_pure _ hb (Nat.le_refl _)

theorem tracking_expression (room : Nat) : Tracking (expression room : Inner σ) := by
  induction room with
  | zero =>
    refine ⟨grows_expression 0, fun p hp => endsAt_expression 0 hp, fun p ys xs c c' _ hf hd => ?_⟩
    obtain ⟨a, c₁, hrun, -⟩ := sound_giveUp (P := fun _ _ => False) .tooDeep hf.abandoned hd
    cases hrun
  | succ room ih =>
    refine ⟨grows_expression _, fun p hp => endsAt_expression _ hp, fun p ys xs c c' hp hf => ?_⟩
    refine (tracks_operand ih hf).bind (grows_operand ih.grows)
      (fun e => grows_remaining.bind fun _ => grows_operations ih.grows p _ _)
      (fun e c₁ c₁' us hb hl => ?_)
      fun e => ends_remaining.bind fun _ => ends_operations _ hp _ _
    refine tracks_remaining ?_
    exact (tracks_operations ih hp _ _ e hb hb.behind.length_lt hb.behind'.length_lt).mono hl

/-! ## Programs and their beginnings -/

/-- If a program is read without a complaint, then in its beginning only the end is missed. -/
theorem statements_notesEnd (rounds rounds' : Nat) (hf : Facing ys xs c c')
    (hn : (xs ++ ys).length < rounds) (hn' : xs.length < rounds')
    (hd : (statements rounds c).2.diagnostics = c.diagnostics) :
    c'.NotesEnd (statements rounds' c').2 := by
  induction rounds generalizing rounds' xs c c' with
  | zero => omega
  | succ rounds ih =>
    obtain ⟨rounds', rfl⟩ := Nat.exists_eq_succ_of_ne_zero (Nat.ne_zero_of_lt hn')
    cases xs with
    | nil =>
      rw [statements_end _ hf.sees'.kind]
      exact .of_eq rfl
    | cons w vs =>
      have hk : c.current.kind ≠ .eof := by
        rw [hf.sees.kind]
        exact hf.sees.ne_eof
      have hk' : c'.current.kind ≠ .eof := by
        rw [hf.sees'.kind]
        exact hf.sees'.ne_eof
      rw [List.length_append, List.length_cons] at hn
      rw [List.length_cons] at hn'
      have htracking := tracking_expression (σ := σ) maxNesting
      rw [statements_step _ hk] at hd
      rw [statements_step _ hk']
      have hfirst : (statement (expression maxNesting) c).2.diagnostics = c.diagnostics :=
        (grows_statement htracking.grows c).eq
          (statements_notesOf rounds (statement (expression maxNesting) c).2.advance) hd
      rcases tracks_statement htracking hf hfirst with
        ⟨s, c₁, c₁', us, ho, ho', hb, hd', hl⟩ | hend
      · rw [List.length_cons, Nat.add_sub_cancel] at hl
        rw [ho] at hd hfirst
        rw [ho']
        have hnotes := ih rounds' hb.advance (by rw [List.length_append]; omega) (by omega)
          (hd.trans hfirst.symm)
        exact (Cursor.NotesEnd.of_eq hd').trans hnotes
      · rw [statements_end _ hend.behind.advance.kind]
        exact hend.notes

end Grammar

/-- A source that gives the first tokens of another one, which is read without a complaint. -/
theorem ofSource_notesEnd {σ : Type} [TokenSource σ] {s s' : σ} {ts ts' : List Token}
    {ys : List Word} (hg : TokenSource.Gives s ts) (hg' : TokenSource.Gives s' ts')
    (hts : ts.map Token.word = ts'.map Token.word ++ ys)
    (h : (Program.ofSource s).diagnostics = []) :
    ∀ d ∈ (Program.ofSource s').diagnostics, d.got = .eof := by
  have hs := Cursor.Sees.ofSource hg
  have hs' := Cursor.Sees.ofSource hg'
  rw [hts] at hs
  obtain ⟨ds, hds, hall⟩ := Grammar.statements_notesEnd _ _ ⟨hs, hs', rfl, rfl⟩ hs.length_lt
    hs'.length_lt (Array.toList_eq_nil_iff.mp h)
  have hdiagnostics : (Program.ofSource s').diagnostics = ds := hds
  rw [hdiagnostics]
  exact hall

/-! ## Commands of the read loop -/

/-- A byte that a plain word can start with. -/
def startsWord (b : UInt8) : Bool :=
  Text.isLetter b || Text.isDigit b || (Lexeme.symbol? b).isSome

theorem Lexeme.startsWord_of_isPlain {b : UInt8} {t : Text} (h : (read b t).word.IsPlain) :
    startsWord b = true := by
  unfold read at h
  split at h
  · simp [startsWord, *]
  · split at h
    · simp [startsWord, *]
    · split at h
      · exact absurd h (quoted_not_isPlain _)
      · have hsingle : ∀ t, (single b t).word.IsPlain → startsWord b = true := by
          intro t hs
          unfold single at hs
          cases hb : symbol? b with
          | some k => simp [startsWord, hb]
          | none =>
            rw [hb] at hs
            exact absurd rfl hs.2
        split at h
        · split at h
          · rename_i k hk
            simp [startsWord, (pair_name hk).2.2]
          · exact hsingle _ h
        · exact hsingle _ h

/-- Such a byte is a character by itself, neither a blank nor a dot. -/
theorem startsWord_rune (b : UInt8) : startsWord b = true → b < 0x80 ∧
    (Rune.char (Char.ofUInt8 b)).isBlank = false ∧
    (Rune.char (Char.ofUInt8 b)).bytes = [b] ∧ b ≠ Text.byte '.' :=
  forall_byte (p := fun b => startsWord b = true → b < 0x80 ∧
      (Rune.char (Char.ofUInt8 b)).isBlank = false ∧
      (Rune.char (Char.ofUInt8 b)).bytes = [b] ∧ b ≠ Text.byte '.')
    (by decide +kernel) b

theorem isGap_rune (b : UInt8) : isGap b = true → b < 0x80 ∧
    (Rune.char (Char.ofUInt8 b)).isBlank = true :=
  forall_byte (p := fun b => isGap b = true → b < 0x80 ∧
    (Rune.char (Char.ofUInt8 b)).isBlank = true) (by decide +kernel) b

/-- A text of plain words is no command of the read loop. -/
theorem Scans.not_command {t rest : Text} {ws : List Word} (h : Scans t ws rest) (hr : rest = [])
    (hw : ∀ w ∈ ws, w.IsPlain) : t.trim.startsWith "." = false := by
  induction h with
  | done =>
    subst hr
    decide
  | @gap b t _ _ hb _ ih =>
    obtain ⟨hlt, hblank⟩ := isGap_rune b hb
    have htrim : Text.trim (b :: t) = t.trim := by
      rw [Text.trim, Text.runes_cons hlt, List.dropWhile_cons_of_pos hblank, Text.trim]
    rw [htrim]
    exact ih hr hw
  | @lexeme b t _ _ _ _ _ =>
    have hb := Lexeme.startsWord_of_isPlain (hw _ List.mem_cons_self)
    obtain ⟨hlt, hblank, hbytes, hne⟩ := startsWord_rune b hb
    obtain ⟨u, hu⟩ := Text.exists_trim_cons hlt hblank hbytes t
    rw [hu]
    show (Text.byte '.' == b && List.isPrefixOf [] u) = false
    rw [beq_false_of_ne hne.symm, Bool.false_and]

/-- The first lines of a text without a complaint are a program themselves, or all that is wrong
with them is that they end, and then the read loop waits for the next line. -/
theorem first_lines_only_miss_an_end (a b : Text)
    (h : (Program.ofText (a ++ "\n" ++ b)).diagnostics = []) :
    (Program.ofText a).diagnostics = [] ∨
      Diagnostic.incomplete (Program.ofText a).diagnostics = true ∧ Loop.needsMore a = true := by
  have htext : a ++ "\n" ++ b = a ++ lineBreak :: b := by
    rw [List.append_assoc]
    rfl
  rw [htext] at h
  obtain ⟨ws, hscan, -⟩ := exists_scans (a ++ lineBreak :: b)
  obtain ⟨ts, hg, hts⟩ := Lexer.gives_of_scans hscan rfl Position.start
  obtain ⟨d, -, hd⟩ := ofSource_derives hg h
  rw [hts] at hd
  have hplain := hd.isPlain
  obtain ⟨xs, ys, rfl, hxs⟩ := hscan.cut rfl rfl hplain
  obtain ⟨ts', hg', hts'⟩ := Lexer.gives_of_scans hxs rfl Position.start
  have hall : ∀ d ∈ (Program.ofText a).diagnostics, d.got = .eof :=
    ofSource_notesEnd hg hg' (hts.trans (by rw [hts'])) h
  by_cases hnil : (Program.ofText a).diagnostics = []
  · exact Or.inl hnil
  · have hincomplete : Diagnostic.incomplete (Program.ofText a).diagnostics = true := by
      simpa [Diagnostic.incomplete, hnil] using hall
    have hcommand := hxs.not_command rfl (List.forall_mem_append.mp hplain).1
    exact Or.inr ⟨hincomplete, by rw [Loop.needsMore, hcommand, hincomplete]; rfl⟩

/-- A function whose first line ends in the middle of a call, and its other lines. -/
theorem open_call_only_misses_an_end :
    (Program.ofText ("let f = fn(a) \x7b add(a," ++ "\n" ++ "1) \x7d; f(2)")).diagnostics = [] ∧
      ((Program.ofText "let f = fn(a) \x7b add(a,").diagnostics = [] ∨
        Diagnostic.incomplete (Program.ofText "let f = fn(a) \x7b add(a,").diagnostics = true ∧
          Loop.needsMore "let f = fn(a) \x7b add(a," = true) := by
  have h : (Program.ofText ("let f = fn(a) \x7b add(a," ++ "\n" ++ "1) \x7d; f(2)")).diagnostics
      = [] := by decide +kernel
  exact ⟨h, first_lines_only_miss_an_end _ _ h⟩

end Borealis
