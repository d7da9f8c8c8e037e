-- What is missing from a text that ends too early. If all complaints are
-- about the end of a text, then each of its words has found its place, and
-- some closing words behind it make a program of the whole. What was begun
-- may need a level of nesting more than there was room for.
import Borealis.Proofs.Beginnings
import Borealis.Proofs.RoundTrip

namespace Borealis

/-! ## Complaints about the end -/

/-- Whether what is missing may be an expression deeper than there is room for. An operand has its
room, and a closing parenthesis or a block needs none. -/
def Complaint.asksRoom : Complaint → Bool
  | .noExpression _ | .expected .rightParen _ | .expected .leftBrace _
  | .expected .rightBrace _ => false
  | _ => true

/-- All that was noted on the way from one cursor to the other is about the end token, and asks for
room only if there are levels to spare. -/
def Cursor.MissesEnd {σ : Type} (spare : Nat) (c c' : Cursor σ) : Prop :=
  ∃ ds, c'.diagnostics.toList = c.diagnostics.toList ++ ds ∧
    ∀ d ∈ ds, d.got = .eof ∧ (d.complaint.asksRoom = true → 0 < spare)

section

variable {σ : Type} {spare : Nat} {a b c : Cursor σ}

/-- What was noted on a part of the way was noted on the way. -/
theorem Cursor.MissesEnd.of_notesOf (h : MissesEnd spare a c) (hab : a.NotesOf b)
    (hbc : b.NotesOf c) : MissesEnd spare a b := by
  obtain ⟨ds, hc, hds⟩ := h
  obtain ⟨ds', hb⟩ := hab
  refine ⟨ds', hb.symm, fun d hd => hds d ?_⟩
  rw [NotesOf, hc, ← hb, List.prefix_append_right_inj] at hbc
  exact hbc.subset hd

theorem Cursor.MissesEnd.congr (h : MissesEnd spare a c) (hab : b.diagnostics = a.diagnostics) :
    MissesEnd spare b c := by
  obtain ⟨ds, hc, hds⟩ := h
  exact ⟨ds, by rw [hc, hab], hds⟩

theorem Cursor.missesEnd_of_complain (hc : c.abandoned = false) {t : Token} {what : Complaint}
    (h : MissesEnd spare c (c.complain t what)) :
    t.kind = .eof ∧ (what.asksRoom = true → 0 < spare) := by
  obtain ⟨ds, hd, hds⟩ := h
  have hlast : [(⟨what, t.pos, t.kind⟩ : Diagnostic)] = ds := by simpa [complain, hc] using hd
  exact hds ⟨what, t.pos, t.kind⟩ (by simp [← hlast])

end

namespace Rule

variable {σ α β : Type}

/-- If the rule complains, but misses its end only, then `M` holds. -/
def Mends (r : Rule σ α) (spare : Nat) (c : Cursor σ) (M : Prop) : Prop :=
  c.abandoned = false → (r c).2.diagnostics ≠ c.diagnostics → c.MissesEnd spare (r c).2 → M

variable {spare : Nat} {c : Cursor σ} {M N : Prop} {f : α → Rule σ β}

theorem Mends.imp {r : Rule σ α} (h : r.Mends spare c M) (hMN : M → N) : r.Mends spare c N :=
  fun hc hne hend => hMN (h hc hne hend)

theorem mends_pure (a : α) : (pure a : Rule σ α).Mends spare c M := fun _ hne _ => absurd rfl hne

theorem Mends.bind {r : Rule σ α} {P : α → Cursor σ → Prop} (hr : r.Mends spare c N)
    (hs : r.Sound c P) (hg : r.Grows) (hf : ∀ a, (f a).Grows) (h : ∀ a c', P a c' → (f a).Mends spare c' N) :
    (r >>= f).Mends spare c N := by
  intro hc hne hend
  by_cases hquiet : (r c).2.diagnostics = c.diagnostics
  · obtain ⟨a, c', hrun, hc', hP⟩ := hs hc hquiet
    rw [hrun] at hquiet
    rw [bind_of_some hrun] at hne hend
    exact h a c' hP hc' (fun he => hne (he.trans hquiet)) (hend.congr hquiet)
  · refine hr hc hquiet (hend.of_notesOf (hg c) ?_)
    rcases hrun : r c with ⟨_ | a, c'⟩
    · rw [bind_of_none hrun]
      exact .refl c'
    · rw [bind_of_some hrun]
      exact hf a c'

theorem Mends.attempt {r : Rule σ α} (h : r.Mends spare c M) : (attempt r).Mends spare c M := h

theorem mends_reject {t : Token} (what : Complaint) (h : t.kind = .eof → M) :
    (reject t what : Rule σ α).Mends spare c M :=
  fun hc _ hend => h (Cursor.missesEnd_of_complain hc hend).1

theorem mends_current {f : Token → Rule σ β} (h : (f c.current).Mends spare c M) :
    (current >>= f).Mends spare c M := h

theorem mends_peek {f : Token → Rule σ β} (h : (f c.peek).Mends spare c M) :
    (peek >>= f).Mends spare c M := h

variable [TokenSource σ]

theorem mends_giveUp (what : Complaint)
    (h : c.current.kind = .eof → (what.asksRoom = true → 0 < spare) → M) :
    (giveUp what : Rule σ α).Mends spare c M := by
  intro hc _ hend
  have hmisses : c.MissesEnd spare (c.complain c.current what) := by
    obtain ⟨ds, hd, hds⟩ := hend
    rw [giveUp, Cursor.abandon, Cursor.toEnd_diagnostics] at hd
    exact ⟨ds, hd, hds⟩
  obtain ⟨hk, hroom⟩ := Cursor.missesEnd_of_complain hc hmisses
  exact h hk hroom

theorem mends_remaining {f : Nat → Rule σ β} (h : (f c.remaining).Mends spare c M) :
    (remaining >>= f).Mends spare c M := h

theorem mends_advance {f : Unit → Rule σ β} (h : (f ()).Mends spare c.advance M) :
    (advance >>= f).Mends spare c M := h

/-- A word that is expected is missing at the end only. -/
theorem mends_expect {kind : TokenKind} {f : Token → Rule σ β} {ws : List Word}
    (hkind : kind ≠ .eof) (hb : c.Behind ws)
    (hnil : ws = [] → ((Complaint.expected kind .eof).asksRoom = true → 0 < spare) → M)
    (hcons : ∀ vs, ws = c.peek.word :: vs → c.peek.word.kind = kind → c.advance.Behind vs →
      (f c.peek).Mends spare c.advance M) : (expect kind >>= f).Mends spare c M := by
  intro hc hne hend
  by_cases hk : c.peek.kind = kind
  · rw [Grammar.bind_expect hk] at hne hend
    cases ws with
    | nil => exact absurd (hk.symm.trans hb.kind) hkind
    | cons w vs =>
      have hw := hb.word
      exact hcons vs (by rw [hw]) hk hb.advance.behind hc hne hend
  · have he : (expect kind : Rule σ Token) c =
        (none, c.complain c.peek (.expected kind c.peek.kind)) := by simp [expect, hk]
    rw [bind_of_none he] at hend
    obtain ⟨heof, hroom⟩ := Cursor.missesEnd_of_complain hc hend
    cases ws with
    | nil =>
      rw [heof] at hroom
      exact hnil rfl hroom
    | cons w vs =>
      rw [hb.kind] at heof
      exact absurd heof hb.advance.ne_eof

end Rule

/-! ## Closing words -/

/-- A name, where one is missing. -/
def anyName : Word := ⟨.ident, "x"⟩

/-- The words that end what was begun. -/
def closers : List Word :=
  [anyName, sign .assign, sign .leftParen, sign .rightParen, sign .leftBrace, sign .rightBrace]

/-- With some closing words behind them, the words are what `P` says. -/
def Closes (P : List Word → Prop) (ws : List Word) : Prop :=
  ∃ us, (∀ w ∈ us, w ∈ closers) ∧ P (ws ++ us)

/-- The closing words of a part close the whole, with some more behind them. -/
theorem Closes.wrap {P Q : List Word → Prop} {ws : List Word} (h : Closes P ws)
    (xs zs : List Word) (hz : ∀ w ∈ zs, w ∈ closers)
    (hPQ : ∀ vs, P vs → Q (xs ++ (vs ++ zs))) : Closes Q (xs ++ ws) := by
  obtain ⟨us, hus, hP⟩ := h
  refine ⟨us ++ zs, List.forall_mem_append.mpr ⟨hus, hz⟩, ?_⟩
  have hQ := hPQ _ hP
  simpa using hQ

namespace Grammar

open Rule

/-- The words are a phrase that nests at most so many levels. -/
def IsPhrase (n : Phrase) (room : Nat) (ws : List Word) : Prop :=
  ∃ a d, Derives .firm n ws a d ∧ d ≤ room

/-- The words are such a phrase and a word that closes it. -/
def IsPhraseTo (n : Phrase) (close : TokenKind) (room : Nat) (ws : List Word) : Prop :=
  ∃ xs z, ws = xs ++ [z] ∧ z.kind = close ∧ IsPhrase n room xs

theorem isPhrase_name {room : Nat} (h : 0 < room) : IsPhrase (.expr 8) room [anyName] :=
  ⟨_, 1, .ident rfl, h⟩

theorem IsPhrase.down {j k room : Nat} {ws : List Word} (h : IsPhrase (.expr k) room ws)
    (hj : j ≤ k) : IsPhrase (.expr j) room ws := by
  obtain ⟨e, d, hd, hr⟩ := h
  exact ⟨e, d, hd.down hj, hr⟩

variable {σ : Type} [TokenSource σ]

/-- The rule for the expressions inside has room for so many levels. What it misses at the end
can be closed within them, or with those to spare. -/
structure Mending (inner : Inner σ) (room spare : Nat) : Prop where
  grows : ∀ p, (inner p).Grows
  reads : ReadsExpressions inner room
  mends : ∀ (p : Nat) (c : Cursor σ) (ws : List Word), 1 ≤ p → p ≤ 6 → c.Sees ws →
    (inner p).Mends spare c (Closes (IsPhrase (.expr (layerAbove p)) (room + spare)) ws)

variable {inner : Inner σ} {room spare : Nat} {c : Cursor σ} {ws : List Word}

theorem Mending.lowest (h : Mending inner room spare) (hs : c.Sees ws) :
    (inner Binding.lowest).Mends spare c (Closes (IsPhrase (.expr 2) (room + spare)) ws) :=
  h.mends 1 c ws (Nat.le_refl 1) (by decide) hs

/-! ## Statements that end too early -/

theorem mends_terminator {M : Prop} (s : Stmt) :
    (skip .semicolon >>= fun _ => pure s : Rule σ Stmt).Mends spare c M := by
  intro _ hne _
  refine absurd ?_ hne
  by_cases hk : c.peek.kind = .semicolon
  · have he : (skip .semicolon : Rule σ Unit) c = (some (), c.advance) := by simp [skip, hk]
    rw [bind_of_some he]
    rfl
  · have he : (skip .semicolon : Rule σ Unit) c = (some (), c) := by simp [skip, hk]
    rw [bind_of_some he]
    rfl

theorem mends_statement (h : Mending inner room spare) (hs : c.Sees ws) :
    (statement inner).Mends spare c (Closes (IsPhrase .statement (room + spare)) ws) := by
  have hvalue : ∀ (pre : List Word) {vs : List Word} {c : Cursor σ} (s : Expr → Stmt),
      (∀ {ws e d}, Derives .firm (.expr 2) ws e d → Derives .firm .statement (pre ++ ws) (s e) d) →
      c.Sees vs →
      (inner Binding.lowest >>= fun e => skip .semicolon >>= fun _ => pure (s e)).Mends spare c
        (Closes (IsPhrase .statement (room + spare)) (pre ++ vs)) := by
    intro pre vs c s hderives hs
    refine Mends.bind ((h.lowest hs).imp fun hc => ?_) (h.reads.lowest hs) (h.grows _)
      (fun _ => grows_terminator _) fun e c' _ => mends_terminator _
    refine hc.wrap pre [] (by simp) ?_
    rintro us ⟨e, d, hd, hr⟩
    rw [List.append_nil]
    exact ⟨s e, d, hderives hd, hr⟩
  have hvalueName : 0 < spare → IsPhrase (.expr 2) (room + spare) [anyName] := fun h =>
    (isPhrase_name (Nat.add_pos_right room h)).down (by decide)
  refine mends_current ?_
  split
  · rename_i hk
    obtain ⟨vs, rfl⟩ := hs.exists_cons hk (by decide)
    refine mends_expect (by decide) hs.behind ?_ fun us hus hn hb => ?_
    · rintro rfl hroom
      obtain ⟨e, d, hd, hr⟩ := hvalueName (hroom rfl)
      exact ⟨[anyName, sign .assign, anyName], by decide, _, d, .bind hk rfl rfl hd, hr⟩
    · subst hus
      refine mends_expect (by decide) hb ?_ fun ts hts he hb' => mends_advance ?_
      · rintro rfl hroom
        obtain ⟨e, d, hd, hr⟩ := hvalueName (hroom rfl)
        exact ⟨[sign .assign, anyName], by decide, _, d, .bind hk hn rfl hd, hr⟩
      · subst hts
        exact hvalue [_, _, _] _ (fun hd => .bind hk hn he hd) hb'.advance
  · rename_i hk
    obtain ⟨vs, rfl⟩ := hs.exists_cons hk (by decide)
    exact mends_advance (hvalue [_] _ (fun hd => .ret hk hd) hs.behind.advance)
  · exact hvalue [] _ (fun hd => .expr hd) hs

/-- What is behind a statement may go on, if it does not go on with the statement. -/
theorem StatementEnds.append {xs rest us : List Word} (h : StatementEnds ws xs rest)
    (hu : rest = [] → Seam.firm.Allows (front us)) : StatementEnds (ws ++ us) xs (rest ++ us) := by
  rcases h with ⟨w, hw, rfl⟩ | ⟨rfl, ha⟩
  · exact Or.inl ⟨w, hw, by simp⟩
  · refine Or.inr ⟨by simp, ?_⟩
    cases rest with
    | nil => exact hu rfl
    | cons w rest => exact ha

theorem IsPhrase.single {ws : List Word} (h : IsPhrase .statement room ws) :
    IsPhrase .statements room ws := by
  obtain ⟨s, d, hd, hr⟩ := h
  exact ⟨[s], d, hd.only, hr⟩

/-- A brace closes a block without statements. -/
theorem isPhraseTo_brace (room : Nat) :
    IsPhraseTo .statements .rightBrace room [sign .rightBrace] :=
  ⟨[], _, rfl, rfl, [], 0, .nil, Nat.zero_le _⟩

/-- A statement in front of others that are closed. -/
theorem StatementEnds.closes {s : Stmt} {d : Nat} {xs rest : List Word}
    (hend : StatementEnds ws xs rest) (hd : Derives .firm .statement xs s d) (hr : d ≤ room)
    (h : rest ≠ [] → Closes (IsPhraseTo .statements .rightBrace room) rest) :
    Closes (IsPhraseTo .statements .rightBrace room) ws := by
  obtain ⟨us, hus, ⟨ys, z, heq, hz, ss, m, hm, hrm⟩, hseam⟩ :
      ∃ us, (∀ w ∈ us, w ∈ closers) ∧
        IsPhraseTo .statements .rightBrace room (rest ++ us) ∧
        (rest = [] → Seam.firm.Allows (front us)) := by
    by_cases hnil : rest = []
    · subst hnil
      exact ⟨_, by decide, isPhraseTo_brace room, fun _ => Nat.le_refl 1⟩
    · obtain ⟨us, hus, hblock⟩ := h hnil
      exact ⟨us, hus, hblock, fun h => absurd h hnil⟩
  have hends := hend.append hseam
  rw [heq] at hends
  obtain ⟨zs, hzs, hall⟩ := hends.cons hd hm
  exact ⟨us, hus, zs, z, hzs, hz, s :: ss, _, hall, by omega⟩

theorem mends_blockStatements (h : Mending inner room spare) (rounds : Nat) (hs : c.Sees ws)
    (hn : ws.length < rounds) (hne : ws ≠ []) : (blockStatements inner rounds).Mends spare c
      (Closes (IsPhraseTo .statements .rightBrace (room + spare)) ws) := by
  induction rounds generalizing c ws with
  | zero => omega
  | succ rounds ih =>
    refine mends_current ?_
    split
    · exact mends_pure _
    · rename_i hk
      rw [hs.kind] at hk
      obtain ⟨w, vs, rfl⟩ := List.exists_cons_of_ne_nil hne
      exact absurd hk hs.ne_eof
    · refine Mends.bind ((mends_statement h hs).attempt.imp fun hc => ?_)
        (sound_statement h.reads h.grows hs).attempt (grows_statement h.grows).attempt
        (fun _ => grows_advance.bind fun _ => (grows_blockStatements h.grows _).bind fun _ =>
          grows_pure _) ?_
      · refine hc.wrap [] [sign .rightBrace] (by decide) fun vs hvs => ?_
        exact ⟨vs, _, rfl, rfl, hvs.single⟩
      · rintro first c' ⟨s, rfl, xs, rest, d, hd, hr, hb, hend⟩
        have hlt := hend.length_lt hd
        by_cases hnil : rest = []
        · subst hnil
          exact fun _ _ _ => hend.closes hd (Nat.le_add_right_of_le hr) fun h => absurd rfl h
        · refine mends_advance (Mends.bind
            ((ih hb.advance (by omega) hnil).imp fun hc => ?_)
            (sound_blockStatements h.reads h.grows rounds hb.advance (by omega))
            (grows_blockStatements h.grows _) (fun _ => grows_pure _) fun _ _ _ => mends_pure _)
          exact hend.closes hd (Nat.le_add_right_of_le hr) fun _ => hc

theorem mends_block (h : Mending inner room spare) (hb : c.Behind ws) :
    (block inner).Mends spare c
      (Closes (IsPhraseTo .statements .rightBrace (room + spare)) ws) := by
  refine mends_advance (mends_remaining ?_)
  by_cases hnil : ws = []
  · subst hnil
    exact fun _ _ _ => ⟨_, by decide, isPhraseTo_brace _⟩
  · exact mends_blockStatements h _ hb.advance hb.advance.length_lt hnil

/-! ## Operands that end too early -/

omit [TokenSource σ] in
theorem mends_integer {M : Prop} (hk : c.current.kind = .int) :
    (integer : Rule σ Expr).Mends spare c M := by
  refine mends_current ?_
  split
  · exact mends_pure _
  · refine mends_reject _ fun he => ?_
    rw [hk] at he
    exact absurd he (by decide)

theorem mends_unary (h : Mending inner room spare) (hs : c.Sees ws)
    (hk : c.current.kind = .bang ∨ c.current.kind = .minus) :
    (unary inner).Mends spare c (Closes (IsPhrase (.expr 6) (room + spare + 1)) ws) := by
  obtain ⟨vs, rfl⟩ := hs.exists_cons rfl (by rcases hk with hk | hk <;> rw [hk] <;> decide)
  have hsees := hs.behind.advance
  refine mends_current (mends_advance (Mends.bind
    ((h.mends 6 _ _ (by decide) (by decide) hsees).imp fun hc => ?_)
    (h.reads 6 _ _ (by decide) (by decide) hsees) (h.grows _) (fun _ => grows_pure _)
    fun _ _ _ => mends_pure _))
  refine hc.wrap [_] [] (by simp) ?_
  rintro us ⟨e, d, hd, hr⟩
  rw [List.append_nil]
  exact ⟨_, d + 1, .unary hk hd, by omega⟩

theorem mends_grouped (h : Mending inner room spare) (hs : c.Sees ws)
    (hk : c.current.word.kind = .leftParen) :
    (grouped inner).Mends spare c (Closes (IsPhrase (.expr 8) (room + spare + 1)) ws) := by
  obtain ⟨vs, rfl⟩ := hs.exists_cons hk (by decide)
  have hsees := hs.behind.advance
  have hgroup : ∀ us, IsPhrase (.expr 2) (room + spare) us →
      IsPhrase (.expr 8) (room + spare + 1) ([c.current.word] ++ (us ++ [sign .rightParen])) := by
    rintro us ⟨e, d, hd, hr⟩
    exact ⟨e, d + 1, .group hk hd rfl, by omega⟩
  refine mends_advance (Mends.bind ((h.lowest hsees).imp fun hc => ?_) (h.reads.lowest hsees)
    (h.grows _) (fun _ => (grows_expect _).bind fun _ => grows_pure _) ?_)
  · exact hc.wrap [_] [_] (by decide) hgroup
  · rintro e c' ⟨xs, rest, d, rfl, hd, hr, -, hb⟩
    refine mends_expect (by decide) hb ?_ fun _ _ _ _ => mends_pure _
    rintro rfl -
    refine ⟨[sign .rightParen], by decide, ?_⟩
    simpa using hgroup xs ⟨e, d, hd, by omega⟩

theorem isPhrase_ifThen {i l r b : Word} {ts us : List Word} (hi : i.kind = .ifWord)
    (hl : l.kind = .leftParen) (ht : IsPhrase (.expr 2) room ts) (hr : r.kind = .rightParen)
    (hb : b.kind = .leftBrace) (hu : IsPhraseTo .statements .rightBrace room us) :
    IsPhrase (.expr 8) (room + 1) (i :: l :: (ts ++ r :: b :: us)) := by
  obtain ⟨test, d, hd, hrd⟩ := ht
  obtain ⟨ys, z, rfl, hz, yes, m, hm, hrm⟩ := hu
  refine ⟨.ifThen test yes, _, ?_, Nat.succ_le_succ (Nat.max_le.mpr ⟨hrd, hrm⟩)⟩
  simpa using Derives.ifThen hi hl hd hr hb hm hz

theorem isPhrase_ifElse {i l r b z o q : Word} {ts ys us : List Word} {yes : List Stmt} {m : Nat}
    (hi : i.kind = .ifWord) (hl : l.kind = .leftParen) (ht : IsPhrase (.expr 2) room ts)
    (hr : r.kind = .rightParen) (hb : b.kind = .leftBrace)
    (hm : Derives .firm .statements ys yes m) (hrm : m ≤ room) (hz : z.kind = .rightBrace)
    (ho : o.kind = .elseWord) (hq : q.kind = .leftBrace)
    (hu : IsPhraseTo .statements .rightBrace room us) :
    IsPhrase (.expr 8) (room + 1) (i :: l :: (ts ++ r :: b :: (ys ++ z :: o :: q :: us))) := by
  obtain ⟨test, d, hd, hrd⟩ := ht
  obtain ⟨ns, y, rfl, hy, no, k, hk, hrk⟩ := hu
  refine ⟨.ifElse test yes no, _, ?_,
    Nat.succ_le_succ (Nat.max_le.mpr ⟨hrd, Nat.max_le.mpr ⟨hrm, hrk⟩⟩)⟩
  simpa using Derives.ifElse hi hl hd hr hb hm hz ho hq hk hy

theorem mends_conditional (h : Mending inner room spare) (hs : c.Sees ws)
    (hk : c.current.word.kind = .ifWord) :
    (conditional inner).Mends spare c (Closes (IsPhrase (.expr 8) (room + spare + 1)) ws) := by
  obtain ⟨vs, rfl⟩ := hs.exists_cons hk (by decide)
  rw [conditional_eq]
  refine mends_expect (by decide) hs.behind ?_ fun us hus hl hb => ?_
  · rintro rfl hroom
    have hname := (isPhrase_name (Nat.add_pos_right room (hroom rfl))).down (j := 2) (by decide)
    exact ⟨[sign .leftParen, anyName, sign .rightParen, sign .leftBrace,
      sign .rightBrace], by decide, isPhrase_ifThen hk rfl hname rfl rfl (isPhraseTo_brace _)⟩
  subst hus
  have hsees := hb.advance
  refine mends_advance (Mends.bind ((h.lowest hsees).imp fun hc => ?_) (h.reads.lowest hsees)
    (h.grows _) (fun _ => (grows_expect _).bind fun _ => (grows_expect _).bind fun _ =>
      (grows_block h.grows).bind fun _ => grows_alternative h.grows _ _) ?_)
  · refine hc.wrap [_, _] [sign .rightParen, sign .leftBrace, sign .rightBrace]
      (by decide) fun ts ht => ?_
    exact isPhrase_ifThen hk hl ht rfl rfl (isPhraseTo_brace _)
  rintro test c₁ ⟨ts, rest, d, rfl, hd, hr, -, hb₁⟩
  have ht : IsPhrase (.expr 2) (room + spare) ts := ⟨test, d, hd, by omega⟩
  refine mends_expect (by decide) hb₁ ?_ fun us hus hp hb₂ => ?_
  · rintro rfl -
    refine ⟨[sign .rightParen, sign .leftBrace, sign .rightBrace], by decide, ?_⟩
    simpa using isPhrase_ifThen hk hl ht rfl rfl (isPhraseTo_brace _)
  subst hus
  refine mends_expect (by decide) hb₂ ?_ fun us hus hbr hb₃ => ?_
  · rintro rfl -
    refine ⟨[sign .leftBrace, sign .rightBrace], by decide, ?_⟩
    simpa using isPhrase_ifThen hk hl ht hp rfl (isPhraseTo_brace _)
  subst hus
  refine Mends.bind ((mends_block h hb₃).imp fun hc => ?_) (sound_block h.reads h.grows hb₃)
    (grows_block h.grows) (fun _ => grows_alternative h.grows _ _) ?_
  · have hwrap := hc.wrap (Q := IsPhrase (.expr 8) (room + spare + 1)) (_ :: _ :: (ts ++ [_, _])) []
      (by simp) fun us hu => by simpa using isPhrase_ifThen hk hl ht hp hbr hu
    simpa using hwrap
  rintro yes c₂ ⟨ys, z, rest, m, rfl, hz, hm, hrm, hb₄⟩
  refine mends_peek ?_
  split
  · rename_i helse
    obtain ⟨rest, rfl⟩ := hb₄.exists_cons helse (by decide)
    have helse : c₂.peek.word.kind = .elseWord := helse
    refine mends_advance (mends_expect (by decide) hb₄.advance.behind ?_ fun us hus hbr' hb₅ => ?_)
    · rintro rfl -
      refine ⟨[sign .leftBrace, sign .rightBrace], by decide, ?_⟩
      simpa using isPhrase_ifElse hk hl ht hp hbr hm (by omega) hz helse rfl (isPhraseTo_brace _)
    subst hus
    refine Mends.bind ((mends_block h hb₅).imp fun hc => ?_) (sound_block h.reads h.grows hb₅)
      (grows_block h.grows) (fun _ => grows_pure _) fun _ _ _ => mends_pure _
    have hwrap := hc.wrap (Q := IsPhrase (.expr 8) (room + spare + 1))
      (_ :: _ :: (ts ++ _ :: _ :: (ys ++ [z, _, _]))) [] (by simp) fun us hu => by
        simpa using isPhrase_ifElse hk hl ht hp hbr hm (by omega) hz helse hbr' hu
    simpa using hwrap
  · exact mends_pure _

/-- The words are parameters and the parenthesis that closes them. -/
def AreParameters (ws : List Word) : Prop :=
  ∃ xs z names, ws = xs ++ [z] ∧ z.kind = .rightParen ∧ Parameters xs names

/-- The same of the parameters after the first one. -/
def AreMoreParameters (ws : List Word) : Prop :=
  ∃ xs z names, ws = xs ++ [z] ∧ z.kind = .rightParen ∧ MoreParameters xs names

theorem areMoreParameters_paren : AreMoreParameters [sign .rightParen] :=
  ⟨[], _, [], rfl, rfl, .last⟩

theorem AreMoreParameters.next {comma w : Word} (hc : comma.kind = .comma) (hw : w.kind = .ident)
    (h : AreMoreParameters ws) : AreMoreParameters (comma :: w :: ws) := by
  obtain ⟨xs, z, names, rfl, hz, hm⟩ := h
  exact ⟨comma :: w :: xs, z, _, rfl, hz, .next hc hw hm⟩

theorem AreMoreParameters.first {w : Word} (hw : w.kind = .ident) (h : AreMoreParameters ws) :
    AreParameters (w :: ws) := by
  obtain ⟨xs, z, names, rfl, hz, hm⟩ := h
  exact ⟨w :: xs, z, _, rfl, hz, .some hw hm⟩

theorem mends_moreParameters (rounds : Nat) (hb : c.Behind ws) (hn : ws.length < rounds) :
    (moreParameters rounds : Rule σ (List Text)).Mends spare c (Closes AreMoreParameters ws) := by
  induction rounds generalizing c ws with
  | zero => omega
  | succ rounds ih =>
    refine mends_peek ?_
    split
    · rename_i hk
      obtain ⟨vs, rfl⟩ := hb.exists_cons hk (by decide)
      refine mends_advance (mends_expect (by decide) hb.advance.behind ?_ fun us hus hi hb' => ?_)
      · rintro rfl -
        exact ⟨[anyName, sign .rightParen], by decide, areMoreParameters_paren.next hk rfl⟩
      · subst hus
        simp only [List.length_cons] at hn
        refine Mends.bind ((ih hb' (by omega)).imp fun hc => ?_)
          (sound_moreParameters rounds hb' (by omega)) (grows_moreParameters _)
          (fun _ => grows_pure _) fun _ _ _ => mends_pure _
        refine hc.wrap [_, _] [] (by simp) fun us hu => ?_
        rw [List.append_nil]
        exact hu.next hk hi
    · refine mends_expect (by decide) hb ?_ fun _ _ _ _ => mends_pure _
      rintro rfl -
      exact ⟨[sign .rightParen], by decide, areMoreParameters_paren⟩

theorem mends_parameters (hb : c.Behind ws) :
    (parameters : Rule σ (List Text)).Mends spare c (Closes AreParameters ws) := by
  refine mends_peek ?_
  split
  · exact mends_advance (mends_pure _)
  · refine mends_expect (by decide) hb ?_ fun us hus hi hb' => ?_
    · rintro rfl -
      exact ⟨[sign .rightParen], by decide, [], _, [], rfl, rfl, .none⟩
    · subst hus
      refine mends_remaining (Mends.bind ((mends_moreParameters _ hb' hb'.length_lt).imp
        fun hc => ?_) (sound_moreParameters _ hb' hb'.length_lt) (grows_moreParameters _)
        (fun _ => grows_pure _) fun _ _ _ => mends_pure _)
      refine hc.wrap [_] [] (by simp) fun us hu => ?_
      rw [List.append_nil]
      exact hu.first hi

theorem isPhrase_fn {f l b : Word} {ps us : List Word} (hf : f.kind = .functionWord)
    (hl : l.kind = .leftParen) (hp : AreParameters ps) (hb : b.kind = .leftBrace)
    (hu : IsPhraseTo .statements .rightBrace room us) :
    IsPhrase (.expr 8) (room + 1) (f :: l :: (ps ++ b :: us)) := by
  obtain ⟨ps, r, params, rfl, hr, hp⟩ := hp
  obtain ⟨bs, z, rfl, hz, body, d, hd, hrd⟩ := hu
  refine ⟨.fn params body, d + 1, ?_, Nat.succ_le_succ hrd⟩
  simpa using Derives.fn hf hl hp hr hb hd hz

theorem mends_function (h : Mending inner room spare) (hs : c.Sees ws)
    (hk : c.current.word.kind = .functionWord) :
    (function inner).Mends spare c (Closes (IsPhrase (.expr 8) (room + spare + 1)) ws) := by
  obtain ⟨vs, rfl⟩ := hs.exists_cons hk (by decide)
  refine mends_expect (by decide) hs.behind ?_ fun us hus hl hb => ?_
  · rintro rfl -
    have hnone : AreParameters [sign .rightParen] := ⟨[], _, [], rfl, rfl, .none⟩
    exact ⟨[sign .leftParen, sign .rightParen, sign .leftBrace, sign .rightBrace], by decide,
      isPhrase_fn hk rfl hnone rfl (isPhraseTo_brace _)⟩
  subst hus
  refine Mends.bind ((mends_parameters hb).imp fun hc => ?_) (sound_parameters hb)
    grows_parameters (fun _ => (grows_expect _).bind fun _ => (grows_block h.grows).bind fun _ =>
      grows_pure _) ?_
  · refine hc.wrap [_, _] [sign .leftBrace, sign .rightBrace] (by decide) fun ps hps => ?_
    exact isPhrase_fn hk hl hps rfl (isPhraseTo_brace _)
  rintro params c₁ ⟨ps, r, rest, rfl, hr, hp, hb₁⟩
  have hps : AreParameters (ps ++ [r]) := ⟨ps, r, params, rfl, hr, hp⟩
  refine mends_expect (by decide) hb₁ ?_ fun us hus hbr hb₂ => ?_
  · rintro rfl -
    refine ⟨[sign .leftBrace, sign .rightBrace], by decide, ?_⟩
    simpa using isPhrase_fn hk hl hps rfl (isPhraseTo_brace _)
  subst hus
  refine Mends.bind ((mends_block h hb₂).imp fun hc => ?_) (sound_block h.reads h.grows hb₂)
    (grows_block h.grows) (fun _ => grows_pure _) fun _ _ _ => mends_pure _
  have hwrap := hc.wrap (Q := IsPhrase (.expr 8) (room + spare + 1)) (_ :: _ :: (ps ++ [r, _])) []
    (by simp) fun us hu => by simpa using isPhrase_fn hk hl hps hbr hu
  simpa using hwrap

theorem mends_operand (h : Mending inner room spare) (hs : c.Sees ws) :
    (operand inner).Mends spare c (Closes (IsPhrase (.expr 6) (room + spare + 1)) ws) := by
  have hatom : Closes (IsPhrase (.expr 8) (room + spare + 1)) ws →
      Closes (IsPhrase (.expr 6) (room + spare + 1)) ws := by
    rintro ⟨us, hus, hphrase⟩
    exact ⟨us, hus, hphrase.down (by decide)⟩
  refine mends_current ?_
  split
  · exact mends_pure _
  · rename_i hk
    exact mends_integer hk
  · exact mends_pure _
  · exact mends_pure _
  · rename_i hk
    exact mends_unary h hs (Or.inl hk)
  · rename_i hk
    exact mends_unary h hs (Or.inr hk)
  · rename_i hk
    exact (mends_grouped h hs hk).imp hatom
  · rename_i hk
    exact (mends_conditional h hs hk).imp hatom
  · rename_i hk
    exact (mends_function h hs hk).imp hatom
  · rename_i hk
    refine mends_reject _ fun he => ?_
    rw [hk] at he
    cases he
  · refine mends_reject _ fun he => ?_
    rw [hs.kind] at he
    cases ws with
    | nil => exact ⟨[anyName], by decide, (isPhrase_name (Nat.succ_pos _)).down (by decide)⟩
    | cons w vs => exact absurd he hs.ne_eof

/-! ## Operators that end too early -/

theorem IsPhrase.nextArgument {comma : Word} {ws vs : List Word} (hc : comma.kind = .comma)
    (h : IsPhrase (.expr 2) room ws) (hv : IsPhraseTo .moreArguments .rightParen room vs) :
    IsPhraseTo .moreArguments .rightParen room (comma :: (ws ++ vs)) := by
  obtain ⟨e, d, hd, hr⟩ := h
  obtain ⟨ys, z, rfl, hz, es, m, hm, hrm⟩ := hv
  exact ⟨comma :: ws ++ ys, z, by simp, hz, e :: es, _, .nextArgument hc hd hm,
    Nat.max_le.mpr ⟨hr, hrm⟩⟩

theorem IsPhrase.someArguments {ws vs : List Word} (h : IsPhrase (.expr 2) room ws)
    (hv : IsPhraseTo .moreArguments .rightParen room vs) :
    IsPhraseTo .arguments .rightParen room (ws ++ vs) := by
  obtain ⟨e, d, hd, hr⟩ := h
  obtain ⟨ys, z, rfl, hz, es, m, hm, hrm⟩ := hv
  exact ⟨ws ++ ys, z, by simp, hz, e :: es, _, .someArguments hd hm, Nat.max_le.mpr ⟨hr, hrm⟩⟩

theorem isPhraseTo_paren (room : Nat) :
    IsPhraseTo .moreArguments .rightParen room [sign .rightParen] :=
  ⟨[], _, rfl, rfl, [], 0, .lastArgument, Nat.zero_le _⟩

theorem mends_moreArguments (h : Mending inner room spare) (rounds : Nat) (hb : c.Behind ws)
    (hn : ws.length < rounds) : (moreArguments inner rounds).Mends spare c
      (Closes (IsPhraseTo .moreArguments .rightParen (room + spare)) ws) := by
  induction rounds generalizing c ws with
  | zero => omega
  | succ rounds ih =>
    refine mends_peek ?_
    split
    · rename_i hk
      obtain ⟨vs, rfl⟩ := hb.exists_cons hk (by decide)
      have hsees := hb.advance.behind.advance
      refine mends_advance (mends_advance (Mends.bind ((h.lowest hsees).imp fun hc => ?_)
        (h.reads.lowest hsees) (h.grows _)
        (fun _ => (grows_moreArguments h.grows _).bind fun _ => grows_pure _) ?_))
      · refine hc.wrap [c.peek.word] [sign .rightParen] (by decide) fun us hu => ?_
        have hcomma : c.peek.word.kind = .comma := hk
        have hnext := hu.nextArgument hcomma (isPhraseTo_paren (room + spare))
        exact hnext
      · rintro e c₁ ⟨xs, rest, d, rfl, hd, hr, -, hb₁⟩
        have he : IsPhrase (.expr 2) (room + spare) xs := ⟨e, d, hd, by omega⟩
        simp only [List.length_cons, List.length_append] at hn
        refine Mends.bind ((ih hb₁ (by omega)).imp fun hc => ?_)
          (sound_moreArguments h.reads h.grows rounds hb₁ (by omega))
          (grows_moreArguments h.grows _) (fun _ => grows_pure _) fun _ _ _ => mends_pure _
        refine hc.wrap (_ :: xs) [] (by simp) fun us hu => ?_
        rw [List.append_nil]
        exact he.nextArgument hk hu
    · refine mends_expect (by decide) hb ?_ fun _ _ _ _ => mends_pure _
      rintro rfl -
      exact ⟨[sign .rightParen], by decide, isPhraseTo_paren _⟩

theorem mends_arguments (h : Mending inner room spare) (hb : c.Behind ws) :
    (arguments inner).Mends spare c
      (Closes (IsPhraseTo .arguments .rightParen (room + spare)) ws) := by
  refine mends_peek ?_
  split
  · exact mends_advance (mends_pure _)
  · refine mends_advance (Mends.bind ((h.lowest hb.advance).imp fun hc => ?_)
      (h.reads.lowest hb.advance) (h.grows _) (fun _ => grows_remaining.bind fun _ =>
        (grows_moreArguments h.grows _).bind fun _ => grows_pure _) ?_)
    · refine hc.wrap [] [sign .rightParen] (by decide) fun us hu => ?_
      exact hu.someArguments (isPhraseTo_paren _)
    · rintro e c₁ ⟨xs, rest, d, rfl, hd, hr, -, hb₁⟩
      have he : IsPhrase (.expr 2) (room + spare) xs := ⟨e, d, hd, by omega⟩
      refine mends_remaining (Mends.bind ((mends_moreArguments h _ hb₁ hb₁.length_lt).imp
        fun hc => ?_) (sound_moreArguments h.reads h.grows _ hb₁ hb₁.length_lt)
        (grows_moreArguments h.grows _) (fun _ => grows_pure _) fun _ _ _ => mends_pure _)
      refine hc.wrap xs [] (by simp) fun us hu => ?_
      rw [List.append_nil]
      exact he.someArguments hu

/-- What is missing behind an operator. The operand on the left is there. -/
theorem mends_operation (h : Mending inner room spare) {p : Nat} (hp : 1 ≤ p) {left : Expr}
    {rest : List Word} {w : Word} (hleft : HasReadLeft p (room + 1) ws left (w :: rest))
    (hlt : p < w.kind.binding) (hs : c.Sees (w :: rest)) :
    (operation inner left).Mends spare c
      (Closes (IsPhrase (.expr (layerAbove p)) (room + spare + 1)) ws) := by
  obtain ⟨layer, xs, d, rfl, hd, hr, hlayer, hfront⟩ := hleft
  have hkind : c.current.kind = w.kind := hs.kind
  rw [front_cons] at hfront
  refine mends_current ?_
  split
  · rename_i hk
    rw [hkind] at hk
    have h7 : 7 ≤ layer := by rw [hk] at hfront; exact hfront
    refine Mends.bind ((mends_arguments h hs.behind).imp fun hc => ?_)
      (sound_arguments h.reads h.grows hs.behind) (grows_arguments h.grows) (fun _ => grows_pure _)
      fun _ _ _ => mends_pure _
    have hwrap := hc.wrap (Q := IsPhrase (.expr (layerAbove p)) (room + spare + 1)) (xs ++ [w]) []
      (by simp) ?_
    · simpa using hwrap
    · rintro us ⟨as, r, rfl, hz, args, m, hm, hrm⟩
      have hcall := Derives.call (hd.down h7) hk hm hz
      refine ⟨.call left args, max d (m + 1), ?_, by omega⟩
      have hdown := hcall.down (j := layerAbove p) (by unfold layerAbove; omega)
      simpa using hdown
  · rename_i hk
    rw [hkind] at hk
    rcases mem_layerOperators_of_binding (k := w.kind) (Nat.lt_of_le_of_lt hp hlt) with hk' | hmem
    · exact absurd hk' hk
    have hrange := (binding_of_mem_layerOperators hmem).2
    have hsees := hs.behind.advance
    have habove : layerAbove w.kind.binding = w.kind.binding + 1 := by
      unfold layerAbove
      omega
    rw [hkind]
    refine mends_advance (Mends.bind
      ((h.mends _ _ _ (by omega) (by omega) hsees).imp fun hc => ?_)
      (h.reads _ _ _ (by omega) (by omega) hsees) (h.grows _) (fun _ => grows_pure _)
      fun _ _ _ => mends_pure _)
    have hwrap := hc.wrap (Q := IsPhrase (.expr (layerAbove p)) (room + spare + 1)) (xs ++ [w]) []
      (by simp) ?_
    · simpa using hwrap
    · rintro us ⟨e, m, hm, hrm⟩
      rw [habove] at hm
      have hbin := Derives.binary (hd.down hfront) hmem hm
      refine ⟨.binary w.literal left e, max d (m + 1), ?_, by omega⟩
      have hdown := hbin.down (j := layerAbove p) (by unfold layerAbove; omega)
      simpa using hdown

theorem mends_operations (h : Mending inner room spare) {p : Nat} (hp : 1 ≤ p) (rounds : Nat)
    {left : Expr} {rest : List Word} (hleft : HasReadLeft p (room + 1) ws left rest)
    (hb : c.Behind rest) (hn : rest.length < rounds) :
    (operations inner p rounds left).Mends spare c
      (Closes (IsPhrase (.expr (layerAbove p)) (room + spare + 1)) ws) := by
  induction rounds generalizing c left rest with
  | zero => omega
  | succ rounds ih =>
    refine mends_peek ?_
    split
    · rename_i hlt
      have hne : c.peek.kind ≠ .eof := by
        intro he
        rw [he] at hlt
        exact absurd hlt (Nat.not_lt.mpr hp)
      obtain ⟨vs, rfl⟩ := hb.exists_cons rfl hne
      refine mends_advance (Mends.bind (mends_operation h hp hleft hlt hb.advance)
        (sound_operation h.reads h.grows hp hleft hlt hb.advance) (grows_operation h.grows left)
        (fun e => grows_operations h.grows p rounds e) ?_)
      rintro e c' ⟨rest', hleft', hb', hle⟩
      simp only [List.length_cons] at hn
      exact ih hleft' hb' (by omega)
    · exact mends_pure _

/-- Every expression that is cut off can be closed. -/
theorem mending_expression (room spare : Nat) : Mending (expression room : Inner σ) room spare := by
  induction room with
  | zero =>
    refine ⟨grows_expression 0, readsExpressions 0, fun p c ws _ _ hs => ?_⟩
    refine mends_giveUp _ fun hk hroom => ?_
    rw [hs.kind] at hk
    cases ws with
    | nil =>
      have hname := isPhrase_name (Nat.add_pos_right 0 (hroom rfl))
      exact ⟨[anyName], by decide, hname.down (by unfold layerAbove; omega)⟩
    | cons w vs => exact absurd hk hs.ne_eof
  | succ room ih =>
    refine ⟨grows_expression _, readsExpressions _, fun p c ws hp hp' hs => ?_⟩
    rw [Nat.add_right_comm]
    refine Mends.bind ((mends_operand ih hs).imp fun hc => ?_) (sound_operand ih.reads ih.grows hs)
      (grows_operand ih.grows)
      (fun e => grows_remaining.bind fun _ => grows_operations ih.grows p _ _) ?_
    · obtain ⟨us, hus, hphrase⟩ := hc
      exact ⟨us, hus, hphrase.down (by unfold layerAbove; omega)⟩
    · rintro e c' ⟨layer, hlayer, xs, rest, d, rfl, hd, hr, hle, hb⟩
      refine mends_remaining (mends_operations ih hp _ ⟨layer, xs, d, rfl, hd, hr, ?_, hle⟩ hb
        hb.length_lt)
      unfold layerAbove
      omega

end Grammar

end Borealis
