-- Texts that end too early, and whether they can go on. With one more level
-- of nesting than the limit allows, each of them can, and most of them can
-- within the limit. But a text may use it up to the last level, and then no
-- text behind it makes a program.
import Borealis.Proofs.Completions

namespace Borealis

namespace Grammar

variable {σ : Type} [TokenSource σ]

/-! ## Reading with another limit -/

/-- Statements up to the end, in which expressions may nest so many levels. -/
def statementsWithin (limit : Nat) : Nat → Cursor σ → List Stmt × Cursor σ
  | 0, c => ([], c)
  | rounds + 1, c =>
    if c.current.kind = .eof then ([], c)
    else
      let (first, c) := statement (expression limit) c
      let (others, c) := statementsWithin limit rounds c.advance
      (first.toList ++ others, c)

theorem statementsWithin_maxNesting (rounds : Nat) (c : Cursor σ) :
    statementsWithin maxNesting rounds c = statements rounds c := by
  induction rounds generalizing c with
  | zero => rfl
  | succ rounds ih => simp only [statementsWithin, statements, ih]

variable {limit : Nat} {c : Cursor σ} {ws : List Word}

theorem statementsWithin_end (rounds : Nat) (hk : c.current.kind = .eof) :
    statementsWithin limit rounds c = ([], c) := by
  cases rounds with
  | zero => rfl
  | succ rounds => simp [statementsWithin, hk]

theorem statementsWithin_step (rounds : Nat) (hk : c.current.kind ≠ .eof) :
    (statementsWithin limit (rounds + 1) c).2 =
      (statementsWithin limit rounds (statement (expression limit) c).2.advance).2 := by
  simp [statementsWithin, hk]

theorem statementsWithin_notesOf (rounds : Nat) (c : Cursor σ) :
    c.NotesOf (statementsWithin limit rounds c).2 := by
  induction rounds generalizing c with
  | zero => exact .refl c
  | succ rounds ih =>
    by_cases hk : c.current.kind = .eof
    · rw [statementsWithin_end _ hk]
      exact .refl c
    · rw [statementsWithin_step _ hk]
      exact (grows_statement (grows_expression limit) c).trans
        (ih (statement (expression limit) c).2.advance)

/-- Statements that nest within the limit are read without a complaint. -/
theorem statementsWithin_of_derives {ss : List Stmt} {d : Nat}
    (h : Derives .firm .statements ws ss d) (hd : d ≤ limit) (rounds : Nat) (hs : c.Sees ws)
    (hc : c.abandoned = false) (hn : ws.length < rounds) :
    (statementsWithin limit rounds c).2.diagnostics = c.diagnostics := by
  induction rounds generalizing ws ss d c with
  | zero => omega
  | succ rounds ih =>
    have hcons : ∀ {xs us vs : List Word} {s : Stmt} {ss : List Stmt} {d m : Nat},
        Derives .firm .statement xs s d → Follows us vs → Derives .firm .statements vs ss m →
        ws = xs ++ us → max d m ≤ limit →
        (statementsWithin limit (rounds + 1) c).2.diagnostics = c.diagnostics := by
      rintro xs us vs s ss d m hfirst hu hm rfl hd
      have hstop := hu.stops [] (Or.inl rfl)
      have hafter := hu.after [] (Or.inl rfl)
      rw [List.append_nil] at hstop hafter
      rw [List.append_nil] at hafter
      have hmeets := (complete hfirst : Complete σ .statement xs s d) limit us c hstop hs hc
      obtain ⟨c₁, hrun, hq, hb⟩ := hmeets.read (by omega)
      rw [hafter] at hb
      obtain ⟨w, xs, rfl⟩ := List.exists_cons_of_ne_nil (hfirst.full trivial).1
      have hk : c.current.kind ≠ .eof := by
        rw [hs.kind]
        exact hs.ne_eof
      have hlen := hu.length_le
      simp only [List.length_append, List.length_cons] at hn
      rw [statementsWithin_step _ hk, hrun]
      exact (ih hm (by omega) hb.advance hq.abandoned (by omega)).trans hq.diagnostics
    cases h with
    | nil => rw [statementsWithin_end _ hs.kind]
    | closed hfirst hw hm => exact hcons hfirst (follows_closed hw _) hm rfl hd
    | opened hfirst ha hm =>
      exact hcons hfirst (follows_opened ha hm.front_statements) hm rfl hd

/-- If the statements miss an end, they are closed with the levels to spare. -/
theorem closes_of_statementsWithin {spare : Nat} (rounds : Nat) (hs : c.Sees ws)
    (hn : ws.length < rounds) (hc : c.abandoned = false)
    (hne : (statementsWithin limit rounds c).2.diagnostics ≠ c.diagnostics)
    (hend : c.MissesEnd spare (statementsWithin limit rounds c).2) :
    ws ≠ [] ∧ Closes (IsPhrase .statements (limit + spare)) ws := by
  induction rounds generalizing c ws with
  | zero => omega
  | succ rounds ih =>
    by_cases hk : c.current.kind = .eof
    · rw [statementsWithin_end _ hk] at hne
      exact absurd rfl hne
    · rw [statementsWithin_step _ hk] at hne hend
      have hmending : Mending (expression limit : Inner σ) limit spare :=
        mending_expression limit spare
      have hgrows := grows_statement hmending.grows c
      have hws : ws ≠ [] := by
        rintro rfl
        exact hk hs.kind
      refine ⟨hws, ?_⟩
      by_cases hquiet : (statement (expression limit) c).2.diagnostics = c.diagnostics
      · obtain ⟨s, c₁, hrun, hc₁, xs, rest, d, hd, hr, hb, hsplit⟩ :=
          sound_statement hmending.reads hmending.grows hs hc hquiet
        rw [hrun] at hne hend hquiet
        have hlt := hsplit.length_lt hd
        obtain ⟨hrest, us, hus, ss, m, hm, hrm⟩ := ih hb.advance (by omega) hc₁
          (fun he => hne (he.trans hquiet)) (hend.congr hquiet)
        have hsplit' : StatementEnds (ws ++ us) xs (rest ++ us) :=
          hsplit.append fun h => absurd h hrest
        rw [← List.append_nil (rest ++ us)] at hsplit'
        obtain ⟨zs, hzs, hall⟩ := hsplit'.cons hd hm
        rw [List.append_nil] at hzs
        exact ⟨us, hus, s :: ss, max d m, hzs ▸ hall, by omega⟩
      · obtain ⟨us, hus, hphrase⟩ := mends_statement hmending hs hc hquiet
          (hend.of_notesOf hgrows
            (statementsWithin_notesOf rounds (statement (expression limit) c).2.advance))
        exact ⟨us, hus, hphrase.single⟩

end Grammar

/-- The tree of a source text, in which expressions may nest so many levels. -/
def Program.readWithin (limit : Nat) (t : Text) : Reading :=
  let c := Cursor.ofSource (Lexer.ofText t)
  let (statements, c) := Grammar.statementsWithin limit c.remaining c
  ⟨⟨statements⟩, c.diagnostics.toList⟩

theorem Program.readWithin_maxNesting (t : Text) :
    Program.readWithin maxNesting t = Program.ofText t := by
  unfold Program.readWithin Program.ofText Program.ofSource
  simp only [Grammar.statementsWithin_maxNesting]

/-! ## A text that goes on -/

/-- Closing words as a text, with blanks around them. -/
def closingText (us : List Word) : Text := us.flatMap fun w => " " ++ w.literal ++ " "

theorem mem_closers : ∀ w ∈ closers, w = anyName ∨ w.kind ∈ symbolKinds ∧ w = sign w.kind := by
  decide

theorem Scans.closers {us : List Word} (h : ∀ w ∈ us, w ∈ closers) :
    Scans (closingText us) us [] := by
  induction us with
  | nil => exact .done []
  | cons w us ih =>
    rw [List.forall_mem_cons] at h
    have hrest := ih h.2
    have hcons : closingText (w :: us) = " " ++ w.literal ++ " " ++ closingText us := rfl
    rw [hcons]
    rcases mem_closers w h.1 with rfl | ⟨hk, hw⟩
    · have hx : Text.ofString " " ++ anyName.literal ++ " " ++ closingText us =
          " " ++ ("x" ++ " " ++ closingText us) := by simp [anyName]
      rw [hx]
      exact (hrest.keyword_space (w := "x") (by decide)).space
    · rw [hw]
      exact hrest.spaced_sign hk

/-- A text with only its end amiss goes on to a program, with the levels to spare. -/
theorem Program.exists_readWithin (spare : Nat) {limit : Nat} {s : Text}
    (hne : (Program.readWithin limit s).diagnostics ≠ [])
    (hend : ∀ d ∈ (Program.readWithin limit s).diagnostics,
      d.got = .eof ∧ (d.complaint.asksRoom = true → 0 < spare)) :
    ∃ t, (Program.readWithin (limit + spare) (s ++ "\n" ++ t)).diagnostics = [] := by
  obtain ⟨ws, hscan, -⟩ := exists_scans s
  obtain ⟨ts, hg, rfl⟩ := Lexer.gives_of_scans hscan rfl Position.start
  have hs := Cursor.Sees.ofSource hg
  have hdiagnostics : (Program.readWithin limit s).diagnostics =
      (Grammar.statementsWithin limit (Cursor.ofSource (Lexer.ofText s)).remaining
        (Cursor.ofSource (Lexer.ofText s))).2.diagnostics.toList := rfl
  obtain ⟨-, us, hus, ss, d, hd, hr⟩ := Grammar.closes_of_statementsWithin _ hs hs.length_lt rfl
    (fun he => hne (hdiagnostics.trans (congrArg Array.toList he)))
    ⟨_, hdiagnostics.symm, hend⟩
  have hplain := (List.forall_mem_append.mp hd.isPlain).1
  have hscan' := (hscan.before rfl hplain (closingText us)).append (Scans.closers hus)
  obtain ⟨ts', hg', hts'⟩ := Lexer.gives_of_scans hscan' rfl Position.start
  have hs' := Cursor.Sees.ofSource hg'
  rw [hts'] at hs'
  refine ⟨closingText us, ?_⟩
  have htext : s ++ "\n" ++ closingText us = s ++ lineBreak :: closingText us := by
    rw [List.append_assoc]
    rfl
  rw [htext]
  exact congrArg Array.toList
    (Grammar.statementsWithin_of_derives hd hr _ hs' rfl hs'.length_lt)

theorem Diagnostic.incomplete_iff {ds : List Diagnostic} :
    Diagnostic.incomplete ds = true ↔ ds ≠ [] ∧ ∀ d ∈ ds, d.got = .eof := by
  simp [Diagnostic.incomplete]

/-- If all that is wrong with a text is that it ends, then some text on the next lines makes a
program of it that needs at most one level more than the limit. It stays within the limit if only
operands, closing parentheses and blocks are missing, or if the text could be read with one level
less. -/
theorem an_open_end_closes_one_level_deeper (s : Text) :
    (Diagnostic.incomplete (Program.ofText s).diagnostics = true →
      (∃ t, (Program.readWithin (maxNesting + 1) (s ++ "\n" ++ t)).diagnostics = []) ∧
      ((∀ d ∈ (Program.ofText s).diagnostics, d.complaint.asksRoom = false) →
        ∃ t, (Program.ofText (s ++ "\n" ++ t)).diagnostics = [])) ∧
    (Diagnostic.incomplete (Program.readWithin (maxNesting - 1) s).diagnostics = true →
      ∃ t, (Program.ofText (s ++ "\n" ++ t)).diagnostics = []) := by
  simp only [← Program.readWithin_maxNesting, Diagnostic.incomplete_iff]
  refine ⟨fun ⟨hne, hend⟩ => ⟨?_, fun hroom => ?_⟩, fun ⟨hne, hend⟩ => ?_⟩
  · exact Program.exists_readWithin 1 hne fun d hd => ⟨hend d hd, fun _ => Nat.one_pos⟩
  · refine Program.exists_readWithin 0 hne fun d hd => ⟨hend d hd, fun h => ?_⟩
    rw [hroom d hd] at h
    exact absurd h Bool.false_ne_true
  · exact Program.exists_readWithin 1 hne fun d hd => ⟨hend d hd, fun _ => Nat.one_pos⟩

/-- A function that breaks off in the middle of a call, in a condition. -/
theorem broken_call_closes :
    Diagnostic.incomplete
        (Program.ofText "let f = fn(a, b) \x7b if (a < add(b,").diagnostics = true ∧
      (∀ d ∈ (Program.ofText "let f = fn(a, b) \x7b if (a < add(b,").diagnostics,
        d.complaint.asksRoom = false) ∧
      ∃ t, (Program.ofText ("let f = fn(a, b) \x7b if (a < add(b," ++ "\n" ++ t)).diagnostics
        = [] := by
  have h : Diagnostic.incomplete
      (Program.ofText "let f = fn(a, b) \x7b if (a < add(b,").diagnostics = true := by
    decide +kernel
  have hroom : ∀ d ∈ (Program.ofText "let f = fn(a, b) \x7b if (a < add(b,").diagnostics,
      d.complaint.asksRoom = false := by decide +kernel
  exact ⟨h, hroom, ((an_open_end_closes_one_level_deeper _).1 h).2 hroom⟩

/-! ## The last level -/

/-- How many opening parentheses the words begin with. -/
def openings (ws : List Word) : Nat := (ws.takeWhile fun w => w.kind == .leftParen).length

theorem openings_cons {w : Word} (h : w.kind = .leftParen) (ws : List Word) :
    openings (w :: ws) = openings ws + 1 := by
  simp [openings, h]

theorem openings_other {w : Word} (h : w.kind ≠ .leftParen) (ws : List Word) :
    openings (w :: ws) = 0 := by
  simp [openings, h]

/-- If there is a word behind the parentheses, then it does not matter what follows. -/
theorem openings_append {xs : List Word} (h : openings xs < xs.length) (ys : List Word) :
    openings (xs ++ ys) = openings xs := by
  induction xs with
  | nil => exact absurd h (Nat.lt_irrefl 0)
  | cons w xs ih =>
    by_cases hw : w.kind = .leftParen
    · rw [openings_cons hw, List.length_cons] at h
      rw [List.cons_append, openings_cons hw, openings_cons hw, ih (by omega)]
    · rw [List.cons_append, openings_other hw, openings_other hw]

/-- Each of the parentheses that a phrase begins with is a level of it, and an expression is behind
them. -/
theorem Derives.openings_lt {seam : Seam} {n : Phrase} {ws : List Word} {a : n.Tree} {d : Nat}
    (h : Derives seam n ws a d) : n.IsFull → openings ws < ws.length ∧ openings ws < d := by
  induction h with
  | ident hk | int hk | yes hk | no hk =>
    intro _
    rw [openings_other (by rw [hk]; decide)]
    exact ⟨Nat.one_pos, Nat.one_pos⟩
  | group hl _ _ ih =>
    intro _
    have hin := ih trivial
    rw [List.cons_append, openings_cons hl, openings_append hin.1]
    simp only [List.length_cons, List.length_append, List.length_nil]
    omega
  | ifThen hk | ifElse hk | fn hk =>
    intro _
    simp only [List.cons_append]
    rw [openings_other (by rw [hk]; decide)]
    exact ⟨Nat.succ_pos _, Nat.succ_pos _⟩
  | unary hw =>
    intro _
    have hne : ∀ {w : Word}, w.kind = .bang ∨ w.kind = .minus → w.kind ≠ .leftParen := by
      rintro w (hw | hw) <;> rw [hw] <;> decide
    rw [openings_other (hne hw)]
    exact ⟨Nat.succ_pos _, Nat.succ_pos _⟩
  | call _ _ _ _ ihf _ =>
    intro hn
    have hin := ihf hn
    rw [List.append_assoc, openings_append hin.1, List.length_append]
    omega
  | binary _ _ _ ihl _ =>
    intro hn
    have hin := ihl hn
    rw [openings_append hin.1, List.length_append]
    omega
  | tighter _ ih | expr _ ih => exact fun _ => ih trivial
  | bind hk _ _ _ ih | ret hk _ ih =>
    intro _
    have hin := ih trivial
    rw [openings_other (by rw [hk]; decide)]
    exact ⟨Nat.succ_pos _, by omega⟩
  | noArguments | someArguments | lastArgument | nextArgument | nil | closed | opened =>
    exact fun hn => hn.elim

theorem Derives.openings_statements {seam : Seam} {ws : List Word} {ss : List Stmt} {d : Nat}
    (h : Derives seam .statements ws ss d) (hne : ws ≠ []) : openings ws < d := by
  cases h with
  | nil => exact absurd rfl hne
  | closed hs | opened hs =>
    have hfirst := hs.openings_lt trivial
    rw [openings_append hfirst.1]
    omega

/-- So many opening parentheses. -/
def parens (n : Nat) : Text := List.replicate n (Text.byte '(')

theorem Lexeme.read_paren (t : Text) :
    read (Text.byte '(') t = ⟨.leftParen, "(", "(", t⟩ := by
  cases t with
  | nil => rfl
  | cons c t =>
    have hpair : pair? (Text.byte '(') c = none := by
      unfold pair?
      split <;> rfl
    unfold read
    simp only [hpair]
    rfl

theorem Scans.parens (n : Nat) : Scans (parens n) (List.replicate n (sign .leftParen)) [] := by
  induction n with
  | zero => exact .done []
  | succ n ih => exact ih.opening

theorem Scans.le_openings {n : Nat} {t rest : Text} {ws : List Word}
    (h : Scans (Borealis.parens n ++ t) ws rest) (hr : rest = []) : n ≤ openings ws := by
  induction n generalizing ws with
  | zero => exact Nat.zero_le _
  | succ n ih =>
    have hcons : Borealis.parens (n + 1) ++ t = Text.byte '(' :: (Borealis.parens n ++ t) := rfl
    rw [hcons] at h
    cases h with
    | done => cases hr
    | gap hb => exact absurd hb (by decide)
    | lexeme _ hs =>
      rw [Lexeme.read_paren] at hs ⊢
      have hle := ih hs
      rw [openings_cons rfl]
      omega

namespace Grammar

open Rule

variable {σ : Type} [TokenSource σ] {c : Cursor σ}

/-- Where the parentheses use up the room, reading is given up at the end of the text. -/
theorem expression_parens (room p : Nat) (hs : c.Sees (List.replicate room (sign .leftParen)))
    (hc : c.abandoned = false) : ∃ c' pos, (expression room p : Rule σ Expr) c = (none, c') ∧
      c'.Sees [] ∧ c'.diagnostics = c.diagnostics.push ⟨.tooDeep, pos, .eof⟩ := by
  induction room generalizing c p with
  | zero =>
    obtain ⟨hend, -, hd⟩ := hs.abandon .tooDeep hc
    have hk : c.current.kind = .eof := hs.kind
    rw [hk] at hd
    exact ⟨_, _, rfl, hend, hd⟩
  | succ room ih =>
    have hs' : c.Sees (sign .leftParen :: List.replicate room (sign .leftParen)) := hs
    obtain ⟨c', pos, hrun, hend, hd⟩ := ih Binding.lowest hs'.behind.advance hc
    have hk : c.current.kind = .leftParen := hs'.kind
    have hoperand : operand (expression room) c = (none, c') := by
      simp only [operand, grouped, bind_current, hk, bind_advance]
      exact bind_of_none hrun
    exact ⟨c', pos, bind_of_none hoperand, hend, hd⟩

theorem statements_parens {rounds : Nat} (hn : 0 < rounds)
    (hs : c.Sees (List.replicate maxNesting (sign .leftParen))) (hc : c.abandoned = false) :
    ∃ pos, (statements rounds c).2.diagnostics = c.diagnostics.push ⟨.tooDeep, pos, .eof⟩ := by
  obtain ⟨rounds, rfl⟩ := Nat.exists_eq_succ_of_ne_zero (Nat.ne_zero_of_lt hn)
  obtain ⟨c', pos, hrun, hend, hd⟩ := expression_parens maxNesting Binding.lowest hs hc
  have hk : c.current.kind = .leftParen := hs.kind
  have hstatement : statement (expression maxNesting) c = (none, c') := by
    simp only [statement, expressionStatement, bind_current, hk]
    exact bind_of_none hrun
  rw [statements_step rounds (by rw [hk]; decide), hstatement,
    statements_end rounds hend.tail.advance.kind]
  exact ⟨pos, hd⟩

end Grammar

theorem ofSource_parens {σ : Type} [TokenSource σ] {s : σ} {ts : List Token}
    (hg : TokenSource.Gives s ts)
    (hts : ts.map Token.word = List.replicate maxNesting (sign .leftParen)) :
    ∃ pos, (Program.ofSource s).diagnostics = [⟨.tooDeep, pos, .eof⟩] := by
  have hs := Cursor.Sees.ofSource hg
  rw [hts] at hs
  obtain ⟨pos, hd⟩ := Grammar.statements_parens (Nat.zero_lt_of_lt hs.length_lt) hs rfl
  have hdiagnostics : (Program.ofSource s).diagnostics =
      (Grammar.statements (Cursor.ofSource s).remaining (Cursor.ofSource s)).2.diagnostics.toList :=
    rfl
  rw [hdiagnostics, hd]
  exact ⟨pos, rfl⟩

/-- As many opening parentheses as there are levels: the only complaint is about the end of the
text, but no text behind them makes a program. -/
theorem no_end_behind_the_last_level :
    Diagnostic.incomplete (Program.ofText (parens maxNesting)).diagnostics = true ∧
      ∀ t, (Program.ofText (parens maxNesting ++ "\n" ++ t)).diagnostics ≠ [] := by
  constructor
  · obtain ⟨ts, hg, hts⟩ := Lexer.gives_of_scans (Scans.parens maxNesting) rfl Position.start
    obtain ⟨pos, hd⟩ := ofSource_parens hg hts
    rw [Program.ofText, Lexer.ofText, hd]
    rfl
  · intro t h
    obtain ⟨ws, hscan, -⟩ := exists_scans (parens maxNesting ++ "\n" ++ t)
    obtain ⟨ts, hg, rfl⟩ := Lexer.gives_of_scans hscan rfl Position.start
    obtain ⟨d, hd, hderives⟩ := ofSource_derives hg h
    rw [List.append_assoc] at hscan
    have hle := hscan.le_openings rfl
    have hlt := hderives.openings_statements ?_
    · omega
    · intro hnil
      rw [hnil] at hle
      exact absurd hle (by decide)

end Borealis
