-- What was read can be laid out and read again. The layout of a tree leaves
-- out every pair of parentheses that the source did not need, so it nests no
-- deeper than the source did, and the grammar gives it the same tree.
import Borealis.Proofs.Completeness
import Borealis.Proofs.Numerals
import Borealis.Proofs.Scanning
import Borealis.Proofs.Soundness
import Borealis.Tree.Layout

namespace Borealis

/-! ## Pieces of a layout -/

/-- A keyword as a word. -/
def keyword (t : Text) : Word := ⟨TokenKind.ofWord t, t⟩

/-- A symbol as a word. -/
def sign (k : TokenKind) : Word := ⟨k, k.name⟩

theorem ends_append {s : Text} (t : Text)
    (h : s.head?.any (fun b => !isWordByte b) = true) : Ends (s ++ t) := by
  cases s with
  | nil => exact absurd h (by decide)
  | cons b s =>
    intro c hc
    rw [List.cons_append, List.head?_cons, Option.mem_some_iff] at hc
    subst hc
    simpa using h

/-- A text behind a comma. -/
def commaBefore (t : Text) : Text := ", " ++ t

theorem join_cons (t : Text) (ts : List Text) :
    Text.join ", " (t :: ts) = t ++ ts.flatMap commaBefore := by
  induction ts generalizing t with
  | nil => simp [Text.join]
  | cons u ts ih => simp [Text.join, ih u, commaBefore]

theorem ends_commas (ts : List Text) {rest : Text} (hr : Ends rest) :
    Ends (ts.flatMap commaBefore ++ rest) := by
  cases ts with
  | nil => exact hr
  | cons t ts =>
    rw [List.flatMap_cons, commaBefore, List.append_assoc, List.append_assoc]
    exact ends_append _ (by decide)

theorem layoutList_eq_join (level : Nat) (es : List Expr) :
    Expr.layoutList level es = Text.join ", " (es.map fun e => e.layout level Binding.lowest) := by
  induction es with
  | nil => rfl
  | cons e es ih =>
    cases es with
    | nil => rfl
    | cons x es =>
      have hl : Expr.layoutList level (e :: x :: es) =
          e.layout level Binding.lowest ++ ", " ++ Expr.layoutList level (x :: es) := rfl
      rw [hl, ih]
      rfl

namespace Scans

variable {t rest : Text} {ws : List Word}

/-- Blanks in front of a text. -/
theorem blank {s : Text} (hs : s.all isGap = true) (h : Scans t ws rest) :
    Scans (s ++ t) ws rest := by
  induction s with
  | nil => exact h
  | cons b s ih =>
    rw [List.all_cons, Bool.and_eq_true] at hs
    exact .gap hs.1 (ih hs.2)

theorem space (h : Scans t ws rest) : Scans (" " ++ t) ws rest := h.blank (by decide)

theorem indented (n : Nat) (h : Scans t ws rest) : Scans (indentation n ++ t) ws rest := by
  induction n with
  | zero => exact h
  | succ n ih =>
    rw [indentation, List.append_assoc]
    exact ih.blank (by decide)

theorem opening (h : Scans t ws rest) : Scans ("(" ++ t) (sign .leftParen :: ws) rest :=
  h.mark (k := .leftParen) (by decide) (by decide)

theorem closing (h : Scans t ws rest) : Scans (")" ++ t) (sign .rightParen :: ws) rest :=
  h.mark (k := .rightParen) (by decide) (by decide)

theorem closing_space (h : Scans t ws rest) :
    Scans (") " ++ t) (sign .rightParen :: ws) rest := by
  have e : (") " : Text) = ")" ++ " " := by decide
  rw [e, List.append_assoc]
  exact h.space.closing

theorem comma_space (h : Scans t ws rest) : Scans (", " ++ t) (sign .comma :: ws) rest := by
  have e : (", " : Text) = TokenKind.comma.name ++ " " := by decide
  rw [e, List.append_assoc]
  exact h.space.mark (by decide) (by decide)

theorem semicolon_line (h : Scans t ws rest) : Scans (";\n" ++ t) (sign .semicolon :: ws) rest := by
  have e : (";\n" : Text) = TokenKind.semicolon.name ++ "\n" := by decide
  rw [e, List.append_assoc]
  exact (h.blank (by decide)).mark (by decide) (by decide)

theorem spaced_sign {k : TokenKind} (hk : k ∈ symbolKinds) (h : Scans t ws rest) :
    Scans (" " ++ k.name ++ " " ++ t) (sign k :: ws) rest := by
  rw [List.append_assoc, List.append_assoc]
  refine space (symbol hk (fun _ => ?_) h.space)
  have e : (" " : Text) = [Text.byte ' '] := by decide
  rw [e, List.singleton_append, List.head?_cons]
  decide

theorem if_opening (h : Scans t ws rest) :
    Scans ("if (" ++ t) (keyword "if" :: sign .leftParen :: ws) rest := by
  have e : ("if (" : Text) = "if" ++ (" " ++ "(") := by decide
  rw [e, List.append_assoc, List.append_assoc]
  exact h.opening.space.word (by decide) (ends_append _ (by decide))

theorem fn_opening (h : Scans t ws rest) :
    Scans ("fn(" ++ t) (keyword "fn" :: sign .leftParen :: ws) rest := by
  have e : ("fn(" : Text) = "fn" ++ "(" := by decide
  rw [e, List.append_assoc]
  exact h.opening.word (by decide) (ends_append _ (by decide))

theorem spaced_else (h : Scans t ws rest) : Scans (" else " ++ t) (keyword "else" :: ws) rest := by
  have e : (" else " : Text) = " " ++ ("else" ++ " ") := by decide
  rw [e, List.append_assoc, List.append_assoc]
  exact (h.space.word (by decide) (ends_append _ (by decide))).space

theorem keyword_space {w : Text} (hw : isWord w = true) (h : Scans t ws rest) :
    Scans (w ++ " " ++ t) (keyword w :: ws) rest := by
  rw [List.append_assoc]
  exact h.space.word hw (ends_append _ (by decide))

end Scans

/-! ## Parentheses -/

theorem Expr.lowest_le_binding (e : Expr) : Binding.lowest ≤ e.binding := by
  unfold Expr.binding
  split
  · exact TokenKind.lowest_le_binding _
  · decide
  · decide
  · split
    · decide
    · decide
  · decide

/-- Where an expression stands tells whether it has parentheses, and nothing else. -/
theorem Expr.layout_at (level k : Nat) (e : Expr) :
    e.layout level k = parenthesized (e.binding < k) (e.layout level Binding.lowest) := by
  have h : ∀ t, parenthesized (e.binding < Binding.lowest) t = t := by
    intro t
    rw [parenthesized, if_neg]
    simpa using e.lowest_le_binding
  rw [Expr.layout.eq_def level e k, Expr.layout.eq_def level e Binding.lowest, h]

/-! ## Layouts that are read again -/

/-- The words of a layout in front of `rest` are a phrase with the tree that was laid out, and
nest at most `d` levels deep. -/
def ReadsBack (n : Phrase) (a : n.Tree) (d : Nat) (t rest : Text) : Prop :=
  ∃ ws m, Scans (t ++ rest) ws rest ∧ Derives .firm n ws a m ∧ m ≤ d

/-- Some phrase with this tree nests `d` levels deep, and so the layout of the tree reads back.

The layout of an expression by itself is one of the layer of its own operator. If that layer is
looser than the one of the phrase, then the phrase had parentheses around it, and there is room
for them again. -/
def LaidOut : (n : Phrase) → n.Tree → Nat → Prop
  | .expr layer, e, d => 2 ≤ e.binding ∧ ∃ m ≤ d, (e.binding < layer → m < d) ∧
      ∀ level rest, Ends rest →
        ReadsBack (.expr e.binding) e m (e.layout level Binding.lowest) rest
  | .arguments, es, d => ∀ level rest, Ends rest →
      ReadsBack .arguments es d (Expr.layoutList level es) rest
  | .moreArguments, es, d => ∀ level rest, Ends rest →
      ReadsBack .moreArguments es d
        ((es.map fun e => e.layout level Binding.lowest).flatMap commaBefore) rest
  | .statement, s, d => ∀ level rest, ∃ ws m,
      Scans (s.layout level ++ rest) (ws ++ [sign .semicolon]) rest ∧
        Derives .firm .statement ws s m ∧ m ≤ d
  | .statements, ss, d => ∀ level rest, ReadsBack .statements ss d (Stmt.layoutList level ss) rest

namespace LaidOut

variable {layer d level : Nat} {e : Expr} {rest : Text}

/-- Where nothing binds, an expression has no parentheses. -/
theorem lowest (h : LaidOut (.expr layer) e d) (level : Nat) (hr : Ends rest) :
    ReadsBack (.expr 2) e d (e.layout level Binding.lowest) rest := by
  obtain ⟨hb, m, hm, -, hread⟩ := h
  obtain ⟨ws, k, hs, hd, hk⟩ := hread level rest hr
  exact ⟨ws, k, hs, hd.down hb, Nat.le_trans hk hm⟩

/-- An operand has parentheses if it binds less than its place asks for. -/
theorem operand (h : LaidOut (.expr layer) e d) (hl : layer ≤ 8) (level : Nat) (hr : Ends rest) :
    ReadsBack (.expr layer) e d (e.layout level layer) rest := by
  obtain ⟨hb, m, hm, hwrap, hread⟩ := h
  rw [Expr.layout_at]
  by_cases hlt : e.binding < layer
  · obtain ⟨ws, k, hs, hd, hk⟩ := hread level (")" ++ rest) (ends_append rest (by decide))
    have hscan := (hs.append (Scans.done rest).closing).opening
    have hgroup := Derives.group (l := sign .leftParen) (r := sign .rightParen) rfl (hd.down hb) rfl
    have hmd := hwrap hlt
    refine ⟨_, k + 1, ?_, hgroup.down hl, by omega⟩
    simpa [parenthesized, hlt] using hscan
  · obtain ⟨ws, k, hs, hd, hk⟩ := hread level rest hr
    refine ⟨ws, k, ?_, hd.down (Nat.le_of_not_lt hlt), Nat.le_trans hk hm⟩
    simpa [parenthesized, hlt] using hs

/-- An expression whose layer is the one of its operator. -/
theorem of_readsBack (hb : 2 ≤ e.binding) (hl : layer ≤ e.binding)
    (h : ∀ level rest, Ends rest →
      ReadsBack (.expr e.binding) e d (e.layout level Binding.lowest) rest) :
    LaidOut (.expr layer) e d :=
  ⟨hb, d, Nat.le_refl d, fun hlt => absurd hl (Nat.not_le.mpr hlt), h⟩

theorem name {w : Word} (hw : Lexical w) (hk : w.kind = .ident) :
    LaidOut (.expr 8) (.ident w.literal) 1 := by
  obtain ⟨hword, hident⟩ := hw.isName hk
  refine of_readsBack (by exact (by decide : 2 ≤ 8)) (Nat.le_refl 8) fun level rest hr => ?_
  have hs := (Scans.done rest).word hword hr
  rw [hident] at hs
  exact ⟨_, 1, hs, .ident rfl, Nat.le_refl 1⟩

theorem number {w : Word} {v : Int64} (hw : Lexical w) (hk : w.kind = .int)
    (hv : w.literal.toInt64 = .ok v) : LaidOut (.expr 8) (.int v) 1 := by
  obtain ⟨hne, hdigits⟩ := hw.isNumber hk
  have hpos := Text.toInt_nonneg_of_isDigit hne hdigits hv
  have hb : (Expr.int v).binding = 8 := if_neg (Int.not_lt.mpr hpos)
  obtain ⟨n, hn⟩ := Int.eq_ofNat_of_zero_le hpos
  have hback := Text.toInt64_ofInt v
  refine of_readsBack (by rw [hb]; decide) (Nat.le_of_eq hb.symm) fun level rest hr => ?_
  have hlayout : (Expr.int v).layout level Binding.lowest = Text.ofInt v.toInt := by
    simp [Expr.layout, parenthesized, hb, Binding.lowest]
  rw [hb, hlayout]
  rw [hn] at hback ⊢
  have hs := (Scans.done rest).number (Text.ofNat_ne_nil n)
    (fun b hm => Text.isDigit_of_mem_ofNat hm) hr
  exact ⟨_, 1, hs, .int rfl hback, Nat.le_refl 1⟩

theorem bool (b : Bool) : LaidOut (.expr 8) (.bool b) 1 := by
  refine of_readsBack (by exact (by decide : 2 ≤ 8)) (Nat.le_refl 8) fun level rest hr => ?_
  cases b with
  | true =>
    have hs : Scans ("true" ++ rest) [keyword "true"] rest := (Scans.done rest).word (by decide) hr
    exact ⟨_, 1, hs, .yes (by decide), Nat.le_refl 1⟩
  | false =>
    have hs : Scans ("false" ++ rest) [keyword "false"] rest :=
      (Scans.done rest).word (by decide) hr
    exact ⟨_, 1, hs, .no (by decide), Nat.le_refl 1⟩

theorem group (h : LaidOut (.expr 2) e d) : LaidOut (.expr 8) e (d + 1) := by
  obtain ⟨hb, m, hm, -, hread⟩ := h
  exact ⟨hb, m, Nat.le_succ_of_le hm, fun _ => Nat.lt_succ_of_le hm, hread⟩

theorem tighter (h : LaidOut (.expr (layer + 1)) e d) : LaidOut (.expr layer) e d := by
  obtain ⟨hb, m, hm, hwrap, hread⟩ := h
  exact ⟨hb, m, hm, fun hlt => hwrap (Nat.lt_succ_of_lt hlt), hread⟩

/-! ## Blocks -/

theorem braces {ss : List Stmt} (h : LaidOut .statements ss d) (level : Nat) (rest : Text) :
    ∃ ws m, Scans (layoutBraces level ss (Stmt.layoutList (level + 1) ss) ++ rest)
      (sign .leftBrace :: ws ++ [sign .rightBrace]) rest ∧ Derives .firm .statements ws ss m ∧
      m ≤ d := by
  have hclose : Scans (TokenKind.rightBrace.name ++ rest) [sign .rightBrace] rest :=
    (Scans.done rest).mark (by decide) (by decide)
  cases ss with
  | nil =>
    have e : ("\x7b\x7d" : Text) = TokenKind.leftBrace.name ++ TokenKind.rightBrace.name := by decide
    refine ⟨[], 0, ?_, .nil, Nat.zero_le d⟩
    rw [layoutBraces, List.isEmpty_nil, if_pos rfl, e, List.append_assoc]
    exact hclose.mark (by decide) (by decide)
  | cons s ss =>
    obtain ⟨ws, m, hs, hd, hm⟩ := h (level + 1) (indentation level ++ ("\x7d" ++ rest))
    have e : ("\x7b\n" : Text) = TokenKind.leftBrace.name ++ "\n" := by decide
    refine ⟨ws, m, ?_, hd, hm⟩
    rw [layoutBraces, List.isEmpty_cons, if_neg Bool.false_ne_true, e]
    simp only [List.append_assoc]
    have hinner := hs.append (hclose.indented level)
    exact (hinner.blank (by decide)).mark (by decide) (by decide)

/-- The condition of an `if` and the block behind it. -/
theorem test_block {test : Expr} {yes : List Stmt} {m : Nat} (ht : LaidOut (.expr 2) test d)
    (hy : LaidOut .statements yes m) (level : Nat) (rest : Text) :
    ∃ ts i ys j, Scans ("if (" ++ (test.layout level Binding.lowest ++ (") " ++
        (layoutBraces level yes (Stmt.layoutList (level + 1) yes) ++ rest))))
      (keyword "if" :: sign .leftParen :: (ts ++ sign .rightParen :: sign .leftBrace ::
        (ys ++ [sign .rightBrace]))) rest ∧
      Derives .firm (.expr 2) ts test i ∧ i ≤ d ∧ Derives .firm .statements ys yes j ∧ j ≤ m := by
  obtain ⟨ys, j, hys, hyes, hj⟩ := hy.braces level rest
  have hends : Ends (") " ++ (layoutBraces level yes (Stmt.layoutList (level + 1) yes) ++ rest)) :=
    ends_append _ (by decide)
  obtain ⟨ts, i, hts, htest, hi⟩ := ht.lowest level hends
  exact ⟨ts, i, ys, j, (hts.append hys.closing_space).if_opening, htest, hi, hyes, hj⟩

theorem ifThen {test : Expr} {yes : List Stmt} {m : Nat} (ht : LaidOut (.expr 2) test d)
    (hy : LaidOut .statements yes m) : LaidOut (.expr 8) (.ifThen test yes) (max d m + 1) := by
  refine of_readsBack (by exact (by decide : 2 ≤ 8)) (Nat.le_refl 8) fun level rest hr => ?_
  obtain ⟨ts, i, ys, j, hs, htest, hi, hyes, hj⟩ := ht.test_block hy level rest
  have hd := Derives.ifThen (i := keyword "if") (l := sign .leftParen) (r := sign .rightParen)
    (b := sign .leftBrace) (z := sign .rightBrace) (by decide) rfl htest rfl rfl hyes rfl
  refine ⟨_, _, ?_, hd, by omega⟩
  have hlayout : (Expr.ifThen test yes).layout level Binding.lowest =
      "if (" ++ test.layout level Binding.lowest ++ ") "
        ++ layoutBraces level yes (Stmt.layoutList (level + 1) yes) := rfl
  rw [hlayout]
  simpa only [List.append_assoc, List.cons_append] using hs

theorem ifElse {test : Expr} {yes no : List Stmt} {m k : Nat} (ht : LaidOut (.expr 2) test d)
    (hy : LaidOut .statements yes m) (hn : LaidOut .statements no k) :
    LaidOut (.expr 8) (.ifElse test yes no) (max d (max m k) + 1) := by
  refine of_readsBack (by exact (by decide : 2 ≤ 8)) (Nat.le_refl 8) fun level rest hr => ?_
  obtain ⟨ns, l, hns, hno, hl⟩ := hn.braces level rest
  obtain ⟨ts, i, ys, j, hs, htest, hi, hyes, hj⟩ := ht.test_block hy level
    (" else " ++ (layoutBraces level no (Stmt.layoutList (level + 1) no) ++ rest))
  have hd := Derives.ifElse (i := keyword "if") (l := sign .leftParen) (r := sign .rightParen)
    (b := sign .leftBrace) (z := sign .rightBrace) (o := keyword "else") (q := sign .leftBrace)
    (y := sign .rightBrace) (by decide) rfl htest rfl rfl hyes rfl (by decide) rfl hno rfl
  refine ⟨_, _, ?_, hd, by omega⟩
  have hlayout : (Expr.ifElse test yes no).layout level Binding.lowest =
      "if (" ++ test.layout level Binding.lowest ++ ") "
        ++ layoutBraces level yes (Stmt.layoutList (level + 1) yes)
        ++ " else " ++ layoutBraces level no (Stmt.layoutList (level + 1) no) := rfl
  rw [hlayout]
  have hall := hs.append hns.spaced_else
  simpa only [List.append_assoc, List.cons_append, List.nil_append] using hall

/-! ## Functions -/

/-- Names behind a first one, each behind a comma. -/
theorem moreNames {xs : List Word} {names : List Text} (h : MoreParameters xs names)
    (hx : ∀ w ∈ xs, Lexical w) {rest : Text} (hr : Ends rest) :
    ∃ ws, Scans (names.flatMap commaBefore ++ rest) ws rest ∧ MoreParameters ws names := by
  induction h with
  | last => exact ⟨[], .done rest, .last⟩
  | @next _ w _ names _ hk _ ih =>
    simp only [List.forall_mem_cons] at hx
    obtain ⟨ws, hs, hm⟩ := ih hx.2.2
    obtain ⟨hword, hident⟩ := hx.2.1.isName hk
    have hfirst := (hs.word hword (ends_commas names hr)).comma_space
    rw [hident] at hfirst
    refine ⟨sign .comma :: ⟨.ident, w.literal⟩ :: ws, ?_, .next rfl rfl hm⟩
    simpa only [List.flatMap_cons, commaBefore, List.append_assoc] using hfirst

theorem names {ps : List Word} {params : List Text} (h : Parameters ps params)
    (hx : ∀ w ∈ ps, Lexical w) {rest : Text} (hr : Ends rest) :
    ∃ ws, Scans (Text.join ", " params ++ rest) ws rest ∧ Parameters ws params := by
  cases h with
  | none => exact ⟨[], .done rest, .none⟩
  | @some w _ names hk hm =>
    rw [List.forall_mem_cons] at hx
    obtain ⟨ws, hs, hmore⟩ := moreNames hm hx.2 hr
    obtain ⟨hword, hident⟩ := hx.1.isName hk
    have hfirst := hs.word hword (ends_commas names hr)
    rw [hident, ← List.append_assoc, ← join_cons] at hfirst
    exact ⟨⟨.ident, w.literal⟩ :: ws, hfirst, .some rfl hmore⟩

theorem fn {ps : List Word} {params : List Text} {body : List Stmt} (hp : Parameters ps params)
    (hx : ∀ w ∈ ps, Lexical w) (hb : LaidOut .statements body d) :
    LaidOut (.expr 8) (.fn params body) (d + 1) := by
  refine of_readsBack (by exact (by decide : 2 ≤ 8)) (Nat.le_refl 8) fun level rest hr => ?_
  obtain ⟨bs, m, hbs, hbody, hm⟩ := hb.braces level rest
  have hends : Ends (") " ++ (layoutBraces level body (Stmt.layoutList (level + 1) body) ++ rest)) :=
    ends_append _ (by decide)
  obtain ⟨ws, hws, hparams⟩ := names hp hx hends
  have hs := (hws.append hbs.closing_space).fn_opening
  have hd := Derives.fn (f := keyword "fn") (l := sign .leftParen) (r := sign .rightParen)
    (b := sign .leftBrace) (z := sign .rightBrace) (by decide) rfl hparams rfl rfl hbody rfl
  refine ⟨_, _, ?_, hd, by omega⟩
  have hlayout : (Expr.fn params body).layout level Binding.lowest =
      "fn(" ++ Text.join ", " params ++ ") "
        ++ layoutBraces level body (Stmt.layoutList (level + 1) body) := rfl
  rw [hlayout]
  simpa only [List.append_assoc, List.cons_append] using hs

/-! ## Operators -/

theorem unary {w : Word} (hw : Lexical w) (hk : w.kind = .bang ∨ w.kind = .minus)
    (h : LaidOut (.expr 6) e d) : LaidOut (.expr 6) (.unary w.literal e) (d + 1) := by
  refine of_readsBack (by exact (by decide : 2 ≤ 6)) (Nat.le_refl 6) fun level rest hr => ?_
  obtain ⟨ws, m, hs, hd, hm⟩ := h.operand (by decide) level hr
  have hsymbol : w.kind ∈ symbolKinds := by
    rcases hk with hk | hk
    all_goals rw [hk]; decide
  have hlit := hw.isSymbol hsymbol
  have hfront := hd.front_mem trivial
  have hne : front ws ≠ .assign ∧ front ws ≠ .equal := by
    constructor
    · intro he
      rw [he] at hfront
      exact absurd hfront (by decide)
    · intro he
      rw [he] at hfront
      exact absurd hfront (by decide)
  have hscan := hs.symbol hsymbol fun _ => hs.head_ne_equals (hd.full trivial).1 hne
  rw [← hlit] at hscan
  refine ⟨_, m + 1, ?_, .unary (w := ⟨w.kind, w.literal⟩) hk hd, by omega⟩
  have hlayout : (Expr.unary w.literal e).layout level Binding.lowest =
      w.literal ++ e.layout level Binding.unary := rfl
  rw [hlayout, List.append_assoc]
  exact hscan

/-- The operators of a layer are spelled as they are named, and their name tells them. -/
theorem ofName_operator {k : TokenKind} (h : k ∈ layerOperators layer) :
    k ∈ symbolKinds ∧ TokenKind.ofName k.name = k := by
  unfold layerOperators at h
  split at h
  all_goals simp only [List.mem_cons, List.not_mem_nil, or_false] at h
  all_goals
    rcases h with rfl | rfl
    all_goals decide

theorem binary {w : Word} {l r : Expr} {m : Nat} (hw : Lexical w)
    (hk : w.kind ∈ layerOperators layer) (hl : LaidOut (.expr layer) l d)
    (hr : LaidOut (.expr (layer + 1)) r m) :
    LaidOut (.expr layer) (.binary w.literal l r) (max d (m + 1)) := by
  obtain ⟨hbind, h2, h5⟩ := binding_of_mem_layerOperators hk
  obtain ⟨hsymbol, hname⟩ := ofName_operator hk
  have hlit := hw.isSymbol hsymbol
  have hstrength : (TokenKind.ofName w.literal).binding = layer := by rw [hlit, hname, hbind]
  have hb : (Expr.binary w.literal l r).binding = layer := hstrength
  refine of_readsBack (by omega) (by omega) fun level rest hrest => ?_
  obtain ⟨rs, j, hrs, hright, hj⟩ := hr.operand (by omega) level hrest
  have hsign : sign w.kind = w := by rw [sign, ← hlit]
  have hop := hrs.spaced_sign hsymbol
  rw [hsign, ← hlit] at hop
  have hends : Ends (" " ++ w.literal ++ " " ++ (r.layout level (layer + 1) ++ rest)) := by
    rw [List.append_assoc, List.append_assoc]
    exact ends_append _ (by decide)
  obtain ⟨ls, i, hls, hleft, hi⟩ := hl.operand (by omega) level hends
  rw [hb]
  refine ⟨_, _, ?_, .binary hleft hk hright, by omega⟩
  have hlow : ¬ layer < Binding.lowest := Nat.not_lt.mpr (Nat.le_of_succ_le h2)
  have hlayout : (Expr.binary w.literal l r).layout level Binding.lowest =
      l.layout level layer ++ " " ++ w.literal ++ " " ++ r.layout level (layer + 1) := by
    simp only [Expr.layout, hb, hstrength, parenthesized, decide_eq_true_eq, if_neg hlow]
  rw [hlayout]
  have hall := hls.append hop
  simpa only [List.append_assoc] using hall

theorem call {f : Expr} {args : List Expr} {m : Nat} (hf : LaidOut (.expr 7) f d)
    (ha : LaidOut .arguments args m) : LaidOut (.expr 7) (.call f args) (max d (m + 1)) := by
  refine of_readsBack (by exact (by decide : 2 ≤ 7)) (Nat.le_refl 7) fun level rest hr => ?_
  obtain ⟨as, j, has, hargs, hj⟩ := ha level (")" ++ rest) (ends_append rest (by decide))
  have hends : Ends ("(" ++ (Expr.layoutList level args ++ (")" ++ rest))) :=
    ends_append _ (by decide)
  obtain ⟨fs, i, hfs, hcallee, hi⟩ := hf.operand (by decide) level hends
  have hs := hfs.append (has.append (Scans.done rest).closing).opening
  have hd := Derives.call (l := sign .leftParen) (r := sign .rightParen) hcallee rfl hargs rfl
  refine ⟨_, _, ?_, hd, by omega⟩
  have hlayout : (Expr.call f args).layout level Binding.lowest =
      f.layout level 7 ++ "(" ++ Expr.layoutList level args ++ ")" := rfl
  rw [hlayout]
  simpa only [List.append_assoc, List.cons_append] using hs

theorem noArguments : LaidOut .arguments [] 0 :=
  fun _ rest _ => ⟨[], 0, .done rest, .noArguments, Nat.le_refl 0⟩

theorem lastArgument : LaidOut .moreArguments [] 0 :=
  fun _ rest _ => ⟨[], 0, .done rest, .lastArgument, Nat.le_refl 0⟩

/-- An argument and those behind it. -/
theorem argument {es : List Expr} {m : Nat} (h : LaidOut (.expr 2) e d)
    (hm : LaidOut .moreArguments es m) (level : Nat) (hr : Ends rest) :
    ∃ ws i vs j, Scans (e.layout level Binding.lowest ++
        ((es.map fun e => e.layout level Binding.lowest).flatMap commaBefore ++ rest))
      (ws ++ vs) rest ∧ Derives .firm (.expr 2) ws e i ∧ i ≤ d ∧
      Derives .firm .moreArguments vs es j ∧ j ≤ m := by
  obtain ⟨vs, j, hvs, hmore, hj⟩ := hm level rest hr
  obtain ⟨ws, i, hws, he, hi⟩ := h.lowest level (ends_commas _ hr)
  exact ⟨ws, i, vs, j, hws.append hvs, he, hi, hmore, hj⟩

theorem someArguments {es : List Expr} {m : Nat} (h : LaidOut (.expr 2) e d)
    (hm : LaidOut .moreArguments es m) : LaidOut .arguments (e :: es) (max d m) := by
  intro level rest hr
  obtain ⟨ws, i, vs, j, hs, he, hi, hmore, hj⟩ := h.argument hm level hr
  refine ⟨_, _, ?_, .someArguments he hmore, by omega⟩
  rw [layoutList_eq_join, List.map_cons, join_cons, List.append_assoc]
  exact hs

theorem nextArgument {es : List Expr} {m : Nat} (h : LaidOut (.expr 2) e d)
    (hm : LaidOut .moreArguments es m) : LaidOut .moreArguments (e :: es) (max d m) := by
  intro level rest hr
  obtain ⟨ws, i, vs, j, hs, he, hi, hmore, hj⟩ := h.argument hm level hr
  refine ⟨sign .comma :: ws ++ vs, _, ?_, .nextArgument rfl he hmore, by omega⟩
  rw [List.map_cons, List.flatMap_cons, commaBefore, List.append_assoc, List.append_assoc]
  exact hs.comma_space

/-! ## Statements -/

/-- The words in front of an expression, and a semicolon behind it, make a statement. -/
theorem line {s : Stmt} (pre : List Word) (t : Text) (h : LaidOut (.expr 2) e d)
    (hs : ∀ level, s.layout level =
      indentation level ++ (t ++ e.layout level Binding.lowest) ++ ";\n")
    (hp : ∀ (u rest : Text) (ws : List Word), Scans u ws rest → Scans (t ++ u) (pre ++ ws) rest)
    (hd : ∀ ws m, Derives .firm (.expr 2) ws e m → Derives .firm .statement (pre ++ ws) s m) :
    LaidOut .statement s d := by
  intro level rest
  have hends : Ends (";\n" ++ rest) := ends_append rest (by decide)
  obtain ⟨ws, m, hws, he, hm⟩ := h.lowest level hends
  have hall := (hp _ _ _ (hws.append (Scans.done rest).semicolon_line)).indented level
  refine ⟨pre ++ ws, m, ?_, hd ws m he, hm⟩
  rw [hs level]
  simpa only [List.append_assoc] using hall

theorem bind {w : Word} (hw : Lexical w) (hk : w.kind = .ident) (h : LaidOut (.expr 2) e d) :
    LaidOut .statement (.bind (some w.literal) e) d := by
  obtain ⟨hword, hident⟩ := hw.isName hk
  refine h.line [keyword "let", w, sign .assign] ("let " ++ w.literal ++ " = ")
    (fun level => rfl) (fun u rest ws hu => ?_) fun ws m hd => .bind (by decide) hk rfl hd
  have hlet : ("let " : Text) = "let" ++ " " := by decide
  have hassign : (" = " : Text) = " " ++ TokenKind.assign.name ++ " " := by decide
  have hsign : (⟨TokenKind.ofWord w.literal, w.literal⟩ : Word) = w := by rw [hident, ← hk]
  have hends : Ends (" " ++ TokenKind.assign.name ++ " " ++ u) := by
    rw [List.append_assoc, List.append_assoc]
    exact ends_append _ (by decide)
  have hname := (hu.spaced_sign (k := .assign) (by decide)).word hword hends
  rw [hsign, ← hassign] at hname
  have hall := hname.keyword_space (w := "let") (by decide)
  rw [← hlet] at hall
  simpa only [List.append_assoc, List.cons_append, List.nil_append] using hall

theorem ret (h : LaidOut (.expr 2) e d) : LaidOut .statement (.ret e) d := by
  refine h.line [keyword "return"] "return " (fun level => rfl) (fun u rest ws hu => ?_)
    fun ws m hd => .ret (by decide) hd
  have hreturn : ("return " : Text) = "return" ++ " " := by decide
  rw [hreturn]
  exact hu.keyword_space (by decide)

theorem expr (h : LaidOut (.expr 2) e d) : LaidOut .statement (.expr e) d :=
  h.line [] [] (fun _ => rfl) (fun _ _ _ hu => hu) fun _ _ hd => .expr hd

theorem nil : LaidOut .statements [] 0 :=
  fun _ rest => ⟨[], 0, .done rest, .nil, Nat.le_refl 0⟩

/-- In a layout every statement has a semicolon. -/
theorem cons {s : Stmt} {ss : List Stmt} {m : Nat} (h : LaidOut .statement s d)
    (hm : LaidOut .statements ss m) : LaidOut .statements (s :: ss) (max d m) := by
  intro level rest
  obtain ⟨vs, j, hvs, hss, hj⟩ := hm level rest
  obtain ⟨ws, i, hws, hs, hi⟩ := h level (Stmt.layoutList level ss ++ rest)
  refine ⟨_, _, ?_, .closed (w := sign .semicolon) hs rfl hss, by omega⟩
  have hall := hws.append hvs
  rw [List.append_assoc, List.singleton_append] at hall
  rw [Stmt.layoutList, List.append_assoc]
  exact hall

end LaidOut

/-- The tree of a phrase whose words are spelled as they should be can be laid out and read
again, with no more levels than the phrase has. -/
theorem Derives.laidOut {n : Phrase} {ws : List Word} {a : n.Tree} {d : Nat}
    (h : Derives .firm n ws a d) (hw : ∀ w ∈ ws, Lexical w) : LaidOut n a d := by
  induction h with
  | ident hk => exact .name (hw _ List.mem_cons_self) hk
  | int hk hv => exact .number (hw _ List.mem_cons_self) hk hv
  | yes => exact .bool true
  | no => exact .bool false
  | group _ _ _ ih => exact (ih fun w hm => hw w (by simp [hm])).group
  | ifThen _ _ _ _ _ _ _ iht ihy =>
    exact .ifThen (iht fun w hm => hw w (by simp [hm])) (ihy fun w hm => hw w (by simp [hm]))
  | ifElse _ _ _ _ _ _ _ _ _ _ _ iht ihy ihn =>
    exact .ifElse (iht fun w hm => hw w (by simp [hm])) (ihy fun w hm => hw w (by simp [hm]))
      (ihn fun w hm => hw w (by simp [hm]))
  | fn _ _ hp _ _ _ _ ih =>
    exact .fn hp (fun w hm => hw w (by simp [hm])) (ih fun w hm => hw w (by simp [hm]))
  | call _ _ _ _ ihf iha =>
    exact .call (ihf fun w hm => hw w (by simp [hm])) (iha fun w hm => hw w (by simp [hm]))
  | unary hk _ ih => exact .unary (hw _ List.mem_cons_self) hk (ih fun w hm => hw w (by simp [hm]))
  | binary _ hk _ ihl ihr =>
    exact .binary (hw _ (by simp)) hk (ihl fun w hm => hw w (by simp [hm]))
      (ihr fun w hm => hw w (by simp [hm]))
  | tighter _ ih => exact (ih hw).tighter
  | noArguments => exact .noArguments
  | someArguments _ _ ihe ihm =>
    exact .someArguments (ihe fun w hm => hw w (by simp [hm])) (ihm fun w hm => hw w (by simp [hm]))
  | lastArgument => exact .lastArgument
  | nextArgument _ _ _ ihe ihm =>
    exact .nextArgument (ihe fun w hm => hw w (by simp [hm])) (ihm fun w hm => hw w (by simp [hm]))
  | bind _ hn _ _ ih => exact .bind (hw _ (by simp)) hn (ih fun w hm => hw w (by simp [hm]))
  | ret _ _ ih => exact .ret (ih fun w hm => hw w (by simp [hm]))
  | expr _ ih => exact .expr (ih hw)
  | nil => exact .nil
  | closed _ _ _ ihs ihm | opened _ _ _ ihs ihm =>
    exact .cons (ihs fun w hm => hw w (by simp [hm])) (ihm fun w hm => hw w (by simp [hm]))

/-- The layout of a program is a text that gives it back. -/
theorem Derives.ofText_layout {ws : List Word} {p : Program} {d : Nat}
    (h : Derives .firm .statements ws p.statements d) (hd : d ≤ maxNesting)
    (hw : ∀ w ∈ ws, Lexical w) : Program.ofText p.layout = ⟨p, []⟩ := by
  obtain ⟨vs, m, hvs, hback, hm⟩ := h.laidOut hw 0 []
  rw [List.append_nil] at hvs
  obtain ⟨ts, hgives, rfl⟩ := Lexer.gives_of_scans hvs rfl Position.start
  exact (ofSource_of_derives hgives hback).1 (Nat.le_trans hm hd)

/-- A text that is read without a complaint gives a program whose layout is read without a
complaint, and gives the same program. -/
theorem a_layout_reads_back (t : Text) (h : (Program.ofText t).diagnostics = []) :
    Program.ofText (Program.ofText t).program.layout = ⟨(Program.ofText t).program, []⟩ := by
  obtain ⟨ws, hs, hw⟩ := exists_scans t
  obtain ⟨ts, hg, rfl⟩ := Lexer.gives_of_scans hs rfl Position.start
  obtain ⟨d, hd, hder⟩ := ofSource_derives hg h
  exact hder.ofText_layout hd hw

theorem a_layout_reads_back_with_groups :
    (Program.ofText "a - (b - -c) * (2)").diagnostics = [] ∧
    Program.ofText (Program.ofText "a - (b - -c) * (2)").program.layout =
      ⟨(Program.ofText "a - (b - -c) * (2)").program, []⟩ := by
  have h : (Program.ofText "a - (b - -c) * (2)").diagnostics = [] := by decide
  exact ⟨h, a_layout_reads_back _ h⟩

end Borealis
