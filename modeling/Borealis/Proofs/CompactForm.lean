-- Reading a compact form. Every operator expression of a compact form stands
-- in parentheses, so the text can nest deeper than the one that the tree was
-- read from. How deep it nests can be told from the tree, and as long as that
-- is within the limit of the grammar, the compact form gives the tree back.
import Borealis.Proofs.RoundTrip
import Borealis.Tree.Compact

namespace Borealis

/-! ## Levels -/

mutual

/-- How many levels deep the compact form of an expression nests. An operator takes one level for
its parentheses, and what stands behind it is a level deeper. -/
def Expr.levels : Expr → Nat
  | .hole | .stub _ | .ident _ | .int _ | .bool _ => 1
  | .unary _ operand => operand.levels + 1 + 1
  | .binary _ left right => max left.levels (right.levels + 1) + 1
  | .ifThen test yes => max test.levels (Stmt.levelsList yes) + 1
  | .ifElse test yes no => max test.levels (max (Stmt.levelsList yes) (Stmt.levelsList no)) + 1
  | .fn _ body => Stmt.levelsList body + 1
  | .call callee args => max callee.levels (Expr.levelsList args + 1)

def Expr.levelsList : List Expr → Nat
  | [] => 0
  | e :: es => max e.levels (Expr.levelsList es)

/-- How many levels deep the compact form of a statement nests. -/
def Stmt.levels : Stmt → Nat
  | .bind _ value | .ret value | .expr value => value.levels
  | .block body => Stmt.levelsList body

def Stmt.levelsList : List Stmt → Nat
  | [] => 0
  | s :: ss => max s.levels (Stmt.levelsList ss)

end

/-- How many levels deep the compact form of a program nests. -/
def Program.levels (p : Program) : Nat := Stmt.levelsList p.statements

/-! ## Trees that can be written down -/

/-- The operators in front of an operand. -/
def signOperators : List TokenKind := [.bang, .minus]

/-- The operators between two operands. -/
def middleOperators : List TokenKind :=
  [.equal, .notEqual, .less, .greater, .plus, .minus, .asterisk, .slash]

/-- A word that is not a keyword. -/
def IsName (t : Text) : Prop := isWord t = true ∧ TokenKind.ofWord t = .ident

mutual

/-- Nothing of the expression was left out, and there is a spelling for every name, number and
operator in it. A number below zero has none, as the sign is an operator. -/
def Expr.Writable : Expr → Prop
  | .hole | .stub _ => False
  | .ident name => IsName name
  | .int value => 0 ≤ value.toInt
  | .bool _ => True
  | .unary op operand => op ∈ signOperators.map TokenKind.name ∧ operand.Writable
  | .binary op left right =>
    op ∈ middleOperators.map TokenKind.name ∧ left.Writable ∧ right.Writable
  | .ifThen test yes => test.Writable ∧ Stmt.AllWritable yes
  | .ifElse test yes no => test.Writable ∧ Stmt.AllWritable yes ∧ Stmt.AllWritable no
  | .fn params body => (∀ name ∈ params, IsName name) ∧ Stmt.AllWritable body
  | .call callee args => callee.Writable ∧ Expr.AllWritable args

def Expr.AllWritable : List Expr → Prop
  | [] => True
  | e :: es => e.Writable ∧ Expr.AllWritable es

/-- There is a spelling for the statement. A block by itself has none. -/
def Stmt.Writable : Stmt → Prop
  | .bind none _ | .block _ => False
  | .bind (some name) value => IsName name ∧ value.Writable
  | .ret value | .expr value => value.Writable

def Stmt.AllWritable : List Stmt → Prop
  | [] => True
  | s :: ss => s.Writable ∧ Stmt.AllWritable ss

end

/-- The tree of a phrase can be written down. -/
def Phrase.Writable : (n : Phrase) → n.Tree → Prop
  | .expr _, e => e.Writable
  | .arguments, es | .moreArguments, es => Expr.AllWritable es
  | .statement, s => s.Writable
  | .statements, ss => Stmt.AllWritable ss

theorem mem_signOperators {k : TokenKind} : k ∈ signOperators ↔ k = .bang ∨ k = .minus := by
  simp [signOperators]

theorem signOperators_subset : signOperators ⊆ symbolKinds := by decide

/-- The operators between two operands are those of the layers. -/
theorem mem_middleOperators {k : TokenKind} :
    k ∈ middleOperators ↔ ∃ layer, k ∈ layerOperators layer := by
  constructor
  · intro h
    refine ⟨k.binding, ?_⟩
    revert k
    decide
  · rintro ⟨layer, h⟩
    unfold layerOperators at h
    split at h
    all_goals
      revert k
      decide

theorem MoreParameters.isName {xs : List Word} {names : List Text} (h : MoreParameters xs names)
    (hx : ∀ w ∈ xs, Lexical w) : ∀ name ∈ names, IsName name := by
  induction h with
  | last => simp
  | next _ hk _ ih =>
    simp only [List.forall_mem_cons] at hx ⊢
    exact ⟨hx.2.1.isName hk, ih hx.2.2⟩

theorem Parameters.isName {ps : List Word} {names : List Text} (h : Parameters ps names)
    (hx : ∀ w ∈ ps, Lexical w) : ∀ name ∈ names, IsName name := by
  cases h with
  | none => simp
  | some hk hm =>
    rw [List.forall_mem_cons] at hx ⊢
    exact ⟨hx.1.isName hk, hm.isName hx.2⟩

/-- What was read from words that are spelled as they should be can be written down. -/
theorem Derives.writable {seam : Seam} {n : Phrase} {ws : List Word} {a : n.Tree} {d : Nat}
    (h : Derives seam n ws a d) (hw : ∀ w ∈ ws, Lexical w) : n.Writable a := by
  induction h with
  | ident hk => exact (hw _ List.mem_cons_self).isName hk
  | int hk hv =>
    obtain ⟨hne, hdigits⟩ := (hw _ List.mem_cons_self).isNumber hk
    exact Text.toInt_nonneg_of_isDigit hne hdigits hv
  | yes | no => exact trivial
  | group _ _ _ ih => exact ih fun w hm => hw w (by simp [hm])
  | ifThen _ _ _ _ _ _ _ iht ihy =>
    exact ⟨iht fun w hm => hw w (by simp [hm]), ihy fun w hm => hw w (by simp [hm])⟩
  | ifElse _ _ _ _ _ _ _ _ _ _ _ iht ihy ihn =>
    exact ⟨iht fun w hm => hw w (by simp [hm]), ihy fun w hm => hw w (by simp [hm]),
      ihn fun w hm => hw w (by simp [hm])⟩
  | fn _ _ hp _ _ _ _ ih =>
    exact ⟨hp.isName fun w hm => hw w (by simp [hm]), ih fun w hm => hw w (by simp [hm])⟩
  | call _ _ _ _ ihf iha =>
    exact ⟨ihf fun w hm => hw w (by simp [hm]), iha fun w hm => hw w (by simp [hm])⟩
  | unary hk _ ih =>
    have hmem := mem_signOperators.mpr hk
    have hsign := (hw _ List.mem_cons_self).isSymbol (signOperators_subset hmem)
    refine ⟨?_, ih fun w hm => hw w (by simp [hm])⟩
    rw [hsign]
    exact List.mem_map_of_mem hmem
  | binary _ hk _ ihl ihr =>
    have hsign := (hw _ (by simp)).isSymbol (LaidOut.ofName_operator hk).1
    refine ⟨?_, ihl fun w hm => hw w (by simp [hm]), ihr fun w hm => hw w (by simp [hm])⟩
    rw [hsign]
    exact List.mem_map_of_mem (mem_middleOperators.mpr ⟨_, hk⟩)
  | tighter _ ih => exact ih hw
  | noArguments | lastArgument | nil => exact trivial
  | someArguments _ _ ihe ihm | nextArgument _ _ _ ihe ihm =>
    exact ⟨ihe fun w hm => hw w (by simp [hm]), ihm fun w hm => hw w (by simp [hm])⟩
  | bind _ hn _ _ ih =>
    exact ⟨(hw _ (by simp)).isName hn, ih fun w hm => hw w (by simp [hm])⟩
  | ret _ _ ih => exact ih fun w hm => hw w (by simp [hm])
  | expr _ ih => exact ih hw
  | closed _ _ _ ihs ihm | opened _ _ _ ihs ihm =>
    exact ⟨ihs fun w hm => hw w (by simp [hm]), ihm fun w hm => hw w (by simp [hm])⟩

/-! ## Texts that write a phrase -/

/-- Whatever stands behind the text and ends its last word, the words of the text are a phrase with
this tree, which nests `d` levels deep. -/
def Writes (n : Phrase) (a : n.Tree) (d : Nat) (t : Text) : Prop :=
  ∀ rest, Ends rest → ∃ ws, Scans (t ++ rest) ws rest ∧ Derives .firm n ws a d

namespace Writes

variable {layer d m : Nat} {e l r : Expr} {t u : Text}

theorem down {j : Nat} (h : Writes (.expr layer) e d t) (hj : j ≤ layer) :
    Writes (.expr j) e d t := by
  intro rest hr
  obtain ⟨ws, hs, hd⟩ := h rest hr
  exact ⟨ws, hs, hd.down hj⟩

theorem name {t : Text} (h : IsName t) : Writes (.expr 8) (.ident t) 1 t := by
  intro rest hr
  have hs := (Scans.done rest).word h.1 hr
  rw [h.2] at hs
  exact ⟨_, hs, .ident rfl⟩

theorem number {v : Int64} (hv : 0 ≤ v.toInt) :
    Writes (.expr 8) (.int v) 1 (Text.ofInt v.toInt) := by
  obtain ⟨n, hn⟩ := Int.eq_ofNat_of_zero_le hv
  have hback := Text.toInt64_ofInt v
  rw [hn] at hback ⊢
  intro rest hr
  have hs := (Scans.done rest).number (Text.ofNat_ne_nil n)
    (fun b hm => Text.isDigit_of_mem_ofNat hm) hr
  exact ⟨_, hs, .int rfl hback⟩

theorem bool (b : Bool) : Writes (.expr 8) (.bool b) 1 (if b then "true" else "false") := by
  intro rest hr
  cases b with
  | true =>
    have hs : Scans ("true" ++ rest) [keyword "true"] rest := (Scans.done rest).word (by decide) hr
    exact ⟨_, hs, .yes (by decide)⟩
  | false =>
    have hs : Scans ("false" ++ rest) [keyword "false"] rest :=
      (Scans.done rest).word (by decide) hr
    exact ⟨_, hs, .no (by decide)⟩

/-- Parentheses take a level. -/
theorem group (h : Writes (.expr 2) e d t) : Writes (.expr 8) e (d + 1) ("(" ++ t ++ ")") := by
  intro rest hr
  obtain ⟨ws, hs, hd⟩ := h (")" ++ rest) (ends_append rest (by decide))
  refine ⟨_, ?_, .group (l := sign .leftParen) (r := sign .rightParen) rfl hd rfl⟩
  simpa using (hs.append (Scans.done rest).closing).opening

/-! ## Operators -/

theorem unary {k : TokenKind} (hk : k ∈ signOperators) (h : Writes (.expr 6) e d t) :
    Writes (.expr 6) (.unary k.name e) (d + 1) (k.name ++ t) := by
  intro rest hr
  obtain ⟨ws, hs, hd⟩ := h rest hr
  have hfront := hd.front_mem trivial
  have hne : front ws ≠ .assign ∧ front ws ≠ .equal := by
    constructor
    · intro he
      rw [he] at hfront
      exact absurd hfront (by decide)
    · intro he
      rw [he] at hfront
      exact absurd hfront (by decide)
  -- An operand never starts with an equals sign, which would make one word with the operator.
  have hscan := hs.symbol (signOperators_subset hk) fun _ =>
    hs.head_ne_equals (hd.full trivial).1 hne
  refine ⟨_, ?_, .unary (w := sign k) (mem_signOperators.mp hk) hd⟩
  rw [List.append_assoc]
  exact hscan

theorem binary {k : TokenKind} (hk : k ∈ layerOperators layer) (hl : Writes (.expr layer) l d t)
    (hr : Writes (.expr (layer + 1)) r m u) :
    Writes (.expr layer) (.binary k.name l r) (max d (m + 1)) (t ++ " " ++ k.name ++ " " ++ u) := by
  intro rest hrest
  obtain ⟨rs, hrs, hright⟩ := hr rest hrest
  have hop := hrs.spaced_sign (LaidOut.ofName_operator hk).1
  have hends : Ends (" " ++ k.name ++ " " ++ (u ++ rest)) := by
    rw [List.append_assoc, List.append_assoc]
    exact ends_append _ (by decide)
  obtain ⟨ls, hls, hleft⟩ := hl _ hends
  refine ⟨_, ?_, .binary (w := sign k) hleft hk hright⟩
  simpa only [List.append_assoc] using hls.append hop

/-! ## Blocks -/

/-- Statements in braces. -/
theorem braces {ss : List Stmt} (h : Writes .statements ss d (Stmt.compactList ss)) (rest : Text) :
    ∃ ws, Scans (compactBraces ss (Stmt.compactList ss) ++ rest)
      (sign .leftBrace :: ws ++ [sign .rightBrace]) rest ∧ Derives .firm .statements ws ss d := by
  have hclose : Scans (" " ++ ("\x7d" ++ rest)) [sign .rightBrace] rest :=
    ((Scans.done rest).mark (k := .rightBrace) (by decide) (by decide)).space
  obtain ⟨ws, hs, hd⟩ := h (" " ++ ("\x7d" ++ rest)) (ends_append _ (by decide))
  have hinner := hs.append hclose
  refine ⟨ws, ?_, hd⟩
  cases ss with
  | nil =>
    have e : ("\x7b \x7d" : Text) = TokenKind.leftBrace.name ++ (" " ++ "\x7d") := by decide
    rw [compactBraces, List.isEmpty_nil, if_pos rfl, e, List.append_assoc, List.append_assoc]
    exact hinner.mark (by decide) (by decide)
  | cons s ss =>
    have e : ("\x7b " : Text) = TokenKind.leftBrace.name ++ " " := by decide
    have e' : (" \x7d" : Text) = " " ++ "\x7d" := by decide
    rw [compactBraces, List.isEmpty_cons, if_neg Bool.false_ne_true, e, e']
    simp only [List.append_assoc]
    exact hinner.space.mark (by decide) (by decide)

/-- The condition of an `if` and the block behind it. -/
theorem test_block {test : Expr} {yes : List Stmt} (ht : Writes (.expr 2) test d t)
    (hy : Writes .statements yes m (Stmt.compactList yes)) (rest : Text) :
    ∃ ts ys, Scans ("if (" ++ (t ++ (") " ++ (compactBraces yes (Stmt.compactList yes) ++ rest))))
      (keyword "if" :: sign .leftParen :: (ts ++ sign .rightParen :: sign .leftBrace ::
        (ys ++ [sign .rightBrace]))) rest ∧
      Derives .firm (.expr 2) ts test d ∧ Derives .firm .statements ys yes m := by
  obtain ⟨ys, hys, hyes⟩ := hy.braces rest
  obtain ⟨ts, hts, htest⟩ := ht (") " ++ (compactBraces yes (Stmt.compactList yes) ++ rest))
    (ends_append _ (by decide))
  exact ⟨ts, ys, (hts.append hys.closing_space).if_opening, htest, hyes⟩

theorem ifThen {test : Expr} {yes : List Stmt} (ht : Writes (.expr 2) test d t)
    (hy : Writes .statements yes m (Stmt.compactList yes)) :
    Writes (.expr 8) (.ifThen test yes) (max d m + 1)
      ("if (" ++ t ++ ") " ++ compactBraces yes (Stmt.compactList yes)) := by
  intro rest _
  obtain ⟨ts, ys, hs, htest, hyes⟩ := ht.test_block hy rest
  have hd := Derives.ifThen (i := keyword "if") (l := sign .leftParen) (r := sign .rightParen)
    (b := sign .leftBrace) (z := sign .rightBrace) (by decide) rfl htest rfl rfl hyes rfl
  refine ⟨_, ?_, hd⟩
  simpa only [List.append_assoc, List.cons_append] using hs

theorem ifElse {test : Expr} {yes no : List Stmt} {k : Nat} (ht : Writes (.expr 2) test d t)
    (hy : Writes .statements yes m (Stmt.compactList yes))
    (hn : Writes .statements no k (Stmt.compactList no)) :
    Writes (.expr 8) (.ifElse test yes no) (max d (max m k) + 1)
      ("if (" ++ t ++ ") " ++ compactBraces yes (Stmt.compactList yes)
        ++ " else " ++ compactBraces no (Stmt.compactList no)) := by
  intro rest _
  obtain ⟨ns, hns, hno⟩ := hn.braces rest
  obtain ⟨ts, ys, hs, htest, hyes⟩ := ht.test_block hy
    (" else " ++ (compactBraces no (Stmt.compactList no) ++ rest))
  have hd := Derives.ifElse (i := keyword "if") (l := sign .leftParen) (r := sign .rightParen)
    (b := sign .leftBrace) (z := sign .rightBrace) (o := keyword "else") (q := sign .leftBrace)
    (y := sign .rightBrace) (by decide) rfl htest rfl rfl hyes rfl (by decide) rfl hno rfl
  refine ⟨_, ?_, hd⟩
  have hall := hs.append hns.spaced_else
  simpa only [List.append_assoc, List.cons_append, List.nil_append] using hall

/-! ## Functions and calls -/

/-- Names with commas between them can be parameters. -/
theorem exists_moreParameters {names : List Text} (h : ∀ name ∈ names, IsName name) :
    ∃ ps, MoreParameters ps names ∧ ∀ w ∈ ps, Lexical w := by
  induction names with
  | nil => exact ⟨[], .last, by simp⟩
  | cons name names ih =>
    rw [List.forall_mem_cons] at h
    obtain ⟨ps, hps, hlex⟩ := ih h.2
    refine ⟨sign .comma :: ⟨.ident, name⟩ :: ps, .next rfl rfl hps, ?_⟩
    simp only [List.forall_mem_cons]
    exact ⟨.symbol (by decide), .name h.1.1 h.1.2, hlex⟩

theorem exists_parameters {names : List Text} (h : ∀ name ∈ names, IsName name) :
    ∃ ps, Parameters ps names ∧ ∀ w ∈ ps, Lexical w := by
  cases names with
  | nil => exact ⟨[], .none, by simp⟩
  | cons name names =>
    rw [List.forall_mem_cons] at h
    obtain ⟨ps, hps, hlex⟩ := exists_moreParameters h.2
    exact ⟨⟨.ident, name⟩ :: ps, .some rfl hps, List.forall_mem_cons.mpr ⟨.name h.1.1 h.1.2, hlex⟩⟩

theorem fn {params : List Text} {body : List Stmt} (hp : ∀ name ∈ params, IsName name)
    (hb : Writes .statements body d (Stmt.compactList body)) :
    Writes (.expr 8) (.fn params body) (d + 1)
      ("fn(" ++ Text.join ", " params ++ ") " ++ compactBraces body (Stmt.compactList body)) := by
  intro rest _
  obtain ⟨bs, hbs, hbody⟩ := hb.braces rest
  have hends : Ends (") " ++ (compactBraces body (Stmt.compactList body) ++ rest)) :=
    ends_append _ (by decide)
  obtain ⟨ps, hps, hlex⟩ := exists_parameters hp
  obtain ⟨ws, hws, hparams⟩ := LaidOut.names hps hlex hends
  have hs := (hws.append hbs.closing_space).fn_opening
  have hd := Derives.fn (f := keyword "fn") (l := sign .leftParen) (r := sign .rightParen)
    (b := sign .leftBrace) (z := sign .rightBrace) (by decide) rfl hparams rfl rfl hbody rfl
  refine ⟨_, ?_, hd⟩
  simpa only [List.append_assoc, List.cons_append] using hs

theorem call {f : Expr} {args : List Expr} (hf : Writes (.expr 7) f d t)
    (ha : Writes .arguments args m u) :
    Writes (.expr 7) (.call f args) (max d (m + 1)) (t ++ "(" ++ u ++ ")") := by
  intro rest hr
  obtain ⟨as, has, hargs⟩ := ha (")" ++ rest) (ends_append rest (by decide))
  obtain ⟨fs, hfs, hcallee⟩ := hf ("(" ++ (u ++ (")" ++ rest))) (ends_append _ (by decide))
  have hs := hfs.append (has.append (Scans.done rest).closing).opening
  have hd := Derives.call (l := sign .leftParen) (r := sign .rightParen) hcallee rfl hargs rfl
  refine ⟨_, ?_, hd⟩
  simpa only [List.append_assoc, List.cons_append] using hs

theorem compactList_eq_join (es : List Expr) :
    Expr.compactList es = Text.join ", " (es.map Expr.compact) := by
  induction es with
  | nil => rfl
  | cons e es ih =>
    cases es with
    | nil => rfl
    | cons x es =>
      have hl : Expr.compactList (e :: x :: es) =
          e.compact ++ ", " ++ Expr.compactList (x :: es) := rfl
      rw [hl, ih]
      rfl

theorem moreArguments {es : List Expr}
    (h : ∀ e ∈ es, Writes (.expr 2) e e.levels e.compact) :
    Writes .moreArguments es (Expr.levelsList es) ((es.map Expr.compact).flatMap commaBefore) := by
  induction es with
  | nil => exact fun rest _ => ⟨[], .done rest, .lastArgument⟩
  | cons e es ih =>
    rw [List.forall_mem_cons] at h
    intro rest hr
    obtain ⟨vs, hvs, hmore⟩ := ih h.2 rest hr
    obtain ⟨ws, hws, he⟩ := h.1 _ (ends_commas _ hr)
    refine ⟨sign .comma :: ws ++ vs, ?_, .nextArgument rfl he hmore⟩
    rw [List.map_cons, List.flatMap_cons, commaBefore, List.append_assoc, List.append_assoc]
    exact (hws.append hvs).comma_space

theorem arguments {es : List Expr} (h : ∀ e ∈ es, Writes (.expr 2) e e.levels e.compact) :
    Writes .arguments es (Expr.levelsList es) (Expr.compactList es) := by
  cases es with
  | nil => exact fun rest _ => ⟨[], .done rest, .noArguments⟩
  | cons e es =>
    rw [List.forall_mem_cons] at h
    intro rest hr
    obtain ⟨vs, hvs, hmore⟩ := moreArguments h.2 rest hr
    obtain ⟨ws, hws, he⟩ := h.1 _ (ends_commas _ hr)
    refine ⟨ws ++ vs, ?_, .someArguments he hmore⟩
    rw [compactList_eq_join, List.map_cons, join_cons, List.append_assoc]
    exact hws.append hvs

/-! ## Statements -/

theorem bind {name : Text} (hn : IsName name) (h : Writes (.expr 2) e d t) :
    Writes .statement (.bind (some name) e) d ("let " ++ name ++ " = " ++ t) := by
  intro rest hr
  obtain ⟨ws, hs, hd⟩ := h rest hr
  have hlet : ("let " : Text) = "let" ++ " " := by decide
  have hassign : (" = " : Text) = " " ++ TokenKind.assign.name ++ " " := by decide
  have hends : Ends (" " ++ TokenKind.assign.name ++ " " ++ (t ++ rest)) := by
    rw [List.append_assoc, List.append_assoc]
    exact ends_append _ (by decide)
  have hname := (hs.spaced_sign (k := .assign) (by decide)).word hn.1 hends
  rw [hn.2, ← hassign] at hname
  have hall := hname.keyword_space (w := "let") (by decide)
  rw [← hlet] at hall
  have hbind : Derives .firm .statement (keyword "let" :: ⟨.ident, name⟩ :: sign .assign :: ws)
      (.bind (some name) e) d := .bind (by decide) rfl rfl hd
  refine ⟨_, ?_, hbind⟩
  simpa only [List.append_assoc] using hall

theorem ret (h : Writes (.expr 2) e d t) : Writes .statement (.ret e) d ("return " ++ t) := by
  intro rest hr
  obtain ⟨ws, hs, hd⟩ := h rest hr
  have hreturn : ("return " : Text) = "return" ++ " " := by decide
  refine ⟨_, ?_, .ret (w := keyword "return") (by decide) hd⟩
  rw [hreturn, List.append_assoc]
  exact hs.keyword_space (by decide)

theorem expr (h : Writes (.expr 2) e d t) : Writes .statement (.expr e) d t := by
  intro rest hr
  obtain ⟨ws, hs, hd⟩ := h rest hr
  exact ⟨ws, hs, .expr hd⟩

theorem only {s : Stmt} (h : Writes .statement s d t) : Writes .statements [s] d t := by
  intro rest hr
  obtain ⟨ws, hs, hd⟩ := h rest hr
  exact ⟨ws, hs, hd.only⟩

/-- Only the last statement of a compact form has no semicolon. -/
theorem statements {ss : List Stmt} (h : ∀ s ∈ ss, Writes .statement s s.levels s.compact) :
    Writes .statements ss (Stmt.levelsList ss) (Stmt.compactList ss) := by
  induction ss with
  | nil => exact fun rest _ => ⟨[], .done rest, .nil⟩
  | cons s ss ih =>
    rw [List.forall_mem_cons] at h
    cases ss with
    | nil =>
      have hl : Stmt.levelsList [s] = s.levels := Nat.max_zero s.levels
      rw [hl]
      exact h.1.only
    | cons x ss =>
      intro rest hr
      obtain ⟨vs, hvs, hss⟩ := ih h.2 rest hr
      have e : ("; " : Text) = TokenKind.semicolon.name ++ " " := by decide
      have hmore := hvs.space.mark (k := .semicolon) (by decide) (by decide)
      rw [← List.append_assoc, ← e] at hmore
      obtain ⟨ws, hws, hs⟩ := h.1 ("; " ++ (Stmt.compactList (x :: ss) ++ rest))
        (ends_append _ (by decide))
      refine ⟨ws ++ sign .semicolon :: vs, ?_, .closed hs rfl hss⟩
      have hl : Stmt.compactList (s :: x :: ss) = s.compact ++ "; " ++ Stmt.compactList (x :: ss) :=
        rfl
      rw [hl, List.append_assoc, List.append_assoc]
      exact hws.append hmore

/-- A text that writes statements is read with their trees, unless they nest too deeply: then the
only complaint is about that. -/
theorem ofText {ss : List Stmt} (h : Writes .statements ss d t) :
    (d ≤ maxNesting → Program.ofText t = ⟨⟨ss⟩, []⟩) ∧
    (¬ d ≤ maxNesting → ∃ tok : Token,
      (Program.ofText t).diagnostics = [⟨.tooDeep, tok.pos, tok.kind⟩]) := by
  obtain ⟨ws, hs, hd⟩ := h [] (by simp [Ends])
  rw [List.append_nil] at hs
  obtain ⟨ts, hgives, rfl⟩ := Lexer.gives_of_scans hs rfl Position.start
  exact ofSource_of_derives hgives hd

end Writes

/-! ## Compact forms -/

mutual

/-- The compact form of an expression is a call or an atom, as an operator has parentheses. -/
theorem Expr.Writable.writes {e : Expr} (h : e.Writable) :
    Writes (.expr 7) e e.levels e.compact := by
  match e, h with
  | .ident _, h => exact (Writes.name h).down (by decide)
  | .int _, h => exact (Writes.number h).down (by decide)
  | .bool b, _ => exact (Writes.bool b).down (by decide)
  | .unary op operand, ⟨hop, h⟩ =>
    obtain ⟨k, hk, rfl⟩ := List.mem_map.mp hop
    have hinner := Writes.unary hk (h.writes.down (by decide))
    have hgroup := (hinner.down (by decide)).group.down (by decide : 7 ≤ 8)
    simpa only [Expr.compact, Expr.levels, List.append_assoc] using hgroup
  | .binary op l r, ⟨hop, hl, hr⟩ =>
    obtain ⟨k, hk, rfl⟩ := List.mem_map.mp hop
    obtain ⟨layer, hlayer⟩ := mem_middleOperators.mp hk
    obtain ⟨-, h2, h5⟩ := binding_of_mem_layerOperators hlayer
    have hinner := Writes.binary hlayer (hl.writes.down (by omega)) (hr.writes.down (by omega))
    have hgroup := (hinner.down h2).group.down (by decide : 7 ≤ 8)
    simpa only [Expr.compact, Expr.levels, List.append_assoc] using hgroup
  | .ifThen test yes, ⟨ht, hy⟩ =>
    exact (Writes.ifThen (ht.writes.down (by decide)) (.statements hy.writes)).down (by decide)
  | .ifElse test yes no, ⟨ht, hy, hn⟩ =>
    exact (Writes.ifElse (ht.writes.down (by decide)) (.statements hy.writes)
      (.statements hn.writes)).down (by decide)
  | .fn params body, ⟨hp, hb⟩ => exact (Writes.fn hp (.statements hb.writes)).down (by decide)
  | .call f args, ⟨hf, ha⟩ =>
    exact .call hf.writes (.arguments fun e he => (ha.writes e he).down (by decide))

theorem Expr.AllWritable.writes {es : List Expr} (h : Expr.AllWritable es) :
    ∀ e ∈ es, Writes (.expr 7) e e.levels e.compact := by
  match es, h with
  | [], _ => simp
  | e :: es, ⟨he, hes⟩ => exact List.forall_mem_cons.mpr ⟨he.writes, hes.writes⟩

theorem Stmt.Writable.writes {s : Stmt} (h : s.Writable) :
    Writes .statement s s.levels s.compact := by
  match s, h with
  | .bind (some _) value, ⟨hn, hv⟩ => exact .bind hn (hv.writes.down (by decide))
  | .ret value, hv => exact .ret ((Expr.Writable.writes hv).down (by decide))
  | .expr value, hv => exact .expr ((Expr.Writable.writes hv).down (by decide))

theorem Stmt.AllWritable.writes {ss : List Stmt} (h : Stmt.AllWritable ss) :
    ∀ s ∈ ss, Writes .statement s s.levels s.compact := by
  match ss, h with
  | [], _ => simp
  | s :: ss, ⟨hs, hss⟩ => exact List.forall_mem_cons.mpr ⟨hs.writes, hss.writes⟩

end

/-- A text that is read without a complaint gives a program whose compact form gives the same
program again, or nests deeper than the grammar allows and is refused for that alone. -/
theorem a_compact_form_reads_back_within_the_limit (t : Text)
    (h : (Program.ofText t).diagnostics = []) :
    ((Program.ofText t).program.levels ≤ maxNesting →
      Program.ofText (Program.ofText t).program.compact = ⟨(Program.ofText t).program, []⟩) ∧
    (¬ (Program.ofText t).program.levels ≤ maxNesting → ∃ tok : Token,
      (Program.ofText (Program.ofText t).program.compact).diagnostics =
        [⟨.tooDeep, tok.pos, tok.kind⟩]) := by
  obtain ⟨ws, hs, hw⟩ := exists_scans t
  obtain ⟨ts, hg, rfl⟩ := Lexer.gives_of_scans hs rfl Position.start
  obtain ⟨d, -, hder⟩ := ofSource_derives hg h
  exact (Writes.statements (Stmt.AllWritable.writes (hder.writable hw))).ofText

theorem a_compact_form_reads_back_with_operators :
    (Program.ofText "let a = -b - (c - 2) * f(!d, 3)").diagnostics = [] ∧
    (Program.ofText "let a = -b - (c - 2) * f(!d, 3)").program.levels ≤ maxNesting ∧
    Program.ofText (Program.ofText "let a = -b - (c - 2) * f(!d, 3)").program.compact =
      ⟨(Program.ofText "let a = -b - (c - 2) * f(!d, 3)").program, []⟩ := by
  have h : (Program.ofText "let a = -b - (c - 2) * f(!d, 3)").diagnostics = [] := by decide
  have hn : (Program.ofText "let a = -b - (c - 2) * f(!d, 3)").program.levels ≤ maxNesting := by
    decide +kernel
  exact ⟨h, hn, (a_compact_form_reads_back_within_the_limit _ h).1 hn⟩

/-! ## Long sums -/

/-- A sum of ones, with so many plus signs. -/
def onesTree : Nat → Expr
  | 0 => .int 1
  | n + 1 => .binary TokenKind.plus.name (onesTree n) (.int 1)

/-- The text of a sum of ones. -/
def onesText : Nat → Text
  | 0 => "1"
  | n + 1 => onesText n ++ " " ++ TokenKind.plus.name ++ " " ++ "1"

theorem writes_one : Writes (.expr 8) (.int 1) 1 "1" := Writes.number (v := 1) (by decide)

/-- However long a sum is, its text nests two levels deep: operands on the left take no level. -/
theorem writes_ones (n : Nat) : ∃ d ≤ 2, Writes (.expr 4) (onesTree n) d (onesText n) := by
  induction n with
  | zero => exact ⟨1, by decide, writes_one.down (by decide)⟩
  | succ n ih =>
    obtain ⟨d, hd, h⟩ := ih
    exact ⟨max d (1 + 1), by omega, .binary (by decide) h (writes_one.down (by decide))⟩

theorem ofText_ones (n : Nat) : Program.ofText (onesText n) = ⟨⟨[.expr (onesTree n)]⟩, []⟩ := by
  obtain ⟨d, hd, h⟩ := writes_ones n
  have hle : d ≤ maxNesting := Nat.le_trans hd (by decide)
  exact (h.down (by decide)).expr.only.ofText.1 hle

/-- In the compact form, every plus sign takes a level. -/
theorem lt_levels_ones (n : Nat) : n < (onesTree n).levels := by
  induction n with
  | zero => decide
  | succ n ih =>
    rw [onesTree, Expr.levels]
    omega

theorem writable_ones (n : Nat) : (onesTree n).Writable := by
  induction n with
  | zero => exact (by decide : 0 ≤ (1 : Int64).toInt)
  | succ n ih =>
    have hone : (Expr.int 1).Writable := (by decide : 0 ≤ (1 : Int64).toInt)
    exact ⟨List.mem_map_of_mem (by decide), ih, hone⟩

/-- A sum of more ones than there are levels is read, and its compact form is refused. -/
theorem ones_refused (n : Nat) (hn : maxNesting ≤ n) :
    (Program.ofText (onesText n)).diagnostics = [] ∧
    (Program.ofText (Program.ofText (onesText n)).program.compact).diagnostics ≠ [] := by
  rw [ofText_ones]
  refine ⟨rfl, ?_⟩
  have hlevels : ¬ (onesTree n).levels ≤ maxNesting := by
    have hlt := lt_levels_ones n
    omega
  obtain ⟨tok, htok⟩ := ((writable_ones n).writes.down (by decide)).expr.only.ofText.2 hlevels
  have hcompact : Program.compact ⟨[.expr (onesTree n)]⟩ = (onesTree n).compact := rfl
  rw [hcompact, htok]
  simp

theorem a_long_sum_has_no_readable_compact_form :
    (Program.ofText (onesText maxNesting)).diagnostics = [] ∧
    (Program.ofText (Program.ofText (onesText maxNesting)).program.compact).diagnostics ≠ [] :=
  ones_refused maxNesting (Nat.le_refl maxNesting)

end Borealis
