-- The layout of a program has the fewest parentheses. Every parenthesis that
-- a layout writes is one that the tree or its layers ask for, so any text with
-- that tree opens at least as many. A layout with a pair left out opens fewer,
-- and its tree is another one.
import Borealis.Proofs.CompactForm
import Borealis.Proofs.Fragments

namespace Borealis

/-! ## Parentheses of texts and words -/

/-- How many parentheses a text opens. -/
def opens (t : Text) : Nat := t.count (Text.byte '(')

@[simp] theorem opens_append (t u : Text) : opens (t ++ u) = opens t + opens u :=
  List.count_append

theorem opens_eq_zero {t : Text} (h : ∀ b ∈ t, isWordByte b = true) : opens t = 0 := by
  refine List.count_eq_zero.mpr fun hm => ?_
  exact absurd (h _ hm) (by decide)

theorem opens_name {t : Text} (h : IsName t) : opens t = 0 :=
  opens_eq_zero (isWordByte_of_isWord h.1)

theorem opens_commas {ts : List Text} (h : ∀ t ∈ ts, IsName t) :
    opens (ts.flatMap commaBefore) = 0 := by
  have hcomma : opens (", " : Text) = 0 := by decide
  induction ts with
  | nil => rfl
  | cons t ts ih =>
    rw [List.forall_mem_cons] at h
    rw [List.flatMap_cons, commaBefore, opens_append, opens_append, hcomma, opens_name h.1, ih h.2]

theorem opens_names {ts : List Text} (h : ∀ t ∈ ts, IsName t) : opens (Text.join ", " ts) = 0 := by
  cases ts with
  | nil => rfl
  | cons t ts =>
    rw [List.forall_mem_cons] at h
    rw [join_cons, opens_append, opens_name h.1, opens_commas h.2]

theorem opens_number {v : Int64} (h : 0 ≤ v.toInt) : opens (Text.ofInt v.toInt) = 0 := by
  obtain ⟨n, hn⟩ := Int.eq_ofNat_of_zero_le h
  rw [hn]
  refine opens_eq_zero fun b hb => ?_
  rw [isWordByte, Text.isDigit_of_mem_ofNat hb, Bool.or_true]

theorem opens_indentation (n : Nat) : opens (indentation n) = 0 := by
  induction n with
  | zero => rfl
  | succ n ih =>
    rw [indentation, opens_append, ih]
    rfl

/-- How many of the words are opening parentheses. -/
def openingWords (ws : List Word) : Nat := ws.countP fun w => w.kind = .leftParen

@[simp] theorem openingWords_nil : openingWords [] = 0 := rfl

@[simp] theorem openingWords_append (ws vs : List Word) :
    openingWords (ws ++ vs) = openingWords ws + openingWords vs := List.countP_append

@[simp] theorem openingWords_cons (w : Word) (ws : List Word) :
    openingWords (w :: ws) = openingWords ws + if w.kind = .leftParen then 1 else 0 := by
  simp [openingWords, List.countP_cons]

/-- An opening parenthesis is spelled as one. -/
theorem Spelled.opens_pos {literal x rest : Text} {k : TokenKind} (h : Spelled k literal x rest)
    (hk : k = .leftParen) : 0 < opens x := by
  cases h with
  | word =>
    rcases Lexeme.ofWord_mem literal with hm | hm
    all_goals
      rw [hk] at hm
      exact absurd hm (by decide)
  | symbol =>
    rw [hk]
    decide
  | number | quoted | unclosed | stray => exact absurd hk (by decide)

/-- A text has a parenthesis for each of its words that is one. -/
theorem Scans.openingWords_le {t rest : Text} {ws : List Word} (h : Scans t ws rest) :
    openingWords ws + opens rest ≤ opens t := by
  induction h with
  | done => simp
  | @gap b t _ _ _ _ ih =>
    exact Nat.le_trans ih (List.Sublist.count_le _ (List.sublist_cons_self b t))
  | @lexeme b t rest ws hb _ ih =>
    have hfront := Lexeme.read_isFrontOf hb t
    rw [hfront.text, opens_append, openingWords_cons]
    split
    · have hpos := hfront.spelled.opens_pos ‹_›
      omega
    · omega

/-! ## Parentheses of layouts -/

namespace Expr

/-- Where an expression stands adds at most one pair of parentheses. -/
theorem opens_layout_le (level k : Nat) (e : Expr) :
    opens (e.layout level k) ≤ opens (e.layout level Binding.lowest) + 1 := by
  rw [e.layout_at level k, parenthesized]
  split
  · rw [opens_append, opens_append]
    have hopen : opens ("(" : Text) = 1 := by decide
    have hclose : opens (")" : Text) = 0 := by decide
    omega
  · omega

/-- A place that asks for more adds parentheses and takes none away. -/
theorem opens_layout_mono (level : Nat) {j k : Nat} (h : j ≤ k) (e : Expr) :
    opens (e.layout level j) ≤ opens (e.layout level k) := by
  rw [e.layout_at level j, e.layout_at level k, parenthesized, parenthesized]
  by_cases hj : e.binding < j
  · have hk : e.binding < k := Nat.lt_of_lt_of_le hj h
    simp [hj, hk]
  · simp only [hj, decide_false, Bool.false_eq_true, if_false]
    split
    · simp only [opens_append]
      omega
    · exact Nat.le_refl _

end Expr

/-- The layout of the tree of a phrase opens at most `n` parentheses. -/
def OpensAtMost : (p : Phrase) → p.Tree → Nat → Prop
  | .expr layer, e, n => ∀ level, opens (e.layout level layer) ≤ n
  | .arguments, es, n => ∀ level, opens (Expr.layoutList level es) ≤ n
  | .moreArguments, es, n => ∀ level,
      opens ((es.map fun e => e.layout level Binding.lowest).flatMap commaBefore) ≤ n
  | .statement, s, n => ∀ level, opens (s.layout level) ≤ n
  | .statements, ss, n => ∀ level, opens (Stmt.layoutList level ss) ≤ n

namespace OpensAtMost

variable {layer n m : Nat} {e : Expr}

theorem mono {p : Phrase} {a : p.Tree} (h : OpensAtMost p a n) (hle : n ≤ m) :
    OpensAtMost p a m := by
  cases p with
  | expr | arguments | moreArguments | statement | statements =>
    exact fun level => Nat.le_trans (h level) hle

theorem lowest (h : OpensAtMost (.expr layer) e n) (hl : Binding.lowest ≤ layer) (level : Nat) :
    opens (e.layout level Binding.lowest) ≤ n :=
  Nat.le_trans (e.opens_layout_mono level hl) (h level)

/-- An expression that has no parentheses where its own operator is asked for. -/
theorem of_lowest (hl : layer ≤ e.binding)
    (h : ∀ level, opens (e.layout level Binding.lowest) ≤ n) : OpensAtMost (.expr layer) e n := by
  intro level
  rw [e.layout_at level layer, parenthesized, if_neg (by simpa using hl)]
  exact h level

theorem name {t : Text} (h : IsName t) : OpensAtMost (.expr 8) (.ident t) 0 :=
  of_lowest (Nat.le_refl 8) fun _ => Nat.le_of_eq (opens_name h)

theorem number {v : Int64} (h : 0 ≤ v.toInt) : OpensAtMost (.expr 8) (.int v) 0 := by
  have hb : (Expr.int v).binding = 8 := if_neg (Int.not_lt.mpr h)
  refine of_lowest (Nat.le_of_eq hb.symm) fun level => ?_
  have hlayout : (Expr.int v).layout level Binding.lowest = Text.ofInt v.toInt := by
    simp [Expr.layout, parenthesized, hb, Binding.lowest]
  rw [hlayout, opens_number h]

theorem bool (b : Bool) : OpensAtMost (.expr 8) (.bool b) 0 := by
  refine of_lowest (Nat.le_refl 8) fun level => ?_
  cases b with
  | true => exact (by decide : opens "true" ≤ 0)
  | false => exact (by decide : opens "false" ≤ 0)

theorem group (h : OpensAtMost (.expr 2) e n) : OpensAtMost (.expr 8) e (n + 1) := by
  intro level
  have hlow := h.lowest (by decide) level
  have hle := e.opens_layout_le level 8
  omega

theorem tighter (h : OpensAtMost (.expr (layer + 1)) e n) : OpensAtMost (.expr layer) e n :=
  fun level => Nat.le_trans (e.opens_layout_mono level (Nat.le_succ layer)) (h level)

/-! ## Blocks -/

theorem braces {ss : List Stmt} (h : OpensAtMost .statements ss n) (level : Nat) :
    opens (layoutBraces level ss (Stmt.layoutList (level + 1) ss)) ≤ n := by
  have hempty : opens ("\x7b\x7d" : Text) = 0 := by decide
  have hopen : opens ("\x7b\n" : Text) = 0 := by decide
  have hclose : opens ("\x7d" : Text) = 0 := by decide
  have hinner := h (level + 1)
  unfold layoutBraces
  split
  · omega
  · rw [opens_append, opens_append, opens_append, opens_indentation]
    omega

theorem ifThen {test : Expr} {yes : List Stmt} (ht : OpensAtMost (.expr 2) test n)
    (hy : OpensAtMost .statements yes m) :
    OpensAtMost (.expr 8) (.ifThen test yes) (n + m + 1) := by
  refine of_lowest (Nat.le_refl 8) fun level => ?_
  have hif : opens ("if (" : Text) = 1 := by decide
  have hclose : opens (") " : Text) = 0 := by decide
  have htest := ht.lowest (by decide) level
  have hyes := hy.braces level
  have hlayout : (Expr.ifThen test yes).layout level Binding.lowest =
      "if (" ++ test.layout level Binding.lowest ++ ") "
        ++ layoutBraces level yes (Stmt.layoutList (level + 1) yes) := rfl
  rw [hlayout, opens_append, opens_append, opens_append]
  omega

theorem ifElse {test : Expr} {yes no : List Stmt} {k : Nat} (ht : OpensAtMost (.expr 2) test n)
    (hy : OpensAtMost .statements yes m) (hn : OpensAtMost .statements no k) :
    OpensAtMost (.expr 8) (.ifElse test yes no) (n + m + k + 1) := by
  refine of_lowest (Nat.le_refl 8) fun level => ?_
  have helse : opens (" else " : Text) = 0 := by decide
  have hyes := ht.ifThen hy level
  have hno := hn.braces level
  have hlayout : (Expr.ifElse test yes no).layout level Binding.lowest =
      (Expr.ifThen test yes).layout level 8 ++ " else " ++
        layoutBraces level no (Stmt.layoutList (level + 1) no) := rfl
  rw [hlayout, opens_append, opens_append]
  omega

theorem fn {params : List Text} {body : List Stmt} (hp : ∀ name ∈ params, IsName name)
    (hb : OpensAtMost .statements body n) : OpensAtMost (.expr 8) (.fn params body) (n + 1) := by
  refine of_lowest (Nat.le_refl 8) fun level => ?_
  have hfn : opens ("fn(" : Text) = 1 := by decide
  have hclose : opens (") " : Text) = 0 := by decide
  have hbody := hb.braces level
  have hlayout : (Expr.fn params body).layout level Binding.lowest =
      "fn(" ++ Text.join ", " params ++ ") "
        ++ layoutBraces level body (Stmt.layoutList (level + 1) body) := rfl
  rw [hlayout, opens_append, opens_append, opens_append, opens_names hp]
  omega

/-! ## Operators -/

theorem unary {w : Word} (hw : Lexical w) (hk : w.kind = .bang ∨ w.kind = .minus)
    (h : OpensAtMost (.expr 6) e n) : OpensAtMost (.expr 6) (.unary w.literal e) n := by
  refine of_lowest (Nat.le_refl 6) fun level => ?_
  have hop : opens w.literal = 0 := by
    rw [hw.isSymbol (signOperators_subset (mem_signOperators.mpr hk))]
    rcases hk with hk | hk
    all_goals
      rw [hk]
      decide
  have hlayout : (Expr.unary w.literal e).layout level Binding.lowest =
      w.literal ++ e.layout level 6 := rfl
  rw [hlayout, opens_append, hop, Nat.zero_add]
  exact h level

theorem binary {w : Word} {l r : Expr} (hw : Lexical w) (hk : w.kind ∈ layerOperators layer)
    (hl : OpensAtMost (.expr layer) l n) (hr : OpensAtMost (.expr (layer + 1)) r m) :
    OpensAtMost (.expr layer) (.binary w.literal l r) (n + m) := by
  obtain ⟨hbind, h2, -⟩ := binding_of_mem_layerOperators hk
  obtain ⟨hsymbol, hname⟩ := LaidOut.ofName_operator hk
  have hlit := hw.isSymbol hsymbol
  have hstrength : (TokenKind.ofName w.literal).binding = layer := by rw [hlit, hname, hbind]
  have hop : opens w.literal = 0 := by
    rw [hlit]
    have hnames : ∀ k ∈ middleOperators, opens k.name = 0 := by decide
    exact hnames _ (mem_middleOperators.mpr ⟨layer, hk⟩)
  have hspace : opens (" " : Text) = 0 := by decide
  refine of_lowest (Nat.le_of_eq hstrength.symm) fun level => ?_
  have hlow : ¬ layer < Binding.lowest := Nat.not_lt.mpr (Nat.le_of_succ_le h2)
  have hlayout : (Expr.binary w.literal l r).layout level Binding.lowest =
      l.layout level layer ++ " " ++ w.literal ++ " " ++ r.layout level (layer + 1) := by
    have hb : (Expr.binary w.literal l r).binding = layer := hstrength
    simp only [Expr.layout, hb, hstrength, parenthesized, decide_eq_true_eq, if_neg hlow]
  have hleft := hl level
  have hright := hr level
  rw [hlayout]
  simp only [opens_append]
  omega

theorem call {f : Expr} {args : List Expr} (hf : OpensAtMost (.expr 7) f n)
    (ha : OpensAtMost .arguments args m) :
    OpensAtMost (.expr 7) (.call f args) (n + m + 1) := by
  refine of_lowest (Nat.le_refl 7) fun level => ?_
  have hopen : opens ("(" : Text) = 1 := by decide
  have hclose : opens (")" : Text) = 0 := by decide
  have hcallee := hf level
  have hargs := ha level
  have hlayout : (Expr.call f args).layout level Binding.lowest =
      f.layout level 7 ++ "(" ++ Expr.layoutList level args ++ ")" := rfl
  rw [hlayout, opens_append, opens_append, opens_append]
  omega

theorem nextArgument {es : List Expr} (he : OpensAtMost (.expr 2) e n)
    (hm : OpensAtMost .moreArguments es m) : OpensAtMost .moreArguments (e :: es) (n + m) := by
  intro level
  have hcomma : opens (", " : Text) = 0 := by decide
  have hfirst := he.lowest (by decide) level
  have hothers := hm level
  rw [List.map_cons, List.flatMap_cons, commaBefore, opens_append, opens_append]
  omega

theorem someArguments {es : List Expr} (he : OpensAtMost (.expr 2) e n)
    (hm : OpensAtMost .moreArguments es m) : OpensAtMost .arguments (e :: es) (n + m) := by
  intro level
  have hfirst := he.lowest (by decide) level
  have hothers := hm level
  rw [layoutList_eq_join, List.map_cons, join_cons, opens_append]
  omega

/-! ## Statements -/

/-- A text without parentheses in front of an expression makes a statement. -/
theorem line {s : Stmt} {t : Text} (ht : opens t = 0) (h : OpensAtMost (.expr 2) e n)
    (hs : ∀ level, s.layout level =
      indentation level ++ (t ++ e.layout level Binding.lowest) ++ ";\n") :
    OpensAtMost .statement s n := by
  intro level
  have hend : opens (";\n" : Text) = 0 := by decide
  have hvalue := h.lowest (by decide) level
  rw [hs level, opens_append, opens_append, opens_append, opens_indentation, ht]
  omega

theorem bind {t : Text} (ht : IsName t) (h : OpensAtMost (.expr 2) e n) :
    OpensAtMost .statement (.bind (some t) e) n := by
  refine line (t := "let " ++ t ++ " = ") ?_ h fun _ => rfl
  rw [opens_append, opens_append, opens_name ht]
  decide

theorem cons {s : Stmt} {ss : List Stmt} (hs : OpensAtMost .statement s n)
    (hm : OpensAtMost .statements ss m) : OpensAtMost .statements (s :: ss) (n + m) := by
  intro level
  have hfirst := hs level
  have hothers := hm level
  rw [Stmt.layoutList, opens_append]
  omega

end OpensAtMost

/-- The layout of a tree opens at most as many parentheses as any words with that tree. -/
theorem Derives.opensAtMost {seam : Seam} {p : Phrase} {ws : List Word} {a : p.Tree} {d : Nat}
    (h : Derives seam p ws a d) (hw : ∀ w ∈ ws, Lexical w) : OpensAtMost p a (openingWords ws) := by
  induction h with
  | ident hk => exact (OpensAtMost.name ((hw _ List.mem_cons_self).isName hk)).mono (Nat.zero_le _)
  | int hk hv =>
    obtain ⟨hne, hdigits⟩ := (hw _ List.mem_cons_self).isNumber hk
    exact (OpensAtMost.number (Text.toInt_nonneg_of_isDigit hne hdigits hv)).mono (Nat.zero_le _)
  | yes => exact (OpensAtMost.bool true).mono (Nat.zero_le _)
  | no => exact (OpensAtMost.bool false).mono (Nat.zero_le _)
  | group hl _ _ ih =>
    -- The group pays for the parentheses that the place of its expression may ask for.
    exact (ih fun w hm => hw w (by simp [hm])).group.mono (by simp [hl])
  | ifThen _ hl _ _ _ _ _ iht ihy =>
    refine OpensAtMost.mono (.ifThen (iht fun w hm => hw w (by simp [hm]))
      (ihy fun w hm => hw w (by simp [hm]))) ?_
    simp only [List.cons_append, openingWords_append, openingWords_cons, hl, if_true]
    omega
  | ifElse _ hl _ _ _ _ _ _ _ _ _ iht ihy ihn =>
    refine OpensAtMost.mono (.ifElse (iht fun w hm => hw w (by simp [hm]))
      (ihy fun w hm => hw w (by simp [hm])) (ihn fun w hm => hw w (by simp [hm]))) ?_
    simp only [List.cons_append, openingWords_append, openingWords_cons, hl, if_true]
    omega
  | fn _ hl hp _ _ _ _ ih =>
    refine OpensAtMost.mono (.fn (hp.isName fun w hm => hw w (by simp [hm]))
      (ih fun w hm => hw w (by simp [hm]))) ?_
    simp only [List.cons_append, openingWords_append, openingWords_cons, hl, if_true]
    omega
  | call _ hl _ _ ihf iha =>
    refine OpensAtMost.mono (.call (ihf fun w hm => hw w (by simp [hm]))
      (iha fun w hm => hw w (by simp [hm]))) ?_
    simp only [openingWords_append, openingWords_cons, hl, if_true]
    omega
  | unary hk _ ih =>
    refine OpensAtMost.mono (.unary (hw _ List.mem_cons_self) hk
      (ih fun w hm => hw w (by simp [hm]))) ?_
    simp
  | binary _ hk _ ihl ihr =>
    refine OpensAtMost.mono (.binary (hw _ (by simp)) hk (ihl fun w hm => hw w (by simp [hm]))
      (ihr fun w hm => hw w (by simp [hm]))) ?_
    simp
  | tighter _ ih => exact (ih hw).tighter
  | noArguments | lastArgument | nil => exact fun _ => Nat.le_refl 0
  | someArguments _ _ ihe ihm =>
    refine OpensAtMost.mono (.someArguments (ihe fun w hm => hw w (by simp [hm]))
      (ihm fun w hm => hw w (by simp [hm]))) ?_
    simp
  | nextArgument _ _ _ ihe ihm =>
    refine OpensAtMost.mono (.nextArgument (ihe fun w hm => hw w (by simp [hm]))
      (ihm fun w hm => hw w (by simp [hm]))) ?_
    simp
  | bind _ hn _ _ ih =>
    refine OpensAtMost.mono (.bind ((hw _ (by simp)).isName hn)
      (ih fun w hm => hw w (by simp [hm]))) ?_
    simp only [openingWords_cons]
    omega
  | ret _ _ ih =>
    refine OpensAtMost.mono (.line (t := "return ") (by decide)
      (ih fun w hm => hw w (by simp [hm])) fun _ => rfl) ?_
    simp
  | expr _ ih => exact .line (t := []) rfl (ih hw) fun _ => rfl
  | closed _ _ _ ihs ihm | opened _ _ _ ihs ihm =>
    refine OpensAtMost.mono (.cons (ihs fun w hm => hw w (by simp [hm]))
      (ihm fun w hm => hw w (by simp [hm]))) ?_
    simp

/-! ## Layouts -/

/-- No text has fewer parentheses than the layout of its program, whatever is wrong with it. -/
theorem opens_layout_ofText (t : Text) : opens (Program.ofText t).program.layout ≤ opens t := by
  obtain ⟨ws, hs, hw⟩ := exists_scans t
  obtain ⟨ts, hg, rfl⟩ := Lexer.gives_of_scans hs rfl Position.start
  obtain ⟨vs, d, hv, hder⟩ := ofSource_derives_some hg
  have hlayout := hder.opensAtMost (fun w hm => hw w (hv.subset hm)) 0
  have hwords : openingWords vs ≤ openingWords (ts.map Token.word) := hv.countP_le
  have htext := hs.openingWords_le
  have hread : Program.ofText t = Program.ofSource (⟨Position.start, t⟩ : Lexer) := rfl
  rw [hread, Program.layout]
  omega

/-- No pair of parentheses can be left out of the layout of a program: neither one that groups an
operand nor any other. The text without it may be read or not, but not as that program. -/
theorem a_layout_needs_its_parentheses (p : Program) (before inside after : Text)
    (h : p.layout = before ++ "(" ++ inside ++ ")" ++ after) :
    (Program.ofText (before ++ inside ++ after)).program ≠ p := by
  intro hp
  have hle := opens_layout_ofText (before ++ inside ++ after)
  have hopen : opens ("(" : Text) = 1 := by decide
  rw [hp, h] at hle
  simp only [opens_append] at hle
  omega

/-- Groups in front of a sign, beside a product and inside one another. -/
def nestedGroups : Program := (Program.ofText "f(-(a + b) * ((c) - ((d - e))))").program

theorem nestedGroups_need_their_parentheses :
    nestedGroups.layout = "f(-(a + b) * (c - " ++ "(" ++ "d - e" ++ ")" ++ "));\n" ∧
    (Program.ofText ("f(-(a + b) * (c - " ++ "d - e" ++ "));\n")).program ≠ nestedGroups := by
  have h : nestedGroups.layout = "f(-(a + b) * (c - " ++ "(" ++ "d - e" ++ ")" ++ "));\n" := by
    decide +kernel
  exact ⟨h, a_layout_needs_its_parentheses nestedGroups _ _ _ h⟩

end Borealis
