-- The grammar as it is written down for its users, over kinds of words. It
-- does not say how operators group, and the semicolon behind a statement may
-- be left out, so that many programs can be taken apart in several ways. The
-- rules always take the longest expression; that never leads them astray.
import Borealis.Proofs.Completeness
import Borealis.Proofs.Grouping
import Mathlib.Data.List.TakeWhile

namespace Borealis

/-! ## The grammar -/

/-- The operators that stand between two expressions. -/
def infixOperators : List TokenKind :=
  [.plus, .minus, .asterisk, .slash, .less, .greater, .equal, .notEqual]

/-- The symbols of the written grammar. Lists with commas have a symbol for the part behind the
first item. -/
inductive Symbol where
  | expression | arguments | moreArguments | names | moreNames | block | statement | program

/-- The kinds of words are what the symbol stands for. -/
inductive Written : Symbol → List TokenKind → Prop where
  | number : Written .expression [.int]
  | yes : Written .expression [.trueWord]
  | no : Written .expression [.falseWord]
  | name : Written .expression [.ident]
  | before {k : TokenKind} {xs : List TokenKind} : k = .bang ∨ k = .minus →
      Written .expression xs → Written .expression (k :: xs)
  | between {k : TokenKind} {xs ys : List TokenKind} : Written .expression xs →
      k ∈ infixOperators → Written .expression ys → Written .expression (xs ++ k :: ys)
  | grouped {xs : List TokenKind} : Written .expression xs →
      Written .expression (.leftParen :: xs ++ [.rightParen])
  | ifThen {ts ys : List TokenKind} : Written .expression ts → Written .block ys →
      Written .expression (.ifWord :: .leftParen :: ts ++ .rightParen :: ys)
  | ifElse {ts ys ns : List TokenKind} : Written .expression ts → Written .block ys →
      Written .block ns →
      Written .expression (.ifWord :: .leftParen :: ts ++ .rightParen :: ys ++ .elseWord :: ns)
  | function {ps bs : List TokenKind} : Written .names ps → Written .block bs →
      Written .expression (.functionWord :: .leftParen :: ps ++ .rightParen :: bs)
  | call {fs as : List TokenKind} : Written .expression fs → Written .arguments as →
      Written .expression (fs ++ .leftParen :: as ++ [.rightParen])
  | noArguments : Written .arguments []
  | someArguments {xs ys : List TokenKind} : Written .expression xs → Written .moreArguments ys →
      Written .arguments (xs ++ ys)
  | lastArgument : Written .moreArguments []
  | nextArgument {xs ys : List TokenKind} : Written .expression xs → Written .moreArguments ys →
      Written .moreArguments (.comma :: xs ++ ys)
  | noNames : Written .names []
  | someNames {ks : List TokenKind} : Written .moreNames ks → Written .names (.ident :: ks)
  | lastName : Written .moreNames []
  | nextName {ks : List TokenKind} : Written .moreNames ks →
      Written .moreNames (.comma :: .ident :: ks)
  | block {xs : List TokenKind} : Written .program xs →
      Written .block (.leftBrace :: xs ++ [.rightBrace])
  | bind {xs tail : List TokenKind} : Written .expression xs → tail = [] ∨ tail = [.semicolon] →
      Written .statement (.letWord :: .ident :: .assign :: xs ++ tail)
  | ret {xs tail : List TokenKind} : Written .expression xs → tail = [] ∨ tail = [.semicolon] →
      Written .statement (.returnWord :: xs ++ tail)
  | expr {xs tail : List TokenKind} : Written .expression xs → tail = [] ∨ tail = [.semicolon] →
      Written .statement (xs ++ tail)
  | empty : Written .program []
  | cons {xs ys : List TokenKind} : Written .statement xs → Written .program ys →
      Written .program (xs ++ ys)

/-! ## Words of given kinds -/

/-- The words are of these kinds, and each number is one of 64 bits. -/
structure Spells (ks : List TokenKind) (ws : List Word) : Prop where
  kinds : ws.map Word.kind = ks
  numbers : ∀ w ∈ ws, w.kind = .int → ∃ v, w.literal.toInt64 = .ok v

namespace Spells

theorem nil {ws : List Word} (h : Spells [] ws) : ws = [] := List.map_eq_nil_iff.mp h.kinds

theorem cons {k : TokenKind} {ks : List TokenKind} {ws : List Word} (h : Spells (k :: ks) ws) :
    ∃ w vs, ws = w :: vs ∧ w.kind = k ∧ Spells ks vs := by
  obtain ⟨w, vs, rfl, hw, hv⟩ := List.map_eq_cons_iff.mp h.kinds
  exact ⟨w, vs, rfl, hw, hv, fun v hm => h.numbers v (List.mem_cons_of_mem w hm)⟩

theorem append {xs ys : List TokenKind} {ws : List Word} (h : Spells (xs ++ ys) ws) :
    ∃ us vs, ws = us ++ vs ∧ Spells xs us ∧ Spells ys vs := by
  obtain ⟨us, vs, rfl, hu, hv⟩ := List.map_eq_append_iff.mp h.kinds
  exact ⟨us, vs, rfl, ⟨hu, fun w hm => h.numbers w (List.mem_append_left vs hm)⟩,
    ⟨hv, fun w hm => h.numbers w (List.mem_append_right us hm)⟩⟩

theorem single {k : TokenKind} {ws : List Word} (h : Spells [k] ws) :
    ∃ w, ws = [w] ∧ w.kind = k := by
  obtain ⟨w, vs, rfl, hw, hv⟩ := h.cons
  exact ⟨w, by rw [hv.nil], hw⟩

end Spells

/-! ## Statements -/

/-- The words in front of the expression of a statement: none, a `return`, or the start of a
binding. -/
def StartsStatement (pre : List Word) : Prop :=
  ∀ xs, Derivable (.expr 2) xs → Derivable .statement (pre ++ xs)

theorem startsStatement_bind {w name eq : Word} (hw : w.kind = .letWord)
    (hn : name.kind = .ident) (he : eq.kind = .assign) : StartsStatement [w, name, eq] := by
  rintro xs ⟨e, d, h⟩
  exact ⟨_, _, .bind hw hn he h⟩

theorem startsStatement_ret {w : Word} (hw : w.kind = .returnWord) : StartsStatement [w] := by
  rintro xs ⟨e, d, h⟩
  exact ⟨_, _, .ret hw h⟩

theorem startsStatement_nil : StartsStatement [] := by
  rintro xs ⟨e, d, h⟩
  exact ⟨_, _, .expr h⟩

/-- Of the words that start a statement, two could also go on with an expression. -/
theorem start_is_operator : ∀ k ∈ statementStarts, ¬ k.binding ≤ Binding.lowest →
    k = .minus ∨ k = .leftParen := by decide

/-- Statements that start with such a word start with an expression. -/
theorem Derivable.first_expression {vs : List Word} (h : Derivable .statements vs)
    (hf : front vs = .minus ∨ front vs = .leftParen) :
    ∃ ys us, vs = ys ++ us ∧ Derivable (.expr 2) ys ∧ front ys = front vs ∧
      ∀ ws, Derivable .statement ws → Derivable .statements (ws ++ us) := by
  have hexpr : ∀ {ys us : List Word} {s : Stmt} {d : Nat}, Derives .firm .statement ys s d →
      (front (ys ++ us) = .minus ∨ front (ys ++ us) = .leftParen) →
      Derivable (.expr 2) ys ∧ front ys = front (ys ++ us) := by
    intro ys us s d hs hf
    have hfront := front_append (hs.full trivial).1 us
    cases hs with
    | expr he => exact ⟨⟨_, _, he⟩, hfront.symm⟩
    | bind hk | ret hk =>
      rw [hfront, front_cons, hk] at hf
      exact absurd hf (by decide)
  obtain ⟨ss, d, h⟩ := h
  cases h with
  | nil => exact absurd hf (by decide)
  | closed hs hw hm =>
    obtain ⟨he, hfront⟩ := hexpr hs hf
    refine ⟨_, _, rfl, he, hfront, ?_⟩
    rintro ws ⟨s, d, hs⟩
    exact ⟨_, _, .closed hs hw hm⟩
  | opened hs ha hm =>
    obtain ⟨he, hfront⟩ := hexpr hs hf
    refine ⟨_, _, rfl, he, hfront, ?_⟩
    rintro ws ⟨s, d, hs⟩
    exact ⟨_, _, .opened hs ha hm⟩

/-- A statement without a semicolon in front of statements. Where the first of them could go on
with its expression, the two are one. -/
theorem StartsStatement.opened {pre xs vs : List Word} (hp : StartsStatement pre)
    (hx : Derivable (.expr 2) xs) (hv : Derivable .statements vs) :
    Derivable .statements (pre ++ xs ++ vs) := by
  by_cases ha : Seam.firm.Allows (front vs)
  · obtain ⟨s, d, hs⟩ := hp xs hx
    obtain ⟨ss, m, hm⟩ := hv
    exact ⟨_, _, .opened hs ha hm⟩
  · have hstart : front vs ∈ statementStarts := by
      obtain ⟨ss, m, hm⟩ := hv
      rcases hm.front_statements with rfl | hstart
      · exact absurd (Nat.le_refl 1) ha
      · exact hstart
    have hf := start_is_operator _ hstart ha
    obtain ⟨ys, us, rfl, hy, hfront, hput⟩ := hv.first_expression hf
    rw [← hfront] at hf
    have hall := hput _ (hp _ (hx.beside hy hf))
    simpa using hall

theorem StartsStatement.closed {pre xs vs : List Word} {w : Word} (hp : StartsStatement pre)
    (hx : Derivable (.expr 2) xs) (hw : w.kind = .semicolon) (hv : Derivable .statements vs) :
    Derivable .statements (pre ++ xs ++ w :: vs) := by
  obtain ⟨s, d, hs⟩ := hp xs hx
  obtain ⟨ss, m, hm⟩ := hv
  exact ⟨_, _, .closed hs hw hm⟩

theorem StartsStatement.ended {pre xs us vs : List Word} {tail : List TokenKind}
    (hp : StartsStatement pre) (hx : Derivable (.expr 2) xs)
    (ht : tail = [] ∨ tail = [.semicolon]) (hu : Spells tail us)
    (hv : Derivable .statements vs) : Derivable .statements (pre ++ xs ++ us ++ vs) := by
  rcases ht with rfl | rfl
  · rw [hu.nil, List.append_nil]
    exact hp.opened hx hv
  · obtain ⟨w, rfl, hw⟩ := hu.single
    have hall := hp.closed hx hw hv
    simpa using hall

/-! ## From the written grammar to the layers -/

/-- What words of a symbol are for the layers. A statement can be put in front of statements. -/
def Symbol.Meaning : Symbol → List Word → Prop
  | expression, ws => Derivable (.expr 2) ws
  | arguments, ws => Derivable .arguments ws
  | moreArguments, ws => Derivable .moreArguments ws
  | names, ws => ∃ ps, Parameters ws ps
  | moreNames, ws => ∃ ps, MoreParameters ws ps
  | block, ws => ∃ b ys z, ws = b :: ys ++ [z] ∧ b.kind = .leftBrace ∧ Derivable .statements ys ∧
      z.kind = .rightBrace
  | statement, ws => ∀ vs, Derivable .statements vs → Derivable .statements (ws ++ vs)
  | program, ws => Derivable .statements ws

theorem layer_of_infixOperator : ∀ k ∈ infixOperators, k ∈ layerOperators k.binding := by decide

theorem Derivable.atom {ws : List Word} {e : Expr} {d : Nat} (h : Derives .firm (.expr 8) ws e d) :
    Derivable (.expr 2) ws := ⟨e, d, h.down (by decide)⟩

namespace Written

/-- Whatever way words are taken apart by the written grammar, the layers have a way too. -/
theorem meaning {c : Symbol} {ks : List TokenKind} (h : Written c ks) {ws : List Word}
    (hs : Spells ks ws) : c.Meaning ws := by
  induction h generalizing ws with
  | number =>
    obtain ⟨w, rfl, hw⟩ := hs.single
    obtain ⟨v, hv⟩ := hs.numbers w (List.mem_singleton_self w) hw
    exact .atom (.int hw hv)
  | yes =>
    obtain ⟨w, rfl, hw⟩ := hs.single
    exact .atom (.yes hw)
  | no =>
    obtain ⟨w, rfl, hw⟩ := hs.single
    exact .atom (.no hw)
  | name =>
    obtain ⟨w, rfl, hw⟩ := hs.single
    exact .atom (.ident hw)
  | before hk _ ih =>
    obtain ⟨w, vs, rfl, hw, hv⟩ := hs.cons
    rw [← hw] at hk
    exact (ih hv).negated hk
  | between _ hk _ ihx ihy =>
    obtain ⟨us, vs, rfl, hu, hv⟩ := hs.append
    obtain ⟨w, vs, rfl, hw, hv⟩ := hv.cons
    have hl := layer_of_infixOperator _ hk
    rw [← hw] at hl
    exact (ihx hu).between hl (ihy hv)
  | grouped _ ih =>
    obtain ⟨l, vs, rfl, hl, hv⟩ := hs.cons
    obtain ⟨us, vs, rfl, hu, hv⟩ := hv.append
    obtain ⟨r, rfl, hr⟩ := hv.single
    obtain ⟨e, d, he⟩ := ih hu
    exact .atom (.group hl he hr)
  | ifThen _ _ iht ihy =>
    obtain ⟨i, vs, rfl, hi, hv⟩ := hs.cons
    obtain ⟨l, vs, rfl, hl, hv⟩ := hv.cons
    obtain ⟨ts, vs, rfl, ht, hv⟩ := hv.append
    obtain ⟨r, vs, rfl, hr, hv⟩ := hv.cons
    obtain ⟨e, d, he⟩ := iht ht
    obtain ⟨b, ys, z, rfl, hb, ⟨ss, m, hm⟩, hz⟩ := ihy hv
    exact .atom (by simpa using Derives.ifThen hi hl he hr hb hm hz)
  | ifElse _ _ _ iht ihy ihn =>
    obtain ⟨us, vs, rfl, hu, hv⟩ := hs.append
    obtain ⟨i, us, rfl, hi, hu⟩ := hu.cons
    obtain ⟨l, us, rfl, hl, hu⟩ := hu.cons
    obtain ⟨ts, us, rfl, ht, hu⟩ := hu.append
    obtain ⟨r, us, rfl, hr, hu⟩ := hu.cons
    obtain ⟨o, vs, rfl, ho, hv⟩ := hv.cons
    obtain ⟨e, d, he⟩ := iht ht
    obtain ⟨b, ys, z, rfl, hb, ⟨ss, m, hm⟩, hz⟩ := ihy hu
    obtain ⟨q, ns, y, rfl, hq, ⟨no, k, hn⟩, hy⟩ := ihn hv
    exact .atom (by simpa using Derives.ifElse hi hl he hr hb hm hz ho hq hn hy)
  | function _ _ ihp ihb =>
    obtain ⟨f, vs, rfl, hf, hv⟩ := hs.cons
    obtain ⟨l, vs, rfl, hl, hv⟩ := hv.cons
    obtain ⟨ps, vs, rfl, hp, hv⟩ := hv.append
    obtain ⟨r, vs, rfl, hr, hv⟩ := hv.cons
    obtain ⟨names, hnames⟩ := ihp hp
    obtain ⟨b, bs, z, rfl, hb, ⟨body, m, hm⟩, hz⟩ := ihb hv
    exact .atom (by simpa using Derives.fn hf hl hnames hr hb hm hz)
  | call _ _ ihf iha =>
    obtain ⟨us, vs, rfl, hu, hv⟩ := hs.append
    obtain ⟨fs, us, rfl, hfs, hu⟩ := hu.append
    obtain ⟨l, as, rfl, hl, ha⟩ := hu.cons
    obtain ⟨r, rfl, hr⟩ := hv.single
    exact (ihf hfs).called (by decide) hl (iha ha) hr
  | noArguments =>
    rw [hs.nil]
    exact ⟨_, _, .noArguments⟩
  | someArguments _ _ ihx ihy =>
    obtain ⟨us, vs, rfl, hu, hv⟩ := hs.append
    obtain ⟨e, d, he⟩ := ihx hu
    obtain ⟨es, m, hm⟩ := ihy hv
    exact ⟨_, _, .someArguments he hm⟩
  | lastArgument =>
    rw [hs.nil]
    exact ⟨_, _, .lastArgument⟩
  | nextArgument _ _ ihx ihy =>
    obtain ⟨w, vs, rfl, hw, hv⟩ := hs.cons
    obtain ⟨us, vs, rfl, hu, hv⟩ := hv.append
    obtain ⟨e, d, he⟩ := ihx hu
    obtain ⟨es, m, hm⟩ := ihy hv
    exact ⟨_, _, .nextArgument hw he hm⟩
  | noNames =>
    rw [hs.nil]
    exact ⟨_, .none⟩
  | someNames _ ih =>
    obtain ⟨w, vs, rfl, hw, hv⟩ := hs.cons
    obtain ⟨ps, hp⟩ := ih hv
    exact ⟨_, .some hw hp⟩
  | lastName =>
    rw [hs.nil]
    exact ⟨_, .last⟩
  | nextName _ ih =>
    obtain ⟨c, vs, rfl, hc, hv⟩ := hs.cons
    obtain ⟨w, vs, rfl, hw, hv⟩ := hv.cons
    obtain ⟨ps, hp⟩ := ih hv
    exact ⟨_, .next hc hw hp⟩
  | block _ ih =>
    obtain ⟨b, vs, rfl, hb, hv⟩ := hs.cons
    obtain ⟨us, vs, rfl, hu, hv⟩ := hv.append
    obtain ⟨z, rfl, hz⟩ := hv.single
    exact ⟨b, us, z, rfl, hb, ih hu, hz⟩
  | bind _ ht ih =>
    obtain ⟨w, vs, rfl, hw, hv⟩ := hs.cons
    obtain ⟨n, vs, rfl, hn, hv⟩ := hv.cons
    obtain ⟨eq, vs, rfl, he, hv⟩ := hv.cons
    obtain ⟨us, vs, rfl, hu, hv⟩ := hv.append
    intro rest hrest
    have hall := (startsStatement_bind hw hn he).ended (ih hu) ht hv hrest
    simpa using hall
  | ret _ ht ih =>
    obtain ⟨w, vs, rfl, hw, hv⟩ := hs.cons
    obtain ⟨us, vs, rfl, hu, hv⟩ := hv.append
    intro rest hrest
    have hall := (startsStatement_ret hw).ended (ih hu) ht hv hrest
    simpa using hall
  | expr _ ht ih =>
    obtain ⟨us, vs, rfl, hu, hv⟩ := hs.append
    intro rest hrest
    exact startsStatement_nil.ended (ih hu) ht hv hrest
  | empty =>
    rw [hs.nil]
    exact ⟨_, _, .nil⟩
  | cons _ _ ihs ihp =>
    obtain ⟨us, vs, rfl, hu, hv⟩ := hs.append
    exact ihs hu vs (ihp hv)

end Written

/-- Reading a program of the written grammar finds nothing wrong with it, or that its expressions
nest too deeply, and nothing else. -/
theorem written_programs_are_read (ts : List Token) (hend : ∀ t ∈ ts, t.kind ≠ .eof)
    (hw : Written .program (ts.map Token.kind))
    (hn : ∀ t ∈ ts, t.kind = .int → ∃ v, t.literal.toInt64 = .ok v) :
    (Program.ofTokens ts).diagnostics = [] ∨
      ∃ x, (Program.ofTokens ts).diagnostics = [x] ∧
        x.message = "expression nested deeper than 1000 levels" := by
  have hs : Spells (ts.map Token.kind) (ts.map Token.word) := by
    refine ⟨by simp [Function.comp_def], fun w hm hk => ?_⟩
    obtain ⟨t, ht, rfl⟩ := List.mem_map.mp hm
    exact hn t ht hk
  obtain ⟨ss, d, h⟩ : Derivable .statements (ts.map Token.word) := hw.meaning hs
  have hg := TokenList.gives ts Position.unset
  rw [List.takeWhile_eq_self_iff.mpr (by simpa using hend)] at hg
  obtain ⟨hread, hgave⟩ := ofSource_of_derives hg h
  by_cases hd : d ≤ maxNesting
  · left
    exact congrArg Reading.diagnostics (hread hd)
  · right
    obtain ⟨t, ht⟩ := hgave hd
    have hmessage : Complaint.tooDeep.message = "expression nested deeper than 1000 levels" := by
      decide
    exact ⟨_, ht, hmessage⟩

/-- The tokens of `1 -2 (x)`, which may be one statement, two or three. -/
def sideBySide : List Token :=
  [⟨.int, "1", ⟨1, 1⟩⟩, ⟨.minus, "-", ⟨1, 3⟩⟩, ⟨.int, "2", ⟨1, 4⟩⟩, ⟨.leftParen, "(", ⟨1, 6⟩⟩,
    ⟨.ident, "x", ⟨1, 7⟩⟩, ⟨.rightParen, ")", ⟨1, 8⟩⟩]

theorem sideBySide_is_read :
    Written .program (sideBySide.map Token.kind) ∧
    ((Program.ofTokens sideBySide).diagnostics = [] ∨
      ∃ x, (Program.ofTokens sideBySide).diagnostics = [x] ∧
        x.message = "expression nested deeper than 1000 levels") := by
  have first : Written .statement [.int] := .expr .number (Or.inl rfl)
  have second : Written .statement [.minus, .int] := .expr (.before (Or.inr rfl) .number) (Or.inl rfl)
  have third : Written .statement [.leftParen, .ident, .rightParen] :=
    .expr (.grouped .name) (Or.inl rfl)
  have hw : Written .program (sideBySide.map Token.kind) :=
    .cons first (.cons second (.cons third .empty))
  refine ⟨hw, written_programs_are_read sideBySide (by decide) hw ?_⟩
  intro t ht hk
  simp only [sideBySide, List.mem_cons, List.not_mem_nil, or_false] at ht
  rcases ht with rfl | rfl | rfl | rfl | rfl | rfl
  · exact ⟨1, by decide⟩
  · exact absurd hk (by decide)
  · exact ⟨2, by decide⟩
  all_goals exact absurd hk (by decide)

end Borealis
