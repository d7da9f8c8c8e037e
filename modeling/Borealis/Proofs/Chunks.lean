-- A program in several texts. Texts that end with a semicolon can be joined
-- line by line: the text is read to the statements of all of them, one after
-- the other. Running it does what running the texts in turn does, as long as
-- nothing stops a program before the last of them.
import Borealis.Proofs.Completeness
import Borealis.Proofs.Pieces
import Borealis.Proofs.Sessions
import Borealis.Proofs.Soundness

namespace Borealis

/-! ## Statements one after the other -/

/-- The kind of the last word, or of the end token if there is none. -/
def back (ws : List Word) : TokenKind := front ws.reverse

theorem back_concat (ws : List Word) (w : Word) : back (ws ++ [w]) = w.kind := by
  simp [back]

theorem back_append (xs : List Word) {ys : List Word} (h : ys ≠ []) :
    back (xs ++ ys) = back ys := by
  unfold back
  rw [List.reverse_append, front_append (by simpa using h)]

theorem back_cons (w : Word) {ws : List Word} (h : ws ≠ []) : back (w :: ws) = back ws :=
  back_append [w] h

namespace Derives

variable {seam : Seam}

/-- No statement ends with a semicolon: the one behind it is no part of it. -/
theorem back_ne_semicolon {n : Phrase} {ws : List Word} {a : n.Tree} {d : Nat}
    (h : Derives seam n ws a d) : n.IsFull → back ws ≠ .semicolon := by
  induction h with
  | ident hk | int hk | yes hk | no hk => simp [back, hk]
  | group _ _ hk | ifThen _ _ _ _ _ _ hk | ifElse _ _ _ _ _ _ _ _ _ _ hk | fn _ _ _ _ _ _ hk
  | call _ _ _ hk =>
    intro _
    rw [back_concat, hk]
    decide
  | unary _ he ih | ret _ he ih =>
    intro _
    rw [back_cons _ (he.full trivial).1]
    exact ih trivial
  | binary _ _ hr _ ihr =>
    intro _
    rw [back_append _ (List.cons_ne_nil _ _), back_cons _ (hr.full trivial).1]
    exact ihr trivial
  | bind _ _ _ he ih =>
    intro _
    have hne := (he.full trivial).1
    rw [back_cons _ (List.cons_ne_nil _ _), back_cons _ (List.cons_ne_nil _ _), back_cons _ hne]
    exact ih trivial
  | tighter _ ih => exact ih
  | expr _ ih => exact fun _ => ih trivial
  | noArguments | someArguments | lastArgument | nextArgument | nil | closed | opened =>
    exact fun hn => hn.elim

/-- What stands behind a semicolon is read by itself. -/
theorem append {xs ys : List Word} {ss ts : List Stmt} {d m : Nat}
    (h : Derives .firm .statements xs ss d) (hend : xs = [] ∨ back xs = .semicolon)
    (h' : Derives .firm .statements ys ts m) :
    Derives .firm .statements (xs ++ ys) (ss ++ ts) (max d m) := by
  induction ss generalizing xs d with
  | nil =>
    cases h
    rwa [Nat.zero_max]
  | cons s ss ih =>
    cases h with
    | @closed w ws vs _ _ d k hs hw hm =>
      have hvs : vs = [] ∨ back vs = .semicolon := by
        by_cases hnil : vs = []
        · exact Or.inl hnil
        · rw [back_append _ (List.cons_ne_nil _ _), back_cons _ hnil] at hend
          exact Or.inr (hend.resolve_left (by simp))
      rw [List.append_assoc, List.cons_append, List.cons_append, Nat.max_assoc]
      exact .closed hs hw (ih hm hvs)
    | @opened ws vs _ _ d k hs ha hm =>
      have hws := (hs.full trivial).1
      replace hend := hend.resolve_left (by simp [hws])
      by_cases hnil : vs = []
      · -- The last statement is not closed, so its own last word would be a semicolon.
        rw [hnil, List.append_nil] at hend
        exact absurd hend (hs.back_ne_semicolon trivial)
      · rw [back_append _ hnil] at hend
        rw [List.append_assoc, List.cons_append, Nat.max_assoc]
        refine .opened hs ?_ (ih hm (Or.inr hend))
        rwa [front_append hnil]

end Derives

/-! ## Texts one below the other -/

/-- The text has no token before its end token, or a semicolon is the last one. -/
def EndsClosed (t : Text) : Prop := ∀ token ∈ (lex t).dropLast.getLast?, token.kind = .semicolon

/-- The words of the text are these statements, and they do not nest too deeply. -/
def ReadsAs (t : Text) (ws : List Word) (ss : List Stmt) : Prop :=
  Scans t ws [] ∧ ∃ d ≤ maxNesting, Derives .firm .statements ws ss d

namespace ReadsAs

variable {t u : Text} {xs ys : List Word} {ss ts : List Stmt}

theorem ofText_eq (h : ReadsAs t xs ss) : Program.ofText t = ⟨⟨ss⟩, []⟩ := by
  obtain ⟨hscan, d, hd, hder⟩ := h
  obtain ⟨tokens, hgives, rfl⟩ := Lexer.gives_of_scans hscan rfl Position.start
  exact (ofSource_of_derives hgives hder).1 hd

/-- A text that is read without a complaint. -/
theorem of_ofText (h : (Program.ofText t).diagnostics = []) :
    ∃ xs, ReadsAs t xs (Program.ofText t).program.statements ∧
      (EndsClosed t → xs = [] ∨ back xs = .semicolon) := by
  obtain ⟨ps, tail, hcuts⟩ := Cuts.exist [] t
  have hstreams : TokenSource.Streams (Lexer.ofText t) _ _ := Lexer.streams_of_cuts hcuts
  obtain ⟨xs, hscan, -⟩ := exists_scans t
  obtain ⟨tokens, hgives, rfl⟩ := Lexer.gives_of_scans hscan rfl Position.start
  obtain ⟨d, hd, hder⟩ := ofSource_derives hgives h
  refine ⟨tokens.map Token.word, ⟨hscan, d, hd, hder⟩, fun hclosed => ?_⟩
  have hlex := lex_of_streams hstreams
  rw [← hgives.unique hstreams.gives] at hlex
  rw [EndsClosed, hlex, List.dropLast_concat] at hclosed
  rcases List.eq_nil_or_concat tokens with rfl | ⟨front, last, rfl⟩
  · exact Or.inl rfl
  · right
    rw [List.concat_eq_append, List.map_append, List.map_singleton, back_concat]
    exact hclosed last (by simp)

/-- A text that ends with a semicolon, and a text behind it on lines of its own. -/
theorem join (h : ReadsAs t xs ss) (hend : xs = [] ∨ back xs = .semicolon)
    (h' : ReadsAs u ys ts) : ReadsAs (t ++ lineBreak :: u) (xs ++ ys) (ss ++ ts) := by
  obtain ⟨hscan, d, hd, hder⟩ := h
  obtain ⟨hscan', m, hm, hder'⟩ := h'
  refine ⟨(hscan.before rfl hder.isPlain u).append hscan', max d m, by omega, ?_⟩
  exact hder.append hend hder'

end ReadsAs

/-- The statements of texts, one after the other. -/
def statementsOf (cs : List Text) : List Stmt :=
  cs.flatMap fun c => (Program.ofText c).program.statements

theorem ReadsAs.exists_join {cs : List Text} {last : Text}
    (hread : ∀ c ∈ cs ++ [last], (Program.ofText c).diagnostics = [])
    (hclosed : ∀ c ∈ cs, EndsClosed c) :
    ∃ ws, ReadsAs (Text.join "\n" (cs ++ [last])) ws (statementsOf (cs ++ [last])) := by
  induction cs with
  | nil =>
    obtain ⟨ws, h, -⟩ := of_ofText (hread last (by simp))
    exact ⟨ws, by simpa [statementsOf, Text.join] using h⟩
  | cons c cs ih =>
    rw [List.cons_append, List.forall_mem_cons] at hread
    rw [List.forall_mem_cons] at hclosed
    obtain ⟨xs, hc, hend⟩ := of_ofText hread.1
    obtain ⟨ys, hcs⟩ := ih hread.2 hclosed.2
    have htext : Text.join "\n" (c :: (cs ++ [last])) =
        c ++ lineBreak :: Text.join "\n" (cs ++ [last]) := by
      rw [Text.join]
      · rw [List.append_assoc]
        rfl
      · simp
    rw [List.cons_append, htext]
    exact ⟨xs ++ ys, hc.join (hend hclosed.1) hcs⟩

/-- Texts that are read without a complaint are read without one when they are joined, if all
but the last end with a semicolon. -/
theorem Program.ofText_join {cs : List Text} {last : Text}
    (hread : ∀ c ∈ cs ++ [last], (Program.ofText c).diagnostics = [])
    (hclosed : ∀ c ∈ cs, EndsClosed c) :
    Program.ofText (Text.join "\n" (cs ++ [last])) = ⟨⟨statementsOf (cs ++ [last])⟩, []⟩ := by
  obtain ⟨ws, h⟩ := ReadsAs.exists_join hread hclosed
  exact h.ofText_eq

/-! ## Running statements one after the other -/

section

variable {call : Caller} {scope : ScopeId} {s s' : Store} {v : Value}

/-- The value before the first statement does not count, if there is a statement. -/
theorem evalBlock_last {body : List Stmt} (h : body ≠ []) (v u : Value) :
    evalBlock call body scope v s = evalBlock call body scope u s := by
  cases body with
  | nil => exact absurd rfl h
  | cons st rest => rw [evalBlock, evalBlock]

theorem evalBlock_append (xs ys : List Stmt) (hv : v.isAbrupt = false) :
    evalBlock call (xs ++ ys) scope v s =
      (evalBlock call xs scope v s).andThen fun v s => evalBlock call ys scope v s := by
  induction xs generalizing v s with
  | nil =>
    rw [List.nil_append, evalBlock, Result.andThen, hv]
    rfl
  | cons x xs ih =>
    rw [List.cons_append, evalBlock, evalBlock]
    rcases hx : evalStmt call x scope s with ⟨r, s₁⟩
    cases r with
    | error e => rfl
    | ok u =>
      cases hu : u.isAbrupt with
      | true => simp [Result.andThen, hu]
      | false =>
        simp only [Result.andThen, hu]
        exact ih hu

/-- Statements that run to their end are followed by the others, whatever stood before them. -/
theorem evalBlock_append_of_ok {xs : List Stmt} (ys : List Stmt) {u : Value}
    (hx : evalBlock call xs scope .null s = (.ok u, s')) (hu : u.isAbrupt = false)
    (hv : v.isAbrupt = false) : ∃ u', u'.isAbrupt = false ∧
      evalBlock call (xs ++ ys) scope v s = evalBlock call ys scope u' s' := by
  rw [evalBlock_append xs ys hv]
  by_cases hnil : xs = []
  · subst hnil
    rw [evalBlock] at hx
    obtain ⟨-, rfl⟩ := Prod.mk.inj hx
    refine ⟨v, hv, ?_⟩
    simp [evalBlock, Result.andThen, hv]
  · refine ⟨u, hu, ?_⟩
    rw [evalBlock_last hnil v .null, hx, Result.andThen, hu]
    rfl

end

/-! ## Running texts one after the other -/

namespace Interpreter

/-- What the statements of a text come to, with a returned value still in its wrapping. -/
def evaluated (i : Interpreter) (t : Text) : Result :=
  evalBlock (invoke i.limit i.limit) (Program.ofText t).program.statements globalScope .null i.store

/-- The texts are run one after the other, and what each of them comes to is as `P` says. -/
def Each (P : Except Failure Value → Prop) (i : Interpreter) : List Text → Prop
  | [] => True
  | t :: ts => P (i.evaluated t).1 ∧ Each P (i.runText t).2 ts

instance decidableEach {P : Except Failure Value → Prop} [DecidablePred P] :
    (i : Interpreter) → (ts : List Text) → Decidable (i.Each P ts)
  | _, [] => .isTrue trivial
  | i, t :: ts =>
    have := decidableEach (P := P) (i.runText t).2 ts
    inferInstanceAs (Decidable (P (i.evaluated t).1 ∧ Each P (i.runText t).2 ts))

/-- Whether a program stops there: with a returned value, an error value or too many calls. -/
def stops : Except Failure Value → Bool
  | .ok v => v.isAbrupt
  | .error (.tooManyCalls _) => true
  | .error _ => false

/-- Nothing stopped the program before its end. -/
def RunsOn (r : Except Failure Value) : Prop := stops r = false

instance (r : Except Failure Value) : Decidable (RunsOn r) := instDecidableEqBool (stops r) false

/-- No part of a tree was missing: if anything failed, there were too many calls. -/
def MissesNothing (r : Except Failure Value) : Prop :=
  ∀ e, r = .error e → ∃ limit, e = .tooManyCalls limit

theorem RunsOn.exists_ok {r : Except Failure Value} (h : RunsOn r) (h' : MissesNothing r) :
    ∃ v, r = .ok v ∧ v.isAbrupt = false := by
  cases r with
  | ok v => exact ⟨v, rfl, h⟩
  | error e =>
    obtain ⟨limit, rfl⟩ := h' e rfl
    exact Bool.noConfusion h

theorem runText_eq {i : Interpreter} {t : Text} (h : (Program.ofText t).diagnostics = []) :
    i.runText t =
      (.ofResult (i.evaluated t).unwrapped.1, { i with store := (i.evaluated t).2 }) := by
  rw [← Result.unwrapped_store]
  exact if_pos (by rw [h]; rfl)

/-- In a sound store no function has lost its body, and no text misses a part of a tree. -/
theorem each_missesNothing {i : Interpreter} (hi : i.store.Sound) (cs : List Text) :
    i.Each MissesNothing cs := by
  induction cs generalizing i with
  | nil => trivial
  | cons c cs ih =>
    refine ⟨fun e he => ⟨i.limit, ?_⟩, ih (serves hi (.text c)).store⟩
    have hwhole := Program.ofSource_whole (Lexer.ofText c)
    have hends := evalBlock_ends (invoke_sound i.limit i.limit) _ hwhole globalScope
      Value.null_proper hi
    exact hends.failure e he

/-- After texts that ran on, other statements go on where they would go on in one program. -/
theorem evalBlock_after {i : Interpreter} {cs : List Text}
    (hread : ∀ c ∈ cs, (Program.ofText c).diagnostics = []) (hon : i.Each RunsOn cs)
    (hmiss : i.Each MissesNothing cs) (body : List Stmt) {v : Value} (hv : v.isAbrupt = false) :
    ∃ u, evalBlock (invoke i.limit i.limit) (statementsOf cs ++ body) globalScope v i.store =
      evalBlock (invoke i.limit i.limit) body globalScope u (i.after (cs.map .text)).store ∧
      (i.after (cs.map .text)).limit = i.limit := by
  induction cs generalizing i v with
  | nil => exact ⟨v, rfl, rfl⟩
  | cons c cs ih =>
    rw [List.forall_mem_cons] at hread
    obtain ⟨w, hw, hgoes⟩ := hon.1.exists_ok hmiss.1
    have hc : i.evaluated c = (.ok w, (i.evaluated c).2) := Prod.ext hw rfl
    obtain ⟨w', hgoes', hnext⟩ := evalBlock_append_of_ok (statementsOf cs ++ body) hc hgoes hv
    obtain ⟨u, hrest, hlimit⟩ := ih hread.2 hon.2 hmiss.2 hgoes'
    have hrun : (i.runText c).2 = { i with store := (i.evaluated c).2 } := by
      rw [runText_eq hread.1]
    rw [hrun] at hlimit hrest
    refine ⟨u, ?_, ?_⟩
    · rw [statementsOf, List.flatMap_cons, List.append_assoc, List.map_cons, after, answer, hrun]
      exact hnext.trans hrest
    · rw [List.map_cons, after, answer, hrun]
      exact hlimit

end Interpreter

/-- Texts that are read without a complaint, and end with a semicolon but for the last, are one
program when they are joined line by line. Running it does what running the texts in turn does, if
nothing stops a text before the last: no returned value, no error value, no failure. Too many
calls are the only failure where the store is sound. A last text without statements has no value of
its own. -/
theorem joined_texts_run_as_one (i : Interpreter) (cs : List Text) (last : Text)
    (hread : ∀ c ∈ cs ++ [last], (Program.ofText c).diagnostics = [])
    (hclosed : ∀ c ∈ cs, EndsClosed c) :
    Program.ofText (Text.join "\n" (cs ++ [last])) = ⟨⟨statementsOf (cs ++ [last])⟩, []⟩ ∧
    (i.Each Interpreter.RunsOn cs → i.store.Sound ∨ i.Each Interpreter.MissesNothing cs →
      let whole := i.runText (Text.join "\n" (cs ++ [last]))
      let inTurn := (i.after (cs.map .text)).runText last
      whole.2 = inTurn.2 ∧
        ((Program.ofText last).program.statements ≠ [] → whole.1 = inTurn.1)) := by
  have hjoin := Program.ofText_join hread hclosed
  refine ⟨hjoin, fun hon hsound => ?_⟩
  have hmiss := hsound.elim (fun hs => i.each_missesNothing hs cs) id
  have hread' := List.forall_mem_append.mp hread
  have hlast := hread'.2 last List.mem_cons_self
  obtain ⟨u, hrest, hlimit⟩ := Interpreter.evalBlock_after hread'.1 hon hmiss
    (Program.ofText last).program.statements (v := .null) rfl
  have hwhole : i.evaluated (Text.join "\n" (cs ++ [last])) =
      evalBlock (invoke i.limit i.limit) (Program.ofText last).program.statements
        Interpreter.globalScope u (i.after (cs.map .text)).store := by
    rw [← hrest, Interpreter.evaluated, hjoin]
    simp [statementsOf]
  have hturn : (i.after (cs.map .text)).evaluated last =
      evalBlock (invoke i.limit i.limit) (Program.ofText last).program.statements
        Interpreter.globalScope .null (i.after (cs.map .text)).store := by
    rw [Interpreter.evaluated, hlimit]
  dsimp only
  rw [Interpreter.runText_eq (congrArg Reading.diagnostics hjoin), Interpreter.runText_eq hlast,
    hwhole, hturn, hlimit]
  constructor
  · cases (Program.ofText last).program.statements with
    | nil => rfl
    | cons st rest => rw [evalBlock_last (List.cons_ne_nil st rest) u .null]
  · intro hne
    rw [evalBlock_last hne u .null]

/-- The lines of a session that define a function, one of them empty. -/
def definingLines : List Text := ["let a = 1;", " ", "let f = fn(x) \x7b x + a \x7d;"]

/-- The line that calls the function. -/
def callingLine : Text := "f(a)"

theorem definingLines_run_as_one :
    (Interpreter.new 2).runText (Text.join "\n" (definingLines ++ [callingLine])) =
      ((Interpreter.new 2).after (definingLines.map .text)).runText callingLine := by
  have hread : ∀ c ∈ definingLines ++ [callingLine], (Program.ofText c).diagnostics = [] := by
    decide +kernel
  have hclosed : ∀ c ∈ definingLines, EndsClosed c := by
    unfold EndsClosed
    decide +kernel
  have hon : (Interpreter.new 2).Each Interpreter.RunsOn definingLines := by decide +kernel
  have hcalls : (Program.ofText callingLine).program.statements.isEmpty = false := by
    decide +kernel
  have hjoined := (joined_texts_run_as_one (Interpreter.new 2) definingLines callingLine hread
    hclosed).2 hon (Or.inl (Interpreter.new_sound 2))
  exact Prod.ext (hjoined.2 fun hnil => absurd hcalls (by rw [hnil]; decide)) hjoined.1

end Borealis
