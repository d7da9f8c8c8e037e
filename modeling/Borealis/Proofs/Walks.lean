-- Reading as a walk that nothing bounds. Here loops go on until their tokens
-- say that they are done, and a counter of open expressions takes the place of
-- the room that is left. So a walk could go on for ever; over any token list it
-- comes to an end, and to what reading gives.
import Borealis.Proofs.Invariants

namespace Borealis

/-! ## Walks -/

/-- A cursor on its way, how many expressions are open where it stands, and the most that were
open so far. -/
structure Walk (τ : Type) where
  cursor : Cursor τ
  depth : Nat
  deepest : Nat

/-- A part of a walk. It gives nothing at all if it never ends. -/
abbrev Walking (τ α : Type) := StateT (Walk τ) Option α

namespace Walk

open Rule (expect skip reject)

variable {τ α : Type}

/-- Looks at the cursor. -/
def look (f : Cursor τ → α) : Walking τ α := fun w => some (f w.cursor, w)

/-- Takes the step of a rule, which may fail. -/
def act (r : Rule τ α) : Walking τ (Option α) := fun w =>
  some ((r w.cursor).1, { w with cursor := (r w.cursor).2 })

/-- One more expression is open. Gives their number. -/
def enter : Walking τ Nat := fun w =>
  some (w.depth + 1, { w with depth := w.depth + 1, deepest := max w.deepest (w.depth + 1) })

/-- One expression less is open. -/
def leave : Walking τ Unit := fun w => some ((), { w with depth := w.depth - 1 })

variable [TokenSource τ]

/-- Goes one token further. -/
def go : Walking τ Unit := fun w => some ((), { w with cursor := w.cursor.advance })

/-- Goes on as long as there is no end token. -/
def toEnd (w : Walk τ) : Option (Unit × Walk τ) :=
  if w.cursor.current.kind = .eof then some ((), w)
  else { w with cursor := w.cursor.advance } |>.toEnd
partial_fixpoint

/-- Notes a last complaint and goes to the end. -/
def giveUp (what : Complaint) : Walking τ Unit := fun w =>
  toEnd { w with cursor := { w.cursor.complain w.cursor.current what with abandoned := true } }

/-- Goes over a number. -/
def integer : Walking τ (Option Expr) := do
  let here ← look Cursor.current
  match here.literal.toInt64 with
  | .ok value => return some (.int value)
  | .error _ => act (reject here (.badInteger here.literal))

end Walk

/-- One who walks over the parts of a program, and keeps to a limit of open expressions. -/
structure Walker where
  limit : Nat

namespace Walker

open Rule (expect skip reject)

open Walk (look act enter leave go giveUp integer)

variable {τ : Type} [TokenSource τ]

/-- Over parameters, as long as a comma is ahead. -/
def moreParameters (walker : Walker) : Walking τ (Option (List Text)) := do
  if (← look Cursor.peek).kind = .comma then
    go
    let some name ← act (expect .ident) | return none
    let some others ← walker |>.moreParameters | return none
    return some (name.literal :: others)
  else
    let some _ ← act (expect .rightParen) | return none
    return some []
partial_fixpoint

/-- Over parameters, from the opening parenthesis to the closing one. -/
def parameters (walker : Walker) : Walking τ (Option (List Text)) := do
  if (← look Cursor.peek).kind = .rightParen then
    go
    return some []
  else
    let some name ← act (expect .ident) | return none
    let some others ← walker |>.moreParameters | return none
    return some (name.literal :: others)

mutual

/-- Over the value of a statement and the semicolon behind it, if there is one. -/
def valueStatement (walker : Walker) (make : Expr → Stmt) : Walking τ (Option Stmt) := do
  let some value ← walker |>.expression Binding.lowest | return none
  let some _ ← act (skip .semicolon) | return none
  return some (make value)
partial_fixpoint

/-- Over a statement. -/
def statement (walker : Walker) : Walking τ (Option Stmt) := do
  match (← look Cursor.current).kind with
  | .letWord =>
    let some name ← act (expect .ident) | return none
    let some _ ← act (expect .assign) | return none
    go
    walker |>.valueStatement (.bind (some name.literal))
  | .returnWord =>
    go
    walker |>.valueStatement .ret
  | _ => walker |>.valueStatement .expr
partial_fixpoint

/-- Over statements, until there is a closing brace or the end. -/
def blockStatements (walker : Walker) : Walking τ (Option (List Stmt)) := do
  let here ← look Cursor.current
  match here.kind with
  | .rightBrace => return some []
  | .eof => act (reject here (.expected .rightBrace .eof))
  | _ =>
    -- A statement that fails is left out.
    let first ← walker |>.statement
    go
    let some others ← walker |>.blockStatements | return none
    return some (first.toList ++ others)
partial_fixpoint

/-- Over a block. -/
def block (walker : Walker) : Walking τ (Option (List Stmt)) := do
  go
  walker |>.blockStatements
partial_fixpoint

/-- Over an operator and the operand behind it. -/
def unary (walker : Walker) : Walking τ (Option Expr) := do
  let op ← look Cursor.current
  go
  let some operand ← walker |>.expression Binding.unary | return none
  return some (.unary op.literal operand)
partial_fixpoint

/-- Over an expression in parentheses. -/
def grouped (walker : Walker) : Walking τ (Option Expr) := do
  go
  let some e ← walker |>.expression Binding.lowest | return none
  let some _ ← act (expect .rightParen) | return none
  return some e
partial_fixpoint

/-- Over a condition with its one or two blocks. -/
def conditional (walker : Walker) : Walking τ (Option Expr) := do
  let some _ ← act (expect .leftParen) | return none
  go
  let some test ← walker |>.expression Binding.lowest | return none
  let some _ ← act (expect .rightParen) | return none
  let some _ ← act (expect .leftBrace) | return none
  let some yes ← walker |>.block | return none
  if (← look Cursor.peek).kind = .elseWord then
    go
    let some _ ← act (expect .leftBrace) | return none
    let some no ← walker |>.block | return none
    return some (.ifElse test yes no)
  else return some (.ifThen test yes)
partial_fixpoint

/-- Over a function. -/
def function (walker : Walker) : Walking τ (Option Expr) := do
  let some _ ← act (expect .leftParen) | return none
  let some params ← walker |>.parameters | return none
  let some _ ← act (expect .leftBrace) | return none
  let some body ← walker |>.block | return none
  return some (.fn params body)
partial_fixpoint

/-- Over an operand. -/
def operand (walker : Walker) : Walking τ (Option Expr) := do
  let here ← look Cursor.current
  match here.kind with
  | .ident => return some (.ident here.literal)
  | .int => integer
  | .trueWord => return some (.bool true)
  | .falseWord => return some (.bool false)
  | .bang | .minus => walker |>.unary
  | .leftParen => walker |>.grouped
  | .ifWord => walker |>.conditional
  | .functionWord => walker |>.function
  | .illegal => act (reject here (.illegal here.literal))
  | kind => act (reject here (.noExpression kind))
partial_fixpoint

/-- Over arguments, as long as a comma is ahead. -/
def moreArguments (walker : Walker) : Walking τ (Option (List Expr)) := do
  if (← look Cursor.peek).kind = .comma then
    go
    go
    let some e ← walker |>.expression Binding.lowest | return none
    let some others ← walker |>.moreArguments | return none
    return some (e :: others)
  else
    let some _ ← act (expect .rightParen) | return none
    return some []
partial_fixpoint

/-- Over arguments, from the opening parenthesis to the closing one. -/
def arguments (walker : Walker) : Walking τ (Option (List Expr)) := do
  if (← look Cursor.peek).kind = .rightParen then
    go
    return some []
  else
    go
    let some e ← walker |>.expression Binding.lowest | return none
    let some others ← walker |>.moreArguments | return none
    return some (e :: others)
partial_fixpoint

/-- Over an operator behind an expression and what belongs to it. -/
def operation (walker : Walker) (left : Expr) : Walking τ (Option Expr) := do
  let op ← look Cursor.current
  if op.kind = .leftParen then
    let some args ← walker |>.arguments | return none
    return some (.call left args)
  else
    go
    let some right ← walker |>.expression op.kind.binding | return none
    return some (.binary op.literal left right)
partial_fixpoint

/-- Over operators, as long as one is ahead that binds tighter. -/
def operations (walker : Walker) (strength : Nat) (left : Expr) : Walking τ (Option Expr) := do
  if strength < (← look Cursor.peek).kind.binding then
    go
    let some left ← walker |>.operation left | return none
    walker |>.operations strength left
  else return some left
partial_fixpoint

/-- Over an expression that was entered. -/
def entered (walker : Walker) (strength : Nat) : Walking τ (Option Expr) := do
  let some left ← walker |>.operand | return none
  walker |>.operations strength left
partial_fixpoint

/-- Over an expression, unless too many are open. It is left in any case. -/
def expression (walker : Walker) (strength : Nat) : Walking τ (Option Expr) := do
  let depth ← enter
  if walker.limit < depth then
    giveUp .tooDeep
    leave
    return none
  else
    let e ← walker |>.entered strength
    leave
    return e
partial_fixpoint

end

/-- Over the statements of a program, until there is the end token. -/
def statements (walker : Walker) : Walking τ (List Stmt) := do
  if (← look Cursor.current).kind = .eof then return []
  else
    let first ← walker |>.statement
    go
    let others ← walker |>.statements
    return first.toList ++ others
partial_fixpoint

/-- What a walk over a source reads, and where it ends, if it does. -/
def ofSource (walker : Walker) (s : τ) : Option (Reading × Walk τ) := do
  let (read, w) ← walker |>.statements ⟨Cursor.ofSource s, 0, 0⟩
  return (⟨⟨read⟩, w.cursor.diagnostics.toList⟩, w)

end Walker

/-! ## Cursors on the same tokens -/

open TokenSource (Gives)

variable {σ τ α β : Type} [TokenSource σ] [TokenSource τ]

namespace TokenSource

/-- The two sources give the same tokens for ever. -/
def Same (s : σ) (s' : τ) : Prop := ∀ i, (next (after s i)).1 = (next (after s' i)).1

theorem Same.tail {s : σ} {s' : τ} (h : Same s s') : Same (next s).2 (next s').2 :=
  fun i => h (i + 1)

end TokenSource

namespace Cursor

/-- The two cursors have the same tokens ahead, at most `n` of them before the end token, and the
same was noted on the way to them. -/
structure Alike (n : Nat) (c : Cursor σ) (c' : Cursor τ) : Prop where
  ahead : ∃ s s' ts, c.Window s ∧ c'.Window s' ∧ Gives s ts ∧ ts.length ≤ n ∧
    TokenSource.Same s s'
  diagnostics : c.diagnostics = c'.diagnostics
  abandoned : c.abandoned = c'.abandoned

namespace Alike

variable {n m : Nat} {c : Cursor σ} {c' : Cursor τ}

theorem mono (h : Alike n c c') (hle : n ≤ m) : Alike m c c' := by
  obtain ⟨s, s', ts, hw, hw', hg, hn, hs⟩ := h.ahead
  exact ⟨⟨s, s', ts, hw, hw', hg, Nat.le_trans hn hle, hs⟩, h.diagnostics, h.abandoned⟩

theorem current (h : Alike n c c') : c.current = c'.current := by
  obtain ⟨s, s', ts, hw, hw', -, -, hs⟩ := h.ahead
  rw [hw.current, hw'.current]
  exact hs 0

theorem advance (h : Alike n c c') : Alike (n - 1) c.advance c'.advance := by
  obtain ⟨s, s', ts, hw, hw', hg, hn, hs⟩ := h.ahead
  refine ⟨⟨_, _, ts.tail, hw.advance, hw'.advance, hg.tail, ?_, hs.tail⟩, h.diagnostics,
    h.abandoned⟩
  rw [List.length_tail]
  exact Nat.sub_le_sub_right hn 1

theorem peek (h : Alike n c c') : c.peek = c'.peek := h.advance.current

/-- A cursor that does not stand on the end token has a token ahead. -/
theorem pos (h : Alike n c c') (hk : c.current.kind ≠ .eof) : 0 < n := by
  obtain ⟨s, s', ts, hw, -, hg, hn, -⟩ := h.ahead
  cases ts with
  | nil => exact absurd (hw.current ▸ hg 0) hk
  | cons t ts => exact Nat.lt_of_lt_of_le (Nat.succ_pos _) hn

/-- Where the next token is not the end token, there is one token less ahead of it. -/
theorem pred_lt (h : Alike n c c') (hk : c.peek.kind ≠ .eof) : n - 1 < n :=
  Nat.sub_lt_of_pos_le Nat.one_pos (Nat.le_of_lt (Nat.lt_of_sub_pos (h.advance.pos hk)))

/-- The bound on the rounds of a loop is larger than what is ahead. -/
theorem lt_remaining (h : Alike n c c') : ∃ m ≤ n, m < c.remaining ∧ Alike m c c' := by
  obtain ⟨s, s', ts, hw, hw', hg, hn, hs⟩ := h.ahead
  have hlt : (ts.map Token.word).length < c.remaining := Sees.length_lt ⟨s, ts, hw, hg, rfl⟩
  rw [List.length_map] at hlt
  exact ⟨ts.length, hn, hlt, ⟨s, s', ts, hw, hw', hg, Nat.le_refl _, hs⟩, h.diagnostics,
    h.abandoned⟩

/-- Only the windows count for what is ahead, not what was noted. -/
theorem congr {d : Cursor σ} {d' : Cursor τ} (h : Alike n c c') (hc : d.current = c.current)
    (hp : d.peek = c.peek) (hs : d.source = c.source) (hc' : d'.current = c'.current)
    (hp' : d'.peek = c'.peek) (hs' : d'.source = c'.source)
    (hd : d.diagnostics = d'.diagnostics) (ha : d.abandoned = d'.abandoned) : Alike n d d' := by
  obtain ⟨s, s', ts, hw, hw', hg, hn, hsame⟩ := h.ahead
  exact ⟨⟨s, s', ts, hw.congr hc hp hs, hw'.congr hc' hp' hs', hg, hn, hsame⟩, hd, ha⟩

theorem complain (h : Alike n c c') (about : Token) (what : Complaint) :
    Alike n (c.complain about what) (c'.complain about what) := by
  unfold Cursor.complain
  rw [← h.abandoned]
  split
  · exact h
  · refine h.congr rfl rfl rfl rfl rfl rfl ?_ rfl
    rw [h.diagnostics]

end Alike

end Cursor

/-! ## Walks that follow a rule -/

open Cursor (Alike)

/-- From these cursors the walk comes to an end, with what the rule gives and where the rule
stops. As many expressions are open there as before, and on the way there were never more than one
above the limit. -/
def FollowsAt (n depth : Nat) (p : Walking τ (Option α)) (r : Rule σ α) (c : Cursor σ)
    (c' : Cursor τ) : Prop :=
  ∀ deepest ≤ maxNesting + 1, ∃ c₁ deepest', p ⟨c', depth, deepest⟩ =
    some ((r c).1, ⟨c₁, depth, deepest'⟩) ∧ Alike n (r c).2 c₁ ∧ deepest' ≤ maxNesting + 1

/-- The walk follows the rule wherever the same tokens are ahead. -/
def Follows (depth : Nat) (p : Walking τ (Option α)) (r : Rule σ α) : Prop :=
  ∀ n c c', Alike n c c' → FollowsAt n depth p r c c'

namespace FollowsAt

variable {n m k : Nat} {c : Cursor σ} {c' : Cursor τ} {p : Walking τ (Option α)} {r : Rule σ α}
  {q : Option α → Walking τ (Option β)}

theorem mono (h : FollowsAt n k p r c c') (hle : n ≤ m) : FollowsAt m k p r c c' := by
  intro deepest hd
  obtain ⟨c₁, deepest', hp, hc, hd'⟩ := h deepest hd
  exact ⟨c₁, deepest', hp, hc.mono hle, hd'⟩

/-- A walk that goes on whether there was a result or not. -/
theorem attempt {f : Option α → Rule σ β} (h : FollowsAt n k p r c c')
    (hf : ∀ o c₁ c₁', Alike n c₁ c₁' → FollowsAt n k (q o) (f o) c₁ c₁') :
    FollowsAt n k (p >>= q) (r.attempt >>= f) c c' := by
  intro deepest hd
  obtain ⟨c₁, deepest', hp, hc, hd'⟩ := h deepest hd
  obtain ⟨c₂, deepest₂, hq, hc₂, hd₂⟩ := hf (r c).1 (r c).2 c₁ hc deepest' hd'
  refine ⟨c₂, deepest₂, ?_, hc₂, hd₂⟩
  refine Eq.trans ?_ hq
  show (p ⟨c', k, deepest⟩).bind _ = _
  rw [hp]
  rfl

/-- A walk that goes on with a result, and without one comes to an end. -/
theorem bind {f : α → Rule σ β} (h : FollowsAt n k p r c c') (hnone : q none = pure none)
    (hf : ∀ a c₁ c₁', Alike n c₁ c₁' → FollowsAt n k (q (some a)) (f a) c₁ c₁') :
    FollowsAt n k (p >>= q) (r >>= f) c c' := by
  have hboth := h.attempt (f := fun | some a => f a | none => Rule.fail) fun o c₁ c₁' hc =>
    match o with
    | some a => hf a c₁ c₁' hc
    | none => fun deepest hd => ⟨c₁', deepest, by rw [hnone]; rfl, hc, hd⟩
  have hsame : (r.attempt >>= fun | some a => f a | none => Rule.fail) c = (r >>= f) c := by
    rcases hr : r c with ⟨_ | a, c₁⟩
    · rw [Rule.bind_of_none hr, Rule.bind_of_some (r := r.attempt) (by rw [Rule.attempt, hr])]
      rfl
    · rw [Rule.bind_of_some hr, Rule.bind_of_some (r := r.attempt) (by rw [Rule.attempt, hr])]
  unfold FollowsAt at hboth ⊢
  rwa [hsame] at hboth

theorem go {q : Walking τ (Option α)} {f : Unit → Rule σ α}
    (h : FollowsAt n k q (f ()) c.advance c'.advance) :
    FollowsAt n k (Walk.go >>= fun _ => q) (Rule.advance >>= f) c c' := h

theorem current {q : Token → Walking τ (Option α)} {f : Token → Rule σ α} (hc : Alike m c c')
    (h : FollowsAt n k (q c.current) (f c.current) c c') :
    FollowsAt n k (Walk.look Cursor.current >>= q) (Rule.current >>= f) c c' := by
  have hsame : q c.current = q c'.current := by rw [hc.current]
  rw [hsame] at h
  exact h

theorem peek {q : Token → Walking τ (Option α)} {f : Token → Rule σ α} (hc : Alike m c c')
    (h : FollowsAt n k (q c.peek) (f c.peek) c c') :
    FollowsAt n k (Walk.look Cursor.peek >>= q) (Rule.peek >>= f) c c' := by
  have hsame : q c.peek = q c'.peek := by rw [hc.peek]
  rw [hsame] at h
  exact h

end FollowsAt

namespace Follows

variable {k : Nat} {p : Walking τ (Option α)} {r : Rule σ α} {q : Option α → Walking τ (Option β)}

theorem pure (a : α) : Follows k (pure (some a) : Walking τ (Option α)) (pure a : Rule σ α) :=
  fun _ _ c' hc deepest hd => ⟨c', deepest, rfl, hc, hd⟩

theorem bind {f : α → Rule σ β} (h : Follows k p r) (hnone : q none = Pure.pure none)
    (hf : ∀ a, Follows k (q (some a)) (f a)) : Follows k (p >>= q) (r >>= f) :=
  fun n c c' hc => (h n c c' hc).bind hnone fun a c₁ c₁' hc₁ => hf a n c₁ c₁' hc₁

theorem go {q : Walking τ (Option α)} {f : Unit → Rule σ α} (h : Follows k q (f ())) :
    Follows k (Walk.go >>= fun _ => q) (Rule.advance >>= f) :=
  fun n _ _ hc => .go ((h _ _ _ hc.advance).mono (Nat.sub_le n 1))

theorem current {q : Token → Walking τ (Option α)} {f : Token → Rule σ α}
    (h : ∀ t, Follows k (q t) (f t)) :
    Follows k (Walk.look Cursor.current >>= q) (Rule.current >>= f) :=
  fun n c c' hc => .current hc (h c.current n c c' hc)

theorem peek {q : Token → Walking τ (Option α)} {f : Token → Rule σ α}
    (h : ∀ t, Follows k (q t) (f t)) :
    Follows k (Walk.look Cursor.peek >>= q) (Rule.peek >>= f) :=
  fun n c c' hc => .peek hc (h c.peek n c c' hc)

/-- A step does the same on cursors that are alike. -/
theorem act {r' : Rule τ α} (h : ∀ n c c', Alike n c c' →
    (r c).1 = (r' c').1 ∧ Alike n (r c).2 (r' c').2) : Follows k (Walk.act r') r := by
  intro n c c' hc deepest hd
  obtain ⟨hresult, hleft⟩ := h n c c' hc
  refine ⟨(r' c').2, deepest, ?_, hleft, hd⟩
  rw [hresult]
  rfl

theorem expect (kind : TokenKind) :
    Follows k (Walk.act (Rule.expect kind) : Walking τ _) (Rule.expect kind : Rule σ Token) := by
  refine act fun n c c' hc => ?_
  unfold Rule.expect
  rw [← hc.peek]
  split
  · exact ⟨rfl, hc.advance.mono (Nat.sub_le n 1)⟩
  · exact ⟨rfl, hc.complain _ _⟩

theorem skip (kind : TokenKind) :
    Follows k (Walk.act (Rule.skip kind) : Walking τ _) (Rule.skip kind : Rule σ Unit) := by
  refine act fun n c c' hc => ?_
  unfold Rule.skip
  rw [← hc.peek]
  split
  · exact ⟨rfl, hc.advance.mono (Nat.sub_le n 1)⟩
  · exact ⟨rfl, hc⟩

theorem reject (about : Token) (what : Complaint) :
    Follows k (Walk.act (Rule.reject about what) : Walking τ _)
      (Rule.reject about what : Rule σ α) :=
  act fun _ _ _ hc => ⟨rfl, hc.complain about what⟩

/-- A loop that takes its rounds from the bound has more of them than there are tokens ahead. -/
theorem remaining {f : Nat → Rule σ α}
    (h : ∀ {n c c' rounds}, Alike n c c' → n < rounds → FollowsAt n k p (f rounds) c c') :
    Follows k p (Rule.remaining >>= f) := by
  intro n c c' hc
  obtain ⟨m, hle, hlt, hm⟩ := hc.lt_remaining
  exact (h hm hlt).mono hle

end Follows

/-! ## Walks over the parts of a program -/

namespace Walker

open Walk (look act enter leave go toEnd giveUp integer)

variable {walker : Walker} {inner : Grammar.Inner σ} {k n rounds : Nat} {c : Cursor σ}
  {c' : Cursor τ}

/-- With `k` expressions open, the walk over another one follows the rule for the expressions
inside, at every strength that an expression can have. -/
def Inside (walker : Walker) (τ : Type) [TokenSource τ] (k : Nat) (inner : Grammar.Inner σ) :
    Prop :=
  ∀ strength, Binding.lowest ≤ strength →
    Follows k (walker.expression strength : Walking τ _) (inner strength)

theorem Inside.lowest (h : walker.Inside τ k inner) :
    Follows k (walker.expression Binding.lowest : Walking τ _) (inner Binding.lowest) :=
  h _ (Nat.le_refl _)

theorem follows_valueStatement (h : walker.Inside τ k inner) (make : Expr → Stmt) :
    Follows k (walker.valueStatement make : Walking τ _)
      (inner Binding.lowest >>= fun e => Rule.skip .semicolon >>= fun _ => pure (make e)) := by
  unfold valueStatement
  refine h.lowest.bind rfl fun e => (Follows.skip _).bind rfl fun _ => ?_
  exact .pure _

theorem follows_statement (h : walker.Inside τ k inner) :
    Follows k (walker.statement : Walking τ _) (Grammar.statement inner) := by
  unfold statement
  refine .current fun here => ?_
  cases here.kind with
  | letWord =>
    refine (Follows.expect _).bind rfl fun name => (Follows.expect _).bind rfl fun _ => ?_
    exact .go (follows_valueStatement h _)
  | returnWord => exact .go (follows_valueStatement h _)
  | _ => exact follows_valueStatement h _

/-- One round of a block. The statement may be read or left out. -/
theorem follows_nextStatement (h : walker.Inside τ k inner) (rounds : Nat) (hc : Alike n c c')
    (ih : ∀ {c₁ c₁'}, Alike (n - 1) c₁ c₁' → FollowsAt (n - 1) k
      (walker.blockStatements : Walking τ _) (Grammar.blockStatements inner rounds) c₁ c₁') :
    FollowsAt n k
      (do
        let first ← walker.statement
        go
        let some others ← walker.blockStatements | return none
        return some (first.toList ++ others) : Walking τ _)
      (do
        let first ← (Grammar.statement inner).attempt
        Rule.advance
        let others ← Grammar.blockStatements inner rounds
        return first.toList ++ others) c c' := by
  refine (follows_statement h n c c' hc).attempt fun first c₁ c₁' hc₁ => ?_
  refine .go (FollowsAt.mono ?_ (Nat.sub_le n 1))
  exact (ih hc₁.advance).bind rfl fun others _ _ hc₂ => Follows.pure _ _ _ _ hc₂

theorem follows_blockStatements (h : walker.Inside τ k inner) (hc : Alike n c c')
    (hn : n < rounds) : FollowsAt n k (walker.blockStatements : Walking τ _)
      (Grammar.blockStatements inner rounds) c c' := by
  induction rounds generalizing n c c' with
  | zero => omega
  | succ rounds ih =>
    have hmore : c.current.kind ≠ .eof → FollowsAt n k _ _ c c' := fun hk =>
      have hpos := hc.pos hk
      follows_nextStatement h rounds hc fun hc₁ => ih hc₁ (by omega)
    unfold blockStatements
    refine .current hc ?_
    generalize c.current.kind = kind at hmore
    cases kind with
    | rightBrace => exact Follows.pure [] n c c' hc
    | eof => exact Follows.reject _ _ n c c' hc
    | _ => exact hmore (by simp)

theorem follows_block (h : walker.Inside τ k inner) :
    Follows k (walker.block : Walking τ _) (Grammar.block inner) := by
  unfold block
  exact .go (.remaining (follows_blockStatements h))

theorem follows_integer :
    Follows k (integer : Walking τ _) (Grammar.integer : Rule σ Expr) := by
  unfold integer
  refine .current fun here => ?_
  cases here.literal.toInt64 with
  | ok value => exact .pure _
  | error e => exact .reject _ _

theorem follows_unary (h : walker.Inside τ k inner) :
    Follows k (walker.unary : Walking τ _) (Grammar.unary inner) := by
  unfold unary
  refine .current fun op => .go ((h _ (by decide)).bind rfl fun e => ?_)
  exact .pure _

theorem follows_grouped (h : walker.Inside τ k inner) :
    Follows k (walker.grouped : Walking τ _) (Grammar.grouped inner) := by
  unfold grouped
  refine .go (h.lowest.bind rfl fun e => (Follows.expect _).bind rfl fun _ => ?_)
  exact .pure e

theorem follows_conditional (h : walker.Inside τ k inner) :
    Follows k (walker.conditional : Walking τ _) (Grammar.conditional inner) := by
  unfold conditional
  refine (Follows.expect _).bind rfl fun _ => .go (h.lowest.bind rfl fun test => ?_)
  refine (Follows.expect _).bind rfl fun _ => (Follows.expect _).bind rfl fun _ => ?_
  refine (follows_block h).bind rfl fun yes => .peek fun next => ?_
  split
  · refine .go ((Follows.expect _).bind rfl fun _ => (follows_block h).bind rfl fun no => ?_)
    exact .pure _
  · exact .pure _

theorem follows_moreParameters (hc : Alike n c c') (hn : n < rounds) :
    FollowsAt n k (walker.moreParameters : Walking τ _) (Grammar.moreParameters rounds) c c' := by
  induction rounds generalizing n c c' with
  | zero => omega
  | succ rounds ih =>
    unfold moreParameters
    refine .peek hc ?_
    split
    · rename_i hk
      have hless := hc.pred_lt (by simp [hk])
      refine .go (FollowsAt.mono ?_ (Nat.le_of_lt hless))
      refine (Follows.expect _ _ _ _ hc.advance).bind rfl fun name c₁ c₁' hc₁ => ?_
      exact (ih hc₁ (by omega)).bind rfl fun others _ _ hc₂ => Follows.pure _ _ _ _ hc₂
    · refine (Follows.expect _ _ _ _ hc).bind rfl fun _ _ _ hc₁ => ?_
      exact Follows.pure [] _ _ _ hc₁

theorem follows_parameters :
    Follows k (walker.parameters : Walking τ _) (Grammar.parameters : Rule σ (List Text)) := by
  unfold parameters
  refine .peek fun next => ?_
  split
  · exact .go (.pure [])
  · refine (Follows.expect _).bind rfl fun name => .remaining fun hc hn => ?_
    exact (follows_moreParameters hc hn).bind rfl fun others _ _ hc₁ => Follows.pure _ _ _ _ hc₁

theorem follows_function (h : walker.Inside τ k inner) :
    Follows k (walker.function : Walking τ _) (Grammar.function inner) := by
  unfold function
  refine (Follows.expect _).bind rfl fun _ => follows_parameters.bind rfl fun params => ?_
  refine (Follows.expect _).bind rfl fun _ => (follows_block h).bind rfl fun body => ?_
  exact .pure _

theorem follows_operand (h : walker.Inside τ k inner) :
    Follows k (walker.operand : Walking τ _) (Grammar.operand inner) := by
  unfold operand
  refine .current fun here => ?_
  cases here.kind with
  | ident => exact .pure _
  | int => exact follows_integer
  | trueWord => exact .pure _
  | falseWord => exact .pure _
  | bang => exact follows_unary h
  | minus => exact follows_unary h
  | leftParen => exact follows_grouped h
  | ifWord => exact follows_conditional h
  | functionWord => exact follows_function h
  | _ => exact .reject _ _

theorem follows_moreArguments (h : walker.Inside τ k inner) (hc : Alike n c c') (hn : n < rounds) :
    FollowsAt n k (walker.moreArguments : Walking τ _)
      (Grammar.moreArguments inner rounds) c c' := by
  induction rounds generalizing n c c' with
  | zero => omega
  | succ rounds ih =>
    unfold moreArguments
    refine .peek hc ?_
    split
    · rename_i hk
      have hless := hc.pred_lt (by simp [hk])
      refine .go (FollowsAt.mono (.go ?_) (Nat.le_of_lt hless))
      have hvalue := (h.lowest _ _ _ hc.advance.advance).mono (Nat.sub_le (n - 1) 1)
      refine hvalue.bind rfl fun e c₁ c₁' hc₁ => ?_
      exact (ih hc₁ (by omega)).bind rfl fun others _ _ hc₂ => Follows.pure _ _ _ _ hc₂
    · refine (Follows.expect _ _ _ _ hc).bind rfl fun _ _ _ hc₁ => ?_
      exact Follows.pure [] _ _ _ hc₁

theorem follows_arguments (h : walker.Inside τ k inner) :
    Follows k (walker.arguments : Walking τ _) (Grammar.arguments inner) := by
  unfold arguments
  refine .peek fun next => ?_
  split
  · exact .go (.pure [])
  · refine .go (h.lowest.bind rfl fun e => .remaining fun hc hn => ?_)
    exact (follows_moreArguments h hc hn).bind rfl fun others _ _ hc₁ => Follows.pure _ _ _ _ hc₁

theorem follows_operation (h : walker.Inside τ k inner) (left : Expr) :
    Follows k (walker.operation left : Walking τ _) (Grammar.operation inner left) := by
  unfold operation
  refine .current fun op => ?_
  split
  · refine (follows_arguments h).bind rfl fun args => ?_
    exact .pure _
  · refine .go ((h _ op.kind.lowest_le_binding).bind rfl fun right => ?_)
    exact .pure _

theorem follows_operations (h : walker.Inside τ k inner) {strength : Nat} (left : Expr)
    (hs : Binding.lowest ≤ strength) (hc : Alike n c c') (hn : n < rounds) :
    FollowsAt n k (walker.operations strength left : Walking τ _)
      (Grammar.operations inner strength rounds left) c c' := by
  induction rounds generalizing n c c' left with
  | zero => omega
  | succ rounds ih =>
    unfold operations
    refine .peek hc ?_
    split
    · rename_i hk
      -- The end token is no operator, so each round takes a token.
      have hless := hc.pred_lt fun heof => by
        rw [heof] at hk
        exact absurd hk (Nat.not_lt.mpr hs)
      refine .go (FollowsAt.mono ?_ (Nat.le_of_lt hless))
      refine (follows_operation h left _ _ _ hc.advance).bind rfl fun e c₁ c₁' hc₁ => ?_
      exact ih e hc₁ (by omega)
    · exact Follows.pure left _ _ _ hc

/-! ## Walks over expressions -/

theorem toEnd_of_alike (hc : Alike n c c') (hn : n ≤ rounds) (depth deepest : Nat) :
    ∃ c₁, toEnd ⟨c', depth, deepest⟩ = some ((), ⟨c₁, depth, deepest⟩) ∧
      Alike n (c.toEnd rounds) c₁ := by
  induction rounds generalizing n c c' with
  | zero =>
    have hk : c.current.kind = .eof :=
      Decidable.not_not.mp fun hk => absurd (hc.pos hk) (Nat.not_lt.mpr hn)
    refine ⟨c', ?_, hc⟩
    rw [toEnd, if_pos (by rwa [← hc.current])]
  | succ rounds ih =>
    rw [toEnd, ← hc.current]
    unfold Cursor.toEnd
    split
    · exact ⟨c', rfl, hc⟩
    · obtain ⟨c₁, hend, hc₁⟩ := ih hc.advance (by omega)
      exact ⟨c₁, hend, hc₁.mono (Nat.sub_le n 1)⟩

theorem giveUp_of_alike (hc : Alike n c c') (what : Complaint) (depth deepest : Nat) :
    ∃ c₁, giveUp what ⟨c', depth, deepest⟩ = some ((), ⟨c₁, depth, deepest⟩) ∧
      Alike n (c.abandon what) c₁ := by
  obtain ⟨m, hle, hlt, hm⟩ := hc.lt_remaining
  have hnoted := hm.complain c.current what
  have hgiven : Alike m { c.complain c.current what with abandoned := true }
      { c'.complain c'.current what with abandoned := true } := by
    rw [← hc.current]
    exact hnoted.congr rfl rfl rfl rfl rfl rfl hnoted.diagnostics rfl
  obtain ⟨c₁, hend, hc₁⟩ := toEnd_of_alike hgiven (Nat.le_of_lt hlt) depth deepest
  exact ⟨c₁, hend, hc₁.mono hle⟩

theorem expression_eq (strength : Nat) (w : Walk τ) : walker.expression strength w =
    if walker.limit < w.depth + 1 then
      (giveUp .tooDeep >>= fun _ => leave >>= fun _ => pure none)
        ⟨w.cursor, w.depth + 1, max w.deepest (w.depth + 1)⟩
    else (walker.entered strength >>= fun e => leave >>= fun _ => pure e)
      ⟨w.cursor, w.depth + 1, max w.deepest (w.depth + 1)⟩ := by
  rw [expression]
  show (if walker.limit < w.depth + 1 then _ else _ : Walking τ _) _ = _
  split
  · rfl
  · rfl

/-- The expressions that are open and the room that is left make up the limit. -/
theorem inside_expression (room : Nat) (hk : k + room = maxNesting) :
    Inside ⟨maxNesting⟩ τ k (Grammar.expression room : Grammar.Inner σ) := by
  induction room generalizing k with
  | zero =>
    intro strength _ n c c' hc deepest hd
    obtain ⟨c₁, hend, hc₁⟩ := giveUp_of_alike hc .tooDeep (k + 1) (max deepest (k + 1))
    refine ⟨c₁, max deepest (k + 1), ?_, hc₁, by omega⟩
    rw [expression_eq, if_pos (show maxNesting < k + 1 by omega)]
    show (giveUp .tooDeep ⟨c', k + 1, max deepest (k + 1)⟩).bind _ = _
    rw [hend]
    rfl
  | succ room ih =>
    intro strength hs n c c' hc deepest hd
    have hinside := ih (k := k + 1) (by omega)
    have hentered : Follows (k + 1) (entered ⟨maxNesting⟩ strength : Walking τ _)
        (Grammar.expression (room + 1) strength : Rule σ Expr) := by
      unfold entered
      refine (follows_operand hinside).bind rfl fun left => .remaining fun hc hn => ?_
      exact follows_operations hinside left hs hc hn
    obtain ⟨c₁, deepest', hend, hc₁, hd'⟩ := hentered n c c' hc (max deepest (k + 1)) (by omega)
    refine ⟨c₁, deepest', ?_, hc₁, hd'⟩
    rw [expression_eq, if_neg (show ¬maxNesting < k + 1 by omega)]
    show (entered ⟨maxNesting⟩ strength ⟨c', k + 1, max deepest (k + 1)⟩).bind _ = _
    rw [hend]
    rfl

/-! ## Walks over programs -/

theorem statements_eq (w : Walk τ) : walker.statements w =
    if w.cursor.current.kind = .eof then some ([], w)
    else (walker.statement >>= fun first => go >>= fun _ => walker.statements >>= fun others =>
      pure (first.toList ++ others)) w := by
  conv => lhs; rw [statements]
  show (if w.cursor.current.kind = .eof then _ else _ : Walking τ _) w = _
  split
  · rfl
  · rfl

theorem statements_of_alike (hc : Alike n c c') (hn : n < rounds) {deepest : Nat}
    (hd : deepest ≤ maxNesting + 1) :
    ∃ c₁ deepest', statements ⟨maxNesting⟩ ⟨c', 0, deepest⟩ =
        some ((Grammar.statements rounds c).1, ⟨c₁, 0, deepest'⟩) ∧
      Alike n (Grammar.statements rounds c).2 c₁ ∧ deepest' ≤ maxNesting + 1 := by
  induction rounds generalizing n c c' deepest with
  | zero => omega
  | succ rounds ih =>
    rw [statements_eq, ← hc.current]
    by_cases hk : c.current.kind = .eof
    · rw [if_pos hk, Grammar.statements_end _ hk]
      exact ⟨c', deepest, rfl, hc, hd⟩
    · rw [if_neg hk, Grammar.statements_step _ hk]
      have hpos := hc.pos hk
      obtain ⟨c₁, deepest₁, hfirst, hc₁, hd₁⟩ :=
        follows_statement (inside_expression maxNesting (Nat.zero_add _)) n c c' hc deepest hd
      obtain ⟨c₂, deepest₂, hothers, hc₂, hd₂⟩ := ih hc₁.advance (by omega) hd₁
      refine ⟨c₂, deepest₂, ?_, hc₂.mono (Nat.sub_le n 1), hd₂⟩
      show (statement ⟨maxNesting⟩ ⟨c', 0, deepest⟩).bind _ = _
      rw [hfirst]
      show (statements ⟨maxNesting⟩ ⟨c₁.advance, 0, deepest₁⟩).bind _ = _
      rw [hothers]
      rfl

/-- A walk over a source that has an end comes to its own end, and to what is read from any source
with the same tokens. -/
theorem ofSource_of_same {s : σ} {s' : τ} {ts : List Token} (hg : Gives s ts)
    (hsame : TokenSource.Same s s') : ∃ w, ofSource ⟨maxNesting⟩ s' = some (Program.ofSource s, w) ∧
      w.depth = 0 ∧ w.deepest ≤ maxNesting + 1 := by
  have hc : Alike ts.length (Cursor.ofSource s) (Cursor.ofSource s') :=
    ⟨⟨s, s', ts, Cursor.window_ofSource s, Cursor.window_ofSource s', hg, Nat.le_refl _, hsame⟩,
      rfl, rfl⟩
  have hlt : (ts.map Token.word).length < (Cursor.ofSource s).remaining :=
    (Cursor.Sees.ofSource hg).length_lt
  rw [List.length_map] at hlt
  obtain ⟨c₁, deepest, hend, hc₁, hd⟩ := statements_of_alike hc hlt (Nat.zero_le _)
  refine ⟨⟨c₁, 0, deepest⟩, ?_, rfl, hd⟩
  show (statements ⟨maxNesting⟩ ⟨Cursor.ofSource s', 0, 0⟩).bind _ = _
  rw [hend]
  show some (Reading.mk _ c₁.diagnostics.toList, _) = _
  rw [← hc₁.diagnostics]
  rfl

end Walker

/-! ## Token lists -/

/-- The tokens up to the first end token, and that one. -/
def upToEnd : List Token → List Token
  | [] => []
  | t :: ts => if t.kind = .eof then [t] else t :: upToEnd ts

/-- The tokens behind the first end token are never given. -/
theorem TokenList.same_upToEnd (ts : List Token) (before : Position) :
    TokenSource.Same (⟨ts, before⟩ : TokenList) (⟨upToEnd ts, before⟩ : TokenList) := by
  induction ts generalizing before with
  | nil => exact fun i => rfl
  | cons t ts ih =>
    by_cases hk : t.kind = .eof
    · have hfirst : ∀ us, TokenSource.next (⟨t :: us, before⟩ : TokenList) = (t, ⟨[], t.pos⟩) :=
        fun us => if_pos hk
      rw [upToEnd, if_pos hk]
      intro i
      cases i with
      | zero => rw [TokenSource.after, TokenSource.after, hfirst, hfirst]
      | succ i => rw [TokenSource.after, TokenSource.after, hfirst, hfirst]
    · have hfirst : ∀ us, TokenSource.next (⟨t :: us, before⟩ : TokenList) = (t, ⟨us, t.pos⟩) :=
        fun us => if_neg hk
      rw [upToEnd, if_neg hk]
      intro i
      cases i with
      | zero => rw [TokenSource.after, TokenSource.after, hfirst, hfirst]
      | succ i =>
        rw [TokenSource.after, TokenSource.after, hfirst, hfirst]
        exact ih t.pos i

theorem Program.ofTokens_upToEnd (ts : List Token) :
    Program.ofTokens (upToEnd ts) = Program.ofTokens ts := by
  have hsame := TokenList.same_upToEnd ts .unset
  have hg := TokenList.gives ts .unset
  obtain ⟨w, hw, -⟩ := Walker.ofSource_of_same hg hsame
  obtain ⟨w', hw', -⟩ := Walker.ofSource_of_same (TokenList.gives (upToEnd ts) .unset)
    (fun _ => rfl : TokenSource.Same (⟨upToEnd ts, .unset⟩ : TokenList) _)
  rw [hw] at hw'
  exact (Prod.mk.inj (Option.some.inj hw')).1.symm

/-! ## The complaint of depth -/

/-- Only the last complaint is one of depth, and none before reading was given up. -/
structure Cursor.DepthLast {ρ : Type} (c : Cursor ρ) : Prop where
  before : ∀ d ∈ c.diagnostics.toList.dropLast, d.complaint ≠ .tooDeep
  none : c.abandoned = false → ∀ d ∈ c.diagnostics.toList, d.complaint ≠ .tooDeep

theorem Cursor.DepthLast.complain {ρ : Type} {c : Cursor ρ} (h : c.DepthLast) (t : Token)
    {what : Complaint} (hwhat : what ≠ .tooDeep) : (c.complain t what).DepthLast := by
  unfold Cursor.complain
  split
  · exact h
  · rename_i ha
    have hall := h.none (Bool.eq_false_iff.mpr ha)
    refine ⟨?_, fun _ => ?_⟩
    · simpa using hall
    · rw [Array.toList_push]
      exact List.forall_mem_append.mpr ⟨hall, List.forall_mem_singleton.mpr hwhat⟩

theorem invariant_depthLast : Invariant (σ := σ) Cursor.DepthLast Cursor.DepthLast where
  fails h := h
  resumes h := ⟨h.before, h.none⟩
  here h hwhat := h.complain _ hwhat
  ahead h hwhat := h.complain _ hwhat
  abandons {c} h := by
    refine ⟨?_, fun ha => absurd ha (by simp)⟩
    show ∀ d ∈ (c.complain c.current .tooDeep).diagnostics.toList.dropLast, _
    unfold Cursor.complain
    split
    · exact h.before
    · rename_i ha
      simpa using h.none (Bool.eq_false_iff.mpr ha)

theorem depth_last_ofSource (s : σ) :
    ∀ d ∈ (Program.ofSource s).diagnostics.dropLast, d.complaint ≠ .tooDeep := by
  have hstart : (Cursor.ofSource s).DepthLast :=
    ⟨List.forall_mem_nil _, fun _ => List.forall_mem_nil _⟩
  obtain ⟨c, hc, hd⟩ := invariant_depthLast.ofSource hstart
  rw [hd]
  exact hc.before

/-! ## Any token list -/

/-- Whatever the tokens of a list are, reading it with loops that nothing bounds comes to an end.
It gives what reading gives. Every expression that was entered was left, and no more than one above
the limit were ever open. Tokens behind the first end token make no difference, and only the last
diagnostic can be the one of depth. -/
theorem any_token_list_is_read_to_its_end (ts : List Token) :
    (∃ w, Walker.ofSource ⟨maxNesting⟩ (TokenList.ofList ts) = some (Program.ofTokens ts, w) ∧
      w.depth = 0 ∧ w.deepest ≤ maxNesting + 1) ∧
    Program.ofTokens (upToEnd ts) = Program.ofTokens ts ∧
    ∀ d ∈ (Program.ofTokens ts).diagnostics.dropLast, d.complaint ≠ .tooDeep :=
  ⟨Walker.ofSource_of_same (TokenList.gives ts .unset) fun _ => rfl, Program.ofTokens_upToEnd ts,
    depth_last_ofSource _⟩

/-- A name that is a number, a number that is none, a kind that the language does not have, and
an end token that is not the last one. -/
def strangeTokens : List Token :=
  [⟨.letWord, "let", ⟨1, 1⟩⟩, ⟨.int, "abc", ⟨1, 5⟩⟩, ⟨.other "WHAT", "?", ⟨1, 9⟩⟩,
    ⟨.eof, "over", ⟨2, 1⟩⟩, ⟨.ident, "late", ⟨2, 5⟩⟩]

theorem strangeTokens_are_read_to_their_end :
    (Program.ofTokens strangeTokens).diagnostics = [⟨.expected .ident .int, ⟨1, 5⟩, .int⟩,
      ⟨.badInteger "abc", ⟨1, 5⟩, .int⟩, ⟨.noExpression (.other "WHAT"), ⟨1, 9⟩, .other "WHAT"⟩] ∧
    (∃ w, Walker.ofSource ⟨maxNesting⟩ (TokenList.ofList strangeTokens)
        = some (Program.ofTokens strangeTokens, w) ∧
      w.depth = 0 ∧ w.deepest ≤ maxNesting + 1) ∧
    Program.ofTokens (strangeTokens.take 4) = Program.ofTokens strangeTokens ∧
    (⟨.badInteger "abc", ⟨1, 5⟩, .int⟩ : Diagnostic) ∈
      (Program.ofTokens strangeTokens).diagnostics.dropLast ∧
    ∀ d ∈ (Program.ofTokens strangeTokens).diagnostics.dropLast, d.complaint ≠ .tooDeep :=
  have h := any_token_list_is_read_to_its_end strangeTokens
  ⟨by decide, h.1, h.2.1, by decide, h.2.2⟩

end Borealis
