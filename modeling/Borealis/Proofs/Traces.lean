-- What an evaluation does, event by event: which parts it evaluates and calls
-- it makes, how each of them ends, and every change of the store between. A
-- trace ends as the evaluation itself does, and its events, done over, change
-- the store in the same way. `Formed` says how traces are put together; the
-- laws of traces are proved from it.
import Borealis.Eval

namespace Borealis

/-! ## Events -/

/-- What is under way: the evaluation of a node in a scope, or a call. -/
inductive Task where
  | node (n : Node) (scope : ScopeId)
  | call (f : Declaration) (args : List Value)

namespace Task

def isCall : Task → Bool
  | call .. => true
  | node .. => false

/-- A returned value gets no further than a call or a whole program. -/
def catches : Task → Bool
  | call .. => true
  | node (.program _) _ => true
  | node .. => false

/-- How a task ends when the evaluation inside it ended with `r`. -/
def ending (t : Task) (r : Result) : Result :=
  if t.catches then r.unwrapped else r

end Task

inductive Event where
  | starts (t : Task)
  | ends (t : Task) (outcome : Except Failure Value)
  /-- A scope is made below another one. -/
  | opens (parent : ScopeId)
  | makes (f : Declaration) (scope : ScopeId)
  | binds (scope : ScopeId) (name : Text) (value : Value)

def Event.effect : Event → Store → Store
  | starts _, s => s
  | ends _ _, s => s
  | opens parent, s => (s.newScope (some parent)).2
  | makes f scope, s => (s.newFunction (some f) scope).2
  | binds scope name v, s => s.set scope name v

/-- The store after events. -/
def replay : List Event → Store → Store
  | [], s => s
  | e :: rest, s => replay rest (e.effect s)

/-- The tasks that are under way after events, innermost first. `tasks` were before. -/
def underWay : List Event → (tasks : List Task) → List Task
  | [], tasks => tasks
  | .starts t :: rest, tasks => underWay rest (t :: tasks)
  | .ends _ _ :: rest, tasks => underWay rest tasks.tail
  | _ :: rest, tasks => underWay rest tasks

theorem replay_append (a b : List Event) (s : Store) :
    replay (a ++ b) s = replay b (replay a s) := by
  induction a generalizing s with
  | nil => rfl
  | cons e a ih => exact ih (e.effect s)

theorem underWay_append (a b : List Event) (tasks : List Task) :
    underWay (a ++ b) tasks = underWay b (underWay a tasks) := by
  induction a generalizing tasks with
  | nil => rfl
  | cons e a ih => cases e <;> exact ih _

/-! ## Traces -/

/-- The events of an evaluation, and its result. -/
structure Trace where
  events : List Event
  result : Result

namespace Trace

def still (r : Except Failure Value) (s : Store) : Trace := ⟨[], (r, s)⟩

/-- Goes on with the value, unless there is none or it stops the evaluation. -/
def andThen (t : Trace) (next : Value → Store → Trace) : Trace :=
  match t.result with
  | (.error _, _) => t
  | (.ok v, s) => if v.isAbrupt then t else ⟨t.events ++ (next v s).events, (next v s).result⟩

/-- The task around a trace: it starts before and ends after it. -/
def during (task : Task) (t : Trace) : Trace :=
  ⟨.starts task :: (t.events ++ [.ends task (task.ending t.result).1]), task.ending t.result⟩

def behind (events : List Event) (t : Trace) : Trace := ⟨events ++ t.events, t.result⟩

end Trace

abbrev Tracer := Option Declaration → ScopeId → List Value → Store → Trace

-- These go through the tree as the evaluation does, clause by clause, and write down what happens.
-- The branch of a conditional is a node of its own, a block.
mutual

def traceExpr (call : Tracer) (e : Expr) (scope : ScopeId) (s : Store) : Trace :=
  .during (.node (.expr e) scope) <| match e with
  | .hole => .still (.error .missingNode) s
  | .ident name =>
    match s.get? scope name with
    | some v => .still (.ok v) s
    | none => .still (.ok (.error (.unbound name))) s
  | .int value => .still (.ok (.int value)) s
  | .bool value => .still (.ok (.bool value)) s
  | .unary op operand =>
    (traceExpr call operand scope s).andThen fun v s => .still (.ok (v.unary op)) s
  | .binary op left right =>
    (traceExpr call left scope s).andThen fun a s =>
      (traceExpr call right scope s).andThen fun b s => .still (.ok (a.binary op b)) s
  | .ifThen test yes =>
    (traceExpr call test scope s).andThen fun v s =>
      if v.isTruthy then
        .during (.node (.stmt (.block yes)) scope) (traceBlock call yes scope .null s)
      else .still (.ok .null) s
  | .ifElse test yes no =>
    (traceExpr call test scope s).andThen fun v s =>
      if v.isTruthy then
        .during (.node (.stmt (.block yes)) scope) (traceBlock call yes scope .null s)
      else .during (.node (.stmt (.block no)) scope) (traceBlock call no scope .null s)
  | .fn params body =>
    let (f, s) := s.newFunction (some ⟨params, some body⟩) scope
    ⟨[.makes ⟨params, some body⟩ scope], (.ok f, s)⟩
  | .stub params =>
    let (f, s) := s.newFunction (some ⟨params, none⟩) scope
    ⟨[.makes ⟨params, none⟩ scope], (.ok f, s)⟩
  | .call callee args =>
    (traceExpr call callee scope s).andThen fun f s =>
      traceArgs call args scope s fun vs s =>
        match f with
        | .fn _ declaration home => call declaration home vs s
        | f => .still (.ok (.error (.notFunction f.kind))) s
termination_by structural e

/-- The trace of arguments and of what is done with them. -/
def traceArgs (call : Tracer) (args : List Expr) (scope : ScopeId) (s : Store)
    (next : List Value → Store → Trace) : Trace :=
  match args with
  | [] => next [] s
  | e :: rest =>
    (traceExpr call e scope s).andThen fun v s =>
      traceArgs call rest scope s fun vs s => next (v :: vs) s
termination_by structural args

def traceStmt (call : Tracer) (st : Stmt) (scope : ScopeId) (s : Store) : Trace :=
  .during (.node (.stmt st) scope) <| match st with
  | .bind none _ => .still (.error .missingName) s
  | .bind (some name) value =>
    (traceExpr call value scope s).andThen fun v s =>
      ⟨[.binds scope name v], (.ok v, s.set scope name v)⟩
  | .ret value => (traceExpr call value scope s).andThen fun v s => .still (.ok (.ret v)) s
  | .expr value => traceExpr call value scope s
  | .block body => traceBlock call body scope .null s
termination_by structural st

def traceBlock (call : Tracer) (body : List Stmt) (scope : ScopeId) (last : Value) (s : Store) :
    Trace :=
  match body with
  | [] => .still (.ok last) s
  | st :: rest =>
    (traceStmt call st scope s).andThen fun v s => traceBlock call rest scope v s
termination_by structural body

end

/-- The store that the body of a function is evaluated in: a scope is made below the one that the
function was made in, and the parameters are bound there. -/
def Store.entered (s : Store) (home : ScopeId) (bindings : List (Text × Value)) : Store :=
  bindAll s.scopes.size bindings (s.newScope (some home)).2

/-- What happens before the body of a function is evaluated. -/
def entry (home scope : ScopeId) (bindings : List (Text × Value)) : List Event :=
  .opens home :: bindings.map fun b => .binds scope b.1 b.2

/-- The trace of a call when `room` more calls may be active. A call that there is no room for
starts too. -/
def traceInvoke (limit : Nat) : (room : Nat) → Tracer
  | room, declaration, home, args, s =>
    match declaration with
    | none | some ⟨_, none⟩ => .still (.error .missingBody) s
    | some ⟨params, some body⟩ =>
      if args.length ≠ params.length then
        .still (.ok (.error (.wrongCount params.length args.length))) s
      else .during (.call ⟨params, some body⟩ args) <| match room with
        | 0 => .still (.error (.tooManyCalls limit)) s
        | room + 1 =>
          .behind (entry home s.scopes.size (params.zip args)) <|
            .during (.node (.stmt (.block body)) s.scopes.size) <|
              traceBlock (traceInvoke limit room) body s.scopes.size .null
                (s.entered home (params.zip args))

def traceNode (limit : Nat) (n : Node) (scope : ScopeId) (s : Store) : Trace :=
  match n with
  | .program p =>
    .during (.node (.program p) scope) <|
      traceBlock (traceInvoke limit limit) p.statements scope .null s
  | .stmt st => traceStmt (traceInvoke limit limit) st scope s
  | .expr e => traceExpr (traceInvoke limit limit) e scope s

/-! ## Traces end as evaluations do -/

/-- More calls would have been active than the limit allows. -/
def Result.TooDeep (r : Result) : Prop := ∃ limit, r.1 = .error (.tooManyCalls limit)

/-- `r'` is the same as `r`, unless `r` is excused. -/
def Result.Agrees (Excused : Result → Prop) (r r' : Result) : Prop := Excused r ∨ r' = r

/-- What is done next, or around it, does not help a result that is excused. -/
structure Result.Lasts (Excused : Result → Prop) : Prop where
  andThen : ∀ r next, Excused r → Excused (r.andThen next)
  unwrapped : ∀ r, Excused r → Excused r.unwrapped

namespace Result

theorem lasts_false : Lasts fun _ => False := ⟨fun _ _ h => h, fun _ h => h⟩

theorem lasts_tooDeep : Lasts TooDeep := by
  constructor
  · rintro ⟨_, s⟩ next ⟨limit, rfl⟩
    exact ⟨limit, rfl⟩
  · rintro ⟨_, s⟩ ⟨limit, rfl⟩
    exact ⟨limit, rfl⟩

end Result

namespace Trace

variable {Excused : Result → Prop} {t : Trace} {r : Result}

theorem result_andThen (t : Trace) (next : Value → Store → Trace) :
    (t.andThen next).result = t.result.andThen fun v s => (next v s).result := by
  obtain ⟨events, _ | v, s⟩ := t
  · rfl
  · simp only [andThen, Result.andThen]
    split <;> rfl

theorem agrees_refl (r : Result) : r.Agrees Excused r := Or.inr rfl

theorem agrees_andThen (hl : Result.Lasts Excused) {next : Value → Store → Trace}
    {next' : Value → Store → Result} (ht : t.result.Agrees Excused r)
    (hn : ∀ v s, (next v s).result.Agrees Excused (next' v s)) :
    (t.andThen next).result.Agrees Excused (r.andThen next') := by
  rw [result_andThen]
  rcases ht with ht | rfl
  · exact Or.inl (hl.andThen _ _ ht)
  · obtain ⟨events, _ | v, s⟩ := t
    · exact agrees_refl _
    · simp only [Result.andThen]
      split
      · exact agrees_refl _
      · exact hn v s

theorem agrees_unwrapped (hl : Result.Lasts Excused) (ht : t.result.Agrees Excused r) :
    t.result.unwrapped.Agrees Excused r.unwrapped := by
  rcases ht with ht | rfl
  · exact Or.inl (hl.unwrapped _ ht)
  · exact agrees_refl _

end Trace

/-- Traced calls end as other calls do, unless they are excused. -/
def Tracer.Agrees (Excused : Result → Prop) (call : Tracer) (call' : Caller) : Prop :=
  ∀ declaration home args s,
    (call declaration home args s).result.Agrees Excused (call' declaration home args s)

section

open Trace

variable {Excused : Result → Prop} {call : Tracer} {call' : Caller}

mutual

theorem traceExpr_agrees (hl : Result.Lasts Excused) (hc : call.Agrees Excused call') (e : Expr)
    (scope : ScopeId) (s : Store) :
    (traceExpr call e scope s).result.Agrees Excused (evalExpr call' e scope s) := by
  match e with
  | .hole | .int _ | .bool _ | .fn _ _ | .stub _ =>
    rw [traceExpr, evalExpr]
    exact agrees_refl _
  | .ident name =>
    rw [traceExpr, evalExpr]
    cases s.get? scope name <;> exact agrees_refl _
  | .unary op operand =>
    rw [traceExpr, evalExpr]
    exact agrees_andThen hl (traceExpr_agrees hl hc operand scope s) fun v s => agrees_refl _
  | .binary op left right =>
    rw [traceExpr, evalExpr]
    refine agrees_andThen hl (traceExpr_agrees hl hc left scope s) fun a s => ?_
    exact agrees_andThen hl (traceExpr_agrees hl hc right scope s) fun b s => agrees_refl _
  | .ifThen test yes =>
    rw [traceExpr, evalExpr]
    refine agrees_andThen hl (traceExpr_agrees hl hc test scope s) fun v s => ?_
    split
    · exact traceBlock_agrees hl hc yes scope .null s
    · exact agrees_refl _
  | .ifElse test yes no =>
    rw [traceExpr, evalExpr]
    refine agrees_andThen hl (traceExpr_agrees hl hc test scope s) fun v s => ?_
    split
    · exact traceBlock_agrees hl hc yes scope .null s
    · exact traceBlock_agrees hl hc no scope .null s
  | .call callee args =>
    rw [traceExpr, evalExpr]
    refine agrees_andThen hl (traceExpr_agrees hl hc callee scope s) fun f s => ?_
    refine traceArgs_agrees hl hc args scope s fun vs s => ?_
    cases f <;> first | exact hc _ _ vs s | exact agrees_refl _
termination_by structural e

theorem traceArgs_agrees (hl : Result.Lasts Excused) (hc : call.Agrees Excused call')
    (args : List Expr) (scope : ScopeId) (s : Store) {next : List Value → Store → Trace}
    {next' : List Value → Store → Result}
    (hn : ∀ vs s, (next vs s).result.Agrees Excused (next' vs s)) :
    (traceArgs call args scope s next).result.Agrees Excused
      (evalArgs call' args scope s next') := by
  match args with
  | [] =>
    rw [traceArgs, evalArgs]
    exact hn [] s
  | e :: rest =>
    rw [traceArgs, evalArgs]
    refine agrees_andThen hl (traceExpr_agrees hl hc e scope s) fun v s => ?_
    exact traceArgs_agrees hl hc rest scope s fun vs s => hn (v :: vs) s
termination_by structural args

theorem traceStmt_agrees (hl : Result.Lasts Excused) (hc : call.Agrees Excused call') (st : Stmt)
    (scope : ScopeId) (s : Store) :
    (traceStmt call st scope s).result.Agrees Excused (evalStmt call' st scope s) := by
  match st with
  | .bind none _ =>
    rw [traceStmt, evalStmt]
    exact agrees_refl _
  | .bind (some name) value =>
    rw [traceStmt, evalStmt]
    exact agrees_andThen hl (traceExpr_agrees hl hc value scope s) fun v s => agrees_refl _
  | .ret value =>
    rw [traceStmt, evalStmt]
    exact agrees_andThen hl (traceExpr_agrees hl hc value scope s) fun v s => agrees_refl _
  | .expr value =>
    rw [traceStmt, evalStmt]
    exact traceExpr_agrees hl hc value scope s
  | .block body =>
    rw [traceStmt, evalStmt]
    exact traceBlock_agrees hl hc body scope .null s
termination_by structural st

theorem traceBlock_agrees (hl : Result.Lasts Excused) (hc : call.Agrees Excused call')
    (body : List Stmt) (scope : ScopeId) (last : Value) (s : Store) :
    (traceBlock call body scope last s).result.Agrees Excused
      (evalBlock call' body scope last s) := by
  match body with
  | [] =>
    rw [traceBlock, evalBlock]
    exact agrees_refl _
  | st :: rest =>
    rw [traceBlock, evalBlock]
    refine agrees_andThen hl (traceStmt_agrees hl hc st scope s) fun v s => ?_
    exact traceBlock_agrees hl hc rest scope v s
termination_by structural body

end

end

/-! ## The cases of a call -/

section

variable {limit room : Nat} {params : List Text} {body : List Stmt} {home : ScopeId}
  {args : List Value} {s : Store}

theorem invoke_missingBody {declaration : Option Declaration}
    (h : ∀ params body, declaration ≠ some ⟨params, some body⟩) :
    invoke limit room declaration home args s = (.error .missingBody, s) := by
  unfold invoke
  split
  · rfl
  · rfl
  · exact absurd rfl (h _ _)

theorem invoke_wrongCount (h : args.length ≠ params.length) :
    invoke limit room (some ⟨params, some body⟩) home args s
      = (.ok (.error (.wrongCount params.length args.length)), s) := by
  unfold invoke
  exact if_pos h

theorem invoke_zero (h : args.length = params.length) :
    invoke limit 0 (some ⟨params, some body⟩) home args s = (.error (.tooManyCalls limit), s) := by
  unfold invoke
  exact if_neg (not_not_intro h)

theorem invoke_succ (h : args.length = params.length) :
    invoke limit (room + 1) (some ⟨params, some body⟩) home args s
      = (evalBlock (invoke limit room) body s.scopes.size .null
          (s.entered home (params.zip args))).unwrapped := by
  unfold invoke
  exact if_neg (not_not_intro h)

theorem traceInvoke_missingBody {declaration : Option Declaration}
    (h : ∀ params body, declaration ≠ some ⟨params, some body⟩) :
    traceInvoke limit room declaration home args s = .still (.error .missingBody) s := by
  unfold traceInvoke
  split
  · rfl
  · rfl
  · exact absurd rfl (h _ _)

theorem traceInvoke_wrongCount (h : args.length ≠ params.length) :
    traceInvoke limit room (some ⟨params, some body⟩) home args s
      = .still (.ok (.error (.wrongCount params.length args.length))) s := by
  unfold traceInvoke
  exact if_pos h

theorem traceInvoke_zero (h : args.length = params.length) :
    traceInvoke limit 0 (some ⟨params, some body⟩) home args s
      = .during (.call ⟨params, some body⟩ args) (.still (.error (.tooManyCalls limit)) s) := by
  unfold traceInvoke
  exact if_neg (not_not_intro h)

theorem traceInvoke_succ (h : args.length = params.length) :
    traceInvoke limit (room + 1) (some ⟨params, some body⟩) home args s
      = .during (.call ⟨params, some body⟩ args)
          (.behind (entry home s.scopes.size (params.zip args))
            (.during (.node (.stmt (.block body)) s.scopes.size)
              (traceBlock (traceInvoke limit room) body s.scopes.size .null
                (s.entered home (params.zip args))))) := by
  unfold traceInvoke
  exact if_neg (not_not_intro h)

/-- A property of all calls may be shown case by case. -/
theorem call_cases {P : Option Declaration → Prop}
    (missing : ∀ declaration, (∀ params body, declaration ≠ some ⟨params, some body⟩) →
      P declaration)
    (there : ∀ params body, P (some ⟨params, some body⟩)) (declaration : Option Declaration) :
    P declaration := by
  match declaration with
  | none => exact missing _ nofun
  | some ⟨_, none⟩ => exact missing _ nofun
  | some ⟨params, some body⟩ => exact there params body

end

/-- Traced calls end as calls with more room do, if running out of room is excused. Otherwise the
room has to be the same. -/
theorem traceInvoke_agrees {Excused : Result → Prop} (hl : Result.Lasts Excused)
    {limit limit' room room' : Nat}
    (h : limit' = limit ∧ room' = room ∨
      room ≤ room' ∧ ∀ s, Excused (.error (.tooManyCalls limit), s)) :
    (traceInvoke limit room).Agrees Excused (invoke limit' room') := by
  -- The body of a function is any tree at all, so the induction is on the room that is left.
  induction room using Nat.strongRecOn generalizing room' with
  | ind room ih =>
    intro declaration home args s
    induction declaration using call_cases with
    | missing declaration hm =>
      rw [traceInvoke_missingBody hm, invoke_missingBody hm]
      exact Trace.agrees_refl _
    | there params body =>
      by_cases hn : args.length = params.length
      · match room with
        | 0 =>
          rw [traceInvoke_zero hn]
          rcases h with ⟨rfl, rfl⟩ | ⟨-, h⟩
          · rw [invoke_zero hn]
            exact Trace.agrees_refl _
          · exact Or.inl (h s)
        | room + 1 =>
          obtain ⟨room'', rfl⟩ : ∃ n, room' = n + 1 := ⟨room' - 1, by omega⟩
          have hc : (traceInvoke limit room).Agrees Excused (invoke limit' room'') :=
            ih room (by omega) (h.imp (fun h => ⟨h.1, by omega⟩) fun h => ⟨by omega, h.2⟩)
          rw [traceInvoke_succ hn, invoke_succ hn]
          exact Trace.agrees_unwrapped hl (traceBlock_agrees hl hc _ _ _ _)
      · rw [traceInvoke_wrongCount hn, invoke_wrongCount hn]
        exact Trace.agrees_refl _

theorem traceNode_agrees {Excused : Result → Prop} (hl : Result.Lasts Excused)
    {limit limit' : Nat}
    (h : limit' = limit ∨ limit ≤ limit' ∧ ∀ s, Excused (.error (.tooManyCalls limit), s))
    (n : Node) (scope : ScopeId) (s : Store) :
    (traceNode limit n scope s).result.Agrees Excused (evalNode limit' n scope s) := by
  have hc : (traceInvoke limit limit).Agrees Excused (invoke limit' limit') := by
    apply traceInvoke_agrees hl
    rcases h with rfl | h
    · exact Or.inl ⟨rfl, rfl⟩
    · exact Or.inr h
  cases n with
  | program p => exact Trace.agrees_unwrapped hl (traceBlock_agrees hl hc _ _ _ _)
  | stmt st => exact traceStmt_agrees hl hc st scope s
  | expr e => exact traceExpr_agrees hl hc e scope s

/-- A trace ends with the result of the evaluation. -/
theorem traceNode_result (limit : Nat) (n : Node) (scope : ScopeId) (s : Store) :
    (traceNode limit n scope s).result = evalNode limit n scope s := by
  have h := traceNode_agrees Result.lasts_false (Or.inl (Eq.refl limit)) n scope s
  exact (h.resolve_left id).symm

theorem traceInvoke_result (limit room : Nat) (declaration : Option Declaration) (home : ScopeId)
    (args : List Value) (s : Store) :
    (traceInvoke limit room declaration home args s).result
      = invoke limit room declaration home args s := by
  have h : (traceInvoke limit room).Agrees (fun _ => False) (invoke limit room) :=
    traceInvoke_agrees Result.lasts_false (Or.inl ⟨rfl, rfl⟩)
  exact ((h declaration home args s).resolve_left id).symm

/-! ## How traces are put together -/

/-- What an evaluation in `scope` may do when `room` more calls may be active. -/
inductive Trace.Formed (limit : Nat) : (room : Nat) → (scope : ScopeId) → Store → Trace → Prop
  | still {room scope s} (r : Except Failure Value) (hr : ¬ Result.TooDeep (r, s)) :
      Formed limit room scope s (.still r s)
  | makes {room scope s} (f : Declaration) :
      Formed limit room scope s ⟨[.makes f scope], (.ok (s.newFunction (some f) scope).1,
        (s.newFunction (some f) scope).2)⟩
  | binds {room scope s} (name : Text) (v : Value) :
      Formed limit room scope s ⟨[.binds scope name v], (.ok v, s.set scope name v)⟩
  | andThen {room scope s t next} (first : Formed limit room scope s t)
      (rest : ∀ v s', t.result = (.ok v, s') → Formed limit room scope s' (next v s')) :
      Formed limit room scope s (t.andThen next)
  | node {room scope s t} (n : Node) (inside : Formed limit room scope s t) :
      Formed limit room scope s (t.during (.node n scope))
  /-- There is no room for the call. -/
  | refused {scope s} (f : Declaration) (args : List Value) :
      Formed limit 0 scope s (.during (.call f args) (.still (.error (.tooManyCalls limit)) s))
  | called {room scope s t} (f : Declaration) (args : List Value) (home : ScopeId)
      (bindings : List (Text × Value))
      (inside : Formed limit room s.scopes.size (s.entered home bindings) t) :
      Formed limit (room + 1) scope s
        (.during (.call f args) (.behind (entry home s.scopes.size bindings) t))

theorem Result.not_tooDeep_ok (v : Value) (s : Store) : ¬ Result.TooDeep (.ok v, s) := nofun

/-- Traced calls do what they may, whatever scope they are made in. -/
def Tracer.Formed (limit room : Nat) (call : Tracer) : Prop :=
  ∀ declaration home args s scope,
    Trace.Formed limit room scope s (call declaration home args s)

section

open Trace

variable {limit room : Nat} {call : Tracer}

theorem formed_value (scope : ScopeId) (v : Value) (s : Store) :
    Formed limit room scope s (.still (.ok v) s) :=
  .still _ (Result.not_tooDeep_ok v s)

mutual

theorem traceExpr_formed (hc : call.Formed limit room) (e : Expr) (scope : ScopeId) (s : Store) :
    Formed limit room scope s (traceExpr call e scope s) := by
  rw [traceExpr.eq_def]
  refine .node (.expr e) ?_
  match e with
  | .hole => exact .still _ nofun
  | .ident name =>
    dsimp only
    split <;> exact formed_value scope _ s
  | .int value => exact formed_value scope _ s
  | .bool value => exact formed_value scope _ s
  | .unary op operand =>
    exact .andThen (traceExpr_formed hc operand scope s) fun v s _ => formed_value scope _ s
  | .binary op left right =>
    refine .andThen (traceExpr_formed hc left scope s) fun a s _ => ?_
    exact .andThen (traceExpr_formed hc right scope s) fun b s _ => formed_value scope _ s
  | .ifThen test yes =>
    refine .andThen (traceExpr_formed hc test scope s) fun v s _ => ?_
    split
    · exact .node _ (traceBlock_formed hc yes scope .null s)
    · exact formed_value scope _ s
  | .ifElse test yes no =>
    refine .andThen (traceExpr_formed hc test scope s) fun v s _ => ?_
    split
    · exact .node _ (traceBlock_formed hc yes scope .null s)
    · exact .node _ (traceBlock_formed hc no scope .null s)
  | .fn params body => exact .makes _
  | .stub params => exact .makes _
  | .call callee args =>
    refine .andThen (traceExpr_formed hc callee scope s) fun f s _ => ?_
    refine traceArgs_formed hc args scope s fun vs s => ?_
    split
    · exact hc _ _ vs s scope
    · exact formed_value scope _ s
termination_by structural e

theorem traceArgs_formed (hc : call.Formed limit room) (args : List Expr) (scope : ScopeId)
    (s : Store) {next : List Value → Store → Trace}
    (hn : ∀ vs s, Formed limit room scope s (next vs s)) :
    Formed limit room scope s (traceArgs call args scope s next) := by
  match args with
  | [] =>
    rw [traceArgs]
    exact hn [] s
  | e :: rest =>
    rw [traceArgs]
    refine .andThen (traceExpr_formed hc e scope s) fun v s _ => ?_
    exact traceArgs_formed hc rest scope s fun vs s => hn (v :: vs) s
termination_by structural args

theorem traceStmt_formed (hc : call.Formed limit room) (st : Stmt) (scope : ScopeId) (s : Store) :
    Formed limit room scope s (traceStmt call st scope s) := by
  rw [traceStmt.eq_def]
  refine .node (.stmt st) ?_
  match st with
  | .bind none _ => exact .still _ nofun
  | .bind (some name) value =>
    exact .andThen (traceExpr_formed hc value scope s) fun v s _ => .binds name v
  | .ret value =>
    exact .andThen (traceExpr_formed hc value scope s) fun v s _ => formed_value scope _ s
  | .expr value => exact traceExpr_formed hc value scope s
  | .block body => exact traceBlock_formed hc body scope .null s
termination_by structural st

theorem traceBlock_formed (hc : call.Formed limit room) (body : List Stmt) (scope : ScopeId)
    (last : Value) (s : Store) :
    Formed limit room scope s (traceBlock call body scope last s) := by
  match body with
  | [] =>
    rw [traceBlock]
    exact formed_value scope last s
  | st :: rest =>
    rw [traceBlock]
    refine .andThen (traceStmt_formed hc st scope s) fun v s _ => ?_
    exact traceBlock_formed hc rest scope v s
termination_by structural body

end

end

theorem traceInvoke_formed (limit room : Nat) : (traceInvoke limit room).Formed limit room := by
  induction room using Nat.strongRecOn with
  | ind room ih =>
    intro declaration home args s scope
    induction declaration using call_cases with
    | missing declaration hm =>
      rw [traceInvoke_missingBody hm]
      exact .still _ nofun
    | there params body =>
      by_cases hn : args.length = params.length
      · match room with
        | 0 =>
          rw [traceInvoke_zero hn]
          exact .refused _ args
        | room + 1 =>
          rw [traceInvoke_succ hn]
          refine .called _ args home (params.zip args) ?_
          exact .node _ (traceBlock_formed (ih room (by omega)) body _ _ _)
      · rw [traceInvoke_wrongCount hn]
        exact formed_value scope _ s

theorem traceNode_formed (limit : Nat) (n : Node) (scope : ScopeId) (s : Store) :
    Trace.Formed limit limit scope s (traceNode limit n scope s) := by
  have hc := traceInvoke_formed limit limit
  cases n with
  | program p => exact .node _ (traceBlock_formed hc p.statements scope .null s)
  | stmt st => exact traceStmt_formed hc st scope s
  | expr e => exact traceExpr_formed hc e scope s

/-! ## Laws of traces -/

theorem replay_binds (scope : ScopeId) (bindings : List (Text × Value)) (s : Store) :
    replay (bindings.map fun b => .binds scope b.1 b.2) s = bindAll scope bindings s := by
  induction bindings generalizing s with
  | nil => rfl
  | cons b bindings ih => exact ih (s.set scope b.1 b.2)

theorem replay_entry (home : ScopeId) (bindings : List (Text × Value)) (s : Store) :
    replay (entry home s.scopes.size bindings) s = s.entered home bindings :=
  replay_binds _ _ _

theorem underWay_entry (home : ScopeId) (bindings : List (Text × Value)) (scope : ScopeId)
    (tasks : List Task) : underWay (entry home scope bindings) tasks = tasks := by
  show underWay (bindings.map fun b => .binds scope b.1 b.2) tasks = tasks
  induction bindings with
  | nil => rfl
  | cons b bindings ih => exact ih

namespace Trace

theorem ending_store (task : Task) (r : Result) : (task.ending r).2 = r.2 := by
  obtain ⟨_ | v, s⟩ := r <;> unfold Task.ending <;> split <;> rfl

theorem andThen_cases (t : Trace) (next : Value → Store → Trace) :
    t.andThen next = t ∨ ∃ v s, t.result = (.ok v, s) ∧ v.isAbrupt = false ∧
      t.andThen next = ⟨t.events ++ (next v s).events, (next v s).result⟩ := by
  obtain ⟨events, _ | v, s⟩ := t
  · exact Or.inl rfl
  · by_cases ha : v.isAbrupt = true
    · exact Or.inl (by simp [andThen, ha])
    · exact Or.inr ⟨v, s, rfl, by simpa using ha, by simp [andThen, ha]⟩

variable {limit room : Nat} {scope : ScopeId} {s : Store} {t : Trace}

theorem underWay_behind_entry (hb : ∀ tasks, underWay t.events tasks = tasks)
    (home scope : ScopeId) (bindings : List (Text × Value)) (tasks : List Task) :
    underWay (t.behind (entry home scope bindings)).events tasks = tasks := by
  rw [behind, underWay_append, underWay_entry, hb]

/-- The events of a trace are all that changes the store. -/
theorem Formed.store_eq (h : Formed limit room scope s t) : t.result.2 = replay t.events s := by
  induction h with
  | still | makes | binds => rfl
  | @andThen _ _ _ t next _ _ ih ihn =>
    rcases andThen_cases t next with h | ⟨v, s', hr, -, h⟩
    · rw [h, ih]
    · rw [h, ihn v s' hr, replay_append, ← ih, hr]
  | node n _ ih =>
    simp only [during, replay, Event.effect, ending_store, replay_append]
    exact ih
  | refused f args => rfl
  | called f args home bindings _ ih =>
    simp only [during, behind, replay, Event.effect, ending_store, replay_append,
      replay_entry]
    exact ih

/-- Every task that starts ends. -/
theorem Formed.balanced (h : Formed limit room scope s t) (tasks : List Task) :
    underWay t.events tasks = tasks := by
  induction h generalizing tasks with
  | still | makes | binds | refused => rfl
  | @andThen _ _ _ t next _ _ ih ihn =>
    rcases andThen_cases t next with h | ⟨v, s', hr, -, h⟩
    · rw [h, ih]
    · rw [h, underWay_append, ih, ihn v s' hr]
  | node n _ ih =>
    simp only [during, underWay, underWay_append, ih, List.tail_cons]
  | called f args home bindings _ ih =>
    simp only [during, underWay, underWay_append, underWay_behind_entry ih, List.tail_cons]

end Trace

end Borealis
