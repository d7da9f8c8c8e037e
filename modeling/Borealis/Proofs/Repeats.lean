-- Calls can be repeated. A call of a global function changes no binding that
-- was there before, so calling it again with the same globals ends in the same
-- way. Only the numbers of new scopes and functions differ.
import Borealis.Proofs.Shifts

namespace Borealis

/-! ## A call of a global function keeps all scopes -/

/-- The call of a global function with globals. -/
def Program.callOf (f : Text) (args : List Text) : Program :=
  ⟨[.expr (.call (.ident f) (args.map .ident))]⟩

section

variable {scope : ScopeId} {s₀ : Store}

theorem Result.andThen_keeps {r : Result} {next : Value → Store → Result}
    (hr : s₀.Keeps scope r.2) (hn : ∀ v s, s₀.Keeps scope s → s₀.Keeps scope (next v s).2) :
    s₀.Keeps scope (r.andThen next).2 := by
  obtain ⟨_ | v, s⟩ := r
  · exact hr
  · unfold Result.andThen
    dsimp only
    split
    · exact hr
    · exact hn v s hr

theorem evalExpr_ident_store (call : Caller) (name : Text) (home : ScopeId) (s : Store) :
    (evalExpr call (.ident name) home s).2 = s := by
  rw [evalExpr]
  split <;> rfl

theorem evalArgs_ident_keeps (call : Caller) (names : List Text) (home : ScopeId) {s : Store}
    (hs : s₀.Keeps scope s) {next : List Value → Store → Result}
    (hn : ∀ vs s, s₀.Keeps scope s → s₀.Keeps scope (next vs s).2) :
    s₀.Keeps scope (evalArgs call (names.map .ident) home s next).2 := by
  induction names generalizing s next with
  | nil =>
    rw [List.map_nil, evalArgs]
    exact hn [] s hs
  | cons name names ih =>
    rw [List.map_cons, evalArgs]
    refine Result.andThen_keeps (by rwa [evalExpr_ident_store]) fun v s hs => ?_
    exact ih hs fun vs s hs => hn (v :: vs) s hs

end

theorem evalNode_callOf_keeps (limit : Nat) (f : Text) (args : List Text) (home : ScopeId)
    (s : Store) :
    s.Keeps s.scopes.size (evalNode limit (.program (.callOf f args)) home s).2 := by
  rw [evalNode, Result.unwrapped_store, Program.callOf, evalBlock, evalStmt, evalExpr]
  refine Result.andThen_keeps (Result.andThen_keeps ?_ fun g s₁ h₁ => ?_) fun v s₁ h₁ => ?_
  · rw [evalExpr_ident_store]
    exact .refl _ s
  · refine evalArgs_ident_keeps _ args home h₁ fun vs s₂ h₂ => ?_
    cases g with
    | fn identity declaration home => exact h₂.trans (invoke_keeps limit limit _ _ vs s₂ _)
    | _ => exact h₂
  · rw [evalBlock]
    exact h₁

/-! ## Outcomes of two calls -/

/-- The same value, or functions with the same declaration. -/
inductive Value.Alike : Value → Value → Prop
  | int (x : Int64) : Alike (.int x) (.int x)
  | bool (x : Bool) : Alike (.bool x) (.bool x)
  | null : Alike .null .null
  | error (fault : Fault) : Alike (.error fault) (.error fault)
  | fn (f : Declaration) (identity identity' : Nat) (home home' : ScopeId) :
      Alike (.fn identity (some f) home) (.fn identity' (some f) home')

/-- Both requests ended with values that are alike, or because too many calls were active. -/
inductive Interpreter.Outcome.Repeats : Interpreter.Outcome → Interpreter.Outcome → Prop
  | value {v w : Value} (h : v.Alike w) : Repeats (.value v) (.value w)
  | tooManyCalls (limit : Nat) :
      Repeats (.failed (.tooManyCalls limit)) (.failed (.tooManyCalls limit))

theorem Value.Plain.alike {v : Value} (h : v.Plain) (ρ : Shift) : v.Alike (ρ.value v) := by
  cases h <;> constructor

namespace Interpreter

theorem repeats_of_allowed {limit : Nat} {ρ : Shift} {o o' : Except Failure Value}
    (ha : (Outcome.ofResult o).Allowed limit) (ho : o' = o.map ρ.value) :
    (Outcome.ofResult o).Repeats (Outcome.ofResult o') := by
  subst ho
  cases o with
  | error e =>
    cases ha
    exact .tooManyCalls limit
  | ok v =>
    cases ha with
    | plain h => exact .value (h.alike ρ)
    | fault fault => exact .value (.error fault)

end Interpreter

/-! ## Sessions -/

/-- The program that a request runs. A text with something wrong in it runs none. -/
def Request.program? : Request → Option Program
  | .text t =>
    if (Program.ofText t).diagnostics.isEmpty then some (Program.ofText t).program else none
  | .program p _ => some p

namespace Interpreter

theorem answer_some {r : Request} {p : Program} (h : r.program? = some p) (i : Interpreter) :
    i.answer r = (.ofResult (evalNode i.limit (.program p) globalScope i.store).1,
      { i with store := (evalNode i.limit (.program p) globalScope i.store).2 }) := by
  cases r with
  | program q hq =>
    cases h
    rfl
  | text t =>
    simp only [Request.program?] at h
    split at h
    · rename_i hd
      cases h
      simp only [answer, runText, hd, if_true]
      rfl
    · cases h

theorem answer_none {r : Request} (h : r.program? = none) (i : Interpreter) :
    (i.answer r).2 = i := by
  cases r with
  | program q hq => cases h
  | text t =>
    simp only [Request.program?] at h
    split at h
    · cases h
    · rename_i hd
      simp only [answer, runText, hd]
      rfl

/-- What holds of the interpreter between requests. -/
structure Ready (i : Interpreter) : Prop where
  sound : i.store.Sound
  closed : i.store.Closed
  global : globalScope < i.store.scopes.size

theorem new_ready (limit : Int) : (new limit).Ready := by
  refine ⟨new_sound limit, fun i x hx => ?_, by simp [new, Store.newScope, globalScope]⟩
  simp only [new, Store.newScope, Store.empty, Array.getElem?_push] at hx
  split at hx
  · cases hx
    exact ⟨by simp, by simp⟩
  · exact absurd hx (by simp)

variable {i : Interpreter}

theorem Ready.answer (h : i.Ready) (r : Request) : (i.answer r).2.Ready := by
  have hs := (serves h.sound r).store
  cases hp : r.program? with
  | none =>
    rw [answer_none hp]
    exact h
  | some p =>
    rw [answer_some hp] at hs ⊢
    have hg := (evalNode_keeps i.limit (.program p) globalScope i.store).size
    exact ⟨hs, evalNode_closed i.limit (.program p) h.closed h.global,
      Nat.lt_of_lt_of_le h.global hg⟩

theorem Ready.after (h : i.Ready) (rs : List Request) : (i.after rs).Ready := by
  induction rs generalizing i with
  | nil => exact h
  | cons r rest ih => exact ih (h.answer r)

/-- The second call starts where the first one ended, which differs from where the first one
started by what that made. -/
theorem Ready.repeats (h : i.Ready) {r : Request} {f : Text} {args : List Text}
    (hr : r.program? = some (.callOf f args)) :
    (i.answer r).1.Repeats ((i.answer r).2.answer r).1 := by
  have ha := (serves h.sound r).outcome
  rw [answer_some hr] at ha ⊢
  rw [answer_some hr]
  dsimp only at ha ⊢
  have hk := evalNode_callOf_keeps i.limit f args globalScope i.store
  have hs := evalNode_shifted i.limit (.program (.callOf f args)) (h.closed.shifted hk) h.global
  rw [Gap.skip_of_lt h.global] at hs
  exact repeats_of_allowed ha hs.outcome

end Interpreter

/-- After any requests, a call of a global function with globals ends in the same way when it is
asked for twice in a row. It does not matter what the names are bound to. -/
theorem global_calls_repeat (limit : Int) (earlier : List Request) {r : Request} {f : Text}
    {args : List Text} (hr : r.program? = some (.callOf f args)) :
    (((Interpreter.new limit).after earlier).answer r).1.Repeats
      ((((Interpreter.new limit).after earlier).answer r).2.answer r).1 :=
  ((Interpreter.new_ready limit).after earlier).repeats hr

/-- A function that makes functions, and a number. -/
def makingAdders : Request :=
  .text "let adder = fn(x) \x7b fn(y) \x7b x + y \x7d \x7d; let n = 5;"

/-- The call of the function with the number. -/
def makeAdder : Request := .text "adder(n)"

/-- Two calls make two functions with the same declaration. -/
theorem makeAdder_repeats :
    makeAdder.program? = some (.callOf "adder" ["n"]) ∧
      (((Interpreter.new 3).after [makingAdders]).answer makeAdder).1.Repeats
        ((((Interpreter.new 3).after [makingAdders]).answer makeAdder).2.answer makeAdder).1 := by
  have h : makeAdder.program? = some (.callOf "adder" ["n"]) := by rfl
  exact ⟨h, global_calls_repeat 3 [makingAdders] h⟩

end Borealis
