-- What holds after every request of a session. Bindings are values that the
-- language can go on with: no error and no returned value is ever bound, and
-- every function has its body. So no request ends in a way that only a broken
-- tree could cause.
import Borealis.Interpreter
import Borealis.Proofs.StoredTrees

namespace Borealis

/-! ## Values -/

/-- The values that a name may be bound to. A function has its declaration and body. -/
inductive Value.Plain : Value → Prop
  | int (x : Int64) : Plain (.int x)
  | bool (x : Bool) : Plain (.bool x)
  | null : Plain .null
  | fn (identity : Nat) (params : List Text) (body : List Stmt) (home : ScopeId) :
      Plain (.fn identity (some ⟨params, some body⟩) home)

/-- A plain value. If it is a function, then its body is a whole tree. -/
def Value.Sound : Value → Prop
  | .int _ | .bool _ | .null => True
  | .fn _ (some ⟨_, some body⟩) _ => Stmt.AllWhole body
  | _ => False

/-- What a call or a program ends with: a sound value or an error. -/
def Value.Settled (v : Value) : Prop := v.Sound ∨ ∃ fault, v = .error fault

/-- What a part of a program ends with: it may also be on the way up to a call. -/
def Value.Proper (v : Value) : Prop := v.Settled ∨ ∃ u, v = .ret u ∧ u.Sound

/-- Values with nothing of the store in them. Operators give only such values. -/
def Value.isGround : Value → Bool
  | .int _ | .bool _ | .null | .error _ => true
  | _ => false

namespace Value

variable {v a b : Value}

theorem Sound.plain (h : v.Sound) : v.Plain := by
  unfold Sound at h
  split at h
  · exact Plain.int _
  · exact Plain.bool _
  · exact Plain.null
  · exact Plain.fn _ _ _ _
  · exact h.elim

theorem settled_error (fault : Fault) : (error fault).Settled := Or.inr ⟨fault, rfl⟩

theorem Settled.proper (h : v.Settled) : v.Proper := Or.inl h

theorem Sound.proper (h : v.Sound) : v.Proper := Or.inl (Or.inl h)

theorem null_proper : null.Proper := Or.inl (Or.inl trivial)

/-- Where evaluation goes on, the value is sound. -/
theorem Proper.sound (h : v.Proper) (ha : v.isAbrupt = false) : v.Sound := by
  rcases h with (h | ⟨fault, rfl⟩) | ⟨u, rfl, -⟩
  · exact h
  · exact absurd ha (by simp [isAbrupt])
  · exact absurd ha (by simp [isAbrupt])

theorem Proper.unwrapped (h : v.Proper) : v.unwrapped.Settled := by
  rcases h with (h | ⟨fault, rfl⟩) | ⟨u, rfl, hu⟩
  · left
    unfold Value.unwrapped
    split
    · exact h.elim
    · exact h
  · exact settled_error fault
  · exact Or.inl hu

theorem settled_int (x : Int64) : (int x).Settled := Or.inl trivial

theorem settled_bool (x : Bool) : (bool x).Settled := Or.inl trivial

theorem settled_of_isGround (h : v.isGround = true) : v.Settled := by
  unfold isGround at h
  split at h
  · exact settled_int _
  · exact settled_bool _
  · exact Or.inl trivial
  · exact settled_error _
  · cases h

theorem isGround_ite {p : Prop} [Decidable p] (ha : a.isGround = true) (hb : b.isGround = true) :
    (if p then a else b).isGround = true := by
  split
  · exact ha
  · exact hb

theorem isGround_unary (op : Text) (v : Value) : (v.unary op).isGround = true := by
  unfold unary
  refine isGround_ite rfl ?_
  split
  · exact isGround_ite rfl rfl
  · rfl

theorem isGround_integerOperation (op : Text) (x y : Int64) :
    (integerOperation op x y).isGround = true := by
  unfold integerOperation
  refine isGround_ite rfl (isGround_ite rfl (isGround_ite rfl ?_))
  refine isGround_ite (isGround_ite rfl rfl) (isGround_ite rfl (isGround_ite rfl ?_))
  exact isGround_ite rfl (isGround_ite rfl rfl)

theorem isGround_binary (op : Text) (a b : Value) : (a.binary op b).isGround = true := by
  unfold binary
  split
  · exact isGround_integerOperation op _ _
  · exact isGround_ite rfl (isGround_ite rfl (isGround_ite rfl rfl))

end Value

/-! ## Stores -/

/-- Every binding of every scope is sound. -/
def Store.Sound (s : Store) : Prop :=
  ∀ (i : Nat) (x : Scope), s.scopes[i]? = some x → ∀ b ∈ x.bindings, b.2.Sound

theorem mem_insertBinding {name : Text} {v : Value} {l : List (Text × Value)} {b : Text × Value}
    (h : b ∈ insertBinding name v l) : b = (name, v) ∨ b ∈ l := by
  induction l with
  | nil => exact Or.inl (List.mem_singleton.mp h)
  | cons x l ih =>
    obtain ⟨k, u⟩ := x
    unfold insertBinding at h
    split at h
    · rcases List.mem_cons.mp h with h | h
      · exact Or.inl h
      · exact Or.inr (List.mem_cons_of_mem _ h)
    · split at h
      · exact List.mem_cons.mp h
      · rcases List.mem_cons.mp h with h | h
        · exact Or.inr (h ▸ List.mem_cons_self)
        · rcases ih h with h | h
          · exact Or.inl h
          · exact Or.inr (List.mem_cons_of_mem _ h)

namespace Store.Sound

variable {s : Store} {v : Value}

theorem empty : Store.empty.Sound := by
  intro i x hx
  exact absurd hx (by simp [Store.empty])

theorem find? (h : s.Sound) {name : Text} {n : Nat} {scope : ScopeId}
    (hv : s.find? name n scope = some v) : v.Sound := by
  induction n generalizing scope with
  | zero => exact absurd hv (by simp [Store.find?])
  | succ n ih =>
    unfold Store.find? at hv
    split at hv
    · exact absurd hv (by simp)
    · rename_i x hx
      split at hv
      · rename_i u hu
        injection hv with hv
        subst hv
        obtain ⟨l, l', hl, -⟩ := List.lookup_eq_some_iff.mp hu
        exact h scope x hx (name, u) (by simp [hl])
      · split at hv
        · exact ih hv
        · exact absurd hv (by simp)

theorem newScope (h : s.Sound) (parent : Option ScopeId) : (s.newScope parent).2.Sound := by
  intro i x hx
  simp only [Store.newScope, Array.getElem?_push] at hx
  split at hx
  · injection hx with hx
    subst hx
    simp
  · exact h i x hx

theorem newFunction (h : s.Sound) (declaration : Option Declaration) (scope : ScopeId) :
    (s.newFunction declaration scope).2.Sound := h

theorem set (h : s.Sound) (scope : ScopeId) (name : Text) (hv : v.Sound) :
    (s.set scope name v).Sound := by
  intro i x hx b hb
  simp only [Store.set, Array.getElem?_modify] at hx
  split at hx
  · cases hy : s.scopes[i]? with
    | none => rw [hy] at hx; exact absurd hx (by simp)
    | some y =>
      rw [hy] at hx
      injection hx with hx
      subst hx
      rcases mem_insertBinding hb with rfl | hb
      · exact hv
      · exact h i y hy b hb
  · exact h i x hx b hb

theorem bindAll (h : s.Sound) (scope : ScopeId) {bs : List (Text × Value)}
    (hb : ∀ b ∈ bs, b.2.Sound) : (bindAll scope bs s).Sound := by
  induction bs generalizing s with
  | nil => exact h
  | cons b bs ih =>
    rw [List.forall_mem_cons] at hb
    exact ih (h.set scope b.1 hb.1) hb.2

end Store.Sound

/-! ## Evaluation -/

/-- The evaluation left a sound store. It ended with a value of the kind `P`, or because too many
calls were active. -/
structure Result.Ends (limit : Nat) (P : Value → Prop) (r : Result) : Prop where
  store : r.2.Sound
  value : ∀ v, r.1 = .ok v → P v
  failure : ∀ e, r.1 = .error e → e = .tooManyCalls limit

namespace Result

variable {limit : Nat} {P Q : Value → Prop} {r : Result} {s : Store} {v : Value}

theorem ends_ok (hs : s.Sound) (hv : P v) : Result.Ends limit P (.ok v, s) := by
  refine ⟨hs, fun u hu => ?_, nofun⟩
  injection hu with hu
  exact hu ▸ hv

theorem ends_tooManyCalls (hs : s.Sound) :
    Result.Ends limit P (.error (.tooManyCalls limit), s) := by
  refine ⟨hs, nofun, fun e he => ?_⟩
  injection he with he
  exact he.symm

theorem Ends.mono (h : r.Ends limit P) (hPQ : ∀ v, P v → Q v) : r.Ends limit Q :=
  ⟨h.store, fun v hv => hPQ v (h.value v hv), h.failure⟩

/-- What comes next starts with a sound value: an error or a returned value is passed on. -/
theorem Ends.andThen {next : Value → Store → Result} (h : r.Ends limit Value.Proper)
    (hn : ∀ v s, v.Sound → s.Sound → (next v s).Ends limit Value.Proper) :
    (r.andThen next).Ends limit Value.Proper := by
  obtain ⟨hs, hv, he⟩ := h
  unfold Result.andThen
  split
  · exact ⟨hs, nofun, he⟩
  · rename_i v s
    cases ha : v.isAbrupt with
    | true => exact ⟨hs, hv, nofun⟩
    | false => exact hn v s ((hv v rfl).sound ha) hs

theorem unwrapped_store (r : Result) : r.unwrapped.2 = r.2 := by
  obtain ⟨_ | v, s⟩ := r <;> rfl

theorem Ends.unwrapped (h : r.Ends limit Value.Proper) :
    r.unwrapped.Ends limit Value.Settled := by
  obtain ⟨hs, hv, he⟩ := h
  unfold Result.unwrapped
  split
  · exact ⟨hs, nofun, he⟩
  · exact ends_ok hs (hv _ rfl).unwrapped

end Result

/-- Calls of functions with whole bodies end. -/
def Caller.Sound (limit : Nat) (call : Caller) : Prop :=
  ∀ (params : List Text) (body : List Stmt) (home : ScopeId) (args : List Value) (s : Store),
    Stmt.AllWhole body → (∀ v ∈ args, v.Sound) → s.Sound →
    (call (some ⟨params, some body⟩) home args s).Ends limit Value.Settled

section

open Result

variable {limit : Nat} {call : Caller}

mutual

theorem evalExpr_ends (hc : Caller.Sound limit call) (e : Expr) (he : e.Whole)
    (scope : ScopeId) {s : Store} (hs : s.Sound) : (evalExpr call e scope s).Ends limit Value.Proper := by
  match e with
  | .hole => exact he.elim
  | .stub _ => exact he.elim
  | .ident name =>
    rw [evalExpr]
    split
    · rename_i v hv
      exact ends_ok hs (hs.find? hv).proper
    · exact ends_ok hs (Value.settled_error _).proper
  | .int value => exact ends_ok hs (Value.settled_int value).proper
  | .bool value => exact ends_ok hs (Value.settled_bool value).proper
  | .unary op operand =>
    rw [evalExpr]
    refine (evalExpr_ends hc operand he scope hs).andThen fun v s _ hs => ?_
    exact ends_ok hs (Value.settled_of_isGround (Value.isGround_unary op v)).proper
  | .binary op left right =>
    rw [evalExpr]
    refine (evalExpr_ends hc left he.1 scope hs).andThen fun a s _ hs => ?_
    refine (evalExpr_ends hc right he.2 scope hs).andThen fun b s _ hs => ?_
    exact ends_ok hs (Value.settled_of_isGround (Value.isGround_binary op a b)).proper
  | .ifThen test yes =>
    rw [evalExpr]
    refine (evalExpr_ends hc test he.1 scope hs).andThen fun v s _ hs => ?_
    split
    · exact evalBlock_ends hc yes he.2 scope Value.null_proper hs
    · exact ends_ok hs Value.null_proper
  | .ifElse test yes no =>
    rw [evalExpr]
    refine (evalExpr_ends hc test he.1 scope hs).andThen fun v s _ hs => ?_
    split
    · exact evalBlock_ends hc yes he.2.1 scope Value.null_proper hs
    · exact evalBlock_ends hc no he.2.2 scope Value.null_proper hs
  | .fn params body =>
    rw [evalExpr]
    have hf : Value.Sound (.fn s.functions (some ⟨params, some body⟩) scope) := he
    exact ends_ok (hs.newFunction (some ⟨params, some body⟩) scope) hf.proper
  | .call callee args =>
    rw [evalExpr]
    refine (evalExpr_ends hc callee he.1 scope hs).andThen fun f s hf hs => ?_
    refine evalArgs_ends hc args he.2 scope hs fun vs s hvs hs => ?_
    split
    · rename_i declaration home
      -- A sound function has a body, so it can be called.
      match declaration with
      | some ⟨params, some body⟩ => exact (hc params body home vs s hf hvs hs).mono fun _ => Value.Settled.proper
      | some ⟨_, none⟩ => exact hf.elim
      | none => exact hf.elim
    · exact ends_ok hs (Value.settled_error _).proper
termination_by structural e

theorem evalArgs_ends (hc : Caller.Sound limit call) (args : List Expr)
    (ha : Expr.AllWhole args) (scope : ScopeId) {s : Store} (hs : s.Sound)
    {next : List Value → Store → Result}
    (hn : ∀ vs s, (∀ v ∈ vs, v.Sound) → s.Sound → (next vs s).Ends limit Value.Proper) :
    (evalArgs call args scope s next).Ends limit Value.Proper := by
  match args with
  | [] =>
    rw [evalArgs]
    exact hn [] s (by simp) hs
  | e :: rest =>
    rw [evalArgs]
    refine (evalExpr_ends hc e ha.1 scope hs).andThen fun v s hv hs => ?_
    refine evalArgs_ends hc rest ha.2 scope hs fun vs s hvs hs => ?_
    exact hn (v :: vs) s (List.forall_mem_cons.mpr ⟨hv, hvs⟩) hs
termination_by structural args

theorem evalStmt_ends (hc : Caller.Sound limit call) (st : Stmt) (hst : st.Whole)
    (scope : ScopeId) {s : Store} (hs : s.Sound) : (evalStmt call st scope s).Ends limit Value.Proper := by
  match st with
  | .bind none _ => exact hst.elim
  | .bind (some name) value =>
    rw [evalStmt]
    refine (evalExpr_ends hc value hst scope hs).andThen fun v s hv hs => ?_
    exact ends_ok (hs.set scope name hv) hv.proper
  | .ret value =>
    rw [evalStmt]
    refine (evalExpr_ends hc value hst scope hs).andThen fun v s hv hs => ?_
    exact ends_ok hs (Or.inr ⟨v, rfl, hv⟩)
  | .expr value =>
    rw [evalStmt]
    exact evalExpr_ends hc value hst scope hs
  | .block body =>
    rw [evalStmt]
    exact evalBlock_ends hc body hst scope Value.null_proper hs
termination_by structural st

theorem evalBlock_ends (hc : Caller.Sound limit call) (body : List Stmt)
    (hb : Stmt.AllWhole body) (scope : ScopeId) {last : Value} (hl : last.Proper) {s : Store}
    (hs : s.Sound) : (evalBlock call body scope last s).Ends limit Value.Proper := by
  match body with
  | [] =>
    rw [evalBlock]
    exact ends_ok hs hl
  | st :: rest =>
    rw [evalBlock]
    refine (evalStmt_ends hc st hb.1 scope hs).andThen fun v s hv hs => ?_
    exact evalBlock_ends hc rest hb.2 scope hv.proper hs
termination_by structural body

end

end

theorem invoke_sound (limit room : Nat) : Caller.Sound limit (invoke limit room) := by
  -- By induction on the calls that may still be made: the body is run with one less.
  induction room with
  | zero =>
    intro params body home args s _ _ hs
    unfold invoke
    dsimp only
    split
    · exact Result.ends_ok hs (Value.settled_error _)
    · exact Result.ends_tooManyCalls hs
  | succ room ih =>
    intro params body home args s hb ha hs
    unfold invoke
    dsimp only
    split
    · exact Result.ends_ok hs (Value.settled_error _)
    · refine (evalBlock_ends ih body hb _ Value.null_proper ?_).unwrapped
      refine (hs.newScope (some home)).bindAll _ fun b hb => ?_
      exact ha b.2 (List.of_mem_zip hb).2

/-- A program of whole statements leaves a sound store and never ends with a returned value. -/
theorem evalNode_program_ends (limit : Nat) {p : Program} (hp : Stmt.AllWhole p.statements)
    (scope : ScopeId) {s : Store} (hs : s.Sound) :
    (evalNode limit (.program p) scope s).Ends limit Value.Settled :=
  (evalBlock_ends (invoke_sound limit limit) p.statements hp scope Value.null_proper hs).unwrapped

/-! ## Requests -/

/-- The program was read from a stored tree or from tokens, with or without complaints. -/
def Program.IsRead (p : Program) : Prop :=
  (∃ t, Program.ofJsonText t = .ok p) ∨ ∃ ts, p = (Program.ofTokens ts).program

theorem Program.IsRead.whole {p : Program} (h : p.IsRead) : Stmt.AllWhole p.statements := by
  rcases h with ⟨t, ht⟩ | ⟨ts, rfl⟩
  · exact Stmt.AllStorable.whole (Program.ofJsonText_storable ht)
  · exact Program.ofSource_whole (TokenList.ofList ts)

/-- What an interpreter is asked to run: a source text, or a program that was read before. -/
inductive Request where
  | text (t : Text)
  | program (p : Program) (read : p.IsRead)

namespace Interpreter

/-- Runs what is asked for in the global scope. -/
def answer (i : Interpreter) : Request → Outcome × Interpreter
  | .text t => i.runText t
  | .program p _ =>
    let (result, i) := i.runProgram p
    (.ofResult result, i)

/-- The interpreter after requests, one after the other. -/
def after (i : Interpreter) : List Request → Interpreter
  | [] => i
  | r :: rest => (i.answer r).2.after rest

/-- The ways in which a request may end: with a plain value or an error value, with something
wrong in the text, or because too many calls were active. -/
inductive Outcome.Allowed (limit : Nat) : Outcome → Prop
  | plain {v : Value} (h : v.Plain) : Allowed limit (.value v)
  | fault (fault : Fault) : Allowed limit (.value (.error fault))
  | rejected {ds : List Diagnostic} (h : ds ≠ []) : Allowed limit (.rejected ds)
  | tooManyCalls : Allowed limit (.failed (.tooManyCalls limit))

theorem allowed_ofResult {limit : Nat} {r : Result} (h : r.Ends limit Value.Settled) :
    (Outcome.ofResult r.1).Allowed limit := by
  obtain ⟨result, s⟩ := r
  cases result with
  | error e =>
    rw [h.failure e rfl]
    exact Outcome.Allowed.tooManyCalls
  | ok v =>
    rcases h.value v rfl with hv | ⟨fault, rfl⟩
    · exact Outcome.Allowed.plain hv.plain
    · exact Outcome.Allowed.fault fault

/-- What one request does to an interpreter with a sound store. -/
structure Serves (i : Interpreter) (r : Request) : Prop where
  store : (i.answer r).2.store.Sound
  limit : (i.answer r).2.limit = i.limit
  outcome : (i.answer r).1.Allowed i.limit

theorem runProgram_serves {i : Interpreter} (hi : i.store.Sound) {p : Program}
    (hp : Stmt.AllWhole p.statements) :
    (i.runProgram p).2.store.Sound ∧ (i.runProgram p).2.limit = i.limit ∧
      (Outcome.ofResult (i.runProgram p).1).Allowed i.limit := by
  have h := evalNode_program_ends i.limit hp globalScope hi
  exact ⟨h.store, rfl, allowed_ofResult h⟩

theorem serves {i : Interpreter} (hi : i.store.Sound) (r : Request) : i.Serves r := by
  cases r with
  | text t =>
    cases hd : (Program.ofText t).diagnostics.isEmpty with
    | true =>
      have ht : i.answer (.text t) = (.ofResult (i.runProgram (Program.ofText t).program).1,
          (i.runProgram (Program.ofText t).program).2) := by
        simp only [answer, runText, hd, if_true]
      obtain ⟨hs, hl, ho⟩ := runProgram_serves hi (Program.ofSource_whole (Lexer.ofText t))
      exact ⟨ht ▸ hs, ht ▸ hl, ht ▸ ho⟩
    | false =>
      have ht : i.answer (.text t) = (.rejected (Program.ofText t).diagnostics, i) := by
        simp [answer, runText, hd]
      refine ⟨ht ▸ hi, ht ▸ rfl, ht ▸ Outcome.Allowed.rejected fun h => ?_⟩
      exact absurd hd (by simp [h])
  | program p hp =>
    obtain ⟨hs, hl, ho⟩ := runProgram_serves hi hp.whole
    exact ⟨hs, hl, ho⟩

/-- Requests keep the store sound and the limit as it is. -/
theorem after_sound {i : Interpreter} (hi : i.store.Sound) (rs : List Request) :
    (i.after rs).store.Sound ∧ (i.after rs).limit = i.limit := by
  induction rs generalizing i with
  | nil => exact ⟨hi, rfl⟩
  | cons r rest ih =>
    have h := serves hi r
    obtain ⟨hs, hl⟩ := ih h.store
    exact ⟨hs, hl.trans h.limit⟩

theorem new_sound (limit : Int) : (new limit).store.Sound := Store.Sound.empty.newScope none

end Interpreter

theorem Store.Sound.plain {s : Store} (h : s.Sound) {scope : ScopeId} {b : Text × Value}
    (hb : b ∈ s.bindings scope) : b.2.Plain := by
  unfold Store.bindings at hb
  split at hb
  · rename_i x hx
    exact (h scope x hx b hb).plain
  · exact absurd hb (by simp)

/-- In every session, a request ends in one of the allowed ways, and afterwards every binding of
every scope is plain. -/
theorem sessions_stay_sound (limit : Int) (earlier : List Request) (r : Request) :
    (((Interpreter.new limit).after earlier).answer r).1.Allowed (Interpreter.new limit).limit ∧
      ∀ scope, ∀ b ∈ (((Interpreter.new limit).after earlier).answer r).2.store.bindings scope,
        b.2.Plain := by
  obtain ⟨hs, hl⟩ := Interpreter.after_sound (Interpreter.new_sound limit) earlier
  have h := Interpreter.serves hs r
  exact ⟨hl ▸ h.outcome, fun scope b hb => h.store.plain hb⟩

/-- A function that returns from inside its body. -/
def halving : Request := .text "let half = fn(x) \x7b return x / 2; \x7d;"

/-- Tokens with a stray parenthesis, and a division by zero behind it. -/
def strayTokens : List Token := lex "let y = half(6); ) half(y) / 0"

/-- Asks for what could be read of the tokens. -/
def strayParenthesis : Request :=
  .program (Program.ofTokens strayTokens).program (Or.inr ⟨strayTokens, rfl⟩)

theorem halving_stays_sound :
    (((Interpreter.new 2).after [halving]).answer strayParenthesis).1.Allowed
        (Interpreter.new 2).limit ∧
      ∃ b ∈ (((Interpreter.new 2).after [halving]).answer strayParenthesis).2.store.bindings 0,
        b.1 = "half" ∧ b.2.kind = .function ∧ b.2.Plain := by
  obtain ⟨hended, hplain⟩ := sessions_stay_sound 2 [halving] strayParenthesis
  have hbound : ∃ b ∈
      (((Interpreter.new 2).after [halving]).answer strayParenthesis).2.store.bindings 0,
      b.1 = "half" ∧ b.2.kind = .function := by decide +kernel
  obtain ⟨b, hb, hname, hkind⟩ := hbound
  exact ⟨hended, b, hb, hname, hkind, hplain 0 b hb⟩

end Borealis
