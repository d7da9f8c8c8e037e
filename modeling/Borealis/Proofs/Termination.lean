-- Evaluation ends. The evaluator here knows of nothing that gets smaller: from
-- a node it goes to its parts, from a call to a body that it finds in the
-- store, from a scope to its parent, and each such step takes one unit of
-- fuel. As long as no scope is above itself, enough fuel gets it to a result,
-- and the result is that of the evaluation.
import Borealis.Proofs.Shifts
import Mathlib.Data.Fintype.Pigeonhole
import Mathlib.Logic.Relation

namespace Borealis

/-! ## An evaluator on fuel -/

namespace Fuel

/-- Goes on with the value, unless the fuel ran out, there is no value or it stops evaluation. -/
def andThen (r : Option Result) (next : Value → Store → Option Result) : Option Result :=
  match r with
  | none => none
  | some (.error e, s) => some (.error e, s)
  | some (.ok v, s) => if v.isAbrupt then some (.ok v, s) else next v s

/-- Looks a name up in a scope, and then in its parents for as long as there are any. -/
def look (s : Store) (name : Text) : (fuel : Nat) → ScopeId → Option (Option Value)
  | 0, _ => none
  | fuel + 1, scope =>
    match s.scopes[scope]? with
    | none => some none
    | some x =>
      match x.get? name with
      | some v => some (some v)
      | none =>
        match x.parent with
        | some p => look s name fuel p
        | none => some none

-- `depth` counts the calls that are active. All recursion is on the fuel: a part of a node is given
-- one unit less, and so is the body of a function, whatever its size.
mutual

def expr (limit fuel depth : Nat) (e : Expr) (scope : ScopeId) (s : Store) : Option Result :=
  match fuel with
  | 0 => none
  | fuel + 1 =>
    match e with
    | .hole => some (.error .missingNode, s)
    | .ident name =>
      match look s name fuel scope with
      | none => none
      | some (some v) => some (.ok v, s)
      | some none => some (.ok (.error (.unbound name)), s)
    | .int value => some (.ok (.int value), s)
    | .bool value => some (.ok (.bool value), s)
    | .unary op operand =>
      andThen (expr limit fuel depth operand scope s) fun v s => some (.ok (v.unary op), s)
    | .binary op left right =>
      andThen (expr limit fuel depth left scope s) fun a s =>
        andThen (expr limit fuel depth right scope s) fun b s => some (.ok (a.binary op b), s)
    | .ifThen test yes =>
      andThen (expr limit fuel depth test scope s) fun v s =>
        if v.isTruthy then block limit fuel depth yes scope .null s else some (.ok .null, s)
    | .ifElse test yes no =>
      andThen (expr limit fuel depth test scope s) fun v s =>
        if v.isTruthy then block limit fuel depth yes scope .null s
        else block limit fuel depth no scope .null s
    | .fn params body =>
      let (f, s) := s.newFunction (some ⟨params, some body⟩) scope
      some (.ok f, s)
    | .stub params =>
      let (f, s) := s.newFunction (some ⟨params, none⟩) scope
      some (.ok f, s)
    | .call callee args =>
      andThen (expr limit fuel depth callee scope s) fun f s =>
        arguments limit fuel depth args scope s fun vs s =>
          match f with
          | .fn _ declaration home => call limit fuel depth declaration home vs s
          | f => some (.ok (.error (.notFunction f.kind)), s)
termination_by structural fuel

def arguments (limit fuel depth : Nat) (args : List Expr) (scope : ScopeId) (s : Store)
    (next : List Value → Store → Option Result) : Option Result :=
  match fuel with
  | 0 => none
  | fuel + 1 =>
    match args with
    | [] => next [] s
    | e :: rest =>
      andThen (expr limit fuel depth e scope s) fun v s =>
        arguments limit fuel depth rest scope s fun vs s => next (v :: vs) s
termination_by structural fuel

def stmt (limit fuel depth : Nat) (st : Stmt) (scope : ScopeId) (s : Store) : Option Result :=
  match fuel with
  | 0 => none
  | fuel + 1 =>
    match st with
    | .bind none _ => some (.error .missingName, s)
    | .bind (some name) value =>
      andThen (expr limit fuel depth value scope s) fun v s => some (.ok v, s.set scope name v)
    | .ret value => andThen (expr limit fuel depth value scope s) fun v s => some (.ok (.ret v), s)
    | .expr value => expr limit fuel depth value scope s
    | .block body => block limit fuel depth body scope .null s
termination_by structural fuel

def block (limit fuel depth : Nat) (body : List Stmt) (scope : ScopeId) (last : Value)
    (s : Store) : Option Result :=
  match fuel with
  | 0 => none
  | fuel + 1 =>
    match body with
    | [] => some (.ok last, s)
    | st :: rest =>
      andThen (stmt limit fuel depth st scope s) fun v s => block limit fuel depth rest scope v s
termination_by structural fuel

/-- One more call is active, if that many are allowed. -/
def call (limit fuel depth : Nat) (declaration : Option Declaration) (home : ScopeId)
    (args : List Value) (s : Store) : Option Result :=
  match fuel with
  | 0 => none
  | fuel + 1 =>
    match declaration with
    | none | some ⟨_, none⟩ => some (.error .missingBody, s)
    | some ⟨params, some body⟩ =>
      if args.length ≠ params.length then
        some (.ok (.error (.wrongCount params.length args.length)), s)
      else if limit < depth + 1 then some (.error (.tooManyCalls limit), s)
      else
        (block limit fuel (depth + 1) body s.scopes.size .null
          (s.entered home (params.zip args))).map Result.unwrapped
termination_by structural fuel

end

/-- Evaluates a node in a scope, when no call is active yet. -/
def node (limit fuel : Nat) (n : Node) (scope : ScopeId) (s : Store) : Option Result :=
  match n with
  | .program p => (block limit fuel 0 p.statements scope .null s).map Result.unwrapped
  | .stmt st => stmt limit fuel 0 st scope s
  | .expr e => expr limit fuel 0 e scope s

end Fuel

/-! ## Stores without a cycle -/

/-- One scope is the parent of the other. -/
def Store.Under (s : Store) (i p : ScopeId) : Prop := s.parent? i = some p

/-- The functions of the value were made in scopes of the store. -/
def Value.LivesIn (s : Store) : Value → Prop
  | .fn _ _ home => home < s.scopes.size
  | .ret v => v.LivesIn s
  | _ => True

/-- Scopes that are named exist, and none is above itself. Parents may have been made before or
after the scopes below them. -/
structure Store.Grounded (s : Store) : Prop where
  parents : ∀ i p, s.Under i p → p < s.scopes.size
  values : ∀ (i : Nat) (x : Scope), s.scopes[i]? = some x → ∀ b ∈ x.bindings, b.2.LivesIn s
  acyclic : ∀ i, ¬ Relation.TransGen s.Under i i

theorem Value.LivesIn.of_isGround {s : Store} {v : Value} (h : v.isGround = true) :
    v.LivesIn s := by
  cases v <;> first | exact trivial | cases h

theorem Value.LivesIn.unwrapped {s : Store} {v : Value} (h : v.LivesIn s) :
    v.unwrapped.LivesIn s := by
  cases v <;> exact h

theorem Value.LivesIn.mono {s s' : Store} {v : Value} (hs : s.scopes.size ≤ s'.scopes.size)
    (h : v.LivesIn s) : v.LivesIn s' := by
  induction v with
  | fn identity declaration home => exact Nat.lt_of_lt_of_le h hs
  | ret v ih => exact ih h
  | _ => exact trivial

namespace Store.Grounded

variable {s : Store}

theorem newFunction (h : s.Grounded) (f : Option Declaration) (home : ScopeId) :
    (s.newFunction f home).2.Grounded :=
  ⟨h.parents,
    fun i x hx b hb => (h.values i x hx b hb).mono (Store.Grows.newFunction s f home).size,
    h.acyclic⟩

theorem under_set (s : Store) (scope : ScopeId) (name : Text) (v : Value) :
    (s.set scope name v).Under = s.Under := by
  funext i p
  simp only [Store.Under, Store.parent?, Store.set, Array.getElem?_modify]
  split
  · rw [Option.bind_map]
    rfl
  · rfl

theorem set (h : s.Grounded) (scope : ScopeId) (name : Text) {v : Value} (hv : v.LivesIn s) :
    (s.set scope name v).Grounded := by
  have hsize : s.scopes.size ≤ (s.set scope name v).scopes.size :=
    (Store.Grows.set s scope name v).size
  refine ⟨fun i p hp => ?_, fun i x hx b hb => ?_, ?_⟩
  · rw [under_set] at hp
    exact Nat.lt_of_lt_of_le (h.parents i p hp) hsize
  · simp only [Store.set, Array.getElem?_modify] at hx
    split at hx
    · obtain ⟨y, hy, rfl⟩ := Option.map_eq_some_iff.mp hx
      rcases mem_insertBinding hb with rfl | hb
      · exact hv.mono hsize
      · exact (h.values i y hy b hb).mono hsize
    · exact (h.values i x hx b hb).mono hsize
  · rw [under_set]
    exact h.acyclic

theorem bindAll (h : s.Grounded) (scope : ScopeId) {bs : List (Text × Value)}
    (hb : ∀ b ∈ bs, b.2.LivesIn s) : (bindAll scope bs s).Grounded := by
  induction bs generalizing s with
  | nil => exact h
  | cons b bs ih =>
    rw [List.forall_mem_cons] at hb
    have hsize := (Store.Grows.set s scope b.1 b.2).size
    exact ih (h.set scope b.1 hb.1) fun b' hb' => (hb.2 b' hb').mono hsize

theorem under_newScope {home i p : ScopeId} (h : (s.newScope (some home)).2.Under i p) :
    i = s.scopes.size ∧ p = home ∨ s.Under i p := by
  simp only [Store.Under, Store.parent?, Store.newScope, Array.getElem?_push] at h
  split at h
  · rename_i hi
    cases h
    exact .inl ⟨hi, rfl⟩
  · exact .inr h

/-- Nothing is below a new scope, so no cycle goes through it. -/
theorem newScope (h : s.Grounded) {home : ScopeId} (hh : home < s.scopes.size) :
    (s.newScope (some home)).2.Grounded := by
  have hsize := (Store.Grows.newScope s (some home)).size
  have hold : ∀ i p, (s.newScope (some home)).2.Under i p → p < s.scopes.size := by
    intro i p hp
    rcases under_newScope hp with ⟨-, rfl⟩ | hp
    · exact hh
    · exact h.parents i p hp
  refine ⟨fun i p hp => Nat.lt_of_lt_of_le (hold i p hp) hsize, fun i x hx b hb => ?_, ?_⟩
  · simp only [Store.newScope, Array.getElem?_push] at hx
    split at hx
    · cases hx
      cases hb
    · exact (h.values i x hx b hb).mono hsize
  · have hpath : ∀ i p, Relation.TransGen (s.newScope (some home)).2.Under i p →
        i < s.scopes.size → Relation.TransGen s.Under i p := by
      intro i p hip hi
      induction hip with
      | single hp =>
        rcases under_newScope hp with ⟨rfl, -⟩ | hp
        · exact absurd hi (Nat.lt_irrefl _)
        · exact .single hp
      | tail hip hp ih =>
        rcases under_newScope hp with ⟨rfl, -⟩ | hp
        · rcases Relation.TransGen.tail'_iff.mp hip with ⟨q, -, hq⟩
          exact absurd (hold _ _ hq) (Nat.lt_irrefl _)
        · exact ih.tail hp
    intro i hi
    rcases Relation.TransGen.tail'_iff.mp hi with ⟨q, -, hq⟩
    exact h.acyclic i (hpath i i hi (hold q i hq))

theorem entered (h : s.Grounded) {home : ScopeId} (hh : home < s.scopes.size)
    {bs : List (Text × Value)} (hb : ∀ b ∈ bs, b.2.LivesIn s) : (s.entered home bs).Grounded :=
  (h.newScope hh).bindAll _ fun b hm => (hb b hm).mono (Store.Grows.newScope s (some home)).size

theorem get? (h : s.Grounded) {scope : ScopeId} {name : Text} {v : Value}
    (hv : s.get? scope name = some v) : v.LivesIn s := by
  obtain ⟨i, x, hx, hb⟩ := Store.mem_of_find? hv
  exact h.values i x hx _ hb

end Store.Grounded

/-! ## Looking names up -/

/-- The scope so many levels above another one. -/
def Store.ancestor? (s : Store) (scope : ScopeId) : Nat → Option ScopeId
  | 0 => some scope
  | n + 1 => (s.ancestor? scope n).bind s.parent?

theorem Store.ancestor?_succ (s : Store) (scope : ScopeId) (n : Nat) :
    s.ancestor? scope (n + 1) = (s.parent? scope).bind fun p => s.ancestor? p n := by
  induction n with
  | zero => simp [Store.ancestor?]
  | succ n ih =>
    rw [Store.ancestor?, ih, Option.bind_assoc]
    rfl

/-- Without fuel left, there is still a scope to look into. -/
theorem Fuel.ancestor_of_look {s : Store} {name : Text} {fuel : Nat} {scope : ScopeId}
    (h : look s name fuel scope = none) : ∀ n ≤ fuel, ∃ p, s.ancestor? scope n = some p := by
  induction fuel generalizing scope with
  | zero =>
    intro n hn
    obtain rfl := Nat.le_zero.mp hn
    exact ⟨scope, rfl⟩
  | succ fuel ih =>
    intro n hn
    match n with
    | 0 => exact ⟨scope, rfl⟩
    | n + 1 =>
      unfold look at h
      split at h
      · cases h
      · rename_i x hx
        split at h
        · cases h
        · split at h
          · rename_i p hp
            have hparent : s.parent? scope = some p := by rw [Store.parent?, hx]; exact hp
            rw [Store.ancestor?_succ, hparent]
            exact ih h n (Nat.le_of_succ_le_succ hn)
          · cases h

/-- If the fuel was enough, the answer is that of the search so many scopes far. -/
theorem Fuel.look_eq {s : Store} {name : Text} {fuel : Nat} {scope : ScopeId}
    (h : look s name fuel scope ≠ none) :
    ∀ n ≥ fuel, look s name n scope = some (s.find? name fuel scope) := by
  induction fuel generalizing scope with
  | zero => exact absurd rfl h
  | succ fuel ih =>
    intro n hn
    obtain ⟨n, rfl⟩ : ∃ m, n = m + 1 := ⟨n - 1, by omega⟩
    simp only [look, Store.find?] at h ⊢
    cases hx : s.scopes[scope]? with
    | none => rfl
    | some x =>
      cases hv : x.get? name with
      | some v => simp only [hv]
      | none =>
        cases hp : x.parent with
        | none => simp only [hv, hp]
        | some p =>
          simp only [hx, hv, hp] at h ⊢
          exact ih h n (by omega)

theorem Store.transGen_of_ancestor? {s : Store} {i p : ScopeId} {n : Nat}
    (h : s.ancestor? i (n + 1) = some p) : Relation.TransGen s.Under i p := by
  induction n generalizing p with
  | zero => exact .single h
  | succ n ih =>
    rw [Store.ancestor?] at h
    obtain ⟨q, hq, hp⟩ := Option.bind_eq_some_iff.mp h
    exact (ih hq).tail hp

theorem Store.ancestor?_add (s : Store) {i p : ScopeId} {n : Nat} (h : s.ancestor? i n = some p)
    (m : Nat) : s.ancestor? i (n + m) = s.ancestor? p m := by
  induction m with
  | zero => exact h
  | succ m ih => rw [← Nat.add_assoc, Store.ancestor?, ih, Store.ancestor?]

namespace Store.Grounded

variable {s : Store} {scope : ScopeId}

theorem ancestor_lt (h : s.Grounded) (hs : scope < s.scopes.size) {n : Nat} {p : ScopeId}
    (hp : s.ancestor? scope n = some p) : p < s.scopes.size := by
  cases n with
  | zero =>
    cases hp
    exact hs
  | succ n =>
    obtain ⟨q, -, hq⟩ := Option.bind_eq_some_iff.mp hp
    exact h.parents q p hq

/-- A chain of parents is shorter than the number of scopes: of more ancestors than that, two
would be one scope, and that scope would be above itself. -/
theorem ancestor_none (h : s.Grounded) (hs : scope < s.scopes.size) :
    ∃ n ≤ s.scopes.size, s.ancestor? scope n = none := by
  by_contra hall
  push Not at hall
  have hsome : ∀ n : Fin (s.scopes.size + 1), ∃ p : Fin s.scopes.size,
      s.ancestor? scope n = some p.val := by
    intro n
    obtain ⟨p, hp⟩ := Option.ne_none_iff_exists'.mp (hall n (Nat.le_of_lt_succ n.isLt))
    exact ⟨⟨p, h.ancestor_lt hs hp⟩, hp⟩
  choose up hup using hsome
  have hcard : Fintype.card (Fin s.scopes.size) < Fintype.card (Fin (s.scopes.size + 1)) := by
    simp
  obtain ⟨i, j, hij, heq⟩ := Fintype.exists_ne_map_eq_of_card_lt up hcard
  have hcycle : ∀ i j : Fin (s.scopes.size + 1), i < j → up i = up j → False := by
    intro i j hlt heq
    obtain ⟨m, hm⟩ : ∃ m, j.val = i.val + (m + 1) := ⟨j.val - i.val - 1, by omega⟩
    have hj := hup j
    rw [hm, s.ancestor?_add (hup i), ← heq] at hj
    exact h.acyclic _ (Store.transGen_of_ancestor? hj)
  rcases Fin.lt_or_lt_of_ne hij with hlt | hlt
  · exact hcycle i j hlt heq
  · exact hcycle j i hlt heq.symm

theorem look (h : s.Grounded) (hs : scope < s.scopes.size) (name : Text) {fuel : Nat}
    (hf : s.scopes.size ≤ fuel) : Fuel.look s name fuel scope = some (s.get? scope name) := by
  refine Fuel.look_eq (fun hnone => ?_) fuel hf
  obtain ⟨n, hn, hup⟩ := h.ancestor_none hs
  obtain ⟨p, hp⟩ := Fuel.ancestor_of_look hnone n hn
  rw [hup] at hp
  cases hp

end Store.Grounded

/-! ## Evaluations that end -/

/-- From a store, enough fuel leads to that result, and its store and value can be gone on from. -/
structure Result.Reached (s : Store) (run : Nat → Option Result) (r : Result) : Prop where
  enough : ∃ least, ∀ fuel ≥ least, run fuel = some r
  grows : s.scopes.size ≤ r.2.scopes.size
  grounded : r.2.Grounded
  lives : ∀ v, r.1 = .ok v → v.LivesIn r.2

namespace Result

variable {s : Store} {run : Nat → Option Result} {r : Result}

theorem reached_error (hs : s.Grounded) (e : Failure) :
    Reached s (fun _ => some (.error e, s)) (.error e, s) :=
  ⟨⟨0, fun _ _ => rfl⟩, Nat.le_refl _, hs, nofun⟩

theorem reached_ok (hs : s.Grounded) {v : Value} (hv : v.LivesIn s) :
    Reached s (fun _ => some (.ok v, s)) (.ok v, s) := by
  refine ⟨⟨0, fun _ _ => rfl⟩, Nat.le_refl _, hs, fun u hu => ?_⟩
  cases hu
  exact hv

theorem reached_fn (hs : s.Grounded) (f : Option Declaration) {scope : ScopeId}
    (hscope : scope < s.scopes.size) :
    Reached s (fun _ => some (.ok (s.newFunction f scope).1, (s.newFunction f scope).2))
      (.ok (s.newFunction f scope).1, (s.newFunction f scope).2) := by
  refine ⟨⟨0, fun _ _ => rfl⟩, Nat.le_refl _, hs.newFunction f scope, fun v hv => ?_⟩
  cases hv
  exact hscope

theorem Reached.of_grows {s₀ : Store} (hs : s₀.scopes.size ≤ s.scopes.size)
    (h : Reached s run r) : Reached s₀ run r :=
  ⟨h.enough, Nat.le_trans hs h.grows, h.grounded, h.lives⟩

/-- One more unit of fuel pays for a step. -/
theorem Reached.step {run' : Nat → Option Result} (h : Reached s run r)
    (heq : ∀ fuel, run' (fuel + 1) = run fuel) : Reached s run' r := by
  obtain ⟨⟨least, hl⟩, hg, hs, hv⟩ := h
  refine ⟨⟨least + 1, fun fuel hf => ?_⟩, hg, hs, hv⟩
  obtain ⟨fuel, rfl⟩ : ∃ k, fuel = k + 1 := ⟨fuel - 1, by omega⟩
  rw [heq]
  exact hl fuel (by omega)

theorem Reached.later (h : Reached s run r) : Reached s (fun fuel => run (fuel + 1)) r := by
  obtain ⟨least, hl⟩ := h.enough
  exact { h with enough := ⟨least, fun fuel hf => hl (fuel + 1) (by omega)⟩ }

theorem Reached.andThen {run' : Nat → Value → Store → Option Result}
    {next : Value → Store → Result} (h : Reached s run r)
    (hn : ∀ v s', s'.Grounded → s.scopes.size ≤ s'.scopes.size → v.LivesIn s' →
      Reached s' (fun fuel => run' fuel v s') (next v s')) :
    Reached s (fun fuel => Fuel.andThen (run fuel) (run' fuel)) (r.andThen next) := by
  obtain ⟨o, s'⟩ := r
  obtain ⟨⟨least, hl⟩, hg, hs, hv⟩ := h
  cases o with
  | error e =>
    refine ⟨⟨least, fun fuel hf => ?_⟩, hg, hs, hv⟩
    rw [hl fuel hf]
    rfl
  | ok v =>
    by_cases ha : v.isAbrupt = true
    · simp only [Result.andThen, if_pos ha]
      refine ⟨⟨least, fun fuel hf => ?_⟩, hg, hs, hv⟩
      rw [hl fuel hf]
      exact if_pos ha
    · obtain ⟨⟨least', hl'⟩, hg', hs', hv'⟩ := hn v s' hs hg (hv v rfl)
      simp only [Result.andThen, if_neg ha]
      -- The fuel that is enough for both parts is enough for the whole.
      refine ⟨⟨max least least', fun fuel hf => ?_⟩, Nat.le_trans hg hg', hs', hv'⟩
      rw [hl fuel (by omega), ← hl' fuel (by omega)]
      exact if_neg ha

theorem Reached.unwrapped (h : Reached s run r) :
    Reached s (fun fuel => (run fuel).map Result.unwrapped) r.unwrapped := by
  obtain ⟨o, s'⟩ := r
  obtain ⟨⟨least, hl⟩, hg, hs, hv⟩ := h
  have henough : ∀ fuel ≥ least,
      (run fuel).map Result.unwrapped = some (Result.unwrapped (o, s')) :=
    fun fuel hf => by rw [hl fuel hf]; rfl
  cases o with
  | error e => exact ⟨⟨least, henough⟩, hg, hs, hv⟩
  | ok v =>
    refine ⟨⟨least, henough⟩, hg, hs, fun u hu => ?_⟩
    cases hu
    exact (hv v rfl).unwrapped

end Result

/-- Calls end, when so many are active. -/
def Caller.Ends (limit depth : Nat) (call : Caller) : Prop :=
  ∀ (declaration : Option Declaration) (home : ScopeId) (args : List Value) (s : Store),
    s.Grounded → home < s.scopes.size → (∀ v ∈ args, v.LivesIn s) →
    Result.Reached s (fun fuel => Fuel.call limit fuel depth declaration home args s)
      (call declaration home args s)

section

open Result

variable {limit depth : Nat} {call : Caller}

mutual

theorem evalExpr_reached (hc : call.Ends limit depth) (e : Expr) {scope : ScopeId} {s : Store}
    (hs : s.Grounded) (hscope : scope < s.scopes.size) :
    Reached s (fun fuel => Fuel.expr limit fuel depth e scope s) (evalExpr call e scope s) := by
  match e with
  | .hole =>
    rw [evalExpr]
    exact (reached_error hs _).step fun _ => rfl
  | .ident name =>
    rw [evalExpr]
    have hlook : ∀ fuel ≥ s.scopes.size + 1, Fuel.expr limit fuel depth (.ident name) scope s =
        some (match s.get? scope name with
          | some v => (.ok v, s)
          | none => (.ok (.error (.unbound name)), s)) := by
      intro fuel hf
      obtain ⟨fuel, rfl⟩ : ∃ k, fuel = k + 1 := ⟨fuel - 1, by omega⟩
      simp only [Fuel.expr, hs.look hscope name (Nat.le_of_succ_le_succ hf)]
      cases s.get? scope name <;> rfl
    cases hv : s.get? scope name with
    | none =>
      rw [hv] at hlook
      exact { reached_ok hs (.of_isGround rfl) with enough := ⟨_, hlook⟩ }
    | some v =>
      rw [hv] at hlook
      exact { reached_ok hs (hs.get? hv) with enough := ⟨_, hlook⟩ }
  | .int value =>
    rw [evalExpr]
    exact (reached_ok hs (.of_isGround rfl)).step fun _ => rfl
  | .bool value =>
    rw [evalExpr]
    exact (reached_ok hs (.of_isGround rfl)).step fun _ => rfl
  | .unary op operand =>
    rw [evalExpr]
    refine ((evalExpr_reached hc operand hs hscope).andThen fun v s₁ hs₁ _ _ => ?_).step
      fun _ => rfl
    exact reached_ok hs₁ (.of_isGround (Value.isGround_unary op v))
  | .binary op left right =>
    rw [evalExpr]
    refine ((evalExpr_reached hc left hs hscope).andThen fun a s₁ hs₁ hg _ => ?_).step
      fun _ => rfl
    have hscope₁ := Nat.lt_of_lt_of_le hscope hg
    refine (evalExpr_reached hc right hs₁ hscope₁).andThen fun b s₂ hs₂ _ _ => ?_
    exact reached_ok hs₂ (.of_isGround (Value.isGround_binary op a b))
  | .ifThen test yes =>
    rw [evalExpr]
    refine ((evalExpr_reached hc test hs hscope).andThen fun v s₁ hs₁ hg _ => ?_).step
      fun _ => rfl
    have hscope₁ := Nat.lt_of_lt_of_le hscope hg
    split
    · exact evalBlock_reached hc yes hs₁ hscope₁ trivial
    · exact reached_ok hs₁ trivial
  | .ifElse test yes no =>
    rw [evalExpr]
    refine ((evalExpr_reached hc test hs hscope).andThen fun v s₁ hs₁ hg _ => ?_).step
      fun _ => rfl
    have hscope₁ := Nat.lt_of_lt_of_le hscope hg
    split
    · exact evalBlock_reached hc yes hs₁ hscope₁ trivial
    · exact evalBlock_reached hc no hs₁ hscope₁ trivial
  | .fn params body =>
    rw [evalExpr]
    exact (reached_fn hs _ hscope).step fun _ => rfl
  | .stub params =>
    rw [evalExpr]
    exact (reached_fn hs _ hscope).step fun _ => rfl
  | .call callee args =>
    rw [evalExpr]
    refine ((evalExpr_reached hc callee hs hscope).andThen fun f s₁ hs₁ hg hf => ?_).step
      fun _ => rfl
    have hscope₁ := Nat.lt_of_lt_of_le hscope hg
    refine evalArgs_reached hc args hs₁ hscope₁ fun vs s₂ hs₂ hg₂ hvs => ?_
    cases f with
    | fn identity declaration home =>
      exact hc declaration home vs s₂ hs₂ (Nat.lt_of_lt_of_le hf hg₂) hvs
    | _ => exact reached_ok hs₂ (.of_isGround rfl)
termination_by structural e

theorem evalArgs_reached (hc : call.Ends limit depth) (args : List Expr) {scope : ScopeId}
    {s : Store} (hs : s.Grounded) (hscope : scope < s.scopes.size)
    {run : Nat → List Value → Store → Option Result} {next : List Value → Store → Result}
    (hn : ∀ vs s', s'.Grounded → s.scopes.size ≤ s'.scopes.size → (∀ v ∈ vs, v.LivesIn s') →
      Reached s' (fun fuel => run fuel vs s') (next vs s')) :
    Reached s (fun fuel => Fuel.arguments limit fuel depth args scope s (run fuel))
      (evalArgs call args scope s next) := by
  match args with
  | [] =>
    rw [evalArgs]
    exact (hn [] s hs (Nat.le_refl _) (by simp)).later.step fun _ => rfl
  | e :: rest =>
    rw [evalArgs]
    refine ((evalExpr_reached hc e hs hscope).andThen fun v s₁ hs₁ hg hv => ?_).step
      fun _ => rfl
    have hscope₁ := Nat.lt_of_lt_of_le hscope hg
    refine evalArgs_reached hc rest hs₁ hscope₁ fun vs s₂ hs₂ hg₂ hvs => ?_
    have hall : ∀ u ∈ v :: vs, u.LivesIn s₂ := List.forall_mem_cons.mpr ⟨hv.mono hg₂, hvs⟩
    exact (hn (v :: vs) s₂ hs₂ (Nat.le_trans hg hg₂) hall).later
termination_by structural args

theorem evalStmt_reached (hc : call.Ends limit depth) (st : Stmt) {scope : ScopeId} {s : Store}
    (hs : s.Grounded) (hscope : scope < s.scopes.size) :
    Reached s (fun fuel => Fuel.stmt limit fuel depth st scope s) (evalStmt call st scope s) := by
  match st with
  | .bind none _ =>
    rw [evalStmt]
    exact (reached_error hs _).step fun _ => rfl
  | .bind (some name) value =>
    rw [evalStmt]
    refine ((evalExpr_reached hc value hs hscope).andThen fun v s₁ hs₁ _ hv => ?_).step
      fun _ => rfl
    have hg := (Store.Grows.set s₁ scope name v).size
    exact (reached_ok (hs₁.set scope name hv) (hv.mono hg)).of_grows hg
  | .ret value =>
    rw [evalStmt]
    refine ((evalExpr_reached hc value hs hscope).andThen fun v s₁ hs₁ _ hv => ?_).step
      fun _ => rfl
    have hret : (Value.ret v).LivesIn s₁ := hv
    exact reached_ok hs₁ hret
  | .expr value =>
    rw [evalStmt]
    exact (evalExpr_reached hc value hs hscope).step fun _ => rfl
  | .block body =>
    rw [evalStmt]
    have hnull : Value.null.LivesIn s := trivial
    exact (evalBlock_reached hc body hs hscope hnull).step fun _ => rfl
termination_by structural st

theorem evalBlock_reached (hc : call.Ends limit depth) (body : List Stmt) {scope : ScopeId}
    {last : Value} {s : Store} (hs : s.Grounded) (hscope : scope < s.scopes.size)
    (hl : last.LivesIn s) :
    Reached s (fun fuel => Fuel.block limit fuel depth body scope last s)
      (evalBlock call body scope last s) := by
  match body with
  | [] =>
    rw [evalBlock]
    exact (reached_ok hs hl).step fun _ => rfl
  | st :: rest =>
    rw [evalBlock]
    refine ((evalStmt_reached hc st hs hscope).andThen fun v s₁ hs₁ hg hv => ?_).step
      fun _ => rfl
    exact evalBlock_reached hc rest hs₁ (Nat.lt_of_lt_of_le hscope hg) hv
termination_by structural body

end

end

end Borealis
