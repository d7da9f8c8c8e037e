-- Evaluation does not depend on the numbers of scopes and functions. Let a
-- store have more scopes and functions than another one, in a gap behind those
-- that both have. Then the same evaluation in both ends in the same way, with
-- stores that again differ by the gap alone.
import Borealis.Proofs.Frames
import Borealis.Proofs.Sessions

namespace Borealis

/-! ## Numbers and values -/

/-- Numbers that one store has and the other one has not. -/
structure Gap where
  start : Nat
  width : Nat

namespace Gap

/-- The number behind the gap that stands for a number without it. -/
def skip (g : Gap) (i : Nat) : Nat := if i < g.start then i else i + g.width

theorem skip_of_lt {g : Gap} {i : Nat} (h : i < g.start) : g.skip i = i := if_pos h

theorem skip_of_le {g : Gap} {i : Nat} (h : g.start ≤ i) : g.skip i = i + g.width :=
  if_neg (Nat.not_lt.mpr h)

theorem skip_inj {g : Gap} {i j : Nat} : g.skip i = g.skip j ↔ i = j := by
  unfold skip
  split <;> split <;> omega

theorem skip_beq (g : Gap) (i j : Nat) : (g.skip i == g.skip j) = (i == j) := by
  rw [Bool.eq_iff_iff, beq_iff_eq, beq_iff_eq, skip_inj]

end Gap

/-- The scopes and the functions that one store has more. -/
structure Shift where
  scopes : Gap
  functions : Gap

namespace Shift

/-- The value with the numbers of the larger store. -/
def value (ρ : Shift) : Value → Value
  | .fn identity declaration home =>
    .fn (ρ.functions.skip identity) declaration (ρ.scopes.skip home)
  | .ret v => .ret (ρ.value v)
  | v => v

def binding (ρ : Shift) (b : Text × Value) : Text × Value := (b.1, ρ.value b.2)

def scope (ρ : Shift) (x : Scope) : Scope :=
  ⟨x.parent.map ρ.scopes.skip, x.bindings.map ρ.binding⟩

variable (ρ : Shift)

theorem isTruthy_value (v : Value) : (ρ.value v).isTruthy = v.isTruthy := by cases v <;> rfl

theorem isAbrupt_value (v : Value) : (ρ.value v).isAbrupt = v.isAbrupt := by cases v <;> rfl

theorem unwrapped_value (v : Value) : (ρ.value v).unwrapped = ρ.value v.unwrapped := by
  cases v <;> rfl

/-- Operators give integers, booleans and errors, and see of functions only which are the same. -/
theorem binary_value (op : Text) (a b : Value) :
    (ρ.value a).binary op (ρ.value b) = a.binary op b := by
  cases a <;> cases b <;> simp [value, Value.binary, Value.same, Value.kind, Gap.skip_beq]

theorem unary_value (op : Text) (v : Value) : (ρ.value v).unary op = v.unary op := by
  cases v <;> rfl

end Shift

/-! ## Values that fit a store -/

/-- The functions of the value were made in the store, in scopes of it. -/
def Value.Fits (s : Store) : Value → Prop
  | .fn identity _ home => identity < s.functions ∧ home < s.scopes.size
  | .ret v => v.Fits s
  | _ => True

theorem Value.Fits.of_isGround {s : Store} {v : Value} (h : v.isGround = true) : v.Fits s := by
  cases v <;> first | exact trivial | cases h

theorem Value.Fits.unwrapped {s : Store} {v : Value} (h : v.Fits s) : v.unwrapped.Fits s := by
  cases v <;> exact h

theorem Value.Fits.mono {s s' : Store} {v : Value} (hs : s.Grows s') (h : v.Fits s) :
    v.Fits s' := by
  induction v with
  | fn identity declaration home =>
    exact ⟨Nat.lt_of_lt_of_le h.1 hs.functions, Nat.lt_of_lt_of_le h.2 hs.size⟩
  | ret v ih => exact ih h
  | _ => exact trivial

theorem Shift.value_of_isGround (ρ : Shift) {v : Value} (h : v.isGround = true) :
    ρ.value v = v := by
  cases v <;> first | rfl | cases h

/-- Values of the smaller store stay if the gap is behind all that it has. -/
theorem Shift.value_of_fits {ρ : Shift} {s : Store} (hs : ρ.scopes.start = s.scopes.size)
    (hf : ρ.functions.start = s.functions) {v : Value} (h : v.Fits s) : ρ.value v = v := by
  induction v with
  | fn identity declaration home =>
    simp only [value, Gap.skip_of_lt (hs ▸ h.2), Gap.skip_of_lt (hf ▸ h.1)]
  | ret v ih => rw [value, ih h]
  | _ => rfl

/-- The scope of that number has a parent that was made before it, if any, and bindings that fit. -/
structure Scope.Fits (s : Store) (i : Nat) (x : Scope) : Prop where
  parent : ∀ p : Nat, x.parent = some p → p < i
  bindings : ∀ b ∈ x.bindings, b.2.Fits s

theorem Scope.Fits.mono {s s' : Store} {i : Nat} {x : Scope} (hs : s.Grows s')
    (h : x.Fits s i) : x.Fits s' i :=
  ⟨h.parent, fun b hb => (h.bindings b hb).mono hs⟩

def Store.Closed (s : Store) : Prop :=
  ∀ (i : Nat) (x : Scope), s.scopes[i]? = some x → x.Fits s i

namespace Store.Closed

variable {s : Store}

theorem newScope (h : s.Closed) {home : ScopeId} (hh : home < s.scopes.size) :
    (s.newScope (some home)).2.Closed := by
  intro i x hx
  simp only [Store.newScope, Array.getElem?_push] at hx
  split at hx
  · rename_i hi
    cases hx
    refine ⟨fun p hp => ?_, by simp⟩
    cases hp
    exact hi ▸ hh
  · exact (h i x hx).mono (.newScope s _)

theorem newFunction (h : s.Closed) (f : Option Declaration) (home : ScopeId) :
    (s.newFunction f home).2.Closed := fun i x hx => (h i x hx).mono (.newFunction s f home)

theorem set (h : s.Closed) (scope : ScopeId) (name : Text) {v : Value} (hv : v.Fits s) :
    (s.set scope name v).Closed := by
  intro i x hx
  have hs := Store.Grows.set s scope name v
  simp only [Store.set, Array.getElem?_modify] at hx
  split at hx
  · obtain ⟨y, hy, rfl⟩ := Option.map_eq_some_iff.mp hx
    refine ⟨(h i y hy).parent, fun b hb => ?_⟩
    rcases mem_insertBinding hb with rfl | hb
    · exact hv.mono hs
    · exact ((h i y hy).bindings b hb).mono hs
  · exact (h i x hx).mono hs

end Store.Closed

/-! ## Stores that differ by a gap -/

/-- The number that comes next is behind the gap. -/
structure Gap.Next (g : Gap) (n n' : Nat) : Prop where
  start : g.start ≤ n
  eq : n' = n + g.width

theorem Gap.Next.skip {g : Gap} {n n' : Nat} (h : g.Next n n') : g.skip n = n' := by
  rw [Gap.skip_of_le h.start, h.eq]

theorem Gap.Next.succ {g : Gap} {n n' : Nat} (h : g.Next n n') : g.Next (n + 1) (n' + 1) := by
  obtain ⟨hs, he⟩ := h
  exact ⟨by omega, by omega⟩

/-- `s'` is `s` with more scopes and functions in the gap. -/
structure Store.Shifted (ρ : Shift) (s s' : Store) : Prop where
  closed : s.Closed
  size : ρ.scopes.Next s.scopes.size s'.scopes.size
  functions : ρ.functions.Next s.functions s'.functions
  scopes : ∀ (i : Nat) (x : Scope), s.scopes[i]? = some x →
    s'.scopes[ρ.scopes.skip i]? = some (ρ.scope x)

theorem lookup_map (ρ : Shift) (name : Text) (bs : List (Text × Value)) :
    (bs.map ρ.binding).lookup name = (bs.lookup name).map ρ.value := by
  induction bs with
  | nil => rfl
  | cons b bs ih =>
    obtain ⟨k, v⟩ := b
    simp only [List.map_cons, Shift.binding, List.lookup_cons]
    split
    · rfl
    · exact ih

theorem insertBinding_map (ρ : Shift) (name : Text) (v : Value) (bs : List (Text × Value)) :
    insertBinding name (ρ.value v) (bs.map ρ.binding)
      = (insertBinding name v bs).map ρ.binding := by
  induction bs with
  | nil => rfl
  | cons b bs ih =>
    obtain ⟨k, u⟩ := b
    simp only [List.map_cons, Shift.binding, insertBinding] at ih ⊢
    split
    · rfl
    · split
      · rfl
      · rw [ih]
        rfl

/-- What a name means is bound to it somewhere. -/
theorem Store.mem_of_find? {s : Store} {name : Text} {n : Nat} {scope : ScopeId} {v : Value}
    (h : s.find? name n scope = some v) :
    ∃ (i : Nat) (x : Scope), s.scopes[i]? = some x ∧ (name, v) ∈ x.bindings := by
  induction n generalizing scope with
  | zero => exact absurd h (by simp [Store.find?])
  | succ n ih =>
    unfold Store.find? at h
    split at h
    · exact absurd h (by simp)
    · rename_i x hx
      split at h
      · rename_i u hu
        cases h
        obtain ⟨l, l', hl, -⟩ := List.lookup_eq_some_iff.mp hu
        exact ⟨scope, x, hx, by simp [hl]⟩
      · split at h
        · exact ih h
        · exact absurd h (by simp)

/-- A chain of parents from a scope is no longer than its number. -/
theorem Store.Closed.find?_eq {s : Store} (h : s.Closed) (name : Text) {n m i : Nat}
    (hn : i < n) (hm : i < m) : s.find? name n i = s.find? name m i := by
  induction n generalizing m i with
  | zero => omega
  | succ n ih =>
    obtain ⟨m, rfl⟩ : ∃ k, m = k + 1 := ⟨m - 1, by omega⟩
    unfold Store.find?
    split
    · rfl
    · rename_i x hx
      split
      · rfl
      · split
        · rename_i p hp
          have hpi := (h i x hx).parent p hp
          exact ih (by omega) (by omega)
        · rfl

theorem Store.Closed.get? {s : Store} (h : s.Closed) {scope : ScopeId} {name : Text} {v : Value}
    (hv : s.get? scope name = some v) : v.Fits s := by
  obtain ⟨i, x, hx, hb⟩ := Store.mem_of_find? hv
  exact (h i x hx).bindings _ hb

namespace Store.Shifted

variable {ρ : Shift} {s s' : Store}

theorem find? (h : s.Shifted ρ s') (name : Text) (n : Nat) {i : Nat}
    (hi : i < s.scopes.size) :
    s'.find? name n (ρ.scopes.skip i) = (s.find? name n i).map ρ.value := by
  induction n generalizing i with
  | zero => rfl
  | succ n ih =>
    obtain ⟨x, hx⟩ : ∃ x, s.scopes[i]? = some x := ⟨_, Array.getElem?_eq_getElem hi⟩
    have hget : (ρ.scope x).get? name = (x.get? name).map ρ.value := lookup_map ρ name x.bindings
    simp only [Store.find?, hx, h.scopes i x hx, hget]
    cases x.get? name with
    | some v => rfl
    | none =>
      cases hp : x.parent with
      | none => simp [Shift.scope, hp]
      | some p =>
        have hpi := (h.closed i x hx).parent p hp
        simp only [Option.map_none, Shift.scope, hp, Option.map_some]
        exact ih (Nat.lt_trans hpi hi)

theorem get? (h : s.Shifted ρ s') (name : Text) {i : Nat} (hi : i < s.scopes.size) :
    s'.get? (ρ.scopes.skip i) name = (s.get? i name).map ρ.value := by
  unfold Store.get?
  rw [h.find? name _ hi, h.size.eq]
  exact congrArg _ (h.closed.find?_eq name (by omega) hi)

theorem newScope (h : s.Shifted ρ s') {home : ScopeId} (hh : home < s.scopes.size) :
    (s.newScope (some home)).2.Shifted ρ (s'.newScope (some (ρ.scopes.skip home))).2 := by
  refine ⟨h.closed.newScope hh, ?_, h.functions, fun i x hx => ?_⟩
  · simpa [Store.newScope] using h.size.succ
  · simp only [Store.newScope, Array.getElem?_push] at hx ⊢
    rw [← h.size.skip]
    simp only [Gap.skip_inj]
    split at hx
    · rename_i hi
      cases hx
      rw [if_pos hi]
      rfl
    · rename_i hi
      rw [if_neg hi]
      exact h.scopes i x hx

theorem newFunction (h : s.Shifted ρ s') (f : Option Declaration) (home home' : ScopeId) :
    (s.newFunction f home).2.Shifted ρ (s'.newFunction f home').2 :=
  ⟨h.closed.newFunction f home, h.size, h.functions.succ, h.scopes⟩

theorem set (h : s.Shifted ρ s') (scope : ScopeId) (name : Text) {v : Value} (hv : v.Fits s) :
    (s.set scope name v).Shifted ρ (s'.set (ρ.scopes.skip scope) name (ρ.value v)) := by
  refine ⟨h.closed.set scope name hv, ?_, h.functions, fun i x hx => ?_⟩
  · simpa [Store.set] using h.size
  · simp only [Store.set, Array.getElem?_modify, Gap.skip_inj] at hx ⊢
    split at hx
    · rename_i hi
      obtain ⟨y, hy, rfl⟩ := Option.map_eq_some_iff.mp hx
      rw [if_pos hi, h.scopes i y hy]
      simp [Scope.set, Shift.scope, insertBinding_map]
    · rename_i hi
      rw [if_neg hi]
      exact h.scopes i x hx

theorem bindAll (h : s.Shifted ρ s') (scope : ScopeId) {bs : List (Text × Value)}
    (hb : ∀ b ∈ bs, b.2.Fits s) :
    (bindAll scope bs s).Shifted ρ (bindAll (ρ.scopes.skip scope) (bs.map ρ.binding) s') := by
  induction bs generalizing s s' with
  | nil => exact h
  | cons b bs ih =>
    rw [List.forall_mem_cons] at hb
    exact ih (h.set scope b.1 hb.1) fun b' hb' => (hb.2 b' hb').mono (.set s scope b.1 b.2)

theorem entered (h : s.Shifted ρ s') {home : ScopeId} (hh : home < s.scopes.size)
    {bs : List (Text × Value)} (hb : ∀ b ∈ bs, b.2.Fits s) :
    (s.entered home bs).Shifted ρ (s'.entered (ρ.scopes.skip home) (bs.map ρ.binding)) := by
  unfold Store.entered
  rw [← h.size.skip]
  exact (h.newScope hh).bindAll _ fun b hm => (hb b hm).mono (.newScope s (some home))

end Store.Shifted

theorem Store.size_lt_entered (s : Store) (home : ScopeId) (bs : List (Text × Value)) :
    s.scopes.size < (s.entered home bs).scopes.size := by
  have h := (Store.Keeps.bindAll (s.newScope (some home)).2 s.scopes.size bs).size
  simp only [Store.newScope, Array.size_push] at h
  exact h

/-! ## Evaluation -/

/-- Two evaluations, the first of them from `s`, that end alike but for the gap. -/
structure Result.Shifted (ρ : Shift) (s : Store) (r r' : Result) : Prop where
  grows : s.Grows r.2
  stores : r.2.Shifted ρ r'.2
  outcome : r'.1 = r.1.map ρ.value
  fits : ∀ v, r.1 = .ok v → v.Fits r.2

namespace Result

variable {ρ : Shift} {s s' : Store} {r r' : Result} {v : Value}

theorem shifted_error (h : s.Shifted ρ s') (e : Failure) :
    Result.Shifted ρ s (.error e, s) (.error e, s') := ⟨.refl s, h, rfl, nofun⟩

theorem shifted_ok (h : s.Shifted ρ s') (hv : v.Fits s) :
    Result.Shifted ρ s (.ok v, s) (.ok (ρ.value v), s') := by
  refine ⟨.refl s, h, rfl, fun u hu => ?_⟩
  cases hu
  exact hv

theorem shifted_ground (h : s.Shifted ρ s') (hv : v.isGround = true) :
    Result.Shifted ρ s (.ok v, s) (.ok v, s') := by
  have hok := shifted_ok h (.of_isGround hv)
  rwa [ρ.value_of_isGround hv] at hok

theorem shifted_fn (h : s.Shifted ρ s') (f : Option Declaration) {scope : ScopeId}
    (hscope : scope < s.scopes.size) :
    Result.Shifted ρ s (.ok (s.newFunction f scope).1, (s.newFunction f scope).2)
      (.ok (s'.newFunction f (ρ.scopes.skip scope)).1,
        (s'.newFunction f (ρ.scopes.skip scope)).2) := by
  refine ⟨.newFunction s f scope, h.newFunction f scope (ρ.scopes.skip scope), ?_, fun v hv => ?_⟩
  · simp [Store.newFunction, Except.map, Shift.value, h.functions.skip]
  · cases hv
    exact ⟨Nat.lt_succ_self _, hscope⟩

theorem Shifted.of_grows {s₀ : Store} (hs : s₀.Grows s) (h : Result.Shifted ρ s r r') :
    Result.Shifted ρ s₀ r r' := ⟨hs.trans h.grows, h.stores, h.outcome, h.fits⟩

theorem Shifted.andThen {next next' : Value → Store → Result} (h : Result.Shifted ρ s r r')
    (hn : ∀ v s₁ s₁', s.Grows s₁ → s₁.Shifted ρ s₁' → v.Fits s₁ →
      Result.Shifted ρ s₁ (next v s₁) (next' (ρ.value v) s₁')) :
    Result.Shifted ρ s (r.andThen next) (r'.andThen next') := by
  obtain ⟨o, s₁⟩ := r
  obtain ⟨o', s₁'⟩ := r'
  obtain ⟨hg, hs, ho, hf⟩ := h
  cases ho
  cases o with
  | error e => exact ⟨hg, hs, rfl, hf⟩
  | ok v =>
    simp only [Result.andThen, ρ.isAbrupt_value]
    split
    · exact ⟨hg, hs, rfl, hf⟩
    · exact (hn v s₁ s₁' hg hs (hf v rfl)).of_grows hg

theorem Shifted.unwrapped (h : Result.Shifted ρ s r r') :
    Result.Shifted ρ s r.unwrapped r'.unwrapped := by
  obtain ⟨o, s₁⟩ := r
  obtain ⟨o', s₁'⟩ := r'
  obtain ⟨hg, hs, ho, hf⟩ := h
  cases ho
  cases o with
  | error e => exact ⟨hg, hs, rfl, hf⟩
  | ok v =>
    simp only [Result.unwrapped, ρ.unwrapped_value]
    exact (shifted_ok hs (hf v rfl).unwrapped).of_grows hg

end Result

/-- Calls from stores that differ by the gap end alike. -/
def Caller.Shifts (ρ : Shift) (call : Caller) : Prop :=
  ∀ (declaration : Option Declaration) (home : ScopeId) (args : List Value) (s s' : Store),
    s.Shifted ρ s' → home < s.scopes.size → (∀ v ∈ args, v.Fits s) →
    Result.Shifted ρ s (call declaration home args s)
      (call declaration (ρ.scopes.skip home) (args.map ρ.value) s')

section

open Result

variable {ρ : Shift} {call : Caller}

mutual

theorem evalExpr_shifted (hc : call.Shifts ρ) (e : Expr) {scope : ScopeId} {s s' : Store}
    (hs : s.Shifted ρ s') (hscope : scope < s.scopes.size) :
    Result.Shifted ρ s (evalExpr call e scope s) (evalExpr call e (ρ.scopes.skip scope) s') := by
  match e with
  | .hole =>
    rw [evalExpr, evalExpr]
    exact shifted_error hs _
  | .ident name =>
    rw [evalExpr, evalExpr, hs.get? name hscope]
    cases hv : s.get? scope name with
    | none => exact shifted_ground hs rfl
    | some v => exact shifted_ok hs (hs.closed.get? hv)
  | .int value =>
    rw [evalExpr, evalExpr]
    exact shifted_ground hs rfl
  | .bool value =>
    rw [evalExpr, evalExpr]
    exact shifted_ground hs rfl
  | .unary op operand =>
    rw [evalExpr, evalExpr]
    refine (evalExpr_shifted hc operand hs hscope).andThen fun v s₁ s₁' _ hs₁ _ => ?_
    rw [ρ.unary_value]
    exact shifted_ground hs₁ (Value.isGround_unary op v)
  | .binary op left right =>
    rw [evalExpr, evalExpr]
    refine (evalExpr_shifted hc left hs hscope).andThen fun a s₁ s₁' hg hs₁ _ => ?_
    have hscope₁ := Nat.lt_of_lt_of_le hscope hg.size
    refine (evalExpr_shifted hc right hs₁ hscope₁).andThen fun b s₂ s₂' _ hs₂ _ => ?_
    rw [ρ.binary_value]
    exact shifted_ground hs₂ (Value.isGround_binary op a b)
  | .ifThen test yes =>
    rw [evalExpr, evalExpr]
    refine (evalExpr_shifted hc test hs hscope).andThen fun v s₁ s₁' hg hs₁ _ => ?_
    have hscope₁ := Nat.lt_of_lt_of_le hscope hg.size
    rw [ρ.isTruthy_value]
    split
    · exact evalBlock_shifted hc yes hs₁ hscope₁ trivial
    · exact shifted_ground hs₁ rfl
  | .ifElse test yes no =>
    rw [evalExpr, evalExpr]
    refine (evalExpr_shifted hc test hs hscope).andThen fun v s₁ s₁' hg hs₁ _ => ?_
    have hscope₁ := Nat.lt_of_lt_of_le hscope hg.size
    rw [ρ.isTruthy_value]
    split
    · exact evalBlock_shifted hc yes hs₁ hscope₁ trivial
    · exact evalBlock_shifted hc no hs₁ hscope₁ trivial
  | .fn params body =>
    rw [evalExpr, evalExpr]
    exact shifted_fn hs _ hscope
  | .stub params =>
    rw [evalExpr, evalExpr]
    exact shifted_fn hs _ hscope
  | .call callee args =>
    rw [evalExpr, evalExpr]
    refine (evalExpr_shifted hc callee hs hscope).andThen fun f s₁ s₁' hg hs₁ hf => ?_
    have hscope₁ := Nat.lt_of_lt_of_le hscope hg.size
    refine evalArgs_shifted hc args hs₁ hscope₁ fun vs s₂ s₂' hg₂ hs₂ hvs => ?_
    cases f with
    | fn identity declaration home =>
      exact hc declaration home vs s₂ s₂' hs₂ (Nat.lt_of_lt_of_le hf.2 hg₂.size) hvs
    | _ => exact shifted_ground hs₂ rfl
termination_by structural e

theorem evalArgs_shifted (hc : call.Shifts ρ) (args : List Expr) {scope : ScopeId} {s s' : Store}
    (hs : s.Shifted ρ s') (hscope : scope < s.scopes.size)
    {next next' : List Value → Store → Result}
    (hn : ∀ vs s₁ s₁', s.Grows s₁ → s₁.Shifted ρ s₁' → (∀ v ∈ vs, v.Fits s₁) →
      Result.Shifted ρ s₁ (next vs s₁) (next' (vs.map ρ.value) s₁')) :
    Result.Shifted ρ s (evalArgs call args scope s next)
      (evalArgs call args (ρ.scopes.skip scope) s' next') := by
  match args with
  | [] =>
    rw [evalArgs, evalArgs]
    exact hn [] s s' (.refl s) hs (by simp)
  | e :: rest =>
    rw [evalArgs, evalArgs]
    refine (evalExpr_shifted hc e hs hscope).andThen fun v s₁ s₁' hg hs₁ hv => ?_
    have hscope₁ := Nat.lt_of_lt_of_le hscope hg.size
    refine evalArgs_shifted hc rest hs₁ hscope₁ fun vs s₂ s₂' hg₂ hs₂ hvs => ?_
    exact hn (v :: vs) s₂ s₂' (hg.trans hg₂) hs₂ (List.forall_mem_cons.mpr ⟨hv.mono hg₂, hvs⟩)
termination_by structural args

theorem evalStmt_shifted (hc : call.Shifts ρ) (st : Stmt) {scope : ScopeId} {s s' : Store}
    (hs : s.Shifted ρ s') (hscope : scope < s.scopes.size) :
    Result.Shifted ρ s (evalStmt call st scope s) (evalStmt call st (ρ.scopes.skip scope) s') := by
  match st with
  | .bind none _ =>
    rw [evalStmt, evalStmt]
    exact shifted_error hs _
  | .bind (some name) value =>
    rw [evalStmt, evalStmt]
    refine (evalExpr_shifted hc value hs hscope).andThen fun v s₁ s₁' _ hs₁ hv => ?_
    have hg := Store.Grows.set s₁ scope name v
    exact (shifted_ok (hs₁.set scope name hv) (hv.mono hg)).of_grows hg
  | .ret value =>
    rw [evalStmt, evalStmt]
    refine (evalExpr_shifted hc value hs hscope).andThen fun v s₁ s₁' _ hs₁ hv => ?_
    have hret : (Value.ret v).Fits s₁ := hv
    exact shifted_ok hs₁ hret
  | .expr value =>
    rw [evalStmt, evalStmt]
    exact evalExpr_shifted hc value hs hscope
  | .block body =>
    rw [evalStmt, evalStmt]
    exact evalBlock_shifted hc body hs hscope trivial
termination_by structural st

theorem evalBlock_shifted (hc : call.Shifts ρ) (body : List Stmt) {scope : ScopeId}
    {last : Value} {s s' : Store} (hs : s.Shifted ρ s') (hscope : scope < s.scopes.size)
    (hl : last.Fits s) :
    Result.Shifted ρ s (evalBlock call body scope last s)
      (evalBlock call body (ρ.scopes.skip scope) (ρ.value last) s') := by
  match body with
  | [] =>
    rw [evalBlock, evalBlock]
    exact shifted_ok hs hl
  | st :: rest =>
    rw [evalBlock, evalBlock]
    refine (evalStmt_shifted hc st hs hscope).andThen fun v s₁ s₁' hg hs₁ hv => ?_
    exact evalBlock_shifted hc rest hs₁ (Nat.lt_of_lt_of_le hscope hg.size) hv
termination_by structural body

end

end

theorem zip_map_value (ρ : Shift) (params : List Text) (args : List Value) :
    params.zip (args.map ρ.value) = (params.zip args).map ρ.binding := by
  rw [List.zip_map_right]
  rfl

theorem invoke_shifts (ρ : Shift) (limit room : Nat) : (invoke limit room).Shifts ρ := by
  induction room using Nat.strongRecOn with
  | ind room ih =>
    intro declaration home args s s' hs hhome hargs
    induction declaration using call_cases with
    | missing declaration hm =>
      rw [invoke_missingBody hm, invoke_missingBody hm]
      exact Result.shifted_error hs _
    | there params body =>
      have hlen : (args.map ρ.value).length = args.length := List.length_map ..
      by_cases hn : args.length = params.length
      · -- Both bodies get a new scope, and the two numbers are again one behind the gap.
        match room with
        | 0 =>
          rw [invoke_zero hn, invoke_zero (hlen.trans hn)]
          exact Result.shifted_error hs _
        | room + 1 =>
          rw [invoke_succ hn, invoke_succ (hlen.trans hn), zip_map_value, ← hs.size.skip]
          have hg := (Store.Keeps.entered s home (params.zip args)).toGrows
          have hnull : Value.null.Fits (s.entered home (params.zip args)) := trivial
          have hbody := evalBlock_shifted (ih room (by omega)) body
            (hs.entered hhome fun b hb => hargs b.2 (List.of_mem_zip hb).2)
            (s.size_lt_entered home _) hnull
          exact (hbody.of_grows hg).unwrapped
      · rw [invoke_wrongCount hn, invoke_wrongCount (fun h => hn (hlen.symm.trans h)), hlen]
        exact Result.shifted_ground hs rfl

/-- The evaluation of a node from stores that differ by a gap ends alike. -/
theorem evalNode_shifted {ρ : Shift} (limit : Nat) (n : Node) {scope : ScopeId} {s s' : Store}
    (hs : s.Shifted ρ s') (hscope : scope < s.scopes.size) :
    Result.Shifted ρ s (evalNode limit n scope s)
      (evalNode limit n (ρ.scopes.skip scope) s') := by
  have hc := invoke_shifts ρ limit limit
  cases n with
  | program p =>
    have hnull : Value.null.Fits s := trivial
    exact (evalBlock_shifted hc p.statements hs hscope hnull).unwrapped
  | stmt st => exact evalStmt_shifted hc st hs hscope
  | expr e => exact evalExpr_shifted hc e hs hscope

/-! ## A store that has grown -/

/-- What `s'` has more than `s`. -/
def Shift.between (s s' : Store) : Shift :=
  ⟨⟨s.scopes.size, s'.scopes.size - s.scopes.size⟩, ⟨s.functions, s'.functions - s.functions⟩⟩

/-- If all scopes were kept, then what was added since is the gap. -/
theorem Store.Closed.shifted {s s' : Store} (h : s.Closed) (hk : s.Keeps s.scopes.size s') :
    s.Shifted (.between s s') s' := by
  have hsize := hk.size
  have hfunctions := hk.functions
  refine ⟨h, ⟨Nat.le_refl _, ?_⟩, ⟨Nat.le_refl _, ?_⟩, fun i x hx => ?_⟩
  · simp only [Shift.between]
    omega
  · simp only [Shift.between]
    omega
  · have hi : i < s.scopes.size := (Array.getElem?_eq_some_iff.mp hx).1
    have hskip : ∀ j < s.scopes.size, (Shift.between s s').scopes.skip j = j :=
      fun j hj => Gap.skip_of_lt hj
    have hbinding : ∀ b ∈ x.bindings, (Shift.between s s').binding b = b := by
      intro b hb
      have hv : (Shift.between s s').value b.2 = b.2 :=
        Shift.value_of_fits rfl rfl ((h i x hx).bindings b hb)
      rw [Shift.binding, hv]
    have hparent : x.parent.map (Shift.between s s').scopes.skip = x.parent := by
      cases hp : x.parent with
      | none => rfl
      | some p =>
        have hpi := (h i x hx).parent p hp
        rw [Option.map_some, hskip p (Nat.lt_trans hpi hi)]
    rw [hskip i hi, hk.others i hi (Nat.ne_of_lt hi), hx, Shift.scope, hparent,
      List.map_congr_left hbinding, List.map_id']

theorem evalNode_closed (limit : Nat) (n : Node) {scope : ScopeId} {s : Store} (h : s.Closed)
    (hscope : scope < s.scopes.size) : (evalNode limit n scope s).2.Closed :=
  (evalNode_shifted limit n (h.shifted (.refl _ s)) hscope).stores.closed

end Borealis
