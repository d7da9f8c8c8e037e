-- Numbers wrap around. A tree of sums, differences, products and negations
-- wraps at every operator; what comes out is its value over all integers,
-- reduced once at the end. A quotient is not like that: its operands are
-- reduced before they are divided.
import Borealis.Eval
import Mathlib.Algebra.Group.Nat.Defs
import Mathlib.Algebra.Ring.Int.Defs

namespace Borealis

/-! ## Reduction -/

/-- The number with the same remainder modulo 2^64 that is at least -2^63 and less than 2^63. -/
def reduced (z : Int) : Int := (z + 2 ^ 63) % 2 ^ 64 - 2 ^ 63

theorem reduced_eq_bmod (z : Int) : reduced z = z.bmod (2 ^ 64) := by
  unfold reduced Int.bmod
  dsimp only
  split
  · omega
  · omega

theorem toInt_ofInt (z : Int) : (Int64.ofInt z).toInt = reduced z := by
  rw [reduced_eq_bmod]
  exact Int64.toInt_ofInt

theorem toInt_div (a b : Int64) : (a / b).toInt = reduced (a.toInt.tdiv b.toInt) := by
  rw [reduced_eq_bmod]
  exact Int64.toInt_div a b

/-! ## Values over all integers -/

/-- The expression is built from numbers, names that are bound to numbers, `-` in front of an
operand, and `+`, `-` and `*` between two. The integer is its value if nothing wraps around. -/
inductive Totals (s : Store) (scope : ScopeId) : Expr → Int → Prop
  | number (v : Int64) : Totals s scope (.int v) v.toInt
  | name {n : Text} {v : Int64} (h : s.get? scope n = some (.int v)) :
    Totals s scope (.ident n) v.toInt
  | negation {e : Expr} {x : Int} (h : Totals s scope e x) : Totals s scope (.unary "-" e) (-x)
  | sum {l r : Expr} {x y : Int} (hl : Totals s scope l x) (hr : Totals s scope r y) :
    Totals s scope (.binary "+" l r) (x + y)
  | difference {l r : Expr} {x y : Int} (hl : Totals s scope l x) (hr : Totals s scope r y) :
    Totals s scope (.binary "-" l r) (x - y)
  | product {l r : Expr} {x y : Int} (hl : Totals s scope l x) (hr : Totals s scope r y) :
    Totals s scope (.binary "*" l r) (x * y)

/-! ## Operators between numbers -/

variable {call : Caller} {s s₁ s₂ : Store} {scope : ScopeId} {op : Text} {l r : Expr} {a b : Int64}

/-- Numbers stop nothing, so an operator between them is applied to them. -/
theorem evalExpr_between (hl : evalExpr call l scope s = (.ok (.int a), s₁))
    (hr : evalExpr call r scope s₁ = (.ok (.int b), s₂)) :
    evalExpr call (.binary op l r) scope s = (.ok (Value.integerOperation op a b), s₂) := by
  simp [evalExpr, hl, hr, Result.andThen, Value.isAbrupt, Value.binary]

theorem evalExpr_negation (hl : evalExpr call l scope s = (.ok (.int a), s₁)) :
    evalExpr call (.unary "-" l) scope s = (.ok (.int (-a)), s₁) := by
  simp only [evalExpr, hl, Result.andThen, Value.isAbrupt]
  rfl

theorem integerOperation_slash (a b : Int64) : Value.integerOperation "/" a b =
    if b = 0 then .error (.divisionByZero a) else .int (a / b) := rfl

/-- Reducing at every operator comes to reducing once. -/
theorem Totals.evalExpr {e : Expr} {z : Int} (h : Totals s scope e z) (call : Caller) :
    evalExpr call e scope s = (.ok (.int (Int64.ofInt z)), s) := by
  induction h with
  | number v =>
    rw [Int64.ofInt_toInt]
    rfl
  | name h =>
    rw [Int64.ofInt_toInt, Borealis.evalExpr, h]
  | negation h ih =>
    rw [evalExpr_negation ih, Int64.ofInt_neg]
  | sum hl hr ihl ihr =>
    rw [evalExpr_between ihl ihr, Int64.ofInt_add]
    rfl
  | difference hl hr ihl ihr =>
    rw [evalExpr_between ihl ihr, Int64.ofInt_sub]
    rfl
  | product hl hr ihl ihr =>
    rw [evalExpr_between ihl ihr, Int64.ofInt_mul]
    rfl

/-! ## Numbers modulo 2^64 -/

/-- Arithmetic is arithmetic modulo 2^64. A tree of numbers comes to its value over all integers,
reduced once. A quotient of two numbers drops its fraction and is reduced, and by zero it is an
error of the language and no failure. -/
theorem arithmetic_is_reduced_once (s : Store) (scope : ScopeId) (limit : Nat) :
    (∀ e z, Totals s scope e z → ∃ v : Int64,
      evalNode limit (.expr e) scope s = (.ok (.int v), s) ∧ v.toInt = reduced z) ∧
    ∀ l r s₁ s₂, ∀ a b : Int64, evalNode limit (.expr l) scope s = (.ok (.int a), s₁) →
      evalNode limit (.expr r) scope s₁ = (.ok (.int b), s₂) →
      (b ≠ 0 → ∃ q : Int64, evalNode limit (.expr (.binary "/" l r)) scope s = (.ok (.int q), s₂) ∧
        q.toInt = reduced (a.toInt.tdiv b.toInt)) ∧
      (b = 0 → evalNode limit (.expr (.binary "/" l r)) scope s =
        (.ok (.error (.divisionByZero a)), s₂)) := by
  refine ⟨fun e z h => ⟨Int64.ofInt z, h.evalExpr _, toInt_ofInt z⟩, fun l r s₁ s₂ a b hl hr => ?_⟩
  have hquotient : evalNode limit (.expr (.binary "/" l r)) scope s =
      (.ok (if b = 0 then .error (.divisionByZero a) else .int (a / b)), s₂) :=
    (evalExpr_between hl hr).trans (by rw [integerOperation_slash])
  refine ⟨fun hb => ⟨a / b, ?_, toInt_div a b⟩, fun hb => ?_⟩
  · rw [hquotient, if_neg hb]
  · rw [hquotient, if_pos hb]

/-- A scope in which a name is bound to the least number. -/
def leastStore : Store := (Store.empty.newScope none).2.set 0 "least" (.int Int64.minValue)

/-- Three times the least number leaves the range, the least number divided by -1 does, and a
division by zero is no number. -/
theorem leastStore_is_reduced_once :
    (∃ v : Int64, evalNode 1
        (.expr (.binary "+" (.binary "*" (.ident "least") (.int 3)) (.int 1))) 0 leastStore =
      (.ok (.int v), leastStore) ∧ v.toInt = -2 ^ 63 + 1) ∧
    (∃ q : Int64, evalNode 1 (.expr (.binary "/" (.ident "least") (.int (-1)))) 0 leastStore =
      (.ok (.int q), leastStore) ∧ q.toInt = -2 ^ 63) ∧
    evalNode 1 (.expr (.binary "/" (.ident "least") (.int 0))) 0 leastStore =
      (.ok (.error (.divisionByZero Int64.minValue)), leastStore) := by
  have hleast : leastStore.get? 0 "least" = some (.int Int64.minValue) := rfl
  have htotal := Totals.sum (.product (.name hleast) (.number 3)) (.number 1)
  obtain ⟨hreduced, hdivided⟩ := arithmetic_is_reduced_once leastStore 0 1
  obtain ⟨v, hv, hvalue⟩ := hreduced _ _ htotal
  obtain ⟨q, hq, hquotient⟩ := (hdivided (.ident "least") (.int (-1)) _ _ _ _ rfl rfl).1 (by decide)
  have hzero := (hdivided (.ident "least") (.int 0) _ _ _ _ rfl rfl).2 rfl
  exact ⟨⟨v, hv, hvalue.trans (by decide)⟩, ⟨q, hq, hquotient.trans (by decide)⟩, hzero⟩

end Borealis
