-- Trees that are stored as JSON values. Reading such a value gives a tree with
-- nothing left out and a name wherever one belongs, or no tree at all. Every
-- tree of that kind is read back from the value that it is written as.
import Borealis.Proofs.Numerals
import Borealis.Proofs.WholeTrees
import Borealis.Tree.Json

namespace Borealis

/-! ## Trees that can be stored -/

mutual

/-- No child of the expression was left out, and no name in it is empty. -/
def Expr.Storable : Expr → Prop
  | .hole | .stub _ => False
  | .ident name => name ≠ []
  | .int _ | .bool _ => True
  | .unary _ operand => operand.Storable
  | .binary _ left right => left.Storable ∧ right.Storable
  | .ifThen test yes => test.Storable ∧ Stmt.AllStorable yes
  | .ifElse test yes no => test.Storable ∧ Stmt.AllStorable yes ∧ Stmt.AllStorable no
  | .fn params body => (∀ name ∈ params, name ≠ []) ∧ Stmt.AllStorable body
  | .call callee args => callee.Storable ∧ Expr.AllStorable args

def Expr.AllStorable : List Expr → Prop
  | [] => True
  | e :: es => e.Storable ∧ Expr.AllStorable es

/-- No child of the statement was left out, and it binds no empty name. -/
def Stmt.Storable : Stmt → Prop
  | .bind none _ => False
  | .bind (some name) value => name ≠ [] ∧ value.Storable
  | .ret value | .expr value => value.Storable
  | .block body => Stmt.AllStorable body

def Stmt.AllStorable : List Stmt → Prop
  | [] => True
  | s :: ss => s.Storable ∧ Stmt.AllStorable ss

end

/-- A program of statements that can be stored. -/
def Program.Storable (p : Program) : Prop := Stmt.AllStorable p.statements

theorem Expr.allStorable_iff {es : List Expr} : Expr.AllStorable es ↔ ∀ e ∈ es, e.Storable := by
  induction es with
  | nil => simp [Expr.AllStorable]
  | cons e es ih => simp [Expr.AllStorable, ih]

theorem Stmt.allStorable_iff {ss : List Stmt} : Stmt.AllStorable ss ↔ ∀ s ∈ ss, s.Storable := by
  induction ss with
  | nil => simp [Stmt.AllStorable]
  | cons s ss ih => simp [Stmt.AllStorable, ih]

mutual

theorem Expr.Storable.whole {e : Expr} (h : e.Storable) : e.Whole := by
  match e with
  | .hole | .stub _ => exact h
  | .ident _ | .int _ | .bool _ => trivial
  | .unary _ operand =>
    change operand.Storable at h
    exact h.whole
  | .binary _ left right => exact ⟨h.1.whole, h.2.whole⟩
  | .ifThen test yes => exact ⟨h.1.whole, h.2.whole⟩
  | .ifElse test yes no => exact ⟨h.1.whole, h.2.1.whole, h.2.2.whole⟩
  | .fn _ body => exact h.2.whole
  | .call callee args => exact ⟨h.1.whole, h.2.whole⟩

theorem Expr.AllStorable.whole {es : List Expr} (h : Expr.AllStorable es) :
    Expr.AllWhole es := by
  match es with
  | [] => trivial
  | e :: es => exact ⟨h.1.whole, h.2.whole⟩

theorem Stmt.Storable.whole {s : Stmt} (h : s.Storable) : s.Whole := by
  match s with
  | .bind none _ => exact h
  | .bind (some _) value => exact h.2.whole
  | .ret value | .expr value =>
    change value.Storable at h
    exact h.whole
  | .block body =>
    change Stmt.AllStorable body at h
    exact h.whole

theorem Stmt.AllStorable.whole {ss : List Stmt} (h : Stmt.AllStorable ss) :
    Stmt.AllWhole ss := by
  match ss with
  | [] => trivial
  | s :: ss => exact ⟨h.1.whole, h.2.whole⟩

end

/-! ## What is read -/

/-- The node can be stored. -/
def Node.Storable : Node → Prop
  | .program p => p.Storable
  | .stmt s => s.Storable
  | .expr e => e.Storable

namespace StoredTree

variable {α β : Type} {P : α → Prop} {Q : β → Prop} {N : Node → Prop}

/-- What was read, if anything was, is as `P` says. -/
def Yields (r : Except StoredTreeError α) (P : α → Prop) : Prop := ∀ a, r = .ok a → P a

theorem yields_ok {a : α} (h : P a) : Yields (.ok a) P := by
  intro b hb
  injection hb with hb
  exact hb ▸ h

theorem yields_error (e : StoredTreeError) : Yields (.error e) P := nofun

theorem Yields.bind {r : Except StoredTreeError α} {f : α → Except StoredTreeError β}
    (hr : Yields r P) (hf : ∀ a, P a → Yields (f a) Q) : Yields (r >>= f) Q := by
  cases r with
  | error e => exact yields_error e
  | ok a => exact hf a (hr a rfl)

theorem Yields.within {r : Except StoredTreeError α} (part : String) (h : Yields r P) :
    Yields (StoredTree.within part r) P := by
  cases r with
  | error e => exact yields_error _
  | ok a => exact h

theorem Yields.mapM {xs : List α} {f : α → Except StoredTreeError β}
    (h : ∀ x ∈ xs, Yields (f x) Q) : Yields (xs.mapM f) fun ys => ∀ y ∈ ys, Q y := by
  induction xs with
  | nil => exact yields_ok (by simp)
  | cons x xs ih =>
    rw [List.forall_mem_cons] at h
    rw [List.mapM_cons]
    refine h.1.bind fun y hy => (ih h.2).bind fun ys hys => yields_ok ?_
    exact List.forall_mem_cons.mpr ⟨hy, hys⟩

theorem yields_ite {p : Prop} [Decidable p] {r r' : Except StoredTreeError α}
    (h : p → Yields r P) (h' : Yields r' P) : Yields (if p then r else r') P := by
  split
  · exact h ‹p›
  · exact h'

theorem Yields.asExpr {r : Except StoredTreeError Node} (h : Yields r N) :
    Yields (StoredTree.asExpr r) fun e => N (.expr e) := by
  unfold StoredTree.asExpr
  split
  · exact yields_ok (h _ rfl)
  · exact yields_error _
  · exact yields_error _

theorem Yields.asName {r : Except StoredTreeError Node} (h : Yields r N) :
    Yields (StoredTree.asName r) fun name => N (.expr (.ident name)) := by
  unfold StoredTree.asName
  split
  · exact yields_ok (h _ rfl)
  · exact yields_error _
  · exact yields_error _

theorem Yields.asBlock {r : Except StoredTreeError Node} (h : Yields r N) :
    Yields (StoredTree.asBlock r) fun body => N (.stmt (.block body)) := by
  unfold StoredTree.asBlock
  split
  · exact yields_ok (h _ rfl)
  · exact yields_error _
  · exact yields_error _

theorem Yields.asStmt {r : Except StoredTreeError Node} (h : Yields r N) :
    Yields (StoredTree.asStmt r) fun s => N (.stmt s) := by
  unfold StoredTree.asStmt
  split
  · exact yields_ok (h _ rfl)
  · exact yields_error _
  · exact yields_error _

/-- Whatever the child reads as can be stored, and so can its items. -/
structure Child.Storable (c : Child) : Prop where
  node : Yields c.node Node.Storable
  items : ∀ x ∈ c.items, Yields x Node.Storable

theorem Child.storable_missing : Child.missing.Storable := ⟨yields_error _, by simp [Child.missing]⟩

theorem Child.Storable.statements {c : Child} (h : c.Storable) :
    Yields (c.items.mapM StoredTree.asStmt) Stmt.AllStorable := by
  intro ss hss
  rw [Stmt.allStorable_iff]
  exact Yields.mapM (fun x hx => (h.items x hx).asStmt) ss hss

theorem node_storable {fields : List (Text × Child)} (h : ∀ x ∈ fields, x.2.Storable) :
    Yields (node fields) Node.Storable := by
  have hget : ∀ p : Text × Child → Bool,
      (((fields.reverse.find? p).map Prod.snd).getD .missing).Storable := by
    intro p
    cases hf : fields.reverse.find? p with
    | none => exact Child.storable_missing
    | some x => exact h x (List.mem_reverse.mp (List.mem_of_find?_eq_some hf))
  unfold node
  refine yields_ite (fun _ => ?_) (yields_ite (fun _ => ?_) (yields_ite (fun _ => ?_)
    (yields_ite (fun _ => ?_) (yields_ite (fun _ => ?_) (yields_ite (fun _ => ?_)
    (yields_ite (fun _ => ?_) (yields_ite (fun _ => ?_) (yields_ite (fun _ => ?_)
    (yields_ite (fun _ => ?_) (yields_ite (fun _ => ?_) (yields_ite (fun _ => ?_)
    (yields_ite (fun _ => ?_) ?_))))))))))))
  · exact (hget _).statements.bind fun ss hss => yields_ok hss
  · refine ((hget _).node.asName.within _).bind fun name hn => ?_
    exact ((hget _).node.asExpr.within _).bind fun e he => yields_ok ⟨hn, he⟩
  · exact ((hget _).node.asExpr.within _).bind fun e he => yields_ok he
  · exact ((hget _).node.asExpr.within _).bind fun e he => yields_ok he
  · exact (hget _).statements.bind fun ss hss => yields_ok hss
  · dsimp only
    split
    · exact yields_error _
    · rename_i hn
      exact yields_ok fun hnil => hn (by rw [hnil]; rfl)
  · split
    · split
      · exact yields_ok trivial
      · exact yields_error _
    · exact yields_error _
  · split
    · exact yields_ok trivial
    · exact yields_error _
  · exact ((hget _).node.asExpr.within _).bind fun e he => yields_ok he
  · refine ((hget _).node.asExpr.within _).bind fun l hl => ?_
    exact ((hget _).node.asExpr.within _).bind fun r hr => yields_ok ⟨hl, hr⟩
  · refine ((hget _).node.asExpr.within _).bind fun test ht => ?_
    refine ((hget _).node.asBlock.within _).bind fun yes hy => ?_
    split
    · exact yields_ok ⟨ht, hy⟩
    · exact ((hget _).node.asBlock.within _).bind fun no hn => yields_ok ⟨ht, hy, hn⟩
  · refine (Yields.mapM fun x hx => ((hget _).items x hx).asName.within _).bind fun params hp => ?_
    exact ((hget _).node.asBlock.within _).bind fun body hb => yields_ok ⟨hp, hb⟩
  · refine ((hget _).node.asExpr.within _).bind fun callee hc => ?_
    refine (Yields.mapM fun x hx => ((hget _).items x hx).asExpr.within _).bind fun args ha => ?_
    exact yields_ok ⟨hc, Expr.allStorable_iff.mpr ha⟩
  · exact yields_error _

mutual

theorem child_storable (j : Json) : (child j).Storable := by
  match j with
  | .obj fields =>
    refine ⟨?_, ?_⟩
    · rw [child]
      exact node_storable (children_storable fields)
    · simp [child]
  | .arr items =>
    refine ⟨?_, ?_⟩
    · rw [child]
      exact yields_error _
    · rw [child]
      exact nodes_storable items
  | .null | .bool _ | .num _ | .str _ =>
    refine ⟨?_, ?_⟩
    · rw [child]
      exact yields_error _
    · simp [child]
termination_by structural j

theorem nodes_storable (items : List Json) : ∀ x ∈ nodes items, Yields x Node.Storable := by
  match items with
  | [] => simp [nodes]
  | j :: rest =>
    rw [nodes, List.forall_mem_cons]
    exact ⟨(child_storable j).node, nodes_storable rest⟩
termination_by structural items

theorem children_storable (fields : List (Text × Json)) : ∀ x ∈ children fields, x.2.Storable := by
  match fields with
  | [] => simp [children]
  | (k, v) :: rest =>
    rw [children, List.forall_mem_cons]
    exact ⟨child_storable v, children_storable rest⟩
termination_by structural fields

end

end StoredTree

/-- Whatever is read from a stored value can be stored. -/
theorem Program.ofJson_storable {j : Json} {p : Program} (h : Program.ofJson j = .ok p) :
    p.Storable := by
  have hnode : StoredTree.Yields (Node.ofJson j) Node.Storable := by
    unfold Node.ofJson
    split
    · exact StoredTree.node_storable (by simp)
    · exact StoredTree.node_storable (StoredTree.children_storable _)
    · exact StoredTree.yields_error _
  unfold Program.ofJson at h
  split at h
  · rename_i q hq
    injection h with h
    subst h
    exact hnode _ hq
  · exact absurd h (by simp)
  · exact absurd h (by simp)

theorem Program.ofJsonText_storable {t : Text} {p : Program} (h : Program.ofJsonText t = .ok p) :
    p.Storable := by
  unfold Program.ofJsonText at h
  split at h
  · exact Program.ofJson_storable h
  · exact absurd h (by simp)

/-! ## What is read back -/

namespace StoredTree

/-- A value that reads as the node. -/
def Child.ofNode (j : Json) (n : Node) : Child := ⟨j, .ok n, []⟩

theorem child_of_node {form : String} {fields : List (Text × Json)} {n : Node}
    (h : node (("type", child (.str form)) :: children fields) = .ok n) :
    child (nodeJson form fields) = .ofNode (nodeJson form fields) n := by
  rw [nodeJson, child, children, h]
  rfl

theorem mapM_ok {α β : Type} {f : α → β} {g : β → Except StoredTreeError α}
    (h : ∀ a, g (f a) = .ok a) (as : List α) : (as.map f).mapM g = .ok as := by
  induction as with
  | nil => rfl
  | cons a as ih =>
    rw [List.map_cons, List.mapM_cons, h, ih]
    rfl

theorem child_name {name : Text} (h : name ≠ []) :
    child (nameJson name) = .ofNode (nameJson name) (.expr (.ident name)) := by
  have hnode : (child (nameJson name)).node =
      if name.isEmpty then .error .nameless else .ok (.expr (.ident name)) := rfl
  rw [if_neg (by simpa using h)] at hnode
  exact child_of_node hnode

theorem nodes_names {names : List Text} (h : ∀ name ∈ names, name ≠ []) :
    nodes (names.map nameJson) = names.map fun name => .ok (.expr (.ident name)) := by
  induction names with
  | nil => rfl
  | cons name names ih =>
    rw [List.forall_mem_cons] at h
    rw [List.map_cons, nodes, child_name h.1, ih h.2]
    rfl

theorem child_block {js : List Json} {ss : List Stmt}
    (h : nodes js = ss.map fun s => .ok (.stmt s)) :
    child (blockJson js) = .ofNode (blockJson js) (.stmt (.block ss)) := by
  have hnode : (child (blockJson js)).node =
      (nodes js).mapM asStmt >>= fun ss => .ok (.stmt (.block ss)) := rfl
  rw [h, mapM_ok fun _ => by rfl] at hnode
  exact child_of_node hnode

mutual

theorem child_expr {e : Expr} (h : e.Storable) : child e.toJson = .ofNode e.toJson (.expr e) := by
  match e with
  | .ident name => exact child_name h
  | .int value =>
    have hnode : (child (Expr.int value).toJson).node =
        match (Text.ofInt value.toInt).toInt64 with
        | .ok value => .ok (.expr (.int value))
        | .error why => .error (.badInteger (Text.ofInt value.toInt) why) := rfl
    rw [Text.toInt64_ofInt] at hnode
    exact child_of_node hnode
  | .bool value => rfl
  | .unary op operand =>
    change operand.Storable at h
    refine child_of_node ?_
    simp only [children, child_expr h]
    rfl
  | .binary op left right =>
    refine child_of_node ?_
    simp only [children, child_expr h.1, child_expr h.2]
    rfl
  | .ifThen test yes =>
    refine child_of_node ?_
    simp only [children, child_expr h.1, child_block (nodes_stmts h.2)]
    rfl
  | .ifElse test yes no =>
    refine child_of_node ?_
    simp only [children, child_expr h.1, child_block (nodes_stmts h.2.1),
      child_block (nodes_stmts h.2.2)]
    rfl
  | .fn params body =>
    refine child_of_node ?_
    simp only [children, child, nodes_names h.1, child_block (nodes_stmts h.2)]
    show (List.mapM (fun p => within "function parameter" (asName p)) (params.map _) >>= _) = _
    rw [mapM_ok fun _ => by rfl]
    rfl
  | .call callee args =>
    refine child_of_node ?_
    simp only [children, child, child_expr h.1, nodes_exprs h.2]
    show (List.mapM (fun a => within "call argument" (asExpr a)) (args.map _) >>= _) = _
    rw [mapM_ok fun _ => by rfl]
    rfl

theorem nodes_exprs {es : List Expr} (h : Expr.AllStorable es) :
    nodes (Expr.toJsonList es) = es.map fun e => .ok (.expr e) := by
  match es with
  | [] => rfl
  | e :: es =>
    rw [Expr.toJsonList, nodes, child_expr h.1, nodes_exprs h.2]
    rfl

theorem child_stmt {s : Stmt} (h : s.Storable) : child s.toJson = .ofNode s.toJson (.stmt s) := by
  match s with
  | .bind (some name) value =>
    refine child_of_node ?_
    simp only [children, Option.map_some, Option.getD_some, child_name h.1, child_expr h.2]
    rfl
  | .ret value =>
    change value.Storable at h
    refine child_of_node ?_
    simp only [children, child_expr h]
    rfl
  | .expr value =>
    change value.Storable at h
    refine child_of_node ?_
    simp only [children, child_expr h]
    rfl
  | .block body =>
    change Stmt.AllStorable body at h
    exact child_block (nodes_stmts h)

theorem nodes_stmts {ss : List Stmt} (h : Stmt.AllStorable ss) :
    nodes (Stmt.toJsonList ss) = ss.map fun s => .ok (.stmt s) := by
  match ss with
  | [] => rfl
  | s :: ss =>
    rw [Stmt.toJsonList, nodes, child_stmt h.1, nodes_stmts h.2]
    rfl

end

end StoredTree

theorem Program.ofJson_toJson {p : Program} (h : p.Storable) : Program.ofJson p.toJson = .ok p := by
  have hnode : Node.ofJson p.toJson =
      (StoredTree.nodes (Stmt.toJsonList p.statements)).mapM StoredTree.asStmt >>=
        fun ss => .ok (.program ⟨ss⟩) := rfl
  rw [StoredTree.nodes_stmts h, StoredTree.mapM_ok fun _ => by rfl] at hnode
  unfold Program.ofJson
  rw [hnode]
  rfl

/-- A program with nothing left out and without empty names is read back from its stored value,
and from every text that holds this value. Whatever else a program is read from, it is such a
program. -/
theorem stored_programs_are_read_back (p : Program) :
    (p.Storable → Program.ofJson p.toJson = .ok p ∧
      ∀ t, Json.firstOf? t = some p.toJson → Program.ofJsonText t = .ok p) ∧
    (∀ j, Program.ofJson j = .ok p → p.Storable ∧ Program.ofJson p.toJson = .ok p) ∧
    ∀ t, Program.ofJsonText t = .ok p → p.Storable ∧ Program.ofJson p.toJson = .ok p := by
  refine ⟨fun h => ⟨Program.ofJson_toJson h, fun t ht => ?_⟩, fun j hj => ?_, fun t ht => ?_⟩
  · unfold Program.ofJsonText
    rw [ht]
    exact Program.ofJson_toJson h
  · have hp := Program.ofJson_storable hj
    exact ⟨hp, Program.ofJson_toJson hp⟩
  · have hp := Program.ofJsonText_storable ht
    exact ⟨hp, Program.ofJson_toJson hp⟩

/-- A block as a statement, an operator that no text has, a negative number, and an `if` with
and without its `else`. -/
def unusualTree : Program := ⟨[
  .block [.bind (some "abs") (.fn ["x"]
    [.expr (.ifElse (.binary "<" (.ident "x") (.int 0))
      [.ret (.unary "-" (.ident "x"))] [.expr (.ident "x")])])],
  .expr (.ifThen (.unary "not" (.bool false)) [.expr (.call (.ident "abs") [.int (-5)])])]⟩

theorem unusualTree_is_read_back :
    unusualTree.Storable ∧ Program.ofJson unusualTree.toJson = .ok unusualTree := by
  have h : unusualTree.Storable := by
    simp [unusualTree, Program.Storable, Stmt.AllStorable, Stmt.Storable, Expr.AllStorable,
      Expr.Storable, Text.ofString]
  exact ⟨h, ((stored_programs_are_read_back unusualTree).1 h).1⟩

end Borealis
