-- Stored values and the trees that are read from them. A tree is written back
-- as a value that agrees with the one it was read from, key by key, as long as
-- there is a list where nodes belong and a text where an operator belongs.
-- Anything else in these two places is read as no nodes and no operator, so
-- that it is dropped and nothing is said.
import Borealis.Proofs.StoredTrees
import Borealis.Proofs.Tables
import Mathlib.Data.List.Forall2

namespace Borealis

/-! ## The value of an integer -/

namespace Text

/-- The number that digits spell, if there are digits and nothing else. -/
def natural? (t : Text) : Option Nat :=
  if t ≠ [] ∧ t.all isDigit then
    some (t.foldl (fun n b => n * 10 + (b - byte '0').toNat) 0)
  else none

/-- The integer that a sign and digits spell, of any size. -/
def integer? : Text → Option Int
  | [] => none
  | b :: rest =>
    if b = byte '-' then (natural? rest).map fun n : Nat => -(n : Int)
    else if b = byte '+' then (natural? rest).map fun n : Nat => (n : Int)
    else (natural? (b :: rest)).map fun n : Nat => (n : Int)

theorem digitsFrom_eq_ok {t : Text} {value n : Nat} (h : digitsFrom value t = .ok n) :
    t.all isDigit = true ∧ t.foldl (fun n b => n * 10 + (b - byte '0').toNat) value = n := by
  induction t generalizing value with
  | nil =>
    cases h
    exact ⟨rfl, rfl⟩
  | cons b t ih =>
    simp only [digitsFrom] at h
    split at h
    · rename_i hb
      split at h
      · obtain ⟨hall, hvalue⟩ := ih h
        exact ⟨by simp [hb, hall], hvalue⟩
      · cases h
    · cases h

theorem natural?_of_digits {t : Text} {n : Nat} (h : digits t = .ok n) : natural? t = some n := by
  unfold digits at h
  split at h
  · cases h
  · rename_i hne
    obtain ⟨hall, hvalue⟩ := digitsFrom_eq_ok h
    rw [natural?, if_pos ⟨by simpa using hne, hall⟩, hvalue]

theorem toInt_of_fitInt64 {i : Int} {v : Int64} (h : fitInt64 i = .ok v) : v.toInt = i := by
  unfold fitInt64 at h
  split at h
  · rename_i hfit
    cases h
    rw [Int64.toInt_minValue, Int64.toInt_maxValue] at hfit
    exact Int64.toInt_ofInt_of_le hfit.1 (Int.lt_of_le_sub_one hfit.2)
  · cases h

/-- An integer that is read has the value that is written. -/
theorem integer?_of_toInt64 {t : Text} {v : Int64} (h : toInt64 t = .ok v) :
    integer? t = some v.toInt := by
  have hread : ∀ {ds : Text} {f : Nat → Int},
      ((digits ds).bind fun n => fitInt64 (f n)) = .ok v → (natural? ds).map f = some v.toInt := by
    intro ds f h
    cases hd : digits ds with
    | error e =>
      rw [hd] at h
      cases h
    | ok n =>
      rw [hd] at h
      rw [natural?_of_digits hd, Option.map_some, toInt_of_fitInt64 h]
  cases t with
  | nil => cases h
  | cons b rest =>
    simp only [toInt64] at h
    simp only [integer?]
    by_cases hminus : b = byte '-'
    · rw [if_pos hminus] at h ⊢
      exact hread h
    · by_cases hplus : b = byte '+'
      · rw [if_neg hminus, if_pos hplus] at h ⊢
        exact hread h
      · rw [if_neg hminus, if_neg hplus] at h ⊢
        exact hread h

theorem integer?_ofInt (v : Int64) : integer? (ofInt v.toInt) = some v.toInt :=
  integer?_of_toInt64 (toInt64_ofInt v)

end Text

/-! ## Agreement -/

namespace Json

/-- The items of a list. Any other value has none. -/
def items : Json → List Json
  | .arr vs => vs
  | _ => []

/-- A list, or null in its place. -/
def isList : Json → Bool
  | .arr _ | .null => true
  | _ => false

def isText : Json → Bool
  | .str _ => true
  | _ => false

def isObject : Json → Bool
  | .obj _ => true
  | _ => false

/-- The form of a node. -/
def form (v : Json) : Text := StoredTree.asText (v.field "type")

/-- What belongs under a key of a node: an operator, a list of nodes, or anything else. -/
inductive Slot where
  | operator
  | many
  | one
  deriving DecidableEq

/-- The keys that each form of node has besides its type. -/
def slotTable : List (Text × List (Text × Slot)) :=
  [("Program", [("statements", .many)]),
    ("LetStatement", [("name", .one), ("value", .one)]),
    ("ReturnStatement", [("value", .one)]),
    ("ExpressionStatement", [("expression", .one)]),
    ("BlockStatement", [("statements", .many)]),
    ("Identifier", [("name", .one)]),
    ("IntegerLiteral", [("value", .one)]),
    ("BooleanLiteral", [("value", .one)]),
    ("PrefixExpression", [("operator", .operator), ("right", .one)]),
    ("InfixExpression", [("operator", .operator), ("left", .one), ("right", .one)]),
    ("IfExpression", [("condition", .one), ("consequence", .one), ("alternative", .one)]),
    ("FunctionLiteral", [("parameters", .many), ("body", .one)]),
    ("CallExpression", [("function", .one), ("arguments", .many)])]

/-- The keys of a form. -/
def slots (form : Text) : List (Text × Slot) := (slotTable.lookup form).getD []

mutual

/-- A value agrees with a written one: numbers by their value, lists item by item, where null is
the empty list, and nodes in every key of their form. Keys that are missing count as null. If it
is `loose`, what is no list counts as the empty list, and what is no text as the empty text. -/
def Agrees (loose : Bool) (v w : Json) : Prop :=
  match w with
  | .null => v = .null
  | .bool b => v = .bool b
  | .num l => ∃ k i, v = .num k ∧ Text.integer? k = some i ∧ Text.integer? l = some i
  | .str t => v = .str t ∨ (loose = true ∧ v.isText = false ∧ t = [])
  | .arr ws => (v.isList = true ∨ loose = true) ∧ AgreeAll loose v.items ws
  | .obj fields => v.isObject = true ∧ AgreeIn loose v fields ∧
    ∀ s ∈ slots v.form, (∀ e ∈ fields, e.1 ≠ s.1) → v.field s.1 = .null
termination_by structural w

def AgreeAll (loose : Bool) (vs ws : List Json) : Prop :=
  match ws with
  | [] => vs = []
  | w :: ws => ∃ v rest, vs = v :: rest ∧ Agrees loose v w ∧ AgreeAll loose rest ws
termination_by structural ws

def AgreeIn (loose : Bool) (v : Json) (fields : List (Text × Json)) : Prop :=
  match fields with
  | [] => True
  | (k, w) :: rest => Agrees loose (v.field k) w ∧ AgreeIn loose v rest
termination_by structural fields

end

/-- Wherever the nodes of a value have lists of nodes there is a list, and wherever they have
operators there is a text. -/
inductive Intact : Json → Prop where
  | plain {v : Json} (hobject : v.isObject = false) (hitems : v.items = []) : Intact v
  | list {vs : List Json} (h : ∀ v ∈ vs, Intact v) : Intact (.arr vs)
  | node {v : Json} (hobject : v.isObject = true)
      (hoperator : ∀ s ∈ slots v.form, s.2 = .operator → (v.field s.1).isText = true)
      (hmany : ∀ s ∈ slots v.form, s.2 = .many → (v.field s.1).isList = true)
      (hall : ∀ s ∈ slots v.form, Intact (v.field s.1)) : Intact v

/-- A value under a key of a node is intact and of the right kind. -/
def Fits : Slot → Json → Prop
  | .operator, v => v.isText = true
  | .many, v => v.isList = true ∧ v.Intact
  | .one, v => v.Intact

theorem nodup_slotTable : (slotTable.map Prod.fst).Nodup := by decide +kernel

theorem slots_of_mem {form : Text} {kinds : List (Text × Slot)} (h : (form, kinds) ∈ slotTable) :
    slots form = kinds := by
  rw [slots, (lookup_eq_some_iff_mem nodup_slotTable).mpr h, Option.getD_some]

theorem ne_nil_of_mem_slotTable {form : Text} {kinds : List (Text × Slot)}
    (h : (form, kinds) ∈ slotTable) : form ≠ [] := by
  have hall : ∀ e ∈ slotTable, e.1 ≠ [] := by decide +kernel
  exact hall _ h

variable {loose : Bool} {v w : Json}

theorem agreeAll_cons {vs ws : List Json} :
    AgreeAll loose (v :: vs) (w :: ws) ↔ Agrees loose v w ∧ AgreeAll loose vs ws := by
  simp [AgreeAll]

theorem agreeIn_cons {k : Text} {fields : List (Text × Json)} :
    AgreeIn loose v ((k, w) :: fields) ↔ Agrees loose (v.field k) w ∧ AgreeIn loose v fields :=
  Iff.rfl

theorem intact_of_isText (h : v.isText = true) : v.Intact := by
  cases v with
  | str t => exact .plain rfl rfl
  | null | bool | num | arr | obj => cases h

theorem intact_null : Intact .null := .plain rfl rfl

theorem intact_arr_iff {vs : List Json} : (Json.arr vs).Intact ↔ ∀ v ∈ vs, v.Intact := by
  constructor
  · intro h
    cases h with
    | plain hobject hitems =>
      cases hitems
      simp
    | list h => exact h
    | node hobject => cases hobject
  · exact .list

theorem intact_iff_of_isList (h : v.isList = true) : v.Intact ↔ ∀ x ∈ v.items, x.Intact := by
  cases v with
  | arr vs => exact intact_arr_iff
  | null => exact ⟨fun _ => by simp [items], fun _ => intact_null⟩
  | bool | num | str | obj => cases h

theorem intact_node_iff (h : v.isObject = true) :
    v.Intact ↔ ∀ s ∈ slots v.form, Fits s.2 (v.field s.1) := by
  constructor
  · intro hv
    cases hv with
    | plain hobject => simp [h] at hobject
    | list => cases h
    | node hobject hoperator hmany hall =>
      rintro ⟨k, s⟩ hs
      cases s with
      | operator => exact hoperator _ hs rfl
      | many => exact ⟨hmany _ hs rfl, hall _ hs⟩
      | one => exact hall _ hs
  · intro hfits
    refine .node h (fun s hs hkind => ?_) (fun s hs hkind => ?_) fun s hs => ?_
    · have hfit := hfits s hs
      rwa [hkind] at hfit
    · have hfit := hfits s hs
      rw [hkind] at hfit
      exact hfit.1
    · obtain ⟨k, kind⟩ := s
      have hfit := hfits _ hs
      cases kind with
      | operator => exact intact_of_isText hfit
      | many => exact hfit.2
      | one => exact hfit

theorem intact_of_slots (form : String) (kinds : List (Text × Slot))
    (hmem : (Text.ofString form, kinds) ∈ slotTable) (hobject : v.isObject = true)
    (hform : v.form = form) (hfits : ∀ s ∈ kinds, Fits s.2 (v.field s.1)) : v.Intact := by
  rw [intact_node_iff hobject, hform, slots_of_mem hmem]
  exact hfits

/-! ## What a value tells of the one written for it -/

/-- The value agrees loosely with the written one, and strictly exactly if `S` holds. -/
def Told (v w : Json) (S : Prop) : Prop := Agrees true v w ∧ (Agrees false v w ↔ S)

theorem told_operator (v : Json) : Told v (.str (StoredTree.asText v)) (v.isText = true) := by
  cases v <;> simp [Told, Agrees, StoredTree.asText, isText]

theorem told_name (h : StoredTree.asText v ≠ []) :
    Told v (.str (StoredTree.asText v)) v.Intact := by
  obtain ⟨hloose, hstrict⟩ := told_operator v
  have hv : v.isText = true := by
    cases v with
    | str t => rfl
    | null | bool | num | arr | obj => exact absurd rfl h
  exact ⟨hloose, hstrict.trans ⟨fun _ => intact_of_isText hv, fun _ => hv⟩⟩

theorem told_int {literal : Text} {value : Int64} (h : literal.toInt64 = .ok value) :
    Told (.num literal) (.int value.toInt) (Json.num literal).Intact := by
  have hagree : ∀ loose, Agrees loose (.num literal) (.int value.toInt) := fun loose =>
    ⟨literal, value.toInt, rfl, Text.integer?_of_toInt64 h, Text.integer?_ofInt value⟩
  exact ⟨hagree true, fun _ => .plain rfl rfl, fun _ => hagree false⟩

theorem told_bool (b : Bool) : Told (.bool b) (.bool b) (Json.bool b).Intact :=
  ⟨rfl, fun _ => .plain rfl rfl, fun _ => rfl⟩

theorem told_items {vs ws : List Json} (h : List.Forall₂ (fun x w => Told x w x.Intact) vs ws) :
    AgreeAll true vs ws ∧ (AgreeAll false vs ws ↔ ∀ x ∈ vs, x.Intact) := by
  induction h with
  | nil => simp [AgreeAll]
  | cons hx _ ih =>
    rw [agreeAll_cons, agreeAll_cons, List.forall_mem_cons]
    exact ⟨⟨hx.1, ih.1⟩, and_congr hx.2 ih.2⟩

theorem told_list {ws : List Json} (h : List.Forall₂ (fun x w => Told x w x.Intact) v.items ws) :
    Told v (.arr ws) (Fits .many v) := by
  obtain ⟨hloose, hstrict⟩ := told_items h
  refine ⟨⟨.inr rfl, hloose⟩, ?_⟩
  rw [Agrees, hstrict, Fits]
  constructor
  · rintro ⟨hlist | hfalse, hall⟩
    · exact ⟨hlist, (intact_iff_of_isList hlist).mpr hall⟩
    · cases hfalse
  · rintro ⟨hlist, hintact⟩
    exact ⟨.inl hlist, (intact_iff_of_isList hlist).mp hintact⟩

/-- An entry of a written node stands under the key of a slot, and what the value has there tells
of it. -/
def Fills (v : Json) (s : Text × Slot) (e : Text × Json) : Prop :=
  s.1 = e.1 ∧ Told (v.field s.1) e.2 (Fits s.2 (v.field s.1))

theorem told_fields {filled : List (Text × Slot)} {fields : List (Text × Json)}
    (h : List.Forall₂ (Fills v) filled fields) :
    AgreeIn true v fields ∧ (AgreeIn false v fields ↔ ∀ s ∈ filled, Fits s.2 (v.field s.1)) := by
  induction h with
  | nil => simp [AgreeIn]
  | cons hs _ ih =>
    obtain ⟨hkey, hloose, hstrict⟩ := hs
    rw [agreeIn_cons, agreeIn_cons, List.forall_mem_cons, ← hkey]
    exact ⟨⟨hloose, ih.1⟩, and_congr hstrict ih.2⟩

theorem mem_keys_of_fills {filled : List (Text × Slot)} {fields : List (Text × Json)}
    (h : List.Forall₂ (Fills v) filled fields) {s : Text × Slot} (hs : s ∈ filled) :
    ∃ e ∈ fields, e.1 = s.1 := by
  induction h with
  | nil => cases hs
  | cons hfirst _ ih =>
    rcases List.mem_cons.mp hs with rfl | hs
    · exact ⟨_, List.mem_cons_self, hfirst.1.symm⟩
    · obtain ⟨e, he, hkey⟩ := ih hs
      exact ⟨e, List.mem_cons_of_mem _ he, hkey⟩

theorem mem_of_lookup {name : Text} {fields : List (Text × Json)}
    (h : lookup name fields = some v) : ∃ k, (k, v) ∈ fields := by
  obtain ⟨⟨k, w⟩, hfind, rfl⟩ := Option.map_eq_some_iff.mp h
  exact ⟨k, List.mem_reverse.mp (List.mem_of_find?_eq_some hfind)⟩

theorem field_type {form : Text} (hform : v.form = form) (hne : form ≠ []) :
    v.field "type" = .str form := by
  unfold Json.form at hform
  cases hv : v.field "type" with
  | str t =>
    rw [hv] at hform
    exact congrArg _ hform
  | null | bool | num | arr | obj =>
    rw [hv] at hform
    exact absurd hform.symm hne

/-- Tells of a node that is written with the `filled` slots of its form. The value has nothing
under the keys of the others. -/
theorem told_node (filled empty : List (Text × Slot)) {form : String}
    {fields : List (Text × Json)} (hmem : (Text.ofString form, filled ++ empty) ∈ slotTable)
    (hobject : v.isObject = true) (hform : v.form = form)
    (hfilled : List.Forall₂ (Fills v) filled fields)
    (hempty : ∀ s ∈ empty, s.2 = .one ∧ v.field s.1 = .null) :
    Told v (nodeJson form fields) v.Intact := by
  obtain ⟨hloose, hstrict⟩ := told_fields hfilled
  have hslots : slots form = filled ++ empty := slots_of_mem hmem
  have htype : ∀ loose, Agrees loose (v.field "type") (.str form) := fun loose =>
    .inl (field_type hform (ne_nil_of_mem_slotTable hmem))
  have habsent : ∀ s ∈ slots v.form,
      (∀ e ∈ (("type" : Text), Json.str form) :: fields, e.1 ≠ s.1) → v.field s.1 = .null := by
    intro s hs hkey
    rw [hform, hslots] at hs
    rcases List.mem_append.mp hs with hs | hs
    · obtain ⟨e, he, heq⟩ := mem_keys_of_fills hfilled hs
      exact absurd heq (hkey e (List.mem_cons_of_mem _ he))
    · exact (hempty s hs).2
  have hfits : ∀ s ∈ empty, Fits s.2 (v.field s.1) := by
    intro s hs
    obtain ⟨hkind, hnull⟩ := hempty s hs
    rw [hkind, hnull]
    exact intact_null
  refine ⟨⟨hobject, ⟨htype true, hloose⟩, habsent⟩, ?_⟩
  rw [intact_node_iff hobject, hform, hslots, List.forall_mem_append, ← hstrict]
  constructor
  · rintro ⟨-, ⟨-, hagree⟩, -⟩
    exact ⟨hagree, hfits⟩
  · rintro ⟨hagree, -⟩
    exact ⟨hobject, ⟨htype false, hagree⟩, habsent⟩

/-- Tells of a node that is written with all slots of its form. -/
theorem told_whole (filled : List (Text × Slot)) {form : String} {fields : List (Text × Json)}
    (hmem : (Text.ofString form, filled) ∈ slotTable) (hobject : v.isObject = true)
    (hform : v.form = form) (hfilled : List.Forall₂ (Fills v) filled fields) :
    Told v (nodeJson form fields) v.Intact := by
  refine told_node filled [] ?_ hobject hform hfilled nofun
  rwa [List.append_nil]

end Json

theorem Expr.toJsonList_eq_map (es : List Expr) : Expr.toJsonList es = es.map Expr.toJson := by
  induction es with
  | nil => rfl
  | cons e es ih => rw [Expr.toJsonList, ih, List.map_cons]

theorem Stmt.toJsonList_eq_map (ss : List Stmt) : Stmt.toJsonList ss = ss.map Stmt.toJson := by
  induction ss with
  | nil => rfl
  | cons s ss ih => rw [Stmt.toJsonList, ih, List.map_cons]

/-! ## Reading -/

namespace StoredTree

theorem raw_child (v : Json) : (child v).raw = v := by
  cases v <;> rfl

theorem items_child (v : Json) : (child v).items = v.items.map fun x => (child x).node := by
  cases v with
  | arr vs =>
    show nodes vs = vs.map fun x => (child x).node
    induction vs with
    | nil => rfl
    | cons x vs ih => rw [nodes, ih, List.map_cons]
  | null | bool | num | str | obj => rfl

theorem children_eq_map (fields : List (Text × Json)) :
    children fields = fields.map fun e => (e.1, child e.2) := by
  induction fields with
  | nil => rfl
  | cons e fields ih => rw [children, ih, List.map_cons]

theorem lookup_children (name : Text) (fields : List (Text × Json)) :
    (((children fields).reverse.find? fun (k, _) => k == name).map Prod.snd).getD .missing =
      child ((Json.obj fields).field name) := by
  rw [children_eq_map, ← List.map_reverse, List.find?_map, Json.field, Json.field?, Json.lookup]
  show ((((fields.reverse.find? fun e => e.1 == name).map _).map Prod.snd).getD .missing) =
    child (((fields.reverse.find? fun e => e.1 == name).map Prod.snd).getD .null)
  cases fields.reverse.find? fun e => e.1 == name with
  | none => rfl
  | some e => rfl

theorem Yields.mapM_forall₂ {α β : Type} {xs : List α} {f : α → Except StoredTreeError β}
    {R : α → β → Prop} (h : ∀ x ∈ xs, Yields (f x) (R x)) :
    Yields (xs.mapM f) (List.Forall₂ R xs) := by
  induction xs with
  | nil => exact yields_ok .nil
  | cons x xs ih =>
    rw [List.forall_mem_cons] at h
    rw [List.mapM_cons]
    exact h.1.bind fun y hy => (ih h.2).bind fun ys hys => yields_ok (.cons hy hys)

/-- What is read from the value is written as a value that the first one tells of. -/
def Faithful (v : Json) : Prop := Yields (child v).node fun n => v.Told n.toJson v.Intact

theorem Faithful.list {β : Type} {v : Json} {node : β → Node}
    {f : Except StoredTreeError Node → Except StoredTreeError β} (h : ∀ x ∈ v.items, Faithful x)
    (hf : ∀ {r : Except StoredTreeError Node} {N : Node → Prop},
      Yields r N → Yields (f r) fun b => N (node b)) :
    Yields ((child v).items.mapM f) fun bs =>
      v.Told (.arr (bs.map fun b => (node b).toJson)) (Json.Fits .many v) := by
  rw [items_child, List.mapM_map]
  intro bs hbs
  refine Json.told_list (List.forall₂_map_right_iff.mpr ?_)
  exact Yields.mapM_forall₂ (fun x hx => hf (h x hx)) bs hbs

theorem Faithful.statements {v : Json} (h : ∀ x ∈ v.items, Faithful x) :
    Yields ((child v).items.mapM asStmt) fun ss =>
      v.Told (.arr (Stmt.toJsonList ss)) (Json.Fits .many v) := by
  intro ss hss
  rw [Stmt.toJsonList_eq_map]
  exact Faithful.list h Yields.asStmt ss hss

theorem node_faithful {fields : List (Text × Json)}
    (hnode : ∀ name, Faithful ((Json.obj fields).field name))
    (hitems : ∀ name, ∀ x ∈ ((Json.obj fields).field name).items, Faithful x) :
    Faithful (.obj fields) := by
  unfold Faithful
  rw [child, node]
  simp only [lookup_children, raw_child]
  generalize hv : Json.obj fields = v at *
  have hobject : v.isObject = true := by
    rw [← hv]
    rfl
  -- One case for each form, in the order in which they are tried. Each one names the slots of
  -- the form and fills them with what was read.
  refine yields_ite (fun hform => ?_) (yields_ite (fun hform => ?_) (yields_ite (fun hform => ?_)
    (yields_ite (fun hform => ?_) (yields_ite (fun hform => ?_) (yields_ite (fun hform => ?_)
    (yields_ite (fun hform => ?_) (yields_ite (fun hform => ?_) (yields_ite (fun hform => ?_)
    (yields_ite (fun hform => ?_) (yields_ite (fun hform => ?_) (yields_ite (fun hform => ?_)
    (yields_ite (fun hform => ?_) ?_))))))))))))
  · refine (Faithful.statements (hitems _)).bind fun ss hss => yields_ok ?_
    refine Json.told_whole [("statements", .many)]
      (by simp [Json.slotTable]) hobject hform ?_
    exact .cons ⟨rfl, hss⟩ .nil
  · refine ((hnode _).asName.within _).bind fun name hname => ?_
    refine ((hnode _).asExpr.within _).bind fun e he => yields_ok ?_
    refine Json.told_whole [("name", .one), ("value", .one)]
      (by simp [Json.slotTable]) hobject hform ?_
    exact .cons ⟨rfl, hname⟩ (.cons ⟨rfl, he⟩ .nil)
  · refine ((hnode _).asExpr.within _).bind fun e he => yields_ok ?_
    refine Json.told_whole [("value", .one)] (by simp [Json.slotTable]) hobject hform ?_
    exact .cons ⟨rfl, he⟩ .nil
  · refine ((hnode _).asExpr.within _).bind fun e he => yields_ok ?_
    refine Json.told_whole [("expression", .one)]
      (by simp [Json.slotTable]) hobject hform ?_
    exact .cons ⟨rfl, he⟩ .nil
  · refine (Faithful.statements (hitems _)).bind fun ss hss => yields_ok ?_
    refine Json.told_whole [("statements", .many)]
      (by simp [Json.slotTable]) hobject hform ?_
    exact .cons ⟨rfl, hss⟩ .nil
  · split
    · exact yields_error _
    · rename_i hname
      refine yields_ok ?_
      refine Json.told_whole [("name", .one)] (by simp [Json.slotTable]) hobject hform ?_
      exact .cons ⟨rfl, Json.told_name (by simpa using hname)⟩ .nil
  · split
    · rename_i literal hvalue
      split
      · rename_i value hint
        refine yields_ok ?_
        refine Json.told_whole [("value", .one)] (by simp [Json.slotTable]) hobject hform ?_
        exact .cons ⟨rfl, hvalue ▸ Json.told_int hint⟩ .nil
      · exact yields_error _
    · exact yields_error _
  · split
    · rename_i b hvalue
      refine yields_ok ?_
      refine Json.told_whole [("value", .one)] (by simp [Json.slotTable]) hobject hform ?_
      exact .cons ⟨rfl, hvalue ▸ Json.told_bool b⟩ .nil
    · exact yields_error _
  · refine ((hnode _).asExpr.within _).bind fun e he => yields_ok ?_
    refine Json.told_whole [("operator", .operator), ("right", .one)]
      (by simp [Json.slotTable]) hobject hform ?_
    exact .cons ⟨rfl, Json.told_operator _⟩ (.cons ⟨rfl, he⟩ .nil)
  · refine ((hnode _).asExpr.within _).bind fun l hl => ?_
    refine ((hnode _).asExpr.within _).bind fun r hr => yields_ok ?_
    refine Json.told_whole [("operator", .operator), ("left", .one), ("right", .one)]
      (by simp [Json.slotTable]) hobject hform ?_
    exact .cons ⟨rfl, Json.told_operator _⟩ (.cons ⟨rfl, hl⟩ (.cons ⟨rfl, hr⟩ .nil))
  · refine ((hnode _).asExpr.within _).bind fun test ht => ?_
    refine ((hnode _).asBlock.within _).bind fun yes hy => ?_
    split
    · rename_i hnull
      refine yields_ok ?_
      refine Json.told_node [("condition", .one), ("consequence", .one)] [("alternative", .one)]
        (by simp [Json.slotTable]) hobject hform (.cons ⟨rfl, ht⟩ (.cons ⟨rfl, hy⟩ .nil)) ?_
      simpa using hnull
    · refine ((hnode _).asBlock.within _).bind fun no hn => yields_ok ?_
      refine Json.told_whole [("condition", .one), ("consequence", .one), ("alternative", .one)]
        (by simp [Json.slotTable]) hobject hform ?_
      exact .cons ⟨rfl, ht⟩ (.cons ⟨rfl, hy⟩ (.cons ⟨rfl, hn⟩ .nil))
  · refine (Faithful.list (hitems _) fun h => h.asName.within _).bind fun params hp => ?_
    refine ((hnode _).asBlock.within _).bind fun body hb => yields_ok ?_
    refine Json.told_whole [("parameters", .many), ("body", .one)]
      (by simp [Json.slotTable]) hobject hform ?_
    exact .cons ⟨rfl, hp⟩ (.cons ⟨rfl, hb⟩ .nil)
  · refine ((hnode _).asExpr.within _).bind fun callee hc => ?_
    refine (Faithful.list (hitems _) fun h => h.asExpr.within _).bind fun args ha => yields_ok ?_
    have hargs : (v.field "arguments").Told (.arr (Expr.toJsonList args))
        (Json.Fits .many (v.field "arguments")) := by
      rw [Expr.toJsonList_eq_map]
      exact ha
    refine Json.told_whole [("function", .one), ("arguments", .many)]
      (by simp [Json.slotTable]) hobject hform ?_
    exact .cons ⟨rfl, hc⟩ (.cons ⟨rfl, hargs⟩ .nil)
  · exact yields_error _

/-- The value and its items are faithful. -/
def AllFaithful (v : Json) : Prop := Faithful v ∧ ∀ x ∈ v.items, Faithful x

theorem allFaithful_null : AllFaithful .null := ⟨yields_error _, by simp [Json.items]⟩

theorem field_faithful {fields : List (Text × Json)} (h : ∀ e ∈ fields, AllFaithful e.2)
    (name : Text) : AllFaithful ((Json.obj fields).field name) := by
  rw [Json.field, Json.field?]
  cases hlookup : Json.lookup name fields with
  | none => exact allFaithful_null
  | some v =>
    obtain ⟨k, hk⟩ := Json.mem_of_lookup hlookup
    exact h _ hk

mutual

theorem value_faithful (v : Json) : AllFaithful v := by
  match v with
  | .obj fields =>
    have hfield := field_faithful (fields_faithful fields)
    refine ⟨node_faithful (fun name => (hfield name).1) fun name => (hfield name).2, ?_⟩
    simp [Json.items]
  | .arr vs => exact ⟨yields_error _, items_faithful vs⟩
  | .null | .bool _ | .num _ | .str _ => exact ⟨yields_error _, by simp [Json.items]⟩
termination_by structural v

theorem items_faithful (vs : List Json) : ∀ x ∈ vs, Faithful x := by
  match vs with
  | [] => simp
  | v :: rest => exact List.forall_mem_cons.mpr ⟨(value_faithful v).1, items_faithful rest⟩
termination_by structural vs

theorem fields_faithful (fields : List (Text × Json)) : ∀ e ∈ fields, AllFaithful e.2 := by
  match fields with
  | [] => simp
  | (k, v) :: rest => exact List.forall_mem_cons.mpr ⟨value_faithful v, fields_faithful rest⟩
termination_by structural fields

end

end StoredTree

theorem Program.told_of_ofJson {v : Json} {p : Program} (h : Program.ofJson v = .ok p) :
    v.Told p.toJson v.Intact := by
  unfold Program.ofJson at h
  split at h
  · rename_i q hq
    cases h
    cases v with
    | obj fields => exact (StoredTree.value_faithful (.obj fields)).1 _ hq
    | null | bool | num | str | arr => cases hq
  · cases h
  · cases h

/-- Whatever a program is read from, the program is written as a value that agrees with it, if
anything but a list counts as the empty list and anything but a text as the empty text. Without
this it agrees exactly if the nodes have lists and operators where they belong: anything else in
these places is accepted and dropped. -/
theorem read_programs_agree (p : Program) :
    (∀ v, Program.ofJson v = .ok p →
      v.Agrees true p.toJson ∧ (v.Agrees false p.toJson ↔ v.Intact)) ∧
    ∀ t, Program.ofJsonText t = .ok p → ∃ v, Json.firstOf? t = some v ∧
      v.Agrees true p.toJson ∧ (v.Agrees false p.toJson ↔ v.Intact) := by
  refine ⟨fun v hv => Program.told_of_ofJson hv, fun t ht => ?_⟩
  unfold Program.ofJsonText at ht
  split at ht
  · rename_i v hv
    exact ⟨v, hv, Program.told_of_ofJson ht⟩
  · cases ht

/-- The sum of -0 and 1, with an operator that a later one replaces and a key of its own. -/
def oddSum : Json := .obj [
  ("operator", .str "-"), ("operator", .str "+"), ("note", .arr []),
  ("right", nodeJson "IntegerLiteral" [("value", .num "1")]),
  ("left", nodeJson "IntegerLiteral" [("value", .num "-0")]),
  ("type", .str "InfixExpression")]

/-- A call of the sum, with null for its arguments. -/
def oddCall : Json := nodeJson "CallExpression" [("arguments", .null), ("function", oddSum)]

def oddProgram : Json := .obj [
  ("statements", .arr [nodeJson "ExpressionStatement" [("expression", oddCall)]]),
  ("type", .str "Program")]

def oddTree : Program := ⟨[.expr (.call (.binary "+" (.int 0) (.int 1)) [])]⟩

theorem intact_oddSum : oddSum.Intact := by
  have hnumber : ∀ literal, (nodeJson "IntegerLiteral" [("value", .num literal)]).Intact := by
    intro literal
    refine Json.intact_of_slots "IntegerLiteral" [("value", .one)] (by simp [Json.slotTable])
      rfl rfl ?_
    rw [List.forall_mem_singleton]
    exact .plain rfl rfl
  refine Json.intact_of_slots "InfixExpression"
    [("operator", .operator), ("left", .one), ("right", .one)] (by simp [Json.slotTable]) rfl rfl ?_
  rw [List.forall_mem_cons, List.forall_mem_cons, List.forall_mem_singleton]
  exact ⟨rfl, hnumber "-0", hnumber "1"⟩

theorem intact_oddProgram : oddProgram.Intact := by
  have hcall : oddCall.Intact := by
    refine Json.intact_of_slots "CallExpression" [("function", .one), ("arguments", .many)]
      (by simp [Json.slotTable]) rfl rfl ?_
    rw [List.forall_mem_cons, List.forall_mem_singleton]
    exact ⟨intact_oddSum, rfl, Json.intact_null⟩
  have hstatement : (nodeJson "ExpressionStatement" [("expression", oddCall)]).Intact := by
    refine Json.intact_of_slots "ExpressionStatement" [("expression", .one)]
      (by simp [Json.slotTable]) rfl rfl ?_
    rw [List.forall_mem_singleton]
    exact hcall
  refine Json.intact_of_slots "Program" [("statements", .many)] (by simp [Json.slotTable])
    rfl rfl ?_
  rw [List.forall_mem_singleton]
  exact ⟨rfl, .list (List.forall_mem_singleton.mpr hstatement)⟩

theorem oddProgram_agrees :
    Program.ofJson oddProgram = .ok oddTree ∧ oddProgram.Agrees false oddTree.toJson := by
  have hread : Program.ofJson oddProgram = .ok oddTree := by rfl
  exact ⟨hread, ((read_programs_agree oddTree).1 _ hread).2.mpr intact_oddProgram⟩

/-- A program with a text where its statements belong. -/
def spoiledProgram : Json := nodeJson "Program" [("statements", .str "x")]

theorem spoiledProgram_is_read_as_empty :
    Program.ofJson spoiledProgram = .ok ⟨[]⟩ ∧
      ¬ spoiledProgram.Agrees false (Program.toJson ⟨[]⟩) := by
  refine ⟨rfl, ?_⟩
  rintro ⟨-, ⟨-, ⟨hlist, -⟩, -⟩, -⟩
  rcases hlist with hlist | hfalse
  · cases hlist
  · cases hfalse

end Borealis
