-- Trees as JSON values, and back. A node is an object with a `type` field.
-- Reading looks only at the fields that the type has; every value of an
-- object is read before the object itself, and the object takes what it needs.
import Borealis.Tree
import Borealis.Json.Fault
import Borealis.Text.Integer

namespace Borealis

/-! ## Writing -/

/-- A node of a form, with its other fields. -/
def nodeJson (form : String) (fields : List (Text × Json)) : Json :=
  .obj (("type", .str form) :: fields)

/-- An identifier by itself. -/
def nameJson (name : Text) : Json := nodeJson "Identifier" [("name", .str name)]

/-- A block, given its statements. -/
def blockJson (statements : List Json) : Json :=
  nodeJson "BlockStatement" [("statements", .arr statements)]

mutual

/-- An expression as a JSON value. -/
def Expr.toJson : Expr → Json
  | .hole => .null
  | .ident name => nameJson name
  | .int value => nodeJson "IntegerLiteral" [("value", .int value.toInt)]
  | .bool value => nodeJson "BooleanLiteral" [("value", .bool value)]
  | .unary op operand =>
    nodeJson "PrefixExpression" [("operator", .str op), ("right", operand.toJson)]
  | .binary op left right =>
    nodeJson "InfixExpression"
      [("operator", .str op), ("left", left.toJson), ("right", right.toJson)]
  | .ifThen test yes =>
    nodeJson "IfExpression"
      [("condition", test.toJson), ("consequence", blockJson (Stmt.toJsonList yes))]
  | .ifElse test yes no =>
    nodeJson "IfExpression"
      [("condition", test.toJson), ("consequence", blockJson (Stmt.toJsonList yes)),
        ("alternative", blockJson (Stmt.toJsonList no))]
  | .fn params body =>
    nodeJson "FunctionLiteral"
      [("parameters", .arr (params.map nameJson)), ("body", blockJson (Stmt.toJsonList body))]
  | .stub params =>
    nodeJson "FunctionLiteral" [("parameters", .arr (params.map nameJson)), ("body", .null)]
  | .call callee args =>
    nodeJson "CallExpression"
      [("function", callee.toJson), ("arguments", .arr (Expr.toJsonList args))]

/-- Expressions as JSON values. -/
def Expr.toJsonList : List Expr → List Json
  | [] => []
  | e :: rest => e.toJson :: Expr.toJsonList rest

/-- A statement as a JSON value. -/
def Stmt.toJson : Stmt → Json
  | .bind name value =>
    nodeJson "LetStatement"
      [("name", (name.map nameJson).getD .null), ("value", value.toJson)]
  | .ret value => nodeJson "ReturnStatement" [("value", value.toJson)]
  | .expr value => nodeJson "ExpressionStatement" [("expression", value.toJson)]
  | .block body => blockJson (Stmt.toJsonList body)

/-- Statements as JSON values. -/
def Stmt.toJsonList : List Stmt → List Json
  | [] => []
  | s :: rest => s.toJson :: Stmt.toJsonList rest

end

/-- A program as a JSON value. -/
def Program.toJson (p : Program) : Json :=
  nodeJson "Program" [("statements", .arr (Stmt.toJsonList p.statements))]

/-- A node as a JSON value. -/
def Node.toJson : Node → Json
  | .program p => p.toJson
  | .stmt s => s.toJson
  | .expr e => e.toJson

/-! ## What can go wrong -/

/-- Why a JSON value is no tree. -/
inductive StoredTreeError where
  /-- The text is no JSON. -/
  | unreadable (fault : JsonFault)
  /-- The value is neither an object nor null. -/
  | notObject (value : Json)
  | unknownForm (form : Text)
  | nameless
  | notNumber (value : Json)
  | badInteger (literal : Text) (why : IntegerError)
  | notBool (value : Json)
  | notNode (value : Json)
  | notExpression (form : Text)
  | notIdentifier (form : Text)
  | notBlock (form : Text)
  | notStatement (form : Text)
  | notProgram (form : Text)
  /-- An error in a part of a node. -/
  | inside (part : String) (e : StoredTreeError)

/-- What kind of value a JSON text has. -/
def Json.kindName : Json → Text
  | .null => "null"
  | .bool _ => "bool"
  | .num _ => "number"
  | .str _ => "string"
  | .arr _ => "array"
  | .obj _ => "object"

/-- What a JSON value is called in a message. -/
def Json.typeName : Json → Text
  | .null => "<nil>"
  | .bool _ => "bool"
  | .num _ => "json.Number"
  | .str _ => "string"
  | .arr _ => "[]interface \x7b\x7d"
  | .obj _ => "map[string]interface \x7b\x7d"

/-- Adds a field to a list that is sorted by name. A field of the same name is replaced. -/
def insertShown (name value : Text) : List (Text × Text) → List (Text × Text)
  | [] => [(name, value)]
  | (k, v) :: rest =>
    if name = k then (name, value) :: rest
    else if name < k then (name, value) :: (k, v) :: rest
    else (k, v) :: insertShown name value rest

mutual

/-- A JSON value as a message shows it: without quotes, the fields of an object by name. -/
def Json.shown : Json → Text
  | .null => "<nil>"
  | .bool b => if b then "true" else "false"
  | .num literal => literal
  | .str t => t
  | .arr items => "[" ++ Text.join " " (Json.shownItems items) ++ "]"
  | .obj fields =>
    "map[" ++ Text.join " " ((Json.shownFields fields []).map fun (k, v) => k ++ ":" ++ v) ++ "]"

/-- The items of a list as a message shows them. -/
def Json.shownItems : List Json → List Text
  | [] => []
  | j :: rest => j.shown :: Json.shownItems rest

/-- The fields of an object as a message shows them, put into a sorted list. -/
def Json.shownFields (fields : List (Text × Json)) (acc : List (Text × Text)) :
    List (Text × Text) :=
  match fields with
  | [] => acc
  | (k, v) :: rest => Json.shownFields rest (insertShown k v.shown acc)
termination_by structural fields

end

/-- What is said of a text that holds no tree at all. -/
def StoredTreeError.decodingFailed : Text := "ast: decode program"

/-- The wording of an error. -/
def StoredTreeError.message : StoredTreeError → Text
  | .unreadable fault => decodingFailed ++ ": " ++ fault.message
  | .notObject value =>
    decodingFailed ++ ": json: cannot unmarshal " ++ value.kindName ++ " into Go value of type "
      ++ (Json.obj []).typeName
  | .unknownForm form => "ast: unsupported node type " ++ form.quoted
  | .nameless => "ast: identifier missing name"
  | .notNumber value => "ast: integer literal value " ++ value.shown ++ " is not a number"
  | .badInteger literal why =>
    "ast: integer literal: strconv.ParseInt: parsing " ++ literal.quoted ++ ": " ++
      (match why with
        | .malformed => "invalid syntax"
        | .outOfRange => "value out of range" : String)
  | .notBool value => "ast: boolean literal value " ++ value.shown ++ " is not a bool"
  | .notNode value => "expected node object, got " ++ value.typeName
  | .notExpression form => form ++ " is not an expression"
  | .notIdentifier form => "expected Identifier, got " ++ form
  | .notBlock form => "expected BlockStatement, got " ++ form
  | .notStatement form => "ast: " ++ form ++ " is not a statement"
  | .notProgram form => "ast: expected Program at root, got " ++ form
  | .inside part e => "ast: " ++ part ++ ": " ++ e.message

/-! ## Reading -/

namespace StoredTree

/-- A value, with the node that it reads as, and the nodes that its items
read as if it is a list. -/
structure Child where
  raw : Json
  node : Except StoredTreeError Node
  items : List (Except StoredTreeError Node)

/-- The child for a field that is not there. -/
def Child.missing : Child := ⟨.null, .error (.notNode .null), []⟩

/-- Puts an error into the part where it arose. -/
def within {α : Type} (part : String) : Except StoredTreeError α → Except StoredTreeError α
  | .ok a => .ok a
  | .error e => .error (.inside part e)

/-- A node that has to be an expression. -/
def asExpr : Except StoredTreeError Node → Except StoredTreeError Expr
  | .ok (.expr e) => .ok e
  | .ok n => .error (.notExpression n.form)
  | .error e => .error e

/-- A node that has to be an identifier. -/
def asName : Except StoredTreeError Node → Except StoredTreeError Text
  | .ok (.expr (.ident name)) => .ok name
  | .ok n => .error (.notIdentifier n.form)
  | .error e => .error e

/-- A node that has to be a block. -/
def asBlock : Except StoredTreeError Node → Except StoredTreeError (List Stmt)
  | .ok (.stmt (.block body)) => .ok body
  | .ok n => .error (.notBlock n.form)
  | .error e => .error e

/-- A node that has to be a statement of a list. -/
def asStmt : Except StoredTreeError Node → Except StoredTreeError Stmt
  | .ok (.stmt s) => .ok s
  | .ok n => .error (.notStatement n.form)
  | .error e => .error (.inside "statement" e)

/-- The text of a value, empty if it is none. -/
def asText : Json → Text
  | .str t => t
  | _ => []

/-- The node that the fields of an object describe. -/
def node (fields : List (Text × Child)) : Except StoredTreeError Node := do
  let get (name : String) : Child :=
    ((fields.reverse.find? fun (k, _) => k == Text.ofString name).map Prod.snd).getD .missing
  let form := asText (get "type").raw
  if form = "Program" then
    return .program ⟨← (get "statements").items.mapM asStmt⟩
  else if form = "LetStatement" then
    let name ← within "let statement name" (asName (get "name").node)
    let value ← within "let statement value" (asExpr (get "value").node)
    return .stmt (.bind (some name) value)
  else if form = "ReturnStatement" then
    return .stmt (.ret (← within "return statement" (asExpr (get "value").node)))
  else if form = "ExpressionStatement" then
    return .stmt (.expr (← within "expression statement" (asExpr (get "expression").node)))
  else if form = "BlockStatement" then
    return .stmt (.block (← (get "statements").items.mapM asStmt))
  else if form = "Identifier" then
    let name := asText (get "name").raw
    if name.isEmpty then throw .nameless
    return .expr (.ident name)
  else if form = "IntegerLiteral" then
    match (get "value").raw with
    | .num literal =>
      match literal.toInt64 with
      | .ok value => return .expr (.int value)
      | .error why => throw (.badInteger literal why)
    | value => throw (.notNumber value)
  else if form = "BooleanLiteral" then
    match (get "value").raw with
    | .bool value => return .expr (.bool value)
    | value => throw (.notBool value)
  else if form = "PrefixExpression" then
    let operand ← within "prefix expression operand" (asExpr (get "right").node)
    return .expr (.unary (asText (get "operator").raw) operand)
  else if form = "InfixExpression" then
    let left ← within "infix expression left" (asExpr (get "left").node)
    let right ← within "infix expression right" (asExpr (get "right").node)
    return .expr (.binary (asText (get "operator").raw) left right)
  else if form = "IfExpression" then
    let test ← within "if condition" (asExpr (get "condition").node)
    let yes ← within "if consequence" (asBlock (get "consequence").node)
    match (get "alternative").raw with
    | .null => return .expr (.ifThen test yes)
    | _ =>
      let no ← within "if alternative" (asBlock (get "alternative").node)
      return .expr (.ifElse test yes no)
  else if form = "FunctionLiteral" then
    let params ← (get "parameters").items.mapM fun p => within "function parameter" (asName p)
    let body ← within "function body" (asBlock (get "body").node)
    return .expr (.fn params body)
  else if form = "CallExpression" then
    let callee ← within "call target" (asExpr (get "function").node)
    let args ← (get "arguments").items.mapM fun a => within "call argument" (asExpr a)
    return .expr (.call callee args)
  else throw (.unknownForm form)

mutual

/-- A value and what it reads as. -/
def child : Json → Child
  | .obj fields => ⟨.obj fields, node (children fields), []⟩
  | .arr items => ⟨.arr items, .error (.notNode (.arr items)), nodes items⟩
  | .null => ⟨.null, .error (.notNode .null), []⟩
  | .bool b => ⟨.bool b, .error (.notNode (.bool b)), []⟩
  | .num l => ⟨.num l, .error (.notNode (.num l)), []⟩
  | .str t => ⟨.str t, .error (.notNode (.str t)), []⟩

/-- The nodes of the items of a list. -/
def nodes : List Json → List (Except StoredTreeError Node)
  | [] => []
  | j :: rest => (child j).node :: nodes rest

/-- The children of an object, by name. -/
def children : List (Text × Json) → List (Text × Child)
  | [] => []
  | (k, v) :: rest => (k, child v) :: children rest

end

end StoredTree

/-- The node that a JSON value describes. At the root, null is an object without fields. -/
def Node.ofJson : Json → Except StoredTreeError Node
  | .null => StoredTree.node []
  | .obj fields => StoredTree.node (StoredTree.children fields)
  | j => .error (.notObject j)

/-- The program that a JSON value describes. -/
def Program.ofJson (j : Json) : Except StoredTreeError Program :=
  match Node.ofJson j with
  | .ok (.program p) => .ok p
  | .ok n => .error (.notProgram n.form)
  | .error e => .error e

/-- The program that a JSON text describes. Only its first value is read. -/
def Program.ofJsonText (t : Text) : Except StoredTreeError Program :=
  match Json.firstOf? t with
  | some j => Program.ofJson j
  | none => .error (.unreadable ((JsonFault.find? t).getD .cutShort))

end Borealis
