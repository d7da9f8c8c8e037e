-- From tokens to the nodes of the first document. What follows the document
-- is not looked at, except for the one token that ends it.
import Borealis.Text.Rune
import Borealis.Yaml.Encoding
import Borealis.Yaml.Node
import Borealis.Yaml.Token.Lexer

namespace Borealis.Yaml

/-- Tokens that are left, what handles of tags stand for, and the anchors so far. -/
structure Reader where
  tokens : List Token
  handles : List (List Char × List Char)
  /-- The number that an anchor last had. -/
  anchors : List (List Char × Nat)
  anchored : List (Nat × Node)
  /-- How many anchors there were. -/
  count : Nat

/-- A step of reading that may find the text malformed. -/
abbrev Reading := StateT Reader (Except Malformed)

namespace Reading

/-- Gives up. -/
def fail {α : Type} : Reading α := throw .malformed

/-- The next token. A text whose tokens stop before its end is malformed. -/
def peek : Reading Token := do
  match (← get).tokens with
  | t :: _ => return t
  | [] => fail

/-- Passes a token. -/
def skip : Reading Unit := modify fun r => { r with tokens := r.tokens.tail }

/-! ## Properties of a node -/

/-- The name of a tag with its handle worked out. -/
def tagName (handle suffix : List Char) : Reading (List Char) := do
  if handle.isEmpty then return suffix
  match (← get).handles.lookup handle with
  | some stem => return stem ++ suffix
  | none => fail

/-- Reads an anchor, if there is one. -/
def anchor? : Reading (Option (List Char)) := do
  match ← peek with
  | .anchor name => do skip; return some name
  | _ => return none

/-- Reads a tag, if there is one. -/
def tag? : Reading (Option (List Char)) := do
  match ← peek with
  | .tag handle suffix => do skip; return some (← tagName handle suffix)
  | _ => return none

/-- Reads an anchor and a tag in either order. -/
def properties : Reading (Option (List Char) × Option (List Char)) := do
  match ← anchor? with
  | some a => return (some a, ← tag?)
  | none => do
    match ← tag? with
    | some t => return (← anchor?, some t)
    | none => return (none, none)

/-- Gives an anchor the next number. From now on aliases of that name mean it. -/
def announce (name : Option (List Char)) : Reading (Option Nat) := do
  match name with
  | none => return none
  | some name => do
    let r ← get
    set { r with anchors := (name, r.count) :: r.anchors, count := r.count + 1 }
    return some r.count

/-- Keeps the node of an anchor. -/
def keep (number : Option Nat) (n : Node) : Reading Node := do
  match number with
  | none => return n
  | some k => do
    modify fun r => { r with anchored := (k, n) :: r.anchored }
    return n

/-- The kind that a tag gives to a node, or the usual one. A lone mark is no tag. -/
def kind (usual : Tag) : Option (List Char) → Tag
  | none => usual
  | some name => if name == ['!'] then usual else Tag.ofName (Text.ofChars name)

/-- The usual kind of a scalar. -/
def scalarKind : ScalarStyle → Text → Tag
  | .quoted, _ => .str
  | .plain, value => if value = "<<" then .merge else (Meaning.ofPlain value).tag

/-! ## Collections -/

/-- Reads a node. The first argument tells whether blocks may start here, the second whether
entries may start without being deeper. -/
abbrev Inner := Bool → Bool → Reading Node

/-- Reads a node, unless the next token shows that it is not written. -/
def nodeUnless (stops : List Token) (read : Reading Node) : Reading Node := do
  if stops.contains (← peek) then return .absent else read

/-- Reads the entries of a block up to its end. -/
def blockItems (inner : Inner) : Nat → Reading (List Node)
  | 0 => fail
  | n + 1 => do
    match ← peek with
    | .blockEntry => do
      skip
      let item ← nodeUnless [.blockEntry, .blockEnd] (inner true false)
      return item :: (← blockItems inner n)
    | .blockEnd => do skip; return []
    | _ => fail

/-- Reads entries that are not deeper than the key before them. -/
def flatItems (inner : Inner) : Nat → Reading (List Node)
  | 0 => fail
  | n + 1 => do
    match ← peek with
    | .blockEntry => do
      skip
      let item ← nodeUnless [.blockEntry, .key, .value, .blockEnd] (inner true false)
      return item :: (← flatItems inner n)
    | _ => return []

/-- Reads a value in a block, if there is one. -/
def blockValue (inner : Inner) : Reading Node := do
  match ← peek with
  | .value => do
    skip
    nodeUnless [.key, .value, .blockEnd] (inner true true)
  | _ => return .absent

/-- Reads the keys and values of a block up to its end. -/
def blockPairs (inner : Inner) : Nat → Reading (List (Node × Node))
  | 0 => fail
  | n + 1 => do
    match ← peek with
    | .key => do
      skip
      let k ← nodeUnless [.key, .value, .blockEnd] (inner true true)
      let v ← blockValue inner
      return (k, v) :: (← blockPairs inner n)
    | .blockEnd => do skip; return []
    | _ => fail

/-- Reads a value in brackets, if there is one. `close` is the closing bracket. -/
def flowValue (inner : Inner) (close : Token) : Reading Node := do
  match ← peek with
  | .value => do
    skip
    nodeUnless [.flowEntry, close] (inner false false)
  | _ => return .absent

/-- Reads a key and a value that stand as one item of a sequence in brackets. -/
def flowPairItem (inner : Inner) : Reading Node := do
  let k ←
    if [Token.value, .flowEntry, .flowSequenceEnd].contains (← peek) then do
      skip
      pure Node.absent
    else inner false false
  let v ← flowValue inner .flowSequenceEnd
  let _ ← peek
  return .mapping .map [(k, v)]

/-- Passes the comma before an item that is not the first. -/
def passComma (first : Bool) : Reading Unit := do
  if first then return ()
  match ← peek with
  | .flowEntry => skip
  | _ => fail

/-- Reads the items of a sequence in brackets. -/
def flowItems (inner : Inner) : Nat → (first : Bool) → Reading (List Node)
  | 0, _ => fail
  | n + 1, first => do
    match ← peek with
    | .flowSequenceEnd => do skip; return []
    | _ => do
      passComma first
      match ← peek with
      | .flowSequenceEnd => do skip; return []
      | .key => do
        skip
        let item ← flowPairItem inner
        return item :: (← flowItems inner n false)
      | _ => do
        let item ← inner false false
        return item :: (← flowItems inner n false)

/-- Reads the keys and values of a mapping in brackets. -/
def flowPairs (inner : Inner) : Nat → (first : Bool) → Reading (List (Node × Node))
  | 0, _ => fail
  | n + 1, first => do
    match ← peek with
    | .flowMappingEnd => do skip; return []
    | _ => do
      passComma first
      match ← peek with
      | .flowMappingEnd => do skip; return []
      | .key => do
        skip
        let k ← nodeUnless [.value, .flowEntry, .flowMappingEnd] (inner false false)
        let v ← flowValue inner .flowMappingEnd
        return (k, v) :: (← flowPairs inner n false)
      | _ => do
        let k ← inner false false
        let _ ← peek
        return (k, .absent) :: (← flowPairs inner n false)

/-! ## Nodes -/

/-- How many tokens are left, as a bound for loops over them. -/
def bound : Reading Nat := return (← get).tokens.length + 1

/-- Reads the node that an alias names. -/
def aliased (name : List Char) : Reading Node := do
  match (← get).anchors.lookup name with
  | some k => return .reference (Text.ofChars name) k
  | none => fail

/-- Reads a node after its properties. -/
def content (inner : Inner) (block flat : Bool) (anchor tag : Option (List Char)) :
    Reading Node := do
  let t ← peek
  let number ← announce anchor
  match t with
  | .scalar style value => do
    skip
    let value := Text.ofChars value
    keep number (.scalar (kind (scalarKind style value) tag) value)
  | .flowSequence => do
    skip
    let items ← flowItems inner (← bound) true
    keep number (.sequence (kind .seq tag) items)
  | .flowMapping => do
    skip
    let pairs ← flowPairs inner (← bound) true
    keep number (.mapping (kind .map tag) pairs)
  | .blockEntry => do
    if !flat then unwritten number tag
    else do
      let items ← flatItems inner (← bound)
      keep number (.sequence (kind .seq tag) items)
  | .blockSequence => do
    if !block then unwritten number tag
    else do
      skip
      let items ← blockItems inner (← bound)
      keep number (.sequence (kind .seq tag) items)
  | .blockMapping => do
    if !block then unwritten number tag
    else do
      skip
      let pairs ← blockPairs inner (← bound)
      keep number (.mapping (kind .map tag) pairs)
  | _ => unwritten number tag
where
  /-- A node of which only properties are written. -/
  unwritten (number : Option Nat) (tag : Option (List Char)) : Reading Node := do
    if number.isNone && tag.isNone then fail
    else keep number (.scalar (kind .null tag) [])

/-- Reads a node that is nested at most so deeply. -/
def node : (room : Nat) → Inner
  | 0, _, _ => fail
  | room + 1, block, flat => do
    match ← peek with
    | .reference name => do skip; aliased name
    | _ => do
      let (anchor, tag) ← properties
      content (node room) block flat anchor tag

/-! ## Documents -/

/-- What handles of tags stand for if a document does not say. -/
def usualHandles : List (List Char × List Char) :=
  [(['!'], ['!']), (['!', '!'], "tag:yaml.org,2002:".toList)]

/-- Reads directives. None is given twice, and the version is 1.1. -/
def directives : Nat → (version : Bool) → Reading Unit
  | 0, _ => fail
  | n + 1, version => do
    match ← peek with
    | .version major minor => do
      if version || major != 1 || minor != 1 then fail
      skip
      directives n true
    | .tagDirective handle stem => do
      let r ← get
      if (r.handles.lookup handle).isSome then fail
      skip
      modify fun r => { r with handles := r.handles ++ [(handle, stem)] }
      directives n version
    | _ => modify fun r => { r with handles := r.handles ++ usualHandles }

/-- Reads the root of a document that starts with a mark. -/
def explicitRoot : Reading Node := do
  directives (← bound) false
  match ← peek with
  | .documentStart => do
    skip
    match ← peek with
    | .version _ _ | .tagDirective _ _ | .documentStart | .documentEnd | .streamEnd =>
      return .absent
    | _ => node (← bound) true false
  | _ => fail

/-- Reads the root of the first document, if there is one. -/
def root? : Reading (Option Node) := do
  match ← peek with
  | .streamEnd => return none
  | .version _ _ | .tagDirective _ _ | .documentStart => do return some (← explicitRoot)
  | _ => do
    modify fun r => { r with handles := usualHandles }
    return some (← node (← bound) true false)

/-- Reads the first document, if there is one, and looks for its end. -/
def document? : Reading (Option Document) := do
  match ← root? with
  | none => return none
  | some root => do
    let _ ← peek
    return some ⟨root, (← get).anchored⟩

end Reading

/-- The first document of a text, if there is one. -/
def Document.ofText? (t : Text) : Except Malformed (Option Document) :=
  match Reading.document?.run ⟨Token.ofStream (.ofText t), [], [], [], 0⟩ with
  | .error e => .error e
  | .ok (d, _) => .ok d

end Borealis.Yaml
