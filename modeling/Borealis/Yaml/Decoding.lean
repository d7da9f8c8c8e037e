-- Documents as records. A node that does not fit its field is noted and
-- reading goes on, so one document may have many such nodes and is refused
-- once; a node that contradicts its own tag ends it.
import Borealis.Base64
import Borealis.Yaml.Node.OfTokens

namespace Borealis.Yaml

/-- Why reading a document stopped at a node. `ε` holds reasons of the record itself. -/
inductive Refusal (ε : Type) where
  | malformed
  | refused (reason : ε)
  deriving DecidableEq, Repr

/-- Why a text gives no record. -/
inductive Problem (ε : Type) where
  /-- There is no document. -/
  | empty
  | malformed
  /-- Some nodes do not fit. -/
  | mismatched
  | refused (reason : ε)
  deriving DecidableEq, Repr

/-- How far reading has come. -/
structure Progress where
  /-- Some node did not fit. -/
  mismatched : Bool
  /-- How many nodes were read. -/
  reads : Nat
  /-- How many of them were reached through an alias. -/
  aliased : Nat
  /-- How many aliases lead to the node that is read now. -/
  depth : Nat
  deriving DecidableEq, Repr

namespace Progress

/-- Before the first node. -/
def start : Progress := ⟨false, 0, 0, 0⟩

/-- How many nodes a document may have before aliases are held to a smaller share. -/
def smallReads : Nat := 400000

/-- From how many nodes on the share of aliases is smallest. -/
def largeReads : Nat := 4000000

/-- Whether more than the allowed share of the nodes came through aliases: 99 of 100 in a small
document, 10 of 100 in a large one, and evenly between. -/
def isExcessive (p : Progress) : Bool :=
  100 < p.aliased && 1000 < p.reads &&
    (if p.reads ≤ smallReads then 99 * p.reads < 100 * p.aliased
    else if largeReads ≤ p.reads then 10 * p.reads < 100 * p.aliased
    else
      let span := largeReads - smallReads
      p.reads * (99 * span - 89 * (p.reads - smallReads)) < 100 * span * p.aliased)

/-- After one more node. -/
def next (p : Progress) : Progress :=
  { p with reads := p.reads + 1, aliased := if 0 < p.depth then p.aliased + 1 else p.aliased }

end Progress

/-- Reading from nodes. -/
abbrev Decoding (ε : Type) := StateT Progress (Except (Refusal ε))

namespace Decoding

variable {ε α : Type}

/-- Stops with a reason. -/
def refuse (reason : ε) : Decoding ε α := throw (.refused reason)

/-- A node does not fit. -/
def mismatch : Decoding ε Unit := modify fun p => { p with mismatched := true }

/-- Counts a node. Too many of them through aliases are refused. -/
def count : Decoding ε Unit := do
  let p := (← get).next
  if p.isExcessive then throw .malformed else set p

/-- Reads a node, or the one that an alias stands for. -/
def visit (d : Document) (n : Node) (read : Node → Decoding ε α) : Decoding ε α := do
  count
  match n with
  | .reference _ _ => do
    modify fun p => { p with depth := p.depth + 1 }
    count
    let a ← read (d.target n)
    modify fun p => { p with depth := p.depth - 1 }
    return a
  | n => read n

/-- Reads on its own. If a node did not fit, that is noted and there is no result. -/
def isolated (read : Decoding ε α) : Decoding ε (Option α) := do
  let before ← get
  set Progress.start
  let a ← read
  if (← get).mismatched then do
    set { before with mismatched := true }
    return none
  else do
    set before
    return some a

/-! ## Scalars -/

/-- What a scalar means, and its text. A tag of a kind that scalars can be told to be has to
agree with what is written. Any other tag leaves the text as it is. -/
def meaning (tag : Tag) (value : Text) : Decoding ε (Meaning × Text) :=
  match tag with
  | .str | .merge | .seq | .map | .other _ => return (.text, value)
  | .binary =>
    match Base64.decode? value with
    | some bytes => return (.text, bytes)
    | none => throw .malformed
  | tag =>
    let m := Meaning.ofPlain value
    if m.tag = tag then return (m, value)
    else match tag, m with
      | .float, .int i =>
        match Text.fitInt64 i, Double.ofRatio? (decide (i < 0)) i.natAbs 1 with
        | .ok _, some x => return (.float x, value)
        | _, _ => throw .malformed
      | _, _ => throw .malformed

/-- The text of a scalar of any kind but null. -/
def text? (d : Document) (n : Node) : Decoding ε (Option Text) :=
  visit d n fun n => do
    match n with
    | .scalar tag value => do
      let (m, t) ← meaning tag value
      return if m = .null then none else some t
    | _ => do
      mismatch
      return none

/-- A text field: a null leaves it as it was. -/
def text (d : Document) (n : Node) (before : Text) : Decoding ε Text :=
  return (← text? d n).getD before

/-- A number as an integer of 64 bits. A fraction is cut off. -/
def integerOf : Meaning → Option Int64
  | .int i => (Text.fitInt64 i).toOption
  | .float x =>
    match x with
    | .finite _ _ _ => if x.truncated.any (· ≤ Int64.maxValue.toInt + 1) then some x.toInt64 else none
    | .infinite negative => if negative then some Int64.minValue else none
    | .undefined => none
  | _ => none

/-- An integer field: a null leaves it as it was. -/
def integer (d : Document) (n : Node) (before : Int64) : Decoding ε Int64 :=
  visit d n fun n => do
    match n with
    | .scalar tag value => do
      let (m, _) ← meaning tag value
      if m = .null then return before
      match integerOf m with
      | some i => return i
      | none => do
        mismatch
        return before
    | _ => do
      mismatch
      return before

/-! ## Sequences -/

/-- The items of a sequence. An item that is null is left out, and null is no items. -/
def itemsOf (item : Node → Decoding ε (Option α)) (n : Node) : Decoding ε (List α) := do
  match n with
  | .sequence _ ns => do
    let found ← ns.mapM item
    return found.filterMap id
  | .scalar tag value => do
    let (m, _) ← meaning tag value
    if m ≠ .null then mismatch
    return []
  | _ => do
    mismatch
    return []

/-- Reads the items of a sequence. -/
def items (d : Document) (item : Node → Decoding ε (Option α)) (n : Node) :
    Decoding ε (List α) := visit d n (itemsOf item)

/-! ## Records -/

/-- Whether two keys are written alike. -/
def sameKey : Node → Node → Bool
  | .scalar _ a, .scalar _ b => a == b
  | .sequence _ _, .sequence _ _ => true
  | .mapping _ _, .mapping _ _ => true
  | .reference a _, .reference b _ => a == b
  | _, _ => false

/-- Whether a key stands twice. -/
def hasTwice : List (Node × Node) → Bool
  | [] => false
  | (k, _) :: rest => rest.any (fun e => sameKey k e.1) || hasTwice rest

/-- A key that brings in the fields of other mappings. -/
def isMerge : Node → Bool
  | .scalar .merge value => value == "<<"
  | _ => false

/-- The node under the last merge key. -/
def mergeValue? (entries : List (Node × Node)) : Option Node :=
  ((entries.filter fun e => isMerge e.1).getLast?).map Prod.snd

/-- Brings in the mapping under a merge key, or those of a list one after the other. Only
mappings can be brought in. -/
def bringIn {β : Type} (d : Document) (one : Node → β → Decoding ε β) (n : Node) (b : β) :
    Decoding ε β :=
  match n with
  | .sequence _ ns => ns.foldlM (fun b n => checked n b) b
  | n => checked n b
where
  /-- Brings in a node that has to be a mapping. -/
  checked (n : Node) (b : β) : Decoding ε β :=
    match d.target n with
    | .mapping _ _ => one n b
    | _ => throw .malformed

/-- The names that a mapping sets itself, which what it brings in does not set again. Only a key
that is a text is such a name, and one that is a collection cannot be told from others. -/
def ownNames (d : Document) (entries : List (Node × Node)) : Decoding ε (List Text) := do
  let names ← entries.mapM fun (k, _) => visit d k name
  return names.filterMap id
where
  /-- The name that a key gives. -/
  name (k : Node) : Decoding ε (Option Text) := do
    match k with
    | .scalar tag value => do
      let (m, t) ← meaning tag value
      return if m = .text then some t else none
    | .mapping _ entries =>
      if hasTwice entries then do
        mismatch
        return none
      else throw .malformed
    | _ => throw .malformed

/-- Reads fields one after the other. `taken` are, in a mapping that is brought in, the names
that are set already and are passed over. `done` are those that this mapping has set. A name
that the record does not know does not fit if the record is `strict`. -/
def fields (d : Document) (strict : Bool) (field : Text → Node → Option (α → Decoding ε α)) :
    List (Node × Node) → (taken : Option (List Text)) → (done : List Text) → α →
      Decoding ε (Option (List Text) × α)
  | [], taken, _, a => return (taken, a)
  | (k, v) :: rest, taken, done, a => do
    if isMerge k then fields d strict field rest taken done a
    else match ← text? d k with
      | none => fields d strict field rest taken done a
      | some name =>
        if taken.any (·.contains name) then fields d strict field rest taken done a
        else do
          let taken := taken.map (name :: ·)
          match field name v with
          | some read =>
            if done.contains name then do
              mismatch
              fields d strict field rest taken done a
            else do
              let a ← read a
              fields d strict field rest taken (name :: done) a
          | none => do
            if strict then mismatch
            fields d strict field rest taken done a

/-- How far mappings are brought into each other. One that brings in itself has no end. -/
def mergeDepth : Nat := 10000

/-- Reads the fields of a mapping, and then those of the mappings that it brings in, as far as
they are not set. `taken` is there if the mapping is itself brought in. -/
def mappingFields (d : Document) (strict : Bool)
    (field : Text → Node → Option (α → Decoding ε α)) :
    Nat → Option (List Text) → Node → α → Decoding ε (Option (List Text) × α)
  | 0, _, _, _ => throw .malformed
  | depth + 1, taken, n, a => do
    match n with
    | .mapping _ entries => do
      if hasTwice entries then do
        mismatch
        return (taken, a)
      else do
        let (taken, a) ← fields d strict field entries taken [] a
        match mergeValue? entries with
        | none => return (taken, a)
        | some m => do
          let names ← taken.elim (ownNames d entries) pure
          let one (n : Node) (b : Option (List Text) × α) :=
            visit d n fun n => mappingFields d strict field depth b.1 n b.2
          let (names, a) ← bringIn d one m (some names, a)
          return (if taken.isSome then names else none, a)
    | _ => return (taken, a)

/-- A record: a mapping gives its fields, and null leaves it as it was. -/
def recordOf (d : Document) (strict : Bool) (field : Text → Node → Option (α → Decoding ε α))
    (n : Node) (a : α) : Decoding ε α := do
  match n with
  | .mapping _ _ => do
    let (_, a) ← mappingFields d strict field mergeDepth none n a
    return a
  | .scalar tag value => do
    let (m, _) ← meaning tag value
    if m ≠ .null then mismatch
    return a
  | _ => do
    mismatch
    return a

/-- Reads a record. -/
def record (d : Document) (strict : Bool) (field : Text → Node → Option (α → Decoding ε α))
    (n : Node) (a : α) : Decoding ε α := visit d n fun n => recordOf d strict field n a

/-- Reads a record as an item of a sequence. Null is no item. -/
def recordItem (d : Document) (strict : Bool) (field : Text → Node → Option (α → Decoding ε α))
    (a : α) (n : Node) : Decoding ε (Option α) :=
  visit d n fun n => do
    let a ← recordOf d strict field n a
    match n with
    | .scalar _ _ => return none
    | _ => return some a

end Decoding

/-- Reads the first document of a text. The document itself counts as a node. -/
def decode {ε α : Type} (read : Document → Decoding ε α) (t : Text) : Except (Problem ε) α :=
  match Document.ofText? t with
  | .error _ => .error .malformed
  | .ok none => .error .empty
  | .ok (some d) =>
    match (do Decoding.count; read d : Decoding ε α).run .start with
    | .error .malformed => .error .malformed
    | .error (.refused e) => .error (.refused e)
    | .ok (a, p) => if p.mismatched then .error .mismatched else .ok a

end Borealis.Yaml
