-- The characters of a YAML stream. A stream is UTF-8 unless it starts with
-- the byte order mark of UTF-16, and only some characters may stand in it.
-- It is read piece by piece, so that a fault takes away its own piece and all
-- that follows, but not what stands before.
import Borealis.Text.Rune

namespace Borealis.Yaml

/-- The characters that a stream may hold. -/
def isAllowed (c : Char) : Bool :=
  let n := c.toNat
  n == 0x09 || n == 0x0A || n == 0x0D || (0x20 ≤ n && n ≤ 0x7E) || n == 0x85
    || (0xA0 ≤ n && n ≤ 0xD7FF) || (0xE000 ≤ n && n ≤ 0xFFFD) || 0x10000 ≤ n

/-- The byte order mark. -/
def byteOrderMark : Char := Char.ofNat 0xFEFF

/-! ## One character -/

/-- What stands at the front of some bytes. -/
inductive Front where
  | char (c : Char) (rest : Text)
  /-- The bytes end inside a character. -/
  | cut
  | invalid
  deriving DecidableEq, Repr

/-- A character if there is one. -/
def Front.ofChar? (c? : Option Char) (rest : Text) : Front :=
  match c? with
  | some c => .char c rest
  | none => .invalid

/-- The character at the front of UTF-8. The first byte tells how long it is. -/
def front8 : Text → Front
  | [] => .cut
  | a :: rest =>
    if a < 0x80 then .char (Char.ofUInt8 a) rest
    else if a &&& 0xE0 == 0xC0 then
      match rest with
      | b :: rest => .ofChar? (Text.char2? a b) rest
      | _ => .cut
    else if a &&& 0xF0 == 0xE0 then
      match rest with
      | b :: c :: rest => .ofChar? (Text.char3? a b c) rest
      | _ => .cut
    else if a &&& 0xF8 == 0xF0 then
      match rest with
      | b :: c :: d :: rest => .ofChar? (Text.char4? a b c d) rest
      | _ => .cut
    else .invalid

/-- A code unit of two bytes, high byte first if `high`. -/
def unit16 (high : Bool) (a b : UInt8) : Nat :=
  if high then a.toNat * 256 + b.toNat else b.toNat * 256 + a.toNat

/-- The character at the front of UTF-16. A character beyond the first plane takes two code
units. -/
def front16 (high : Bool) : Text → Front
  | a :: b :: rest =>
    let u := unit16 high a b
    if 0xDC00 ≤ u ∧ u ≤ 0xDFFF then .invalid
    else if 0xD800 ≤ u ∧ u ≤ 0xDBFF then
      match rest with
      | c :: d :: rest =>
        let v := unit16 high c d
        if 0xDC00 ≤ v ∧ v ≤ 0xDFFF then
          .char (Char.ofNat (0x10000 + (u - 0xD800) * 1024 + (v - 0xDC00))) rest
        else .invalid
      | _ => .cut
    else .char (Char.ofNat u) rest
  | _ => .cut

/-! ## Pieces -/

/-- The characters of a piece, and the bytes at its end that are only part of a character.
Nothing if a fault is in it. -/
def piece? (front : Text → Front) : Nat → Text → Option (List Char × Text)
  | 0, t => some ([], t)
  | n + 1, t =>
    match front t with
    | .cut => some ([], t)
    | .invalid => none
    | .char c rest =>
      if isAllowed c then (piece? front n rest).map fun (cs, left) => (c :: cs, left) else none

/-- The characters of a stream before its first fault. -/
structure Stream where
  chars : List Char
  /-- There is no fault. -/
  whole : Bool
  deriving DecidableEq, Repr

/-- How many bytes are read at once. -/
def pieceSize : Nat := 512

/-- Reads pieces up to a fault. The first piece has at most `size` bytes. A character that a
piece cuts belongs to the next. -/
def pieces (front : Text → Front) : Nat → (size : Nat) → Text → Stream
  | 0, _, t => ⟨[], t.isEmpty⟩
  | n + 1, size, t =>
    if t.isEmpty then ⟨[], true⟩
    else match piece? front size (t.take size) with
      | none | some ([], _) => ⟨[], false⟩
      | some (cs, left) =>
        let more := pieces front n pieceSize (left ++ t.drop size)
        ⟨cs ++ more.chars, more.whole⟩

/-- The stream of some bytes, without the byte order mark in front. -/
def Stream.ofText (t : Text) : Stream :=
  match t with
  | 0xFF :: 0xFE :: rest => pieces (front16 false) t.length (pieceSize - 2) rest
  | 0xFE :: 0xFF :: rest => pieces (front16 true) t.length (pieceSize - 2) rest
  | 0xEF :: 0xBB :: 0xBF :: rest => pieces front8 t.length (pieceSize - 3) rest
  | _ => pieces front8 (t.length + 1) pieceSize t

end Borealis.Yaml
