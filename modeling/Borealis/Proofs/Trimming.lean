-- Texts without the blanks around them. The runes of a text spell it, and a
-- run of them is read again as it was, wherever the text is cut between two
-- runes. So a text that was trimmed stays as it is, and so does a name that
-- was spelled as packages spell it.
import Borealis.Text.Blank
import Mathlib.Data.List.DropRight

namespace Borealis

/-- What holds of 256 bytes holds of every byte. -/
theorem forall_byte {p : UInt8 → Prop} (h : ∀ n : Fin 256, p (UInt8.ofFin n)) (b : UInt8) : p b :=
  h b.toFin

namespace Text

/-! ## The bytes of a character -/

theorem lead2 (a : UInt8) : a &&& 0xE0 = 0xC0 →
    a.toNat = 192 + (a &&& 0x1F).toNat ∧ (a &&& 0x1F).toNat < 32 :=
  forall_byte (p := fun a => a &&& 0xE0 = 0xC0 →
    a.toNat = 192 + (a &&& 0x1F).toNat ∧ (a &&& 0x1F).toNat < 32) (by decide +kernel) a

theorem lead3 (a : UInt8) : a &&& 0xF0 = 0xE0 →
    a.toNat = 224 + (a &&& 0x0F).toNat ∧ (a &&& 0x0F).toNat < 16 :=
  forall_byte (p := fun a => a &&& 0xF0 = 0xE0 →
    a.toNat = 224 + (a &&& 0x0F).toNat ∧ (a &&& 0x0F).toNat < 16) (by decide +kernel) a

theorem lead4 (a : UInt8) : a &&& 0xF8 = 0xF0 →
    a.toNat = 240 + (a &&& 0x07).toNat ∧ (a &&& 0x07).toNat < 8 :=
  forall_byte (p := fun a => a &&& 0xF8 = 0xF0 →
    a.toNat = 240 + (a &&& 0x07).toNat ∧ (a &&& 0x07).toNat < 8) (by decide +kernel) a

theorem continuation (b : UInt8) : isContinuation b = true →
    b.toNat = 128 + low6 b ∧ low6 b < 64 :=
  forall_byte (p := fun b => isContinuation b = true →
    b.toNat = 128 + low6 b ∧ low6 b < 64) (by decide +kernel) b

theorem ofNat_byte {n : Nat} {b : UInt8} (h : n = b.toNat) : UInt8.ofNat n = b := by
  rw [h, UInt8.ofNat_toNat]

theorem val_ofNat {n : Nat} (h : n.isValidChar) : (Char.ofNat n).val.toNat = n := by
  rw [Char.ofNat, dif_pos h]
  rfl

theorem char2?_bytes {a b : UInt8} {x : Char} (h : char2? a b = some x) :
    String.utf8EncodeChar x = [a, b] := by
  simp only [char2?, Bool.and_eq_true, beq_iff_eq] at h
  split at h
  case isFalse => cases h
  rename_i hab
  obtain ⟨ha, ha'⟩ := lead2 a hab.1
  obtain ⟨hb, hb'⟩ := continuation b hab.2
  split at h
  case isFalse => cases h
  cases h
  simp only [String.utf8EncodeChar]
  rw [val_ofNat (by left; omega), if_neg (by omega), if_pos (by omega),
    ofNat_byte (b := a) (by omega), ofNat_byte (b := b) (by omega)]

theorem char3?_bytes {a b c : UInt8} {x : Char} (h : char3? a b c = some x) :
    String.utf8EncodeChar x = [a, b, c] := by
  simp only [char3?, Bool.and_eq_true, beq_iff_eq] at h
  split at h
  case isFalse => cases h
  rename_i habc
  obtain ⟨ha, ha'⟩ := lead3 a habc.1.1
  obtain ⟨hb, hb'⟩ := continuation b habc.1.2
  obtain ⟨hc, hc'⟩ := continuation c habc.2
  split at h
  case isFalse => cases h
  cases h
  simp only [String.utf8EncodeChar]
  rw [val_ofNat (by simp only [Nat.isValidChar]; omega), if_neg (by omega), if_neg (by omega),
    if_pos (by omega), ofNat_byte (b := a) (by omega), ofNat_byte (b := b) (by omega),
    ofNat_byte (b := c) (by omega)]

theorem char4?_bytes {a b c d : UInt8} {x : Char} (h : char4? a b c d = some x) :
    String.utf8EncodeChar x = [a, b, c, d] := by
  simp only [char4?, Bool.and_eq_true, beq_iff_eq] at h
  split at h
  case isFalse => cases h
  rename_i habcd
  obtain ⟨ha, ha'⟩ := lead4 a habcd.1.1.1
  obtain ⟨hb, hb'⟩ := continuation b habcd.1.1.2
  obtain ⟨hc, hc'⟩ := continuation c habcd.1.2
  obtain ⟨hd, hd'⟩ := continuation d habcd.2
  split at h
  case isFalse => cases h
  cases h
  simp only [String.utf8EncodeChar]
  rw [val_ofNat (by simp only [Nat.isValidChar]; omega), if_neg (by omega), if_neg (by omega),
    if_neg (by omega), ofNat_byte (b := a) (by omega), ofNat_byte (b := b) (by omega),
    ofNat_byte (b := c) (by omega), ofNat_byte (b := d) (by omega)]

theorem ascii_bytes (b : UInt8) : b < 0x80 → String.utf8EncodeChar (Char.ofUInt8 b) = [b] :=
  forall_byte (p := fun b => b < 0x80 → String.utf8EncodeChar (Char.ofUInt8 b) = [b])
    (by decide +kernel) b

/-! ## Runes -/

/-- No character starts with the byte if these bytes follow it. -/
structure StartsNone (a : UInt8) (rest : Text) : Prop where
  high : ¬ a < 0x80
  two : ∀ b u, rest = b :: u → char2? a b = none
  three : ∀ b c u, rest = b :: c :: u → char3? a b c = none
  four : ∀ b c d u, rest = b :: c :: d :: u → char4? a b c d = none

theorem StartsNone.cut {a : UInt8} {cut rest : Text} (h : StartsNone a rest) (hc : cut <+: rest) :
    StartsNone a cut := by
  obtain ⟨v, rfl⟩ := hc
  refine ⟨h.high, fun b u hu => ?_, fun b c u hu => ?_, fun b c d u hu => ?_⟩
  · exact h.two b (u ++ v) (by rw [hu]; rfl)
  · exact h.three b c (u ++ v) (by rw [hu]; rfl)
  · exact h.four b c d (u ++ v) (by rw [hu]; rfl)

theorem StartsNone.runes {a : UInt8} {rest : Text} (h : StartsNone a rest) :
    Text.runes (a :: rest) = .bad a :: rest.runes := by
  rw [Text.runes.eq_def]
  simp only [if_neg h.high]
  match rest, h with
  | [], _ => rfl
  | [b], h =>
    simp only [h.two b [] rfl]
  | [b, c], h =>
    simp only [h.two b [c] rfl, h.three b c [] rfl]
  | b :: c :: d :: u, h =>
    simp only [h.two b (c :: d :: u) rfl, h.three b c (d :: u) rfl, h.four b c d u rfl]

/-- The text starts with the rune, whatever part of the rest is cut off. -/
structure FirstRune (t : Text) (r : Rune) (rest : Text) : Prop where
  text : t = r.bytes ++ rest
  runes : ∀ cut : Text, cut <+: rest → Text.runes (r.bytes ++ cut) = r :: cut.runes

theorem StartsNone.firstRune {a : UInt8} {rest : Text} (h : StartsNone a rest) :
    FirstRune (a :: rest) (.bad a) rest :=
  ⟨rfl, fun _ hc => (h.cut hc).runes⟩

theorem runes_cons {b : UInt8} (hb : b < 0x80) (t : Text) :
    runes (b :: t) = .char (Char.ofUInt8 b) :: t.runes := by
  rw [runes.eq_def]
  exact if_pos hb

theorem exists_firstRune (a : UInt8) (t : Text) : ∃ r rest, FirstRune (a :: t) r rest := by
  by_cases ha : a < 0x80
  · have hbytes := ascii_bytes a ha
    refine ⟨.char (Char.ofUInt8 a), t, by rw [Rune.bytes, hbytes]; rfl, fun cut _ => ?_⟩
    rw [Rune.bytes, hbytes]
    exact runes_cons ha cut
  by_cases hnone : StartsNone a t
  · exact ⟨_, _, hnone.firstRune⟩
  -- Some of the first bytes spell a character, and the shortest such front is taken.
  match t with
  | [] => exact absurd ⟨ha, by simp, by simp, by simp⟩ hnone
  | b :: t =>
    match h2 : char2? a b with
    | some x =>
      have hbytes := char2?_bytes h2
      refine ⟨.char x, t, by rw [Rune.bytes, hbytes]; rfl, fun cut _ => ?_⟩
      rw [Rune.bytes, hbytes, runes.eq_def]
      simp [ha, h2]
    | none =>
    match t with
    | [] => exact absurd ⟨ha, fun _ _ h => by cases h; exact h2, by simp, by simp⟩ hnone
    | c :: t =>
      match h3 : char3? a b c with
      | some x =>
        have hbytes := char3?_bytes h3
        refine ⟨.char x, t, by rw [Rune.bytes, hbytes]; rfl, fun cut _ => ?_⟩
        rw [Rune.bytes, hbytes, runes.eq_def]
        simp [ha, h2, h3]
      | none =>
      match t with
      | [] =>
        refine absurd ⟨ha, fun _ _ h => ?_, fun _ _ _ h => ?_, by simp⟩ hnone
        · cases h; exact h2
        · cases h; exact h3
      | d :: t =>
        match h4 : char4? a b c d with
        | some x =>
          have hbytes := char4?_bytes h4
          refine ⟨.char x, t, by rw [Rune.bytes, hbytes]; rfl, fun cut _ => ?_⟩
          rw [Rune.bytes, hbytes, runes.eq_def]
          simp [ha, h2, h3, h4]
        | none =>
          refine absurd ⟨ha, fun _ _ h => ?_, fun _ _ _ h => ?_, fun _ _ _ _ h => ?_⟩ hnone
          · cases h; exact h2
          · cases h; exact h3
          · cases h; exact h4

theorem FirstRune.length_lt {t : Text} {r : Rune} {rest : Text} (h : FirstRune t r rest) :
    rest.length < t.length := by
  have hbytes : 0 < r.bytes.length := by
    cases r with
    | char c => exact c.utf8Size_pos.trans_eq (String.length_utf8EncodeChar c).symm
    | bad b => exact Nat.one_pos
  rw [h.text, List.length_append]
  omega

/-- The runes of a text spell it. -/
theorem ofRunes_runes (t : Text) : ofRunes t.runes = t := by
  match t with
  | [] => rfl
  | a :: t =>
    obtain ⟨r, rest, h⟩ := exists_firstRune a t
    have hlt := h.length_lt
    rw [h.text, h.runes rest (List.prefix_refl rest)]
    show r.bytes ++ ofRunes rest.runes = r.bytes ++ rest
    rw [ofRunes_runes rest]
termination_by t.length
decreasing_by exact hlt

theorem ofRunes_append (rs rs' : List Rune) : ofRunes (rs ++ rs') = ofRunes rs ++ ofRunes rs' :=
  List.flatMap_append

/-- Cut between two runes, both parts of a text are read as they were. -/
theorem runes_cut {t : Text} {rs rs' : List Rune} (h : t.runes = rs ++ rs') :
    (ofRunes rs).runes = rs ∧ (ofRunes rs').runes = rs' := by
  induction rs generalizing t with
  | nil => exact ⟨rfl, by rw [← List.nil_append rs', ← h, ofRunes_runes]⟩
  | cons r rs ih =>
    match t with
    | [] => cases h
    | a :: t =>
      obtain ⟨r', rest, hr⟩ := exists_firstRune a t
      rw [hr.text, hr.runes rest (List.prefix_refl rest), List.cons_append] at h
      obtain ⟨rfl, hrest⟩ := List.cons.inj h
      obtain ⟨hrs, hrs'⟩ := ih hrest
      have hcut : ofRunes rs <+: rest := by
        rw [← ofRunes_runes rest, hrest, ofRunes_append]
        exact List.prefix_append _ _
      exact ⟨(hr.runes _ hcut).trans (by rw [hrs]), hrs'⟩

/-! ## Trimming -/

/-- Runes without the blanks at both ends. -/
def trimmed (rs : List Rune) : List Rune := (rs.dropWhile Rune.isBlank).rdropWhile Rune.isBlank

theorem trim_eq (t : Text) : t.trim = ofRunes (trimmed t.runes) := rfl

theorem runes_trim (t : Text) : t.trim.runes = trimmed t.runes := by
  have hfront : t.runes = t.runes.takeWhile Rune.isBlank ++ t.runes.dropWhile Rune.isBlank :=
    List.takeWhile_append_dropWhile.symm
  have hback : t.runes.dropWhile Rune.isBlank = trimmed t.runes ++ _ :=
    (List.rdropWhile_append_rtakeWhile (p := Rune.isBlank)).symm
  exact (runes_cut ((runes_cut hfront).2.trans hback)).1

/-- The runes have no blank at either end. -/
def Bare (rs : List Rune) : Prop :=
  (∀ r ∈ rs.head?, r.isBlank = false) ∧ ∀ r ∈ rs.getLast?, r.isBlank = false

theorem bare_trimmed (rs : List Rune) : Bare (trimmed rs) := by
  constructor
  · intro r hr
    obtain ⟨back, hback⟩ := List.rdropWhile_prefix (p := Rune.isBlank) (rs.dropWhile Rune.isBlank)
    have hhead : (rs.dropWhile Rune.isBlank).head? = some r := by
      rw [← hback, List.head?_append, ← trimmed, Option.mem_def.mp hr]
      rfl
    have h := List.head?_dropWhile_not Rune.isBlank rs
    rw [hhead] at h
    exact h
  · intro r hr
    have hne : trimmed rs ≠ [] := fun h => by rw [h] at hr; cases hr
    rw [List.getLast?_eq_some_getLast hne] at hr
    cases hr
    exact Bool.eq_false_iff.mpr (List.rdropWhile_last_not Rune.isBlank _ hne)

theorem Bare.trimmed {rs : List Rune} (h : Bare rs) : trimmed rs = rs := by
  have hfront : rs.dropWhile Rune.isBlank = rs := by
    match rs, h with
    | [], _ => rfl
    | r :: rs, h => exact List.dropWhile_cons_of_neg (by simp [h.1 r rfl])
  rw [Text.trimmed, hfront, List.rdropWhile_eq_self_iff]
  intro hne
  simp [h.2 _ (List.getLast?_eq_some_getLast hne)]

theorem trim_of_bare {t : Text} (h : Bare t.runes) : t.trim = t := by
  rw [trim_eq, h.trimmed, ofRunes_runes]

theorem bare_trim (t : Text) : Bare t.trim.runes := by
  rw [runes_trim]
  exact bare_trimmed t.runes

@[simp]
theorem trim_trim (t : Text) : t.trim.trim = t.trim := trim_of_bare (bare_trim t)

/-- A first character that is no blank stays at the front. -/
theorem exists_trim_cons {b : UInt8} (hb : b < 0x80)
    (hblank : (Rune.char (Char.ofUInt8 b)).isBlank = false)
    (hbytes : (Rune.char (Char.ofUInt8 b)).bytes = [b]) (t : Text) :
    ∃ u, trim (b :: t) = b :: u := by
  have hback : ∃ rs, (t.runes.reverse ++ [Rune.char (Char.ofUInt8 b)]).dropWhile Rune.isBlank
      = rs ++ [Rune.char (Char.ofUInt8 b)] := by
    rw [List.dropWhile_append]
    split
    · exact ⟨[], by simp [hblank]⟩
    · exact ⟨_, rfl⟩
  obtain ⟨rs, hrs⟩ := hback
  refine ⟨ofRunes rs.reverse, ?_⟩
  rw [trim, runes_cons hb, List.dropWhile_cons_of_neg (by simp [hblank]),
    List.reverse_cons, hrs, List.reverse_append]
  simp [ofRunes, hbytes]

/-! ## The names of packages -/

/-- The byte that stands for a byte in the name of a package. -/
def nameByte (b : UInt8) : UInt8 := if b = byte '-' then byte '_' else b

/-- The rune that stands for a rune in the name of a package. -/
def nameRune (r : Rune) : Rune := if r = .char '-' then .char '_' else r

theorem nameByte_ascii (b : UInt8) : b < 0x80 → nameByte b < 0x80 ∧
    nameRune (.char (Char.ofUInt8 b)) = .char (Char.ofUInt8 (nameByte b)) :=
  forall_byte (p := fun b => b < 0x80 → nameByte b < 0x80 ∧
    nameRune (.char (Char.ofUInt8 b)) = .char (Char.ofUInt8 (nameByte b))) (by decide +kernel) b

/-- A byte inside a longer character is not replaced, and no byte becomes one. -/
theorem nameByte_cases (b : UInt8) : nameByte b = b ∨
    b < 0x80 ∧ isContinuation b = false ∧ isContinuation (nameByte b) = false :=
  forall_byte (p := fun b => nameByte b = b ∨
    b < 0x80 ∧ isContinuation b = false ∧ isContinuation (nameByte b) = false) (by decide +kernel) b

theorem nameByte_of_high {a : UInt8} (h : ¬ a < 0x80) : nameByte a = a :=
  (nameByte_cases a).resolve_right fun ha => h ha.1

theorem char2?_nameByte (a b : UInt8) : char2? a (nameByte b) = char2? a b := by
  rcases nameByte_cases b with h | ⟨-, h, h'⟩
  · rw [h]
  · simp [char2?, h, h']

theorem char3?_nameByte (a b c : UInt8) :
    char3? a (nameByte b) (nameByte c) = char3? a b c := by
  rcases nameByte_cases b with h | ⟨-, h, h'⟩
  · rcases nameByte_cases c with hc | ⟨-, hc, hc'⟩
    · rw [h, hc]
    · simp [char3?, hc, hc']
  · simp [char3?, h, h']

theorem char4?_nameByte (a b c d : UInt8) :
    char4? a (nameByte b) (nameByte c) (nameByte d) = char4? a b c d := by
  rcases nameByte_cases b with h | ⟨-, h, h'⟩
  · rcases nameByte_cases c with hc | ⟨-, hc, hc'⟩
    · rcases nameByte_cases d with hd | ⟨-, hd, hd'⟩
      · rw [h, hc, hd]
      · simp [char4?, hd, hd']
    · simp [char4?, hc, hc']
  · simp [char4?, h, h']

/-- A character of several bytes is not replaced. -/
theorem nameRune_char {x : Char} {a b : UInt8} {t : Text}
    (h : String.utf8EncodeChar x = a :: b :: t) : nameRune (.char x) = .char x := by
  refine if_neg fun hx => ?_
  cases hx
  exact absurd h (by simp [String.utf8EncodeChar])

theorem nameRune_bad (b : UInt8) : nameRune (.bad b) = .bad b := rfl

theorem runes_map_nameByte (t : Text) :
    runes (t.map nameByte) = t.runes.map nameRune := by
  fun_induction runes t with
  | case1 => rfl
  | case2 a r0 ha ih =>
    obtain ⟨hlt, hrune⟩ := nameByte_ascii a ha
    rw [List.map_cons, runes_cons hlt, ih, List.map_cons, hrune]
  | case3 a ha =>
    rw [runes.eq_def]
    simp [nameByte_of_high ha, ha, nameRune_bad]
  | case4 a ha b r1 x hx ih =>
    rw [runes.eq_def]
    simp [nameByte_of_high ha, ha, char2?_nameByte, hx, ih, nameRune_char (char2?_bytes hx)]
  | case5 a ha b h ih =>
    rw [runes.eq_def]
    simpa [nameByte_of_high ha, ha, char2?_nameByte, h, nameRune_bad] using ih
  | case6 a ha b h c r x hx ih =>
    rw [runes.eq_def]
    simp [nameByte_of_high ha, ha, char2?_nameByte, char3?_nameByte, h, hx, ih,
      nameRune_char (char3?_bytes hx)]
  | case7 a ha b h c h' ih =>
    rw [runes.eq_def]
    simpa [nameByte_of_high ha, ha, char2?_nameByte, char3?_nameByte, h, h', nameRune_bad] using ih
  | case8 a ha b h c h' d r x hx ih =>
    rw [runes.eq_def]
    simp [nameByte_of_high ha, ha, char2?_nameByte, char3?_nameByte, char4?_nameByte, h, h', hx, ih,
      nameRune_char (char4?_bytes hx)]
  | case9 a ha b h c h' d r h'' ih =>
    rw [runes.eq_def]
    simpa [nameByte_of_high ha, ha, char2?_nameByte, char3?_nameByte, char4?_nameByte, h, h', h'',
      nameRune_bad] using ih

theorem isBlank_nameRune (r : Rune) : (nameRune r).isBlank = r.isBlank := by
  unfold nameRune
  split
  · rename_i h
    rw [h]
    rfl
  · rfl

theorem Bare.map_nameRune {rs : List Rune} (h : Bare rs) : Bare (rs.map nameRune) := by
  constructor
  · intro r hr
    rw [List.head?_map] at hr
    obtain ⟨r', hr', rfl⟩ := Option.map_eq_some_iff.mp hr
    exact (isBlank_nameRune r').trans (h.1 r' hr')
  · intro r hr
    rw [List.getLast?_map] at hr
    obtain ⟨r', hr', rfl⟩ := Option.map_eq_some_iff.mp hr
    exact (isBlank_nameRune r').trans (h.2 r' hr')

theorem packageName_eq (t : Text) : t.packageName = t.trim.map nameByte := rfl

theorem nameByte_nameByte (b : UInt8) : nameByte (nameByte b) = nameByte b :=
  forall_byte (p := fun b => nameByte (nameByte b) = nameByte b) (by decide +kernel) b

theorem trim_packageName (t : Text) : t.packageName.trim = t.packageName := by
  refine trim_of_bare ?_
  rw [packageName_eq, runes_map_nameByte]
  exact (bare_trim t).map_nameRune

/-- The name of a package is spelled as it is. -/
@[simp]
theorem packageName_packageName (t : Text) : t.packageName.packageName = t.packageName := by
  rw [packageName_eq t.packageName, trim_packageName, packageName_eq, List.map_map]
  exact List.map_congr_left fun b _ => nameByte_nameByte b

end Text
end Borealis
