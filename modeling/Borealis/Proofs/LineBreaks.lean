-- Lexing and line breaks. No lexeme but a quoted string goes on behind the end
-- of a line, and a program has no strings. So a line break in a program cuts
-- its words in two: those of the text before it and those of the text behind.
import Borealis.Proofs.Derivation
import Borealis.Proofs.Scanning

namespace Borealis

/-! ## Words of programs -/

/-- A word that is no quoted string and no illegal token. -/
def Word.IsPlain (w : Word) : Prop := w.kind ≠ .string ∧ w.kind ≠ .illegal

theorem MoreParameters.isPlain {ws : List Word} {names : List Text}
    (h : MoreParameters ws names) : ∀ w ∈ ws, w.IsPlain := by
  induction h with
  | last => simp
  | next hc hi _ ih => simpa [Word.IsPlain, hc, hi] using ih

theorem Parameters.isPlain {ws : List Word} {names : List Text}
    (h : Parameters ws names) : ∀ w ∈ ws, w.IsPlain := by
  cases h with
  | none => simp
  | some hi hm => simpa [Word.IsPlain, hi] using hm.isPlain

/-- Operators between operands bind more than nothing, and strings do not. -/
theorem Word.isPlain_of_mem_layerOperators {w : Word} {layer : Nat}
    (h : w.kind ∈ layerOperators layer) : w.IsPlain := by
  obtain ⟨hb, hl, -⟩ := binding_of_mem_layerOperators h
  constructor
  all_goals
    intro hk
    rw [hk] at hb
    subst hb
    exact absurd hl (by decide)

/-- The grammar has no use for strings and illegal tokens. -/
theorem Derives.isPlain {seam : Seam} {n : Phrase} {ws : List Word} {a : n.Tree} {d : Nat}
    (h : Derives seam n ws a d) : ∀ w ∈ ws, w.IsPlain := by
  induction h with
  | ident hk | int hk | yes hk | no hk => simp [Word.IsPlain, hk]
  | noArguments | lastArgument | nil => simp
  | tighter _ ih | expr _ ih => exact ih
  | group hl _ hr ih =>
    simp only [List.forall_mem_append, List.forall_mem_cons]
    simpa [Word.IsPlain, hl, hr] using ih
  | ifThen hi hl _ hr hb _ hz iht ihy =>
    simp only [List.forall_mem_append, List.forall_mem_cons]
    simpa [Word.IsPlain, hi, hl, hr, hb, hz] using ⟨iht, ihy⟩
  | ifElse hi hl _ hr hb _ hz ho hq _ hy iht ihy ihn =>
    simp only [List.forall_mem_append, List.forall_mem_cons]
    simpa [Word.IsPlain, hi, hl, hr, hb, hz, ho, hq, hy] using ⟨⟨iht, ihy⟩, ihn⟩
  | fn hf hl hp hr hb _ hz ih =>
    simp only [List.forall_mem_append, List.forall_mem_cons]
    simpa [Word.IsPlain, hf, hl, hr, hb, hz] using ⟨hp.isPlain, ih⟩
  | call _ hl _ hr ihf iha =>
    simp only [List.forall_mem_append, List.forall_mem_cons]
    simpa [Word.IsPlain, hl, hr] using ⟨ihf, iha⟩
  | unary hw _ ih =>
    simp only [List.forall_mem_cons]
    refine ⟨?_, ih⟩
    rcases hw with hw | hw <;> simp [Word.IsPlain, hw]
  | binary _ hw _ ihl ihr =>
    simp only [List.forall_mem_append, List.forall_mem_cons]
    exact ⟨ihl, Word.isPlain_of_mem_layerOperators hw, ihr⟩
  | someArguments _ _ ihe ihm => exact List.forall_mem_append.mpr ⟨ihe, ihm⟩
  | nextArgument hc _ _ ihe ihm =>
    simp only [List.forall_mem_append, List.forall_mem_cons]
    simpa [Word.IsPlain, hc] using ⟨ihe, ihm⟩
  | bind hw hn he _ ih =>
    simp only [List.forall_mem_cons]
    simpa [Word.IsPlain, hw, hn, he] using ih
  | ret hw _ ih =>
    simp only [List.forall_mem_cons]
    simpa [Word.IsPlain, hw] using ih
  | closed _ hw _ ihs ihm =>
    simp only [List.forall_mem_append, List.forall_mem_cons]
    simpa [Word.IsPlain, hw] using ⟨ihs, ihm⟩
  | opened _ _ _ ihs ihm => exact List.forall_mem_append.mpr ⟨ihs, ihm⟩

/-! ## Lexemes before a line break -/

/-- The byte that ends a line. -/
abbrev lineBreak : UInt8 := Text.byte '\n'

namespace Lexeme

theorem run_append (kindOf : Text → TokenKind) {p : UInt8 → Bool} (hp : p lineBreak = false)
    (t u : Text) : (run kindOf p (t ++ lineBreak :: u)).word = (run kindOf p t).word ∧
      (run kindOf p (t ++ lineBreak :: u)).rest = (run kindOf p t).rest ++ lineBreak :: u := by
  have hcut : (t ++ lineBreak :: u).takeWhile p = t.takeWhile p ∧
      (t ++ lineBreak :: u).dropWhile p = t.dropWhile p ++ lineBreak :: u := by
    induction t with
    | nil => simp [hp]
    | cons b t ih => cases hb : p b <;> simp [hb, ih]
  obtain ⟨htake, hdrop⟩ := hcut
  unfold run word
  rw [htake, hdrop]
  exact ⟨rfl, rfl⟩

theorem single_append (b : UInt8) (t u : Text) :
    (single b (t ++ u)).word = (single b t).word ∧
      (single b (t ++ u)).rest = (single b t).rest ++ u := by
  unfold single
  cases symbol? b <;> exact ⟨rfl, rfl⟩

theorem quoted_not_isPlain (t : Text) : ¬ (quoted t).word.IsPlain := by
  unfold quoted
  dsimp only
  split
  · exact fun h => h.1 rfl
  · exact fun h => h.2 rfl

/-- A lexeme ends where its line ends, and what is behind the line has no part in it. Only
strings are an exception. -/
theorem read_append (b : UInt8) (t u : Text)
    (h : (read b t).word.IsPlain ∨ (read b (t ++ lineBreak :: u)).word.IsPlain) :
    (read b (t ++ lineBreak :: u)).word = (read b t).word ∧
      (read b (t ++ lineBreak :: u)).rest = (read b t).rest ++ lineBreak :: u := by
  unfold read at h ⊢
  split
  · exact run_append _ (by decide) (b :: t) u
  · rename_i hletter
    split
    · exact run_append _ (by decide) (b :: t) u
    · rename_i hdigit
      split
      · rename_i hquote
        rw [if_neg hletter, if_neg hdigit, if_pos hquote] at h
        rcases h with h | h
        · exact absurd h (quoted_not_isPlain _)
        · rw [if_neg hletter, if_neg hdigit, if_pos hquote] at h
          exact absurd h (quoted_not_isPlain _)
      · cases t with
        | nil =>
          have hpair : pair? b lineBreak = none := if_neg (by decide)
          simp only [List.nil_append, hpair]
          exact single_append b [] (lineBreak :: u)
        | cons c t =>
          simp only [List.cons_append]
          split
          · exact ⟨rfl, rfl⟩
          · exact single_append b (c :: t) (lineBreak :: u)

end Lexeme

/-! ## Texts before a line break -/

namespace Scans

/-- The words of a text with a line break in it begin with the words before the line break. -/
theorem cut {a b t rest : Text} {ws : List Word} (h : Scans t ws rest) (hr : rest = [])
    (ht : t = a ++ lineBreak :: b) (hw : ∀ w ∈ ws, w.IsPlain) :
    ∃ xs ys, ws = xs ++ ys ∧ Scans a xs [] := by
  induction h generalizing a with
  | done => simp [hr] at ht
  | gap hb _ ih =>
    cases a with
    | nil => exact ⟨[], _, rfl, .done []⟩
    | cons c a =>
      obtain ⟨rfl, ha⟩ := List.cons.inj ht
      obtain ⟨xs, ys, rfl, hxs⟩ := ih hr ha hw
      exact ⟨xs, ys, rfl, .gap hb hxs⟩
  | @lexeme c t _ _ hb _ ih =>
    cases a with
    | nil =>
      obtain ⟨rfl, -⟩ := List.cons.inj ht
      exact absurd hb (by decide)
    | cons c' a =>
      obtain ⟨rfl, ha⟩ := List.cons.inj ht
      replace ha : t = a ++ lineBreak :: b := ha
      rw [List.forall_mem_cons, ha] at hw
      obtain ⟨hword, hrest⟩ := Lexeme.read_append c a b (Or.inr hw.1)
      obtain ⟨xs, ys, rfl, hxs⟩ := ih hr (by rw [ha, hrest]) hw.2
      rw [ha, hword]
      exact ⟨_ :: xs, ys, rfl, .lexeme hb hxs⟩

/-- What stands behind a line break leaves the words before it as they are. -/
theorem before {a rest : Text} {xs : List Word} (h : Scans a xs rest) (hr : rest = [])
    (hw : ∀ w ∈ xs, w.IsPlain) (b : Text) : Scans (a ++ lineBreak :: b) xs b := by
  induction h with
  | done =>
    subst hr
    exact .gap (by decide) (.done b)
  | gap hb _ ih => exact .gap hb (ih hr hw)
  | @lexeme c t _ _ hb _ ih =>
    rw [List.forall_mem_cons] at hw
    obtain ⟨hword, hrest⟩ := Lexeme.read_append c t b (Or.inl hw.1)
    have hs := ih hr hw.2
    rw [← hrest] at hs
    rw [← hword]
    exact .lexeme hb hs

end Scans

end Borealis
