-- Which expressions can be put together to one. Whatever way the parts of an
-- expression were grouped before, the layers find a grouping for the whole:
-- behind an operator, in front of a call, and where two expressions stand side
-- by side and the second one starts like the end of the first.
import Borealis.Proofs.Derivation

namespace Borealis

/-- The words are a phrase with firm seams, whatever its tree is. -/
def Derivable (n : Phrase) (ws : List Word) : Prop := ∃ a d, Derives .firm n ws a d

namespace Derivable

/-! ## Layers -/

theorem down {k j : Nat} {ws : List Word} (h : Derivable (.expr k) ws) (hj : j ≤ k) :
    Derivable (.expr j) ws := by
  obtain ⟨e, d, h⟩ := h
  exact ⟨e, d, h.down hj⟩

theorem ne_nil {k : Nat} {ws : List Word} (h : Derivable (.expr k) ws) : ws ≠ [] := by
  obtain ⟨e, d, h⟩ := h
  exact (h.full trivial).1

theorem binary {b : Nat} {ls rs : List Word} {w : Word} (hl : Derivable (.expr b) ls)
    (hw : w.kind ∈ layerOperators b) (hr : Derivable (.expr (b + 1)) rs) :
    Derivable (.expr b) (ls ++ w :: rs) := by
  obtain ⟨l, d, hl⟩ := hl
  obtain ⟨r, m, hr⟩ := hr
  exact ⟨_, _, .binary hl hw hr⟩

/-- An expression without an operator between operands, or one with the operator that binds
least. -/
theorem unit_or_binary {k : Nat} {ws : List Word} (h : Derivable (.expr k) ws) (hk : k ≤ 6) :
    Derivable (.expr 6) ws ∨ ∃ b ls w rs, k ≤ b ∧ ws = ls ++ w :: rs ∧ Derivable (.expr b) ls ∧
      w.kind ∈ layerOperators b ∧ Derivable (.expr (b + 1)) rs := by
  obtain ⟨m, hm⟩ := Nat.exists_eq_add_of_le hk
  induction m generalizing k with
  | zero =>
    rw [Nat.add_zero] at hm
    subst hm
    exact Or.inl h
  | succ m ih =>
    obtain ⟨e, d, h⟩ := h
    cases h with
    | binary hl hw hr => exact Or.inr ⟨k, _, _, _, Nat.le_refl k, rfl, ⟨_, _, hl⟩, hw, ⟨_, _, hr⟩⟩
    | tighter h =>
      rcases ih ⟨_, _, h⟩ (by omega) (by omega) with hu | ⟨b, ls, w, rs, hb, hrest⟩
      · exact Or.inl hu
      · exact Or.inr ⟨b, ls, w, rs, by omega, hrest⟩
    | _ => omega

/-- Induction over the operators between operands. -/
theorem layers {motive : Nat → List Word → Prop}
    (unit : ∀ k ws, k ≤ 6 → Derivable (.expr 6) ws → motive k ws)
    (binary : ∀ k b ls w rs, k ≤ b → b ≤ 5 → Derivable (.expr b) ls → w.kind ∈ layerOperators b →
      Derivable (.expr (b + 1)) rs → motive b ls → motive (b + 1) rs → motive k (ls ++ w :: rs))
    {k : Nat} {ws : List Word} (hk : k ≤ 6) (h : Derivable (.expr k) ws) : motive k ws := by
  induction hn : ws.length using Nat.strongRecOn generalizing k ws with
  | ind n ih =>
    rcases h.unit_or_binary hk with hu | ⟨b, ls, w, rs, hb, rfl, hl, hw, hr⟩
    · exact unit k ws hk hu
    · have hb5 := (binding_of_mem_layerOperators hw).2.2
      simp only [List.length_append, List.length_cons] at hn
      exact binary k b ls w rs hb hb5 hl hw hr (ih ls.length (by omega) (by omega) hl rfl)
        (ih rs.length (by omega) (by omega) hr rfl)

/-! ## Behind an operator -/

/-- An operator and an operand behind an expression of a layer that is not tighter. -/
theorem operand {k b : Nat} {xs us : List Word} {w : Word} (hx : Derivable (.expr k) xs)
    (hk : k ≤ b) (hw : w.kind ∈ layerOperators b) (hu : Derivable (.expr (b + 1)) us) :
    Derivable (.expr k) (xs ++ w :: us) := by
  have hb5 := (binding_of_mem_layerOperators hw).2.2
  refine layers (motive := fun k xs => k ≤ b → Derivable (.expr k) (xs ++ w :: us)) ?_ ?_
    (by omega) hx hk
  · intro k xs _ hx hk
    exact ((hx.down (by omega : b ≤ 6)).binary hw hu).down hk
  · intro k b' ls v rs hkb hb' hl hv hr _ ihr hk
    by_cases hbb : b ≤ b'
    · exact (((hl.binary hv hr).down hbb).binary hw hu).down hk
    · have hright := hl.binary hv (ihr (by omega))
      rw [List.append_assoc, List.cons_append]
      exact hright.down hkb

/-- An operator between two expressions, however they are grouped. -/
theorem between {b : Nat} {xs ys : List Word} {w : Word} (hx : Derivable (.expr 2) xs)
    (hw : w.kind ∈ layerOperators b) (hy : Derivable (.expr 2) ys) :
    Derivable (.expr 2) (xs ++ w :: ys) := by
  obtain ⟨-, hb2, hb5⟩ := binding_of_mem_layerOperators hw
  refine layers (motive := fun _ ys => Derivable (.expr 2) (xs ++ w :: ys)) ?_ ?_ (by omega) hy
  · intro _ ys _ hy
    exact hx.operand hb2 hw (hy.down (by omega))
  · intro _ b' ls v rs _ _ _ hv hr ihl _
    have hall := ihl.operand (binding_of_mem_layerOperators hv).2.1 hv hr
    rwa [List.append_assoc, List.cons_append] at hall

/-- A prefix operator in front of an expression. -/
theorem negated {w : Word} {xs : List Word} (hw : w.kind = .bang ∨ w.kind = .minus)
    (hx : Derivable (.expr 2) xs) : Derivable (.expr 2) (w :: xs) := by
  refine layers (motive := fun _ xs => Derivable (.expr 2) (w :: xs)) ?_ ?_ (by omega) hx
  · rintro _ xs _ ⟨e, d, h⟩
    exact down ⟨_, _, .unary hw h⟩ (by omega)
  · intro _ b ls v rs _ _ _ hv hr ihl _
    exact ihl.operand (binding_of_mem_layerOperators hv).2.1 hv hr

/-! ## Calls -/

/-- An operand with a prefix operator, or one that can be called. -/
theorem unary_or_callee {ws : List Word} (h : Derivable (.expr 6) ws) :
    Derivable (.expr 7) ws ∨
      ∃ w us, ws = w :: us ∧ (w.kind = .bang ∨ w.kind = .minus) ∧ Derivable (.expr 6) us := by
  obtain ⟨e, d, h⟩ := h
  cases h with
  | unary hw hu => exact Or.inr ⟨_, _, rfl, hw, _, _, hu⟩
  | tighter h => exact Or.inl ⟨_, _, h⟩
  | binary _ hw _ => exact absurd hw List.not_mem_nil

theorem called_unit {us as : List Word} {l r : Word} (hu : Derivable (.expr 6) us)
    (hl : l.kind = .leftParen) (ha : Derivable .arguments as) (hr : r.kind = .rightParen) :
    Derivable (.expr 6) (us ++ l :: as ++ [r]) := by
  induction hn : us.length using Nat.strongRecOn generalizing us with
  | ind n ih =>
    rcases hu.unary_or_callee with ⟨f, d, hf⟩ | ⟨w, vs, rfl, hw, hv⟩
    · obtain ⟨args, m, ha⟩ := ha
      exact down ⟨_, _, .call hf hl ha hr⟩ (by omega)
    · obtain ⟨e, d, he⟩ := ih vs.length (by rw [← hn]; exact Nat.lt_succ_self _) hv rfl
      exact ⟨_, _, .unary hw he⟩

/-- Arguments behind an expression are those of its last operand. -/
theorem called {k : Nat} {xs as : List Word} {l r : Word} (hx : Derivable (.expr k) xs)
    (hk : k ≤ 6) (hl : l.kind = .leftParen) (ha : Derivable .arguments as)
    (hr : r.kind = .rightParen) : Derivable (.expr k) (xs ++ l :: as ++ [r]) := by
  refine layers (motive := fun k xs => Derivable (.expr k) (xs ++ l :: as ++ [r])) ?_ ?_ hk hx
  · intro k xs hk hx
    exact (hx.called_unit hl ha hr).down hk
  · intro k b ls v rs hkb _ hlv hv _ _ ihr
    have hall := (hlv.binary hv ihr).down hkb
    simpa using hall

/-! ## Side by side -/

/-- No layer is tighter than that of the atoms. -/
theorem layer_le {n : Phrase} {ws : List Word} (h : Derivable n ws) : n.layer ≤ 8 := by
  obtain ⟨a, d, h⟩ := h
  induction h with
  | binary _ _ _ ih => exact ih
  | tighter _ ih => exact Nat.le_of_succ_le ih
  | _ => decide

/-- An expression that starts with a parenthesis and can be called is a group, or a call of such
an expression. -/
theorem group_or_call {ws : List Word} (h : Derivable (.expr 7) ws)
    (hf : front ws = .leftParen) :
    ∃ fs l as r, ws = fs ++ l :: as ++ [r] ∧ l.kind = .leftParen ∧ Derivable .arguments as ∧
      r.kind = .rightParen ∧ (fs = [] ∨ front fs = .leftParen ∧ Derivable (.expr 7) fs) := by
  obtain ⟨e, d, h⟩ := h
  cases h with
  | call hc hl ha hr =>
    have hne := (hc.full trivial).1
    rw [List.append_assoc, front_append hne] at hf
    exact ⟨_, _, _, _, rfl, hl, ⟨_, _, ha⟩, hr, Or.inr ⟨hf, _, _, hc⟩⟩
  | binary _ hw _ => exact absurd hw List.not_mem_nil
  | tighter h =>
    cases h with
    | group hl he hr =>
      have ha := Derives.someArguments he .lastArgument
      rw [List.append_nil] at ha
      exact ⟨[], _, _, _, rfl, hl, ⟨_, _, ha⟩, hr, Or.inl rfl⟩
    | ident hk | int hk | yes hk | no hk | ifThen hk | ifElse hk | fn hk =>
      exact absurd (hk.symm.trans hf) (by decide)
    | binary _ hw _ => exact absurd hw List.not_mem_nil
    | tighter h => exact absurd (layer_le ⟨_, _, h⟩) (by decide)

/-- A group behind an expression calls it, and so do the arguments behind the group. -/
theorem beside_group {xs ys : List Word} (hx : Derivable (.expr 2) xs)
    (hy : Derivable (.expr 7) ys) (hf : front ys = .leftParen) :
    Derivable (.expr 2) (xs ++ ys) := by
  induction hn : ys.length using Nat.strongRecOn generalizing ys with
  | ind n ih =>
    obtain ⟨fs, l, as, r, rfl, hl, ha, hr, rfl | ⟨hff, hfs⟩⟩ := hy.group_or_call hf
    · rw [List.nil_append, ← List.append_assoc]
      exact hx.called (by omega) hl ha hr
    · simp only [List.length_append, List.length_cons] at hn
      have hxf := ih fs.length (by omega) hfs hff rfl
      have hall := hxf.called (by omega) hl ha hr
      simpa using hall

/-- Two expressions are one, if the second starts with a minus sign or a parenthesis. -/
theorem beside {xs ys : List Word} (hx : Derivable (.expr 2) xs) (hy : Derivable (.expr 2) ys)
    (hf : front ys = .minus ∨ front ys = .leftParen) : Derivable (.expr 2) (xs ++ ys) := by
  refine layers (motive := fun _ ys => front ys = .minus ∨ front ys = .leftParen →
    Derivable (.expr 2) (xs ++ ys)) ?_ ?_ (by omega) hy hf
  · intro _ ys _ hy hf
    rcases hy.unary_or_callee with hc | ⟨w, us, rfl, hw, hu⟩
    · rcases hf with hf | hf
      · -- What can be called starts with no minus sign.
        obtain ⟨e, d, hc⟩ := hc
        have hstart := hc.front_mem trivial
        rw [hf] at hstart
        exact absurd hstart (by decide)
      · exact hx.beside_group hc hf
    · rw [front_cons] at hf
      have hminus : w.kind ∈ layerOperators 4 := by
        rcases hf with hf | hf
        · simp [layerOperators, hf]
        · rw [hf] at hw
          exact absurd hw (by decide)
      exact hx.operand (by omega) hminus (hu.down (by omega))
  · intro _ b ls v rs _ _ hl hv hr ihl _ hf
    rw [front_append hl.ne_nil] at hf
    have hall := (ihl hf).operand (binding_of_mem_layerOperators hv).2.1 hv hr
    rwa [List.append_assoc] at hall

end Derivable

end Borealis
