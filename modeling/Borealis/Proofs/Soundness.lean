-- What is read without a complaint follows the grammar. Each rule gives the
-- tree of the words that it passed, no word is left out, and operators group
-- as their layers say.
import Borealis.Proofs.Complaints
import Borealis.Proofs.Derivation

namespace Borealis

namespace Grammar

open Rule

variable {σ : Type} [TokenSource σ]

/-! ## What a rule has read -/

/-- Of the words `ws` a phrase was read that nests at most `room` levels. The cursor stands on
its last word, and the word behind it is of an allowed kind. -/
def HasRead (n : Phrase) (room : Nat) (allowed : TokenKind → Prop) (ws : List Word) (a : n.Tree)
    (c : Cursor σ) : Prop :=
  ∃ xs rest d, ws = xs ++ rest ∧ Derives .firm n xs a d ∧ d ≤ room ∧ allowed (front rest) ∧
    c.Behind rest

/-- Of the words `ws` a phrase and the word that closes it were read. -/
def HasReadTo (n : Phrase) (close : TokenKind) (room : Nat) (ws : List Word) (a : n.Tree)
    (c : Cursor σ) : Prop :=
  ∃ xs z rest d, ws = xs ++ z :: rest ∧ z.kind = close ∧ Derives .firm n xs a d ∧ d ≤ room ∧
    c.Behind rest

/-- The layer of what is read above a strength. The operand of a prefix operator may have such an
operator itself, so there the layer is that of the strength. -/
def layerAbove (strength : Nat) : Nat := min (strength + 1) 6

/-- The rule for the expressions inside reads expressions of at most `room` levels. -/
def ReadsExpressions (inner : Inner σ) (room : Nat) : Prop :=
  ∀ (p : Nat) (c : Cursor σ) (ws : List Word), 1 ≤ p → p ≤ 6 → c.Sees ws →
    (inner p).Sound c (HasRead (.expr (layerAbove p)) room (fun k => k.binding ≤ p) ws)

variable {inner : Inner σ} {room : Nat} {c : Cursor σ} {ws : List Word}

/-- The expressions of statements, groups and arguments. -/
theorem ReadsExpressions.lowest (h : ReadsExpressions inner room) (hs : c.Sees ws) :
    (inner Binding.lowest).Sound c
      (HasRead (.expr 2) room (fun k => k.binding ≤ Binding.lowest) ws) :=
  h 1 c ws (Nat.le_refl 1) (by decide) hs

/-! ## Statements -/

/-- The words `ws` are the statement `xs` and then `rest`, with a semicolon between them or where
none is needed. -/
def StatementEnds (ws xs rest : List Word) : Prop :=
  (∃ w : Word, w.kind = .semicolon ∧ ws = xs ++ w :: rest) ∨
    (ws = xs ++ rest ∧ Seam.firm.Allows (front rest))

/-- A statement was read, with its semicolon if there was one. -/
def HasReadStatement (room : Nat) (ws : List Word) (s : Stmt) (c : Cursor σ) : Prop :=
  ∃ xs rest d, Derives .firm .statement xs s d ∧ d ≤ room ∧ c.Behind rest ∧
    StatementEnds ws xs rest

/-- The semicolon behind an expression ends its statement. -/
theorem sound_terminator (pre : List Word) {xs rest : List Word} {s : Stmt} {d : Nat}
    (hd : Derives .firm .statement (pre ++ xs) s d) (hr : d ≤ room) (hb : c.Behind rest)
    (hk : (front rest).binding ≤ Binding.lowest) :
    (skip .semicolon >>= fun _ => pure s : Rule σ Stmt).Sound c
      (HasReadStatement room (pre ++ (xs ++ rest))) := by
  refine sound_skip (fun hp => sound_pure ?_) (fun hp => sound_pure ?_)
  · obtain ⟨vs, rfl⟩ := hb.exists_cons hp (by decide)
    refine ⟨_, vs, d, hd, hr, hb.advance.behind, Or.inl ⟨c.peek.word, hp, by simp⟩⟩
  · exact ⟨_, rest, d, hd, hr, hb, Or.inr ⟨by simp, hk⟩⟩

theorem sound_statement (h : ReadsExpressions inner room) (hg : ∀ p, (inner p).Grows)
    (hs : c.Sees ws) : (statement inner).Sound c (HasReadStatement room ws) := by
  have hskip : ∀ s : Stmt, (skip .semicolon >>= fun _ => pure s : Rule σ Stmt).Grows :=
    fun s => (grows_skip _).bind fun _ => grows_pure _
  refine sound_current ?_
  split
  · rename_i hk
    refine sound_expect fun hn => sound_expect fun he => sound_advance ?_
    obtain ⟨vs, rfl⟩ := hs.exists_cons hk (by decide)
    obtain ⟨us, rfl⟩ := hs.behind.exists_cons hn (by decide)
    have hs1 := hs.behind.advance
    obtain ⟨ts, rfl⟩ := hs1.behind.exists_cons he (by decide)
    refine (h.lowest hs1.behind.advance.behind.advance).bind (hg _) (fun _ => hskip _) ?_
    rintro e c' ⟨xs, rest, d, rfl, hd, hr, hlow, hb⟩
    exact sound_terminator [_, _, _] (.bind hk hn he hd) hr hb hlow
  · rename_i hk
    obtain ⟨vs, rfl⟩ := hs.exists_cons hk (by decide)
    refine sound_advance ((h.lowest hs.behind.advance).bind (hg _) (fun _ => hskip _) ?_)
    rintro e c' ⟨xs, rest, d, rfl, hd, hr, hlow, hb⟩
    exact sound_terminator [_] (.ret hk hd) hr hb hlow
  · refine (h.lowest hs).bind (hg _) (fun _ => hskip _) ?_
    rintro e c' ⟨xs, rest, d, rfl, hd, hr, hlow, hb⟩
    exact sound_terminator [] (.expr hd) hr hb hlow

/-- A statement in front of others. -/
theorem StatementEnds.cons {s : Stmt} {ss : List Stmt} {xs ys tail : List Word} {d m : Nat}
    (hend : StatementEnds ws xs (ys ++ tail)) (hd : Derives .firm .statement xs s d)
    (hm : Derives .firm .statements ys ss m) :
    ∃ zs, ws = zs ++ tail ∧ Derives .firm .statements zs (s :: ss) (max d m) := by
  rcases hend with ⟨w, hw, rfl⟩ | ⟨rfl, ha⟩
  · exact ⟨xs ++ w :: ys, by simp, .closed hd hw hm⟩
  · exact ⟨xs ++ ys, by simp, .opened hd ha.front_left hm⟩

/-- What is left behind a statement is shorter. -/
theorem StatementEnds.length_lt {s : Stmt} {xs rest : List Word} {d : Nat}
    (hend : StatementEnds ws xs rest) (hd : Derives .firm .statement xs s d) :
    rest.length < ws.length := by
  have hpos : 0 < xs.length := List.length_pos_iff.mpr (hd.full trivial).1
  rcases hend with ⟨w, -, rfl⟩ | ⟨rfl, -⟩
  all_goals
    simp only [List.length_append, List.length_cons]
    omega

theorem sound_blockStatements (h : ReadsExpressions inner room) (hg : ∀ p, (inner p).Grows)
    (rounds : Nat) (hs : c.Sees ws) (hn : ws.length < rounds) :
    (blockStatements inner rounds).Sound c (HasReadTo .statements .rightBrace room ws) := by
  induction rounds generalizing c ws with
  | zero => omega
  | succ rounds ih =>
    refine sound_current ?_
    split
    · rename_i hk
      obtain ⟨vs, rfl⟩ := hs.exists_cons hk (by decide)
      exact sound_pure ⟨[], _, vs, 0, rfl, hk, .nil, Nat.zero_le _, hs.behind⟩
    · exact sound_reject _ _
    · refine (sound_statement h hg hs).attempt.bind (grows_statement hg).attempt
        (fun _ => grows_advance.bind fun _ => (grows_blockStatements hg _).bind fun _ =>
          grows_pure _) ?_
      rintro first c' ⟨s, rfl, xs, rest, d, hd, hr, hb, hend⟩
      have hlt := hend.length_lt hd
      refine sound_advance ((ih hb.advance (by omega)).bind (grows_blockStatements hg _)
        (fun _ => grows_pure _) ?_)
      rintro others c'' ⟨ys, z, tail, m, rfl, hz, hm, hr', hb'⟩
      obtain ⟨zs, rfl, hzs⟩ := hend.cons hd hm
      exact sound_pure ⟨zs, z, tail, _, rfl, hz, hzs, by omega, hb'⟩

theorem sound_block (h : ReadsExpressions inner room) (hg : ∀ p, (inner p).Grows)
    (hb : c.Behind ws) :
    (block inner).Sound c (HasReadTo .statements .rightBrace room ws) :=
  sound_advance (sound_remaining (sound_blockStatements h hg _ hb.advance hb.advance.length_lt))

/-! ## Operands -/

/-- An operand was read: an atom, or a prefix operator with its operand, behind which no call
can go on. -/
def HasReadOperand (room : Nat) (ws : List Word) (e : Expr) (c : Cursor σ) : Prop :=
  ∃ layer, 6 ≤ layer ∧ HasRead (.expr layer) room (fun k => k.binding ≤ layer) ws e c

theorem hasReadOperand_atom {xs rest : List Word} {e : Expr} {d : Nat}
    (hd : Derives .firm (.expr 8) xs e d) (hr : d ≤ room) (hb : c.Behind rest) :
    HasReadOperand room (xs ++ rest) e c :=
  ⟨8, by omega, xs, rest, d, rfl, hd, hr, Nat.le_succ_of_le (binding_le_call _), hb⟩

theorem sound_integer (hs : c.Sees ws) (hk : c.current.kind = .int) :
    (integer : Rule σ Expr).Sound c (HasReadOperand (room + 1) ws) := by
  refine sound_current ?_
  obtain ⟨vs, rfl⟩ := hs.exists_cons hk (by decide)
  split
  · rename_i v hv
    exact sound_pure (hasReadOperand_atom (.int hk hv) (by omega) hs.behind)
  · exact sound_reject _ _

theorem sound_unary (h : ReadsExpressions inner room) (hg : ∀ p, (inner p).Grows)
    (hs : c.Sees ws) (hk : c.current.kind = .bang ∨ c.current.kind = .minus) :
    (unary inner).Sound c (HasReadOperand (room + 1) ws) := by
  obtain ⟨vs, rfl⟩ := hs.exists_cons rfl (by rcases hk with hk | hk <;> rw [hk] <;> decide)
  refine sound_current (sound_advance ((h 6 _ _ (by omega) (by omega) hs.behind.advance).bind
    (hg _) (fun _ => grows_pure _) ?_))
  rintro e c' ⟨xs, rest, d, rfl, hd, hr, hle, hb⟩
  exact sound_pure ⟨6, by omega, _ :: xs, rest, d + 1, rfl, .unary hk hd, by omega, hle, hb⟩

theorem sound_grouped (h : ReadsExpressions inner room) (hg : ∀ p, (inner p).Grows)
    (hs : c.Sees ws) (hk : c.current.word.kind = .leftParen) :
    (grouped inner).Sound c (HasReadOperand (room + 1) ws) := by
  obtain ⟨vs, rfl⟩ := hs.exists_cons hk (by decide)
  refine sound_advance ((h.lowest hs.behind.advance).bind (hg _)
    (fun _ => (grows_expect _).bind fun _ => grows_pure _) ?_)
  rintro e c' ⟨xs, rest, d, rfl, hd, hr, -, hb⟩
  refine sound_expect fun hp => sound_pure ?_
  obtain ⟨us, rfl⟩ := hb.exists_cons hp (by decide)
  have ha := hasReadOperand_atom (.group hk hd hp) (Nat.succ_le_succ hr) hb.advance.behind
  simpa using ha

theorem sound_conditional (h : ReadsExpressions inner room) (hg : ∀ p, (inner p).Grows)
    (hs : c.Sees ws) (hk : c.current.word.kind = .ifWord) :
    (conditional inner).Sound c (HasReadOperand (room + 1) ws) := by
  obtain ⟨vs, rfl⟩ := hs.exists_cons hk (by decide)
  rw [conditional_eq]
  refine sound_expect fun hl => ?_
  obtain ⟨us, rfl⟩ := hs.behind.exists_cons hl (by decide)
  refine sound_advance ((h.lowest hs.behind.advance.behind.advance).bind (hg _)
    (fun _ => (grows_expect _).bind fun _ => (grows_expect _).bind fun _ =>
      (grows_block hg).bind fun _ => grows_alternative hg _ _) ?_)
  rintro test c1 ⟨ts, rest, d, rfl, hd, hr, -, hb⟩
  refine sound_expect fun hp => sound_expect fun hbr => ?_
  obtain ⟨rest, rfl⟩ := hb.exists_cons hp (by decide)
  have hb := hb.advance.behind
  obtain ⟨rest, rfl⟩ := hb.exists_cons hbr (by decide)
  refine (sound_block h hg hb.advance.behind).bind (grows_block hg)
    (fun _ => grows_alternative hg _ _) ?_
  rintro yes c2 ⟨ys, z, rest, m, rfl, hz, hm, hrm, hb⟩
  refine sound_peek ?_
  split
  · rename_i helse
    obtain ⟨rest, rfl⟩ := hb.exists_cons helse (by decide)
    refine sound_advance (sound_expect fun hbr' => ?_)
    have hb := hb.advance.behind
    obtain ⟨rest, rfl⟩ := hb.exists_cons hbr' (by decide)
    refine (sound_block h hg hb.advance.behind).bind (grows_block hg) (fun _ => grows_pure _) ?_
    rintro no c3 ⟨ns, y, rest, k, rfl, hy, hn, hrn, hb⟩
    have helse : c2.peek.word.kind = .elseWord := helse
    have ha := hasReadOperand_atom (.ifElse hk hl hd hp hbr hm hz helse hbr' hn hy)
      (by omega : _ ≤ room + 1) hb
    exact sound_pure (by simpa using ha)
  · have ha := hasReadOperand_atom (.ifThen hk hl hd hp hbr hm hz) (by omega : _ ≤ room + 1) hb
    exact sound_pure (by simpa using ha)

theorem sound_moreParameters (rounds : Nat) (hb : c.Behind ws) (hn : ws.length < rounds) :
    (moreParameters rounds : Rule σ (List Text)).Sound c (fun names c' =>
      ∃ xs z rest, ws = xs ++ z :: rest ∧ z.kind = .rightParen ∧ MoreParameters xs names ∧
        c'.Behind rest) := by
  induction rounds generalizing c ws with
  | zero => omega
  | succ rounds ih =>
    refine sound_peek ?_
    split
    · rename_i hk
      obtain ⟨vs, rfl⟩ := hb.exists_cons hk (by decide)
      have hb1 := hb.advance.behind
      refine sound_advance (sound_expect fun hi => ?_)
      obtain ⟨us, rfl⟩ := hb1.exists_cons hi (by decide)
      simp only [List.length_cons] at hn
      refine (ih hb1.advance.behind (by omega)).bind (grows_moreParameters _)
        (fun _ => grows_pure _) ?_
      rintro names c' ⟨xs, z, rest, rfl, hz, hm, hb'⟩
      exact sound_pure ⟨_ :: _ :: xs, z, rest, rfl, hz, .next hk hi hm, hb'⟩
    · refine sound_expect fun hz => sound_pure ?_
      obtain ⟨vs, rfl⟩ := hb.exists_cons hz (by decide)
      exact ⟨[], _, vs, rfl, hz, .last, hb.advance.behind⟩

theorem sound_parameters (hb : c.Behind ws) :
    (parameters : Rule σ (List Text)).Sound c (fun names c' =>
      ∃ xs z rest, ws = xs ++ z :: rest ∧ z.kind = .rightParen ∧ Parameters xs names ∧
        c'.Behind rest) := by
  refine sound_peek ?_
  split
  · rename_i hz
    obtain ⟨vs, rfl⟩ := hb.exists_cons hz (by decide)
    exact sound_advance (sound_pure ⟨[], _, vs, rfl, hz, .none, hb.advance.behind⟩)
  · refine sound_expect fun hi => ?_
    obtain ⟨vs, rfl⟩ := hb.exists_cons hi (by decide)
    have hb1 := hb.advance.behind
    refine sound_remaining ((sound_moreParameters _ hb1 hb1.length_lt).bind
      (grows_moreParameters _) (fun _ => grows_pure _) ?_)
    rintro names c' ⟨xs, z, rest, rfl, hz, hm, hb'⟩
    exact sound_pure ⟨_ :: xs, z, rest, rfl, hz, .some hi hm, hb'⟩

theorem sound_function (h : ReadsExpressions inner room) (hg : ∀ p, (inner p).Grows)
    (hs : c.Sees ws) (hk : c.current.word.kind = .functionWord) :
    (function inner).Sound c (HasReadOperand (room + 1) ws) := by
  obtain ⟨vs, rfl⟩ := hs.exists_cons hk (by decide)
  refine sound_expect fun hl => ?_
  obtain ⟨us, rfl⟩ := hs.behind.exists_cons hl (by decide)
  refine (sound_parameters hs.behind.advance.behind).bind grows_parameters
    (fun _ => (grows_expect _).bind fun _ => (grows_block hg).bind fun _ => grows_pure _) ?_
  rintro params c1 ⟨ps, r, rest, rfl, hr, hp, hb⟩
  refine sound_expect fun hbr => ?_
  obtain ⟨rest, rfl⟩ := hb.exists_cons hbr (by decide)
  refine (sound_block h hg hb.advance.behind).bind (grows_block hg) (fun _ => grows_pure _) ?_
  rintro body c2 ⟨bs, z, rest, d, rfl, hz, hd, hrd, hb⟩
  have ha := hasReadOperand_atom (.fn hk hl hp hr hbr hd hz) (by omega : _ ≤ room + 1) hb
  exact sound_pure (by simpa using ha)

theorem sound_operand (h : ReadsExpressions inner room) (hg : ∀ p, (inner p).Grows)
    (hs : c.Sees ws) : (operand inner).Sound c (HasReadOperand (room + 1) ws) := by
  have hword : ∀ {e : Expr}, c.current.kind ≠ .eof →
      Derives .firm (.expr 8) [c.current.word] e 1 → HasReadOperand (room + 1) ws e c := by
    intro e hk hd
    obtain ⟨vs, rfl⟩ := hs.exists_cons rfl hk
    exact hasReadOperand_atom hd (by omega) hs.behind
  refine sound_current ?_
  split
  · rename_i hk
    exact sound_pure (hword (by simp [hk]) (.ident hk))
  · rename_i hk
    exact sound_integer hs hk
  · rename_i hk
    exact sound_pure (hword (by simp [hk]) (.yes hk))
  · rename_i hk
    exact sound_pure (hword (by simp [hk]) (.no hk))
  · rename_i hk
    exact sound_unary h hg hs (Or.inl hk)
  · rename_i hk
    exact sound_unary h hg hs (Or.inr hk)
  · rename_i hk
    exact sound_grouped h hg hs hk
  · rename_i hk
    exact sound_conditional h hg hs hk
  · rename_i hk
    exact sound_function h hg hs hk
  · exact sound_reject _ _
  · exact sound_reject _ _

/-! ## Operators -/

theorem sound_moreArguments (h : ReadsExpressions inner room) (hg : ∀ p, (inner p).Grows)
    (rounds : Nat) (hb : c.Behind ws) (hn : ws.length < rounds) :
    (moreArguments inner rounds).Sound c (HasReadTo .moreArguments .rightParen room ws) := by
  induction rounds generalizing c ws with
  | zero => omega
  | succ rounds ih =>
    refine sound_peek ?_
    split
    · rename_i hk
      obtain ⟨vs, rfl⟩ := hb.exists_cons hk (by decide)
      refine sound_advance (sound_advance ((h.lowest hb.advance.behind.advance).bind (hg _)
        (fun _ => (grows_moreArguments hg _).bind fun _ => grows_pure _) ?_))
      rintro e c1 ⟨xs, rest, d, rfl, hd, hr, -, hb1⟩
      simp only [List.length_cons, List.length_append] at hn
      refine (ih hb1 (by omega)).bind (grows_moreArguments hg _) (fun _ => grows_pure _) ?_
      rintro es c2 ⟨ys, z, rest, m, rfl, hz, hm, hrm, hb2⟩
      exact sound_pure ⟨c.peek.word :: xs ++ ys, z, rest, _, by simp, hz, .nextArgument hk hd hm,
        by omega, hb2⟩
    · refine sound_expect fun hz => sound_pure ?_
      obtain ⟨vs, rfl⟩ := hb.exists_cons hz (by decide)
      exact ⟨[], _, vs, 0, rfl, hz, .lastArgument, Nat.zero_le _, hb.advance.behind⟩

theorem sound_arguments (h : ReadsExpressions inner room) (hg : ∀ p, (inner p).Grows)
    (hb : c.Behind ws) :
    (arguments inner).Sound c (HasReadTo .arguments .rightParen room ws) := by
  refine sound_peek ?_
  split
  · rename_i hz
    obtain ⟨vs, rfl⟩ := hb.exists_cons hz (by decide)
    exact sound_advance (sound_pure
      ⟨[], _, vs, 0, rfl, hz, .noArguments, Nat.zero_le _, hb.advance.behind⟩)
  · refine sound_advance ((h.lowest hb.advance).bind (hg _)
      (fun _ => grows_remaining.bind fun _ => (grows_moreArguments hg _).bind fun _ =>
        grows_pure _) ?_)
    rintro e c1 ⟨xs, rest, d, rfl, hd, hr, -, hb1⟩
    refine sound_remaining ((sound_moreArguments h hg _ hb1 hb1.length_lt).bind
      (grows_moreArguments hg _) (fun _ => grows_pure _) ?_)
    rintro es c2 ⟨ys, z, rest, m, rfl, hz, hm, hrm, hb2⟩
    exact sound_pure ⟨xs ++ ys, z, rest, _, by simp, hz, .someArguments hd hm, by omega, hb2⟩

/-- What the loop over operators has read so far: an expression of a layer at least as tight as
what is asked for, behind which no operator of a tighter layer stands. -/
def HasReadLeft (strength room : Nat) (ws : List Word) (left : Expr) (rest : List Word) : Prop :=
  ∃ layer xs d, ws = xs ++ rest ∧ Derives .firm (.expr layer) xs left d ∧ d ≤ room ∧
    layerAbove strength ≤ layer ∧ (front rest).binding ≤ layer

/-- One operator and what is behind it. The operand on the left is of the operator's layer, the
one on the right of a tighter layer. -/
theorem sound_operation (h : ReadsExpressions inner room) (hg : ∀ p, (inner p).Grows)
    {p : Nat} (hp : 1 ≤ p) {left : Expr} {rest : List Word} {w : Word}
    (hleft : HasReadLeft p (room + 1) ws left (w :: rest)) (hlt : p < w.kind.binding)
    (hs : c.Sees (w :: rest)) :
    (operation inner left).Sound c (fun e c' =>
      ∃ rest', HasReadLeft p (room + 1) ws e rest' ∧ c'.Behind rest' ∧
        rest'.length ≤ rest.length) := by
  obtain ⟨layer, xs, d, rfl, hd, hr, hlayer, hfront⟩ := hleft
  have hw := hs.word
  have hkind : c.current.kind = w.kind := hs.kind
  rw [front_cons] at hfront
  refine sound_current ?_
  split
  · rename_i hk
    rw [hkind] at hk
    have h7 : 7 ≤ layer := by rw [hk] at hfront; exact hfront
    refine (sound_arguments h hg hs.behind).bind (grows_arguments hg) (fun _ => grows_pure _) ?_
    rintro args c' ⟨as, r, rest', m, rfl, hz, hm, hrm, hb⟩
    refine sound_pure ⟨rest', ⟨7, xs ++ w :: as ++ [r], _, by simp,
      .call (hd.down h7) hk hm hz, by omega, ?_, binding_le_call _⟩, hb, ?_⟩
    · unfold layerAbove
      omega
    · simp only [List.length_append, List.length_cons]
      omega
  · rename_i hk
    rw [hkind] at hk
    rcases mem_layerOperators_of_binding (k := w.kind) (Nat.lt_of_le_of_lt hp hlt) with hk' | hmem
    · exact absurd hk' hk
    have hrange := (binding_of_mem_layerOperators hmem).2
    refine sound_advance ((h _ _ _ (by rw [hkind]; omega) (by rw [hkind]; omega)
      hs.behind.advance).bind (hg _) (fun _ => grows_pure _) ?_)
    rintro e c' ⟨ys, rest', m, rfl, hm, hrm, hle, hb⟩
    rw [hkind] at hm hle
    have habove : layerAbove w.kind.binding = w.kind.binding + 1 := by
      unfold layerAbove
      omega
    rw [habove] at hm
    have hbin := Derives.binary (hd.down hfront) hmem hm
    rw [show w.literal = c.current.literal by rw [← hw]; rfl] at hbin
    refine sound_pure ⟨rest', ⟨w.kind.binding, xs ++ w :: ys, _, by simp, hbin, by omega, ?_,
      hle⟩, hb, ?_⟩
    · unfold layerAbove
      omega
    · simp only [List.length_append]
      omega

theorem sound_operations (h : ReadsExpressions inner room) (hg : ∀ p, (inner p).Grows)
    {p : Nat} (hp : 1 ≤ p) (rounds : Nat) {left : Expr} {rest : List Word}
    (hleft : HasReadLeft p (room + 1) ws left rest) (hb : c.Behind rest)
    (hn : rest.length < rounds) :
    (operations inner p rounds left).Sound c
      (HasRead (.expr (layerAbove p)) (room + 1) (fun k => k.binding ≤ p) ws) := by
  induction rounds generalizing c left rest with
  | zero => omega
  | succ rounds ih =>
    refine sound_peek ?_
    split
    · rename_i hlt
      have hne : c.peek.kind ≠ .eof := by
        intro he
        rw [he] at hlt
        exact absurd hlt (Nat.not_lt.mpr hp)
      obtain ⟨vs, rfl⟩ := hb.exists_cons rfl hne
      refine sound_advance ((sound_operation h hg hp hleft hlt hb.advance).bind
        (grows_operation hg left) (fun e => grows_operations hg p rounds e) ?_)
      rintro e c' ⟨rest', hleft', hb', hle⟩
      simp only [List.length_cons] at hn
      exact ih hleft' hb' (by omega)
    · rename_i hle
      obtain ⟨layer, xs, d, rfl, hd, hr, hlayer, -⟩ := hleft
      refine sound_pure ⟨xs, rest, d, rfl, hd.down hlayer, hr, ?_, hb⟩
      rw [← hb.kind]
      exact Nat.le_of_not_lt hle

/-- Every expression that is read without a complaint follows the grammar. -/
theorem readsExpressions (room : Nat) : ReadsExpressions (expression room : Inner σ) room := by
  induction room with
  | zero => exact fun p c ws _ _ _ => sound_giveUp _
  | succ room ih =>
    intro p c ws hp hp' hs
    have hg : ∀ p, (expression room p : Rule σ Expr).Grows := grows_expression room
    refine (sound_operand ih hg hs).bind (grows_operand hg)
      (fun e => grows_remaining.bind fun _ => grows_operations hg p _ _) ?_
    rintro e c' ⟨layer, hlayer, xs, rest, d, rfl, hd, hr, hle, hb⟩
    refine sound_remaining (sound_operations ih hg hp _ ⟨layer, xs, d, rfl, hd, hr, ?_, hle⟩ hb
      hb.length_lt)
    unfold layerAbove
    omega

/-! ## Programs -/

/-- Statements that are read without a complaint are all the words there are. -/
theorem statements_sound (rounds : Nat) (hs : c.Sees ws) (hn : ws.length < rounds)
    (hc : c.abandoned = false) (hd : (statements rounds c).2.diagnostics = c.diagnostics) :
    ∃ d ≤ maxNesting, Derives .firm .statements ws (statements rounds c).1 d := by
  induction rounds generalizing c ws with
  | zero => omega
  | succ rounds ih =>
    by_cases hk : c.current.kind = .eof
    · have hws : ws = [] := by
        cases ws with
        | nil => rfl
        | cons w ws => exact absurd (hs.kind.symm.trans hk) hs.ne_eof
      subst hws
      rw [statements_end _ hk]
      exact ⟨0, Nat.zero_le _, .nil⟩
    · rw [statements_step _ hk] at hd ⊢
      have hg := grows_statement (grows_expression maxNesting) c
      have hmid := hg.eq (statements_notesOf rounds (statement _ c).2.advance) hd
      obtain ⟨s, c1, hrun, hc1, xs, rest, d, hds, hr, hb, hend⟩ :=
        sound_statement (readsExpressions maxNesting) (grows_expression maxNesting) hs hc hmid
      have hlt := hend.length_lt hds
      rw [hrun] at hd hmid ⊢
      obtain ⟨m, hm, hrest⟩ := ih hb.advance (by omega) hc1 (hd.trans hmid.symm)
      rw [← List.append_nil rest] at hend
      obtain ⟨zs, rfl, hzs⟩ := hend.cons hds hrest
      exact ⟨max d m, by omega, by simpa using hzs⟩

end Grammar

/-- A source that is read without a complaint follows the grammar from the first word to the
last, and its expressions nest no deeper than the limit. -/
theorem ofSource_derives {σ : Type} [TokenSource σ] {s : σ} {ts : List Token}
    (hg : TokenSource.Gives s ts) (h : (Program.ofSource s).diagnostics = []) :
    ∃ d ≤ maxNesting, Derives .firm .statements (ts.map Token.word)
      (Program.ofSource s).program.statements d := by
  have hs := Cursor.Sees.ofSource hg
  refine Grammar.statements_sound _ hs hs.length_lt rfl ?_
  exact Array.toList_eq_nil_iff.mp h

/-- Reading a token list without a complaint takes every token before the first end token, and
the program is the tree that the layers of the grammar give those tokens. -/
theorem reading_without_a_complaint_follows_the_grammar (ts : List Token)
    (h : (Program.ofTokens ts).diagnostics = []) :
    ∃ d ≤ maxNesting, Derives .loose .statements
      ((ts.takeWhile fun t => t.kind ≠ .eof).map Token.word)
      (Program.ofTokens ts).program.statements d := by
  obtain ⟨d, hd, hs⟩ := ofSource_derives (TokenList.gives ts Position.unset) h
  exact ⟨d, hd, hs.loosen⟩

/-- The tokens of `a - b == !c`, an end token, and a token behind it that does not count. -/
def comparedDifference : List Token :=
  [⟨.ident, "a", ⟨1, 1⟩⟩, ⟨.minus, "-", ⟨1, 3⟩⟩, ⟨.ident, "b", ⟨1, 5⟩⟩, ⟨.equal, "==", ⟨1, 7⟩⟩,
    ⟨.bang, "!", ⟨1, 10⟩⟩, ⟨.ident, "c", ⟨1, 11⟩⟩, ⟨.eof, "", ⟨1, 12⟩⟩,
    ⟨.rightParen, ")", ⟨2, 1⟩⟩]

theorem comparedDifference_follows_the_grammar :
    (Program.ofTokens comparedDifference).diagnostics = [] ∧
    ∃ d ≤ maxNesting, Derives .loose .statements
      ((comparedDifference.takeWhile fun t => t.kind ≠ .eof).map Token.word)
      (Program.ofTokens comparedDifference).program.statements d := by
  have h : (Program.ofTokens comparedDifference).diagnostics = [] := by decide
  exact ⟨h, reading_without_a_complaint_follows_the_grammar comparedDifference h⟩

end Borealis
