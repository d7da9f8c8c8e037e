-- What an operation on files can change. A path leads to the same place in
-- every tree in which it leads anywhere. What is written or removed stands at
-- the place of the path or below it, and new directories stand on the way.
import Borealis.Host
import Borealis.Proofs.Paths

namespace Borealis

namespace FileTree

variable {t t' t'' : FileTree} {free way : Place → Prop}

/-! ## What stands at a place -/

theorem lookup_filter (keep : Place → Bool) (entries : List (Place × Entry)) (q : Place) :
    (entries.filter fun e => keep e.1).lookup q = if keep q then entries.lookup q else none := by
  induction entries with
  | nil => simp
  | cons e entries ih =>
    by_cases hq : q = e.1
    · subst hq
      have heq : ∀ rest, List.lookup e.1 (e :: rest) = some e.2 := fun rest => by
        rw [List.lookup_cons, beq_self_eq_true]
      by_cases hk : keep e.1
      · rw [List.filter_cons, if_pos hk, if_pos hk, heq, heq]
      · rw [List.filter_cons, if_neg hk, ih, if_neg hk, if_neg hk]
    · have hne : (q == e.1) = false := beq_false_of_ne hq
      rw [List.lookup_cons, hne, List.filter_cons]
      split
      · rw [List.lookup_cons, hne, ih]
      · exact ih

@[simp]
theorem get?_nil (t : FileTree) : t.get? [] = some .dir := rfl

theorem get?_put_of_ne (t : FileTree) {p q : Place} (hq : q ≠ p) (e : Entry) :
    (t.put p e).get? q = t.get? q := by
  unfold get? put
  rw [List.lookup_cons, beq_false_of_ne hq, lookup_filter fun r => decide (r ≠ p)]
  simp [hq]

theorem get?_put (t : FileTree) {p : Place} (hp : p ≠ []) (e : Entry) (q : Place) :
    (t.put p e).get? q = if q = p then some e else t.get? q := by
  by_cases hq : q = p
  · subst hq
    simp [get?, put, hp]
  · rw [if_neg hq, get?_put_of_ne t hq]

theorem get?_remove (t : FileTree) (p q : Place) :
    (t.remove p).get? q = if q ≠ [] ∧ p <+: q then none else t.get? q := by
  unfold get? remove
  by_cases hq : q = []
  · simp [hq]
  · rw [if_neg hq, if_neg hq, lookup_filter fun r => !p.isPrefixOf r]
    by_cases hp : p <+: q
    · simp [List.isPrefixOf_iff_prefix.mpr hp, hq, hp]
    · have : p.isPrefixOf q = false := Bool.eq_false_iff.mpr (mt List.isPrefixOf_iff_prefix.mp hp)
      simp [this, hp]

/-! ## What stays -/

/-- What stands in `t` stands in `t'`, but for the places that are free, and nothing is new there
but directories on the way. -/
def Keeps (free way : Place → Prop) (t t' : FileTree) : Prop :=
  ∀ q, t'.get? q = t.get? q ∨ (t.get? q = none ∧ t'.get? q = some .dir ∧ way q) ∨ free q

namespace Keeps

theorem refl (t : FileTree) : t.Keeps free way t := fun _ => Or.inl rfl

theorem trans (h : t.Keeps free way t') (h' : t'.Keeps free way t'') : t.Keeps free way t'' := by
  intro q
  rcases h q with hq | ⟨hnone, hdir, hway⟩ | hfree
  · rcases h' q with hq' | ⟨hnone', hdir', hway'⟩ | hfree'
    · exact Or.inl (hq'.trans hq)
    · exact Or.inr (Or.inl ⟨hq ▸ hnone', hdir', hway'⟩)
    · exact Or.inr (Or.inr hfree')
  · rcases h' q with hq' | ⟨hnone', -, -⟩ | hfree'
    · exact Or.inr (Or.inl ⟨hnone, hq'.trans hdir, hway⟩)
    · rw [hdir] at hnone'
      cases hnone'
    · exact Or.inr (Or.inr hfree')
  · exact Or.inr (Or.inr hfree)

theorem mono {free' way' : Place → Prop} (h : t.Keeps free way t') (hfree : ∀ q, free q → free' q)
    (hway : ∀ q, way q → way' q ∨ free' q) : t.Keeps free' way' t' := by
  intro q
  rcases h q with hq | ⟨hnone, hdir, hq⟩ | hq
  · exact Or.inl hq
  · rcases hway q hq with hq | hq
    · exact Or.inr (Or.inl ⟨hnone, hdir, hq⟩)
    · exact Or.inr (Or.inr hq)
  · exact Or.inr (Or.inr (hfree q hq))

theorem put {p : Place} (hfree : free p) (e : Entry) : t.Keeps free way (t.put p e) := by
  intro q
  by_cases hq : q = p
  · exact Or.inr (Or.inr (hq ▸ hfree))
  · exact Or.inl (get?_put_of_ne t hq e)

theorem remove {p : Place} (h : ∀ q, p <+: q → free q) : t.Keeps free way (t.remove p) := by
  intro q
  rw [get?_remove]
  by_cases hq : q ≠ [] ∧ p <+: q
  · exact Or.inr (Or.inr (h q hq.2))
  · exact Or.inl (if_neg hq)

theorem makeDirsFrom {above : Place} {names : List Text}
    (h : ∀ q, above <+: q → q <+: above ++ names → way q ∨ free q) :
    t.Keeps free way (t.makeDirsFrom above names) := by
  induction names generalizing t above with
  | nil => exact refl t
  | cons name names ih =>
    have hway : way (above ++ [name]) ∨ free (above ++ [name]) :=
      h _ (List.prefix_append _ _) (by simp)
    have hrest : ∀ q, above ++ [name] <+: q → q <+: above ++ [name] ++ names → way q ∨ free q := by
      intro q hq hq'
      exact h q ((List.prefix_append _ _).trans hq) (by simpa using hq')
    unfold FileTree.makeDirsFrom
    dsimp only
    split
    · exact ih hrest
    · rename_i hnone
      refine trans (fun q => ?_) (ih hrest)
      rw [get?_put t (by simp)]
      by_cases hq : q = above ++ [name]
      · subst hq
        exact Or.inr (hway.imp_left fun hw => ⟨by simpa using hnone, by simp, hw⟩)
      · exact Or.inl (if_neg hq)

theorem makeDirs {p : Place} (h : ∀ q, q <+: p → way q ∨ free q) :
    t.Keeps free way (t.makeDirs p) :=
  makeDirsFrom fun q _ hq => h q hq

end Keeps

/-! ## Where paths lead -/

theorem follow_eq {p q : Place} {names : List Text} (h : t.follow p names = .ok q) :
    q = names.foldl Path.step p := by
  induction names generalizing p with
  | nil =>
    cases h
    rfl
  | cons name names ih =>
    unfold follow at h
    rw [List.foldl_cons, Path.step]
    split at h
    · cases h
    · cases h
    · split at h
      · rename_i hname
        rw [if_pos hname]
        exact ih h
      · rename_i hname
        rw [if_neg hname]
        split at h
        · rename_i hdots
          rw [if_pos hdots]
          exact ih h
        · rename_i hdots
          rw [if_neg hdots]
          split at h
          · cases h
          · exact ih h

theorem locate_eq_ok_iff {cwd path : Text} {p : Place} : t.locate cwd path = .ok p ↔
    path.contains 0 = false ∧ path ≠ [] ∧ path.length ≤ maxPath ∧
      t.follow (Path.start cwd path) (path.split Path.slash) = .ok p := by
  unfold locate
  by_cases hzero : path.contains 0 = true
  · rw [if_pos hzero, hzero]
    simp
  rw [if_neg hzero]
  by_cases hnil : path = []
  · rw [if_pos hnil]
    simp [hnil]
  rw [if_neg hnil]
  by_cases hlong : maxPath < path.length
  · rw [if_pos hlong]
    simp [Nat.not_le.mpr hlong]
  rw [if_neg hlong]
  have hthree : path.contains 0 = false ∧ path ≠ [] ∧ path.length ≤ maxPath :=
    ⟨Bool.eq_false_iff.mpr hzero, hnil, Nat.le_of_not_lt hlong⟩
  unfold Path.start
  by_cases habs : Path.isAbsolute path = true
  · rw [if_pos habs, if_pos habs]
    exact ⟨fun h => ⟨hthree.1, hthree.2.1, hthree.2.2, h⟩, fun h => h.2.2.2⟩
  · rw [if_neg habs, if_neg habs]
    exact ⟨fun h => ⟨hthree.1, hthree.2.1, hthree.2.2, h⟩, fun h => h.2.2.2⟩

theorem locate_eq {cwd path : Text} {p : Place} (h : t.locate cwd path = .ok p) :
    p = Path.target cwd path :=
  follow_eq (locate_eq_ok_iff.mp h).2.2.2

/-- What is found stands where the path leads. -/
theorem find_eq_ok {cwd path : Text} {p : Place} {e : Entry} (h : t.find cwd path = .ok (p, e)) :
    t.locate cwd path = .ok p ∧ p = Path.target cwd path ∧ t.get? p = some e := by
  unfold find at h
  split at h
  · cases h
  · rename_i q hq
    split at h
    · cases h
    · rename_i e' he
      cases h
      exact ⟨hq, locate_eq hq, he⟩

theorem inspect_eq_ok {action : FileAction} {cwd path : Text} {p : Place} {e : Entry}
    (h : t.inspect action cwd path = .ok (p, e)) : t.find cwd path = .ok (p, e) := by
  unfold inspect at h
  split at h
  · cases h
  · cases h
    assumption

theorem read_eq_ok_iff {cwd path content : Text} : t.read cwd path = .ok content ↔
    t.locate cwd path = .ok (Path.target cwd path) ∧
      t.get? (Path.target cwd path) = some (.file content) := by
  constructor
  · intro h
    unfold read at h
    split at h
    · cases h
    · cases h
    · rename_i p c hi
      cases h
      obtain ⟨hl, rfl, he⟩ := find_eq_ok (inspect_eq_ok hi)
      exact ⟨hl, he⟩
  · rintro ⟨hl, he⟩
    simp [read, inspect, find, hl, he]

/-- A path that leads to a place leads there in every tree that has the same directories. -/
theorem follow_of_dirs (h : ∀ q, t.get? q = some .dir → t'.get? q = some .dir) {p q : Place}
    {names : List Text} (hf : t.follow p names = .ok q) : t'.follow p names = .ok q := by
  induction names generalizing p with
  | nil => exact hf
  | cons name names ih =>
    unfold follow at hf ⊢
    match hp : t.get? p with
    | none => simp [hp] at hf
    | some (.file c) => simp [hp] at hf
    | some .dir =>
      simp only [hp] at hf
      simp only [h p hp]
      split
      · rename_i hname
        rw [if_pos hname] at hf
        exact ih hf
      · rename_i hname
        rw [if_neg hname] at hf
        split
        · rename_i hdots
          rw [if_pos hdots] at hf
          exact ih hf
        · rename_i hdots
          rw [if_neg hdots] at hf
          split
          · rename_i hlong
            rw [if_pos hlong] at hf
            cases hf
          · rename_i hlong
            rw [if_neg hlong] at hf
            exact ih hf

theorem locate_of_dirs (h : ∀ q, t.get? q = some .dir → t'.get? q = some .dir) {cwd path : Text}
    {p : Place} (hl : t.locate cwd path = .ok p) : t'.locate cwd path = .ok p := by
  rw [locate_eq_ok_iff] at hl ⊢
  exact ⟨hl.1, hl.2.1, hl.2.2.1, follow_of_dirs h hl.2.2.2⟩

/-- Plain names lead on as long as they leave directories. -/
theorem follow_plain {p q : Place} {names : List Text} (hnames : ∀ n ∈ names, Path.Plain n) :
    t.follow p names = .ok q ↔ q = p ++ names ∧ (∀ n ∈ names, n.length ≤ maxName) ∧
      ∀ front, front <+: names → front ≠ names → t.get? (p ++ front) = some .dir := by
  induction names generalizing p with
  | nil =>
    simp only [follow, Except.ok.injEq, List.append_nil, List.prefix_nil]
    constructor
    · rintro rfl
      simp_all
    · rintro ⟨rfl, -⟩
      rfl
  | cons name names ih =>
    rw [List.forall_mem_cons] at hnames
    have hdot : ¬(name = [] ∨ name = ".") := not_or.mpr ⟨hnames.1.ne_nil, hnames.1.ne_dot⟩
    -- The first front is the empty one: the first step leaves the directory at `p`.
    have hfronts : (∀ front, front <+: name :: names → front ≠ name :: names →
        t.get? (p ++ front) = some .dir) ↔ t.get? p = some .dir ∧
          ∀ front, front <+: names → front ≠ names → t.get? (p ++ [name] ++ front) = some .dir := by
      simp only [List.prefix_cons_iff]
      constructor
      · intro hdirs
        refine ⟨by simpa using hdirs [] (Or.inl rfl) (by simp), fun front hfront hne => ?_⟩
        simpa using hdirs (name :: front) (Or.inr ⟨front, rfl, hfront⟩) (by simpa using hne)
      · rintro ⟨hp, hdirs⟩ front (rfl | ⟨front, rfl, hfront⟩) hne
        · simpa using hp
        · simpa using hdirs front hfront (by simpa using hne)
    rw [hfronts, List.forall_mem_cons]
    unfold follow
    match hp : t.get? p with
    | none => simp
    | some (.file c) => simp
    | some .dir =>
      simp only [if_neg hdot, if_neg hnames.1.ne_dots]
      split
      · rename_i hlong
        simp [Nat.not_le.mpr hlong]
      · rename_i hlong
        rw [ih hnames.2]
        simp [Nat.le_of_not_lt hlong]

/-- The path to a place leads there if the directories above it stand and the names and the whole
path are short enough. -/
theorem locate_ofPlace {p q : Place} {cwd : Text} (hp : Path.PlainPlace p) (hne : p ≠ []) :
    t.locate cwd (Path.ofPlace p) = .ok q ↔
      ((Path.ofPlace p).contains 0 = false ∧ (Path.ofPlace p).length ≤ maxPath) ∧ q = p ∧
        (∀ n ∈ p, n.length ≤ maxName) ∧ ∀ dir, dir <+: p → dir ≠ p → t.get? dir = some .dir := by
  have hsplit : (Path.ofPlace p).split Path.slash = [] :: p := by
    rw [Path.split_ofPlace]
    exact congrArg _ ((Text.split_join hne).trans
      (Text.flatMap_split fun n hn => (hp n hn).not_mem))
  have hstart : Path.start cwd (Path.ofPlace p) = [] := if_pos (Path.isAbsolute_ofPlace p)
  have hroot : t.follow [] ([] :: p) = t.follow [] p := by
    simp only [follow, get?_nil, true_or, if_true]
  have hfollow := follow_plain (t := t) (p := []) (q := q) hp
  simp only [List.nil_append] at hfollow
  rw [locate_eq_ok_iff, hsplit, hstart, hroot, hfollow, and_assoc]
  simp [Path.ofPlace]

theorem keeps_removeAt {cwd path : Text} (h : t.removeAt cwd path = .ok t')
    (hfree : ∀ q, Path.target cwd path <+: q → free q) : t.Keeps free way t' := by
  unfold removeAt at h
  split at h
  · cases h
    exact .refl t
  split at h
  · cases h
  split at h
  · rename_i p e hfind
    cases h
    obtain ⟨-, rfl, -⟩ := find_eq_ok hfind
    exact .remove hfree
  · cases h
    exact .refl t

/-- Directories are made where the paths above a path lead, and where it leads itself. -/
theorem keeps_makeDirsAt_go {cwd : Text} (above : Text → Prop)
    (habove : ∀ path, above path → parentPath path ≠ [] → above (parentPath path))
    (hway : ∀ path, above path → ∀ q, q <+: Path.target cwd path → way q)
    {rounds : Nat} {path : Text} (hpath : above path)
    (h : makeDirsAt.go t cwd rounds path = .ok t') : t.Keeps free way t' := by
  induction rounds generalizing path t' with
  | zero =>
    cases h
    exact .refl t
  | succ rounds ih =>
    unfold makeDirsAt.go at h
    split at h
    · cases h
      exact .refl t
    · cases h
    · split at h
      · cases h
      · rename_i t₁ ht₁
        have hkeeps : t.Keeps free way t₁ := by
          split at ht₁
          · cases ht₁
            exact .refl t
          · rename_i hne
            exact ih (habove path hpath (by simpa using hne)) ht₁
        split at h
        · cases h
        · rename_i p hp
          cases h
          cases locate_eq hp
          exact hkeeps.trans (.makeDirs fun q hq => Or.inl (hway path hpath q hq))

theorem parentPath_of_not_mem {name : Text} (h : Path.slash ∉ name) : parentPath name = [] := by
  have hrest : ∀ b ∈ name.reverse.dropWhile (· == Path.slash), (b != Path.slash) = true :=
    fun b hb => Path.bne_slash h b ((List.dropWhile_sublist _).subset hb)
  rw [parentPath, ← List.append_nil (List.dropWhile _ name.reverse),
    List.dropWhile_append_of_pos hrest]
  rfl

theorem parentPath_append (front : Text) {name : Text} (hne : name ≠ []) (h : Path.slash ∉ name) :
    parentPath (front ++ Path.slash :: name) = front := by
  have hslash := Path.bne_slash h
  have hreverse : (front ++ Path.slash :: name).reverse =
      name.reverse ++ (Path.slash :: front.reverse) := by simp
  have hlast : (name.reverse ++ (Path.slash :: front.reverse)).dropWhile (· == Path.slash) =
      name.reverse ++ (Path.slash :: front.reverse) := by
    match hname : name.reverse with
    | [] => exact absurd (List.reverse_eq_nil_iff.mp hname) hne
    | b :: rest =>
      have hb : (b == Path.slash) = false := by
        simpa using hslash b (by rw [hname]; exact List.mem_cons_self)
      exact List.dropWhile_cons_of_neg (by simp [hb])
  rw [parentPath, hreverse, hlast, List.dropWhile_append_of_pos hslash,
    List.dropWhile_cons_of_neg (by simp)]
  simp

/-- The path above a spelling leaves out its last name. -/
theorem parentPath_spell {rooted : Bool} {ns : List Text}
    (h : ∀ n ∈ ns, n ≠ [] ∧ Path.slash ∉ n) (hne : parentPath (Path.spell rooted ns) ≠ []) :
    parentPath (Path.spell rooted ns) = Path.spell rooted ns.dropLast := by
  rcases List.eq_nil_or_concat ns with rfl | ⟨ns, name, rfl⟩
  · cases rooted <;> exact absurd rfl hne
  rw [List.concat_eq_append] at h hne ⊢
  obtain ⟨hname, hslash⟩ := h name (by simp)
  rw [List.dropLast_concat]
  match ns with
  | [] =>
    cases rooted with
    | true => exact absurd (parentPath_append [] hname hslash) hne
    | false => exact absurd (parentPath_of_not_mem hslash) hne
  | n :: ns =>
    have hspell : Path.spell rooted (n :: ns ++ [name]) =
        Path.spell rooted (n :: ns) ++ Path.slash :: name := by
      cases rooted with
      | true => exact Path.ofPlace_concat (List.cons_ne_nil n ns) name
      | false =>
        show Text.join "/" (n :: ns ++ [name]) = _
        rw [Text.join_concat _ (List.cons_ne_nil n ns), List.append_assoc]
        rfl
    rw [hspell, parentPath_append _ hname hslash]

/-- The directories that are made for a path stand on the way to its place, or to the place where
the way starts. -/
theorem keeps_makeDirsAt {cwd path : Text} (h : t.makeDirsAt cwd (Path.clean path) = .ok t') :
    t.Keeps free (fun q => q <+: Path.target cwd path ∨ q <+: Path.start cwd path) t' := by
  have hout := Path.workedOut_names path
  refine keeps_makeDirsAt_go (fun p => p = "." ∧ Path.isAbsolute path = false ∨
    ∃ ns, ns <+: Path.names path ∧ p = Path.spell (Path.isAbsolute path) ns) ?_ ?_ ?_ h
  · rintro p (⟨rfl, -⟩ | ⟨ns, hns, rfl⟩) hne
    · exact absurd rfl hne
    · refine Or.inr ⟨ns.dropLast, (List.dropLast_prefix ns).trans hns, ?_⟩
      exact parentPath_spell (fun n hn => hout.names n (hns.subset hn)) hne
  · rintro p (⟨rfl, habs⟩ | ⟨ns, hns, rfl⟩) q hq
    · rw [Path.start, habs]
      exact Or.inr hq
    · rw [Path.target_spell cwd _ fun n hn => hout.names n (hns.subset hn)] at hq
      rw [← Path.foldl_step_names]
      exact (hout.front hns _).imp hq.trans hq.trans
  · rcases Path.clean_cases path with hclean | ⟨habs, -, hclean⟩
    · exact Or.inr ⟨_, List.prefix_refl _, hclean⟩
    · exact Or.inl ⟨hclean, habs⟩

/-! ## Writing -/

/-- A file is written where the path leads, and no directory stood there. -/
theorem write_eq_ok {cwd path content : Text} (h : t.write cwd path content = .ok t') :
    t.locate cwd path = .ok (Path.target cwd path) ∧
      t.get? (Path.target cwd path) ≠ some .dir ∧
      t' = t.put (Path.target cwd path) (.file content) := by
  unfold write at h
  split at h
  · cases h
  · rename_i p hp
    cases locate_eq hp
    split at h
    · cases h
    · rename_i c _ hget
      cases h
      exact ⟨hp, by rw [hget]; simp, rfl⟩
    · rename_i hget _
      cases h
      exact ⟨hp, by rw [hget]; simp, rfl⟩
    · cases h
    · cases h

theorem get?_write {cwd path content : Text} (h : t.write cwd path content = .ok t') (q : Place) :
    t'.get? q = if q = Path.target cwd path then some (.file content) else t.get? q := by
  obtain ⟨-, hdir, rfl⟩ := write_eq_ok h
  exact get?_put t (fun hnil => hdir (by rw [hnil]; rfl)) _ q

/-- Writing a file leaves every directory. -/
theorem dirs_write {cwd path content : Text} (h : t.write cwd path content = .ok t') (q : Place)
    (hq : t.get? q = some .dir) : t'.get? q = some .dir := by
  rw [get?_write h, if_neg, hq]
  rintro rfl
  exact (write_eq_ok h).2.1 hq

theorem read_write {cwd path content : Text} (h : t.write cwd path content = .ok t') :
    t'.read cwd path = .ok content := by
  rw [read_eq_ok_iff, get?_write h, if_pos rfl]
  exact ⟨locate_of_dirs (dirs_write h) (write_eq_ok h).1, rfl⟩

theorem read_write_other {cwd path other content content' : Text}
    (h : t.write cwd path content = .ok t') (hr : t.read cwd other = .ok content')
    (hne : Path.target cwd other ≠ Path.target cwd path) : t'.read cwd other = .ok content' := by
  rw [read_eq_ok_iff] at hr ⊢
  rw [get?_write h, if_neg hne]
  exact ⟨locate_of_dirs (dirs_write h) hr.1, hr.2⟩

end FileTree

end Borealis
