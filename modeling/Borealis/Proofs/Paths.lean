-- Paths and places. A path from the root leads, name by name, to one place,
-- and the shortest spelling of the path spells that place.
import Borealis.Path
import Mathlib.Data.List.Induction

namespace Borealis

/-! ## Pieces of a text -/

namespace Text

variable {sep : UInt8}

theorem split_ne_nil (sep : UInt8) (t : Text) : split sep t ≠ [] := by
  unfold split
  split
  · simp
  · split
    · simp
    · split <;> simp

theorem not_mem_of_mem_split {t piece : Text} (h : piece ∈ split sep t) : sep ∉ piece := by
  induction t generalizing piece with
  | nil => simp_all [split]
  | cons b t ih =>
    unfold split at h
    split at h
    · rcases List.mem_cons.mp h with rfl | h
      · simp
      · exact ih h
    · rename_i hb
      split at h
      · rename_i hnil
        exact absurd hnil (split_ne_nil sep t)
      · rename_i first more hsplit
        rw [hsplit] at ih
        rcases List.mem_cons.mp h with rfl | h
        · simp only [List.mem_cons, not_or]
          exact ⟨fun hs => hb hs.symm, ih List.mem_cons_self⟩
        · exact ih (List.mem_cons_of_mem _ h)

theorem split_of_not_mem {t : Text} (h : sep ∉ t) : split sep t = [t] := by
  induction t with
  | nil => rfl
  | cons b t ih =>
    simp only [List.mem_cons, not_or] at h
    simp only [split, if_neg (Ne.symm h.1), ih h.2]

/-- A text is split at a separator and within the two parts around it. -/
theorem split_append (t u : Text) : split sep (t ++ sep :: u) = split sep t ++ split sep u := by
  induction t with
  | nil => simp [split]
  | cons b t ih =>
    by_cases hb : b = sep
    · simp only [List.cons_append, split, if_pos hb, ih]
    · simp only [List.cons_append, split, if_neg hb, ih]
      match hs : split sep t with
      | [] => exact absurd hs (split_ne_nil sep t)
      | piece :: more => rfl

theorem join_cons_cons (sep t u : Text) (rest : List Text) :
    join sep (t :: u :: rest) = t ++ sep ++ join sep (u :: rest) := rfl

theorem join_concat (sep : Text) {ts : List Text} (h : ts ≠ []) (t : Text) :
    join sep (ts ++ [t]) = join sep ts ++ sep ++ t := by
  induction ts with
  | nil => exact absurd rfl h
  | cons u ts ih =>
    match ts with
    | [] => rfl
    | v :: ts =>
      rw [List.cons_append, List.cons_append, join_cons_cons, join_cons_cons,
        ← List.cons_append, ih (by simp)]
      simp only [List.append_assoc]

/-- Joined texts are split between them and within each of them. -/
theorem split_join {ts : List Text} (h : ts ≠ []) :
    split sep (join [sep] ts) = ts.flatMap (split sep) := by
  induction ts with
  | nil => exact absurd rfl h
  | cons t ts ih =>
    match ts with
    | [] => simp [join]
    | u :: ts =>
      rw [join_cons_cons, List.append_assoc]
      show split sep (t ++ sep :: join [sep] (u :: ts)) = _
      rw [split_append, ih (by simp)]
      rfl

theorem flatMap_split {ts : List Text} (h : ∀ t ∈ ts, sep ∉ t) : ts.flatMap (split sep) = ts := by
  induction ts with
  | nil => rfl
  | cons t ts ih =>
    rw [List.forall_mem_cons] at h
    rw [List.flatMap_cons, split_of_not_mem h.1, ih h.2]
    rfl

end Text

namespace Path

/-! ## Names -/

/-- A name that a file can have. -/
structure Plain (name : Text) : Prop where
  ne_nil : name ≠ []
  ne_dot : name ≠ "."
  ne_dots : name ≠ ".."
  not_mem : slash ∉ name

instance (name : Text) : Decidable (Plain name) :=
  decidable_of_iff (name ≠ [] ∧ name ≠ "." ∧ name ≠ ".." ∧ slash ∉ name)
    ⟨fun h => ⟨h.1, h.2.1, h.2.2.1, h.2.2.2⟩, fun h => ⟨h.1, h.2, h.3, h.4⟩⟩

/-- All names of the place are such names. -/
def PlainPlace (p : Place) : Prop := ∀ name ∈ p, Plain name

instance (p : Place) : Decidable (PlainPlace p) :=
  inferInstanceAs (Decidable (∀ name ∈ p, Plain name))

/-- One step from a place along a name: two dots lead up, and an empty name or a dot nowhere. -/
def step (p : Place) (name : Text) : Place :=
  if name = [] ∨ name = "." then p else if name = ".." then p.dropLast else p ++ [name]

/-- Where the way along a path starts. -/
def start (cwd path : Text) : Place := if isAbsolute path then [] else place cwd

/-- Where a path leads, whatever stands there. -/
def target (cwd path : Text) : Place := (path.split slash).foldl step (start cwd path)

theorem step_dots (p : Place) : step p ".." = p.dropLast := rfl

theorem Plain.step {name : Text} (h : Plain name) (p : Place) : step p name = p ++ [name] := by
  rw [Path.step, if_neg (by simp [h.ne_nil, h.ne_dot]), if_neg h.ne_dots]

theorem PlainPlace.step {p : Place} (h : PlainPlace p) {name : Text} (hn : slash ∉ name) :
    PlainPlace (Path.step p name) := by
  unfold Path.step
  split
  · exact h
  · rename_i hdot
    rw [not_or] at hdot
    split
    · exact fun n hmem => h n (List.dropLast_subset p hmem)
    · rename_i hdots
      intro n hmem
      rcases List.mem_append.mp hmem with hmem | hmem
      · exact h n hmem
      · rw [List.mem_singleton.mp hmem]
        exact ⟨hdot.1, hdot.2, hdots, hn⟩

theorem PlainPlace.concat {p : Place} (h : PlainPlace p) {name : Text} (hn : Plain name) :
    PlainPlace (p ++ [name]) :=
  hn.step p ▸ h.step hn.not_mem

theorem PlainPlace.steps {p : Place} (h : PlainPlace p) {ns : List Text}
    (hns : ∀ n ∈ ns, slash ∉ n) : PlainPlace (ns.foldl Path.step p) := by
  induction ns generalizing p with
  | nil => exact h
  | cons n ns ih =>
    rw [List.forall_mem_cons] at hns
    exact ih (h.step hns.1) hns.2

theorem foldl_step_plain {q : Place} (h : PlainPlace q) (p : Place) :
    q.foldl step p = p ++ q := by
  induction q generalizing p with
  | nil => simp
  | cons n q ih =>
    rw [List.foldl_cons, (h n List.mem_cons_self).step,
      ih fun n hn => h n (List.mem_cons_of_mem _ hn)]
    simp

/-- At the root, the names that were passed are the place that was reached. -/
theorem reverse_pass {p : Place} (h : PlainPlace p) (name : Text) :
    (pass true p.reverse name).reverse = step p name := by
  unfold pass step
  split
  · simp
  · split
    · rcases List.eq_nil_or_concat p with rfl | ⟨p, last, rfl⟩
      · simp
      · have hlast : last ≠ Text.ofString ".." := (h last (by simp)).ne_dots
        simp [hlast]
    · simp

theorem names_eq {path : Text} (h : isAbsolute path = true) :
    names path = (path.split slash).foldl step [] := by
  have hfold : ∀ (ns : List Text), (∀ n ∈ ns, slash ∉ n) → ∀ p, PlainPlace p →
      (ns.foldl (pass true) p.reverse).reverse = ns.foldl step p := by
    intro ns
    induction ns with
    | nil => simp
    | cons n ns ih =>
      intro hns p hp
      rw [List.forall_mem_cons] at hns
      rw [List.foldl_cons, List.foldl_cons, ← ih hns.2 _ (hp.step hns.1), ← reverse_pass hp,
        List.reverse_reverse]
  rw [names, h]
  exact hfold _ (fun _ => Text.not_mem_of_mem_split) [] (by simp [PlainPlace])

theorem plainPlace_names {path : Text} (h : isAbsolute path = true) : PlainPlace (names path) := by
  rw [names_eq h]
  exact PlainPlace.steps (by simp [PlainPlace]) fun _ => Text.not_mem_of_mem_split

theorem target_eq_names {path : Text} (h : isAbsolute path = true) (cwd : Text) :
    target cwd path = names path := by
  rw [target, start, if_pos h, names_eq h]

/-! ## Names that are worked out -/

/-- Names that were worked out: two dots stand in front only. -/
def WorkedOut (ns : List Text) : Prop :=
  ∃ ups plains, ns = ups ++ plains ∧ (∀ n ∈ ups, n = "..") ∧ PlainPlace plains

theorem WorkedOut.pass {ns : List Text} (h : WorkedOut ns) {name : Text} (hn : slash ∉ name) :
    WorkedOut (Path.pass false ns.reverse name).reverse := by
  obtain ⟨ups, plains, rfl, hups, hplains⟩ := h
  unfold Path.pass
  split
  · exact ⟨ups, plains, by simp, hups, hplains⟩
  rename_i hdot
  rw [not_or] at hdot
  split
  · rename_i hdots
    rcases List.eq_nil_or_concat plains with rfl | ⟨plains, last, rfl⟩
    · refine ⟨ups ++ [Text.ofString ".."], [], ?_, ?_, hplains⟩
      · rcases List.eq_nil_or_concat ups with rfl | ⟨ups, last, rfl⟩
        · rfl
        · rw [hups last (by simp)]
          simp
      · intro n hn
        rcases List.mem_append.mp hn with hn | hn
        · exact hups n hn
        · exact List.mem_singleton.mp hn
    · have hlast : last ≠ Text.ofString ".." := (hplains last (by simp)).ne_dots
      refine ⟨ups, plains, by simp [hlast], hups, fun n hn => hplains n (by simp [hn])⟩
  · rename_i hdots
    refine ⟨ups, plains ++ [name], by simp, hups, fun n hmem => ?_⟩
    rcases List.mem_append.mp hmem with hmem | hmem
    · exact hplains n hmem
    · rw [List.mem_singleton.mp hmem]
      exact ⟨hdot.1, hdot.2, hdots, hn⟩

theorem foldl_step_pass {ns : List Text} (h : WorkedOut ns) (p : Place) (name : Text) :
    (pass false ns.reverse name).reverse.foldl step p = step (ns.foldl step p) name := by
  obtain ⟨ups, plains, rfl, hups, hplains⟩ := h
  unfold pass
  rw [step]
  split
  · rw [List.reverse_reverse]
  split
  · rename_i hdots
    rcases List.eq_nil_or_concat plains with rfl | ⟨plains, last, rfl⟩
    · rcases List.eq_nil_or_concat ups with rfl | ⟨ups, last, rfl⟩
      · rfl
      · rw [hups last (by simp)]
        simp [List.foldl_append, step_dots]
    · have hlast := hplains last (by simp)
      have hne : last ≠ Text.ofString ".." := hlast.ne_dots
      simp [hne, List.foldl_append, hlast.step]
  · rename_i hdot hdots
    rw [List.reverse_cons, List.reverse_reverse, List.foldl_append, List.foldl_cons, List.foldl_nil,
      step, if_neg hdot, if_neg hdots]

theorem workedOut_nil : WorkedOut [] := ⟨[], [], rfl, by simp, by simp [PlainPlace]⟩

/-- The names that are passed lead where they would lead one by one. -/
theorem foldl_pass {ns : List Text} (hns : ∀ n ∈ ns, slash ∉ n) (p : Place) {passed : List Text}
    (h : WorkedOut passed) :
    WorkedOut (ns.foldl (pass false) passed.reverse).reverse ∧
      (ns.foldl (pass false) passed.reverse).reverse.foldl step p
        = ns.foldl step (passed.foldl step p) := by
  induction ns generalizing passed with
  | nil => simpa using h
  | cons n ns ih =>
    rw [List.forall_mem_cons] at hns
    have hrest := ih hns.2 (h.pass hns.1)
    rwa [List.reverse_reverse, foldl_step_pass h] at hrest

theorem workedOut_names (path : Text) : WorkedOut (names path) := by
  by_cases habs : isAbsolute path = true
  · exact ⟨[], names path, rfl, by simp, plainPlace_names habs⟩
  · rw [names, Bool.eq_false_iff.mpr habs]
    exact (foldl_pass (fun _ => Text.not_mem_of_mem_split) [] workedOut_nil).1

/-- The names of a path lead where the path leads. -/
theorem foldl_step_names (cwd path : Text) :
    (names path).foldl step (start cwd path) = target cwd path := by
  unfold target start
  split
  · rename_i habs
    rw [← names_eq habs, foldl_step_plain (plainPlace_names habs), List.nil_append]
  · rename_i habs
    rw [names, Bool.eq_false_iff.mpr habs]
    exact (foldl_pass (fun _ => Text.not_mem_of_mem_split) _ workedOut_nil).2

/-- Some of the first names lead to a place on the way, or above its start. -/
theorem WorkedOut.front {ns ms : List Text} (h : WorkedOut ns) (hms : ms <+: ns) (p : Place) :
    ms.foldl step p <+: ns.foldl step p ∨ ms.foldl step p <+: p := by
  obtain ⟨ups, plains, rfl, hups, hplains⟩ := h
  have hup : ∀ us : List Text, (∀ n ∈ us, n = "..") → us.foldl step p <+: p := by
    intro us
    induction us using List.reverseRecOn with
    | nil => simp
    | append_singleton us u ih =>
      intro hus
      rw [List.foldl_append, hus u (by simp), List.foldl_cons, List.foldl_nil, step_dots]
      exact (List.dropLast_prefix _).trans (ih fun n hn => hus n (by simp [hn]))
  rcases List.prefix_or_prefix_of_prefix hms (List.prefix_append ups plains) with hms | ⟨front, rfl⟩
  · exact Or.inr (hup ms fun n hn => hups n (hms.subset hn))
  · left
    have hfront : front <+: plains := (List.prefix_append_right_inj ups).mp hms
    rw [List.foldl_append, List.foldl_append, foldl_step_plain hplains,
      foldl_step_plain fun n hn => hplains n (hfront.subset hn)]
    exact (List.prefix_append_right_inj _).mpr hfront

/-! ## Spellings -/

theorem isAbsolute_ofPlace (p : Place) : isAbsolute (ofPlace p) = true := rfl

theorem split_ofPlace (p : Place) :
    (ofPlace p).split slash = [] :: (Text.join "/" p).split slash := by
  show Text.split slash ([] ++ slash :: Text.join "/" p) = _
  rw [Text.split_append]
  rfl

/-- Names as a path, from the root or from the working directory. -/
def spell (rooted : Bool) (ns : List Text) : Text :=
  if rooted then ofPlace ns else Text.join "/" ns

theorem WorkedOut.names {ns : List Text} (h : WorkedOut ns) : ∀ n ∈ ns, n ≠ [] ∧ slash ∉ n := by
  obtain ⟨ups, plains, rfl, hups, hplains⟩ := h
  intro n hn
  rcases List.mem_append.mp hn with hn | hn
  · rw [hups n hn]
    decide
  · exact ⟨(hplains n hn).ne_nil, (hplains n hn).not_mem⟩

theorem foldl_step_split_join {ns : List Text} (h : ∀ n ∈ ns, n ≠ [] ∧ slash ∉ n) (p : Place) :
    ((Text.join "/" ns).split slash).foldl step p = ns.foldl step p := by
  match ns, h with
  | [], _ => rfl
  | n :: ns, h =>
    rw [show Text.join "/" (n :: ns) = Text.join [slash] (n :: ns) from rfl,
      Text.split_join (List.cons_ne_nil n ns), Text.flatMap_split fun n hn => (h n hn).2]

theorem isAbsolute_join_names {ns : List Text} (h : ∀ n ∈ ns, n ≠ [] ∧ slash ∉ n) :
    isAbsolute (Text.join "/" ns) = false := by
  have hhead : ∀ (n : Text) (rest : Text), n ≠ [] ∧ slash ∉ n → isAbsolute (n ++ rest) = false := by
    rintro (_ | ⟨b, n⟩) rest ⟨hne, hslash⟩
    · exact absurd rfl hne
    · rw [List.mem_cons, not_or] at hslash
      simpa [isAbsolute] using Ne.symm hslash.1
  match ns, h with
  | [], _ => rfl
  | [n], h =>
    rw [← List.append_nil (Text.join "/" [n])]
    exact hhead n [] (h n (by simp))
  | n :: m :: ns, h =>
    rw [Text.join_cons_cons, List.append_assoc]
    exact hhead n _ (h n (by simp))

theorem target_spell (cwd : Text) (rooted : Bool) {ns : List Text}
    (h : ∀ n ∈ ns, n ≠ [] ∧ slash ∉ n) :
    target cwd (spell rooted ns) = ns.foldl step (if rooted then [] else place cwd) := by
  cases rooted with
  | true =>
    rw [spell, if_pos rfl, target, split_ofPlace, List.foldl_cons, foldl_step_split_join h]
    rfl
  | false =>
    rw [spell, if_neg (by simp), target, foldl_step_split_join h, start, isAbsolute_join_names h]

theorem names_ofPlace {p : Place} (h : PlainPlace p) : names (ofPlace p) = p := by
  have hnames : ∀ n ∈ p, n ≠ [] ∧ slash ∉ n := fun n hn => ⟨(h n hn).ne_nil, (h n hn).not_mem⟩
  rw [← target_eq_names (isAbsolute_ofPlace p) [], show ofPlace p = spell true p from rfl,
    target_spell [] true hnames]
  exact foldl_step_plain h []

/-- The shortest spelling is that of the names, or a dot if there are none. -/
theorem clean_cases (path : Text) : clean path = spell (isAbsolute path) (names path) ∨
    isAbsolute path = false ∧ names path = [] ∧ clean path = "." := by
  unfold clean spell
  by_cases habs : isAbsolute path = true
  · rw [if_pos habs, if_pos habs]
    exact Or.inl rfl
  · rw [if_neg habs, if_neg habs]
    by_cases hnil : names path = []
    · rw [hnil]
      exact Or.inr ⟨Bool.eq_false_iff.mpr habs, rfl, rfl⟩
    · rw [if_neg (by simpa using hnil)]
      exact Or.inl rfl

theorem target_clean (cwd path : Text) : target cwd (clean path) = target cwd path := by
  rw [← foldl_step_names cwd path]
  rcases clean_cases path with h | ⟨habs, hnames, h⟩
  · rw [h, target_spell cwd _ (workedOut_names path).names, start]
  · rw [h, hnames, start, habs]
    rfl

theorem clean_ne_nil (path : Text) : clean path ≠ [] := by
  unfold clean
  split
  · exact List.cons_ne_nil _ _
  split
  · decide
  · rename_i hne
    match hns : names path, (workedOut_names path).names with
    | [], _ => exact absurd (by rw [hns]; rfl) hne
    | [n], h => exact (h n (by simp)).1
    | n :: m :: ns, h =>
      rw [Text.join_cons_cons]
      simp [(h n (by simp)).1]

theorem clean_eq {path : Text} (h : isAbsolute path = true) :
    clean path = ofPlace (names path) := by
  rw [clean, if_pos h]
  rfl

theorem isAbsolute_clean {path : Text} (h : isAbsolute path = true) :
    isAbsolute (clean path) = true := by
  rw [clean_eq h]
  rfl

theorem names_clean {path : Text} (h : isAbsolute path = true) :
    names (clean path) = names path := by
  rw [clean_eq h, names_ofPlace (plainPlace_names h)]

/-! ## Paths below a path -/

theorem join_eq_clean {path : Text} (hne : path ≠ []) (rest : List Text) :
    join (path :: rest) = clean (Text.join "/" (path :: rest)) := by
  rw [join, if_neg (by simpa using hne)]

theorem isAbsolute_text_join {path : Text} (hne : path ≠ []) (rest : List Text) :
    isAbsolute (Text.join "/" (path :: rest)) = isAbsolute path := by
  match path, hne, rest with
  | b :: path, _, [] => rfl
  | b :: path, _, t :: rest => rfl

/-- Paths below a path lead on from its place. -/
theorem target_join (cwd : Text) {path : Text} (hne : path ≠ []) (rest : List Text) :
    target cwd (join (path :: rest)) =
      (rest.flatMap (Text.split slash)).foldl step (target cwd path) := by
  rw [join_eq_clean hne, target_clean, target, start, isAbsolute_text_join hne,
    show Text.join "/" (path :: rest) = Text.join [slash] (path :: rest) from rfl,
    Text.split_join (List.cons_ne_nil path rest), List.flatMap_cons, List.foldl_append]
  rfl

theorem ne_nil_of_isAbsolute {path : Text} (h : isAbsolute path = true) : path ≠ [] := by
  rintro rfl
  cases h

theorem isAbsolute_join {path : Text} (h : isAbsolute path = true) (rest : List Text) :
    isAbsolute (join (path :: rest)) = true := by
  have hne := ne_nil_of_isAbsolute h
  rw [join_eq_clean hne]
  exact isAbsolute_clean ((isAbsolute_text_join hne rest).trans h)

theorem names_join {path : Text} (h : isAbsolute path = true) (rest : List Text) :
    names (join (path :: rest)) = (rest.flatMap (Text.split slash)).foldl step (names path) := by
  rw [← target_eq_names (isAbsolute_join h rest) [], target_join [] (ne_nil_of_isAbsolute h),
    target_eq_names h]

theorem join_eq {path : Text} (h : isAbsolute path = true) (rest : List Text) :
    join (path :: rest) = ofPlace (names (join (path :: rest))) := by
  have hne := ne_nil_of_isAbsolute h
  have habs := (isAbsolute_text_join hne rest).trans h
  rw [join_eq_clean hne, names_clean habs, clean_eq habs]

theorem join_ofPlace {p : Place} (hp : PlainPlace p) {name : Text} (hn : Plain name) :
    join [ofPlace p, name] = ofPlace (p ++ [name]) := by
  rw [join_eq (isAbsolute_ofPlace p), names_join (isAbsolute_ofPlace p), names_ofPlace hp,
    List.flatMap_cons, Text.split_of_not_mem hn.not_mem]
  simp [hn.step]

theorem absolute_eq {path : Text} (h : isAbsolute path = true) (cwd : Text) :
    absolute cwd path = ofPlace (names path) := by
  rw [absolute, if_pos h, clean_eq h]

theorem absolute_ofPlace {p : Place} (h : PlainPlace p) (cwd : Text) :
    absolute cwd (ofPlace p) = ofPlace p := by
  rw [absolute_eq (isAbsolute_ofPlace p), names_ofPlace h]

theorem target_ofPlace {p : Place} (h : PlainPlace p) (cwd : Text) :
    target cwd (ofPlace p) = p := by
  rw [target_eq_names (isAbsolute_ofPlace p), names_ofPlace h]

theorem place_absolute {cwd : Text} (h : isAbsolute cwd = true) (path : Text) :
    place (absolute cwd path) = target cwd path := by
  unfold absolute
  split
  · rename_i habs
    rw [place, names_clean habs, target_eq_names habs]
  · rename_i habs
    rw [place, names_join h, target, start, if_neg habs]
    simp [place]

theorem bne_slash {name : Text} (h : slash ∉ name) : ∀ b ∈ name.reverse, (b != slash) = true := by
  intro b hb
  rw [bne_iff_ne]
  rintro rfl
  exact h (List.mem_reverse.mp hb)

theorem ofPlace_concat {p : Place} (h : p ≠ []) (name : Text) :
    ofPlace (p ++ [name]) = ofPlace p ++ slash :: name := by
  rw [ofPlace, Text.join_concat _ h]
  simp only [ofPlace, List.append_assoc, List.cons_append]
  rfl

/-- The directory of a path is the place above its own. -/
theorem dir_ofPlace {p : Place} (hp : PlainPlace p) {name : Text} (hn : Plain name) :
    dir (ofPlace (p ++ [name])) = ofPlace p := by
  have hdrop : ∀ front : Text,
      ((front ++ slash :: name).reverse.dropWhile (· != slash)).reverse = front ++ [slash] := by
    intro front
    rw [List.reverse_append, List.reverse_cons, List.append_assoc,
      List.dropWhile_append_of_pos (bne_slash hn.not_mem)]
    simp
  match p with
  | [] =>
    show clean ((([] ++ slash :: name).reverse.dropWhile (· != slash)).reverse) = _
    rw [hdrop]
    rfl
  | n :: p =>
    have hslash : isAbsolute (ofPlace (n :: p) ++ [slash]) = true := rfl
    rw [dir, ofPlace_concat (List.cons_ne_nil n p), hdrop, clean_eq hslash, names_eq hslash,
      Text.split_append, List.foldl_append, ← names_eq (isAbsolute_ofPlace _), names_ofPlace hp]
    rfl

end Path

end Borealis
