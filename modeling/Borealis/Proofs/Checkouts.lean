-- What a checksum tells about a checkout. The names and contents of its files
-- are digested one after the other, with nothing between them, so that bytes
-- can go over from a name to a content without a trace. If the lengths of the
-- names and contents are kept, of all files or of all but one, or if files
-- are only added or only taken away, the checksum tells.
import Borealis.Lockfile
import Borealis.Proofs.FileTrees
import Borealis.Proofs.Tables
import Mathlib.Algebra.BigOperators.Group.Finset.Basic
import Mathlib.Algebra.Order.BigOperators.Group.Finset
import Mathlib.Data.List.Perm.Lattice

namespace Borealis

/-! ## Digits -/

namespace Text

theorem hexValue?_hexDigit {n : Nat} (h : n < 16) : hexValue? (hexDigit n) = some n := by
  have hall : ∀ m : Fin 16, hexValue? (hexDigit m) = some m.val := by decide
  exact hall ⟨n, h⟩

theorem ofHex?_hex (t : Text) : ofHex? t.hex = some t := by
  induction t with
  | nil => rfl
  | cons b t ih =>
    have hlt := b.toNat_lt
    have hhi : hexValue? (hexDigit (b.toNat / 16 % 16)) = some (b.toNat / 16) := by
      rw [Nat.mod_eq_of_lt (by omega)]
      exact hexValue?_hexDigit (by omega)
    have hlo : hexValue? (hexDigit (b.toNat % 16)) = some (b.toNat % 16) :=
      hexValue?_hexDigit (by omega)
    show ofHex? (hexDigit (b.toNat / 16 % 16) :: hexDigit (b.toNat % 16) :: hex t) = _
    rw [ofHex?, hhi, hlo, ih]
    show some (UInt8.ofNat (16 * (b.toNat / 16) + b.toNat % 16) :: t) = _
    rw [Nat.div_add_mod, UInt8.ofNat_toNat]

theorem hex_injective {t u : Text} (h : t.hex = u.hex) : t = u := by
  have h' := ofHex?_hex t
  rw [h, ofHex?_hex u] at h'
  exact (Option.some.inj h').symm

end Text

namespace FileTree

variable {t : FileTree}

/-! ## Trees as they are on a disk -/

/-- Every place stands in the tree once, and its names are names that files can have. -/
structure Proper (t : FileTree) : Prop where
  once : (t.entries.map Prod.fst).Nodup
  root : ∀ e ∈ t.entries, e.1 ≠ []
  plain : ∀ e ∈ t.entries, Path.PlainPlace e.1

theorem Proper.get?_eq_some_iff (h : t.Proper) {p : Place} {content : Text} :
    t.get? p = some (.file content) ↔ (p, Entry.file content) ∈ t.entries := by
  unfold get?
  split
  · rename_i hp
    simp only [Option.some.injEq, reduceCtorEq, false_iff]
    exact fun hmem => h.root _ hmem hp
  · exact lookup_eq_some_iff_mem h.once

/-- The content of the file at a place. -/
def content? (t : FileTree) (p : Place) : Option Text :=
  match t.get? p with
  | some (.file content) => some content
  | _ => none

theorem content?_eq_some_iff {p : Place} {content : Text} :
    t.content? p = some content ↔ t.get? p = some (.file content) := by
  unfold content?
  split
  · rename_i c h
    simp [h]
  · rename_i h
    exact ⟨nofun, fun hc => (h content hc).elim⟩

theorem mem_filesBelow (h : t.Proper) {p names : Place} {content : Text} :
    (names, content) ∈ t.filesBelow p ↔ t.get? (p ++ names) = some (.file content) := by
  rw [h.get?_eq_some_iff, filesBelow, List.mem_mergeSort, List.mem_filterMap]
  constructor
  · rintro ⟨⟨q, e⟩, hmem, hq⟩
    match e with
    | .dir => cases hq
    | .file c =>
      simp only [Option.ite_none_right_eq_some, Option.some.injEq, Prod.mk.injEq,
        List.isPrefixOf_iff_prefix] at hq
      obtain ⟨⟨rest, rfl⟩, hnames, rfl⟩ := hq
      rw [List.drop_left] at hnames
      rwa [← hnames]
  · intro hmem
    refine ⟨_, hmem, ?_⟩
    simp [List.isPrefixOf_iff_prefix.mpr (List.prefix_append p names)]

theorem nodup_filesBelow (h : t.Proper) (p : Place) : ((t.filesBelow p).map Prod.fst).Nodup := by
  unfold filesBelow
  refine ((List.mergeSort_perm _ _).map Prod.fst).nodup_iff.mpr ?_
  rw [List.Nodup, List.pairwise_map, List.pairwise_filterMap]
  refine (List.pairwise_map.mp h.once).imp ?_
  rintro ⟨q, e⟩ ⟨q', e'⟩ hne f hf f' hf' heq
  cases e with
  | dir => cases hf
  | file c =>
    cases e' with
    | dir => cases hf'
    | file c' =>
      simp only [Option.ite_none_right_eq_some, Option.some.injEq,
        List.isPrefixOf_iff_prefix] at hf hf'
      obtain ⟨⟨rest, rfl⟩, rfl⟩ := hf
      obtain ⟨⟨rest', rfl⟩, rfl⟩ := hf'
      simp only [List.drop_left] at heq
      exact hne (by rw [heq])

theorem sorted_filesBelow (t : FileTree) (p : Place) :
    ((t.filesBelow p).map Prod.fst).Pairwise (· ≤ ·) := by
  rw [List.pairwise_map]
  unfold filesBelow
  refine (List.pairwise_mergeSort ?_ ?_ _).imp ?_
  · intro a b c hab hbc
    simp only [placeLe, decide_eq_true_eq] at hab hbc ⊢
    exact List.le_trans hab hbc
  · intro a b
    simp only [placeLe, Bool.or_eq_true, decide_eq_true_eq]
    exact List.le_total _ _
  · intro a b hab
    simpa only [placeLe, decide_eq_true_eq] using hab

end FileTree

namespace Checksum

/-! ## What counts -/

/-- The files that count below a place, as contents by name. -/
def contents (t : FileTree) (p names : Place) : Option Text :=
  if counts names then t.content? (p ++ names) else none

variable {t t' : FileTree} {p p' : Place}

theorem mem_filesOf (h : t.Proper) {names : Place} {content : Text} :
    (names, content) ∈ filesOf t p ↔ contents t p names = some content := by
  rw [filesOf, List.mem_filter, FileTree.mem_filesBelow h, contents,
    Option.ite_none_right_eq_some, FileTree.content?_eq_some_iff, and_comm]

theorem mem_names_filesOf (h : t.Proper) {names : Place} :
    names ∈ (filesOf t p).map Prod.fst ↔ (contents t p names).isSome := by
  rw [List.mem_map, Option.isSome_iff_exists]
  constructor
  · rintro ⟨⟨_, content⟩, hmem, rfl⟩
    exact ⟨content, (mem_filesOf h).mp hmem⟩
  · rintro ⟨content, hc⟩
    exact ⟨(names, content), (mem_filesOf h).mpr hc, rfl⟩

theorem nodup_filesOf (h : t.Proper) (p : Place) : ((filesOf t p).map Prod.fst).Nodup :=
  (FileTree.nodup_filesBelow h p).sublist (List.filter_sublist.map Prod.fst)

theorem sorted_filesOf (t : FileTree) (p : Place) :
    ((filesOf t p).map Prod.fst).Pairwise (· ≤ ·) :=
  (FileTree.sorted_filesBelow t p).sublist (List.filter_sublist.map Prod.fst)

theorem plain_filesOf (h : t.Proper) {f : Place × Text} (hf : f ∈ filesOf t p) :
    Path.PlainPlace f.1 := by
  have hget := (FileTree.mem_filesBelow h).mp (List.mem_filter.mp hf).1
  have hplain := h.plain _ (h.get?_eq_some_iff.mp hget)
  exact fun n hn => hplain n (List.mem_append_right p hn)

/-! ## Reading a digest back -/

/-- The lengths of a name and of the content. -/
def extent (f : Place × Text) : Nat × Nat := ((Text.join "/" f.1).length, f.2.length)

theorem join_injective {a b : Place} (ha : Path.PlainPlace a) (hb : Path.PlainPlace b)
    (h : Text.join "/" a = Text.join "/" b) : a = b := by
  have hplace : Path.ofPlace a = Path.ofPlace b := by rw [Path.ofPlace, Path.ofPlace, h]
  rw [← Path.names_ofPlace ha, ← Path.names_ofPlace hb, hplace]

theorem eq_of_extents {f f' : List (Place × Text)} (hf : ∀ x ∈ f, Path.PlainPlace x.1)
    (hf' : ∀ x ∈ f', Path.PlainPlace x.1) (hext : f.map extent = f'.map extent)
    (h : digested f = digested f') : f = f' := by
  induction f generalizing f' with
  | nil => exact (List.map_eq_nil_iff.mp hext.symm).symm
  | cons x f ih =>
    match f' with
    | [] => cases hext
    | y :: f' =>
      rw [List.forall_mem_cons] at hf hf'
      simp only [List.map_cons, List.cons.injEq, extent, Prod.mk.injEq] at hext
      obtain ⟨⟨hname, hcontent⟩, hrest⟩ := hext
      simp only [digested, List.flatMap_cons, List.append_assoc] at h
      obtain ⟨hname, h⟩ := List.append_inj h hname
      obtain ⟨hcontent, h⟩ := List.append_inj h hcontent
      rw [ih hf.2 hf'.2 hrest h, Prod.ext (join_injective hf.1 hf'.1 hname) hcontent]

/-- The bytes that a name and its content make up. -/
def size (g : Place → Option Text) (names : Place) : Nat :=
  (g names).elim 0 fun content => (Text.join "/" names).length + content.length

theorem length_digested (h : t.Proper) {s : Finset Place}
    (hs : ∀ names ∈ (filesOf t p).map Prod.fst, names ∈ s) :
    (digested (filesOf t p)).length = ∑ names ∈ s, size (contents t p) names := by
  have hsize : ∀ f ∈ filesOf t p,
      (Text.join "/" f.1 ++ f.2).length = size (contents t p) f.1 := by
    intro f hf
    rw [size, (mem_filesOf h).mp hf, List.length_append]
    rfl
  have hnone : ∀ names ∈ s, names ∉ ((filesOf t p).map Prod.fst).toFinset →
      size (contents t p) names = 0 := by
    intro names _ hnot
    rw [List.mem_toFinset, mem_names_filesOf h, Option.not_isSome_iff_eq_none] at hnot
    rw [size, hnot]
    rfl
  have hsub : ((filesOf t p).map Prod.fst).toFinset ⊆ s :=
    fun names hn => hs names (List.mem_toFinset.mp hn)
  rw [← Finset.sum_subset hsub hnone, List.sum_toFinset _ (nodup_filesOf h p), List.map_map,
    digested, List.length_flatMap]
  exact congrArg List.sum (List.map_congr_left hsize)

theorem contents_eq_of_extents (h : t.Proper) (h' : t'.Proper)
    (hext : (filesOf t p).map extent = (filesOf t' p').map extent)
    (hbytes : digested (filesOf t p) = digested (filesOf t' p')) :
    contents t p = contents t' p' := by
  have hfiles := eq_of_extents (fun _ => plain_filesOf h) (fun _ => plain_filesOf h') hext hbytes
  funext names
  refine Option.ext fun content => ?_
  rw [← mem_filesOf h, hfiles, mem_filesOf h']

theorem length_join_pos {names : Place} (hp : Path.PlainPlace names) (hne : names ≠ []) :
    0 < (Text.join "/" names).length := by
  refine List.length_pos_iff.mpr fun h => hne ?_
  exact join_injective hp (by simp [Path.PlainPlace]) h

/-- Below a directory every file has a name, so it makes up some bytes. -/
theorem isSome_iff_size (h : t.Proper) (hp : t.get? p = some .dir) {names : Place} :
    (contents t p names).isSome ↔ 0 < size (contents t p) names := by
  constructor
  · intro hsome
    obtain ⟨content, hc⟩ := Option.isSome_iff_exists.mp hsome
    have hplain := plain_filesOf h ((mem_filesOf h).mpr hc)
    have hne : names ≠ [] := by
      rintro rfl
      rw [contents, if_pos (by decide), FileTree.content?_eq_some_iff, List.append_nil, hp] at hc
      cases hc
    have hpos := length_join_pos hplain hne
    rw [size, hc]
    exact Nat.add_pos_left hpos _
  · intro hsize
    by_contra hnone
    rw [Option.not_isSome_iff_eq_none] at hnone
    rw [size, hnone] at hsize
    exact Nat.lt_irrefl 0 hsize

theorem map_extent (h : t.Proper) (p : Place) :
    (filesOf t p).map extent = ((filesOf t p).map Prod.fst).map fun names =>
      ((Text.join "/" names).length,
        size (contents t p) names - (Text.join "/" names).length) := by
  rw [List.map_map]
  refine List.map_congr_left fun f hf => ?_
  simp only [Function.comp, extent, size, (mem_filesOf h).mp hf, Option.elim]
  rw [Nat.add_sub_cancel_left]

/-- If every name makes up as many bytes in both, the walks pass the same names. -/
theorem contents_eq_of_size (h : t.Proper) (h' : t'.Proper) (hp : t.get? p = some .dir)
    (hp' : t'.get? p' = some .dir)
    (hsize : size (contents t p) = size (contents t' p'))
    (hbytes : digested (filesOf t p) = digested (filesOf t' p')) :
    contents t p = contents t' p' := by
  have hperm : ((filesOf t p).map Prod.fst).Perm ((filesOf t' p').map Prod.fst) := by
    have hnodup := nodup_filesOf h p
    refine (List.perm_ext_iff_of_nodup hnodup (nodup_filesOf h' p')).mpr fun names => ?_
    rw [mem_names_filesOf h, mem_names_filesOf h', isSome_iff_size h hp, isSome_iff_size h' hp',
      hsize]
  have hnames := hperm.eq_of_pairwise (fun _ _ _ _ => List.le_antisymm) (sorted_filesOf t p)
    (sorted_filesOf t' p')
  refine contents_eq_of_extents h h' ?_ hbytes
  rw [map_extent h, map_extent h', hnames, hsize]

theorem sum_size (h : t.Proper) (h' : t'.Proper)
    (hbytes : digested (filesOf t p) = digested (filesOf t' p')) :
    ∃ s : Finset Place, ∑ names ∈ s, size (contents t p) names =
        ∑ names ∈ s, size (contents t' p') names ∧
      ∀ names ∉ s, contents t p names = none ∧ contents t' p' names = none := by
  refine ⟨((filesOf t p).map Prod.fst ++ (filesOf t' p').map Prod.fst).toFinset, ?_, ?_⟩
  · rw [← length_digested h, ← length_digested h', hbytes]
    · exact fun names hn => List.mem_toFinset.mpr (List.mem_append_right _ hn)
    · exact fun names hn => List.mem_toFinset.mpr (List.mem_append_left _ hn)
  · intro names hnot
    rw [List.mem_toFinset, List.mem_append, not_or, mem_names_filesOf h, mem_names_filesOf h',
      Option.not_isSome_iff_eq_none, Option.not_isSome_iff_eq_none] at hnot
    exact hnot

/-- If all files are still there, none is new. -/
theorem contents_eq_of_le (h : t.Proper) (h' : t'.Proper) (hp : t.get? p = some .dir)
    (hp' : t'.get? p' = some .dir)
    (hle : ∀ names content, contents t p names = some content →
      contents t' p' names = some content)
    (hbytes : digested (filesOf t p) = digested (filesOf t' p')) :
    contents t p = contents t' p' := by
  obtain ⟨s, hsum, hout⟩ := sum_size h h' hbytes
  have hsize : ∀ names ∈ s, size (contents t p) names ≤ size (contents t' p') names := by
    intro names _
    match hc : contents t p names with
    | none =>
      rw [size, hc]
      exact Nat.zero_le _
    | some content => rw [size, size, hc, hle names content hc]
  refine contents_eq_of_size h h' hp hp' (funext fun names => ?_) hbytes
  by_cases hn : names ∈ s
  · exact (Finset.sum_eq_sum_iff_of_le hsize).mp hsum names hn
  · rw [size, size, (hout names hn).1, (hout names hn).2]

/-- If all files but one have the length they had, so has that one. -/
theorem contents_eq_of_lengths (h : t.Proper) (h' : t'.Proper) (hp : t.get? p = some .dir)
    (hp' : t'.get? p' = some .dir) (one : Place)
    (hlen : ∀ names ≠ one,
      (contents t p names).map List.length = (contents t' p' names).map List.length)
    (hbytes : digested (filesOf t p) = digested (filesOf t' p')) :
    contents t p = contents t' p' := by
  obtain ⟨s, hsum, hout⟩ := sum_size h h' hbytes
  have hsize : ∀ names ≠ one, size (contents t p) names = size (contents t' p') names := by
    intro names hne
    have hl := hlen names hne
    unfold size
    match hc : contents t p names, hc' : contents t' p' names with
    | none, none => rfl
    | some c, some c' =>
      rw [hc, hc'] at hl
      simp only [Option.map_some, Option.some.injEq] at hl
      simp only [Option.elim, hl]
    | none, some _ => simp [hc, hc'] at hl
    | some _, none => simp [hc, hc'] at hl
  refine contents_eq_of_size h h' hp hp' (funext fun names => ?_) hbytes
  by_cases hne : names = one
  · subst hne
    by_cases hn : names ∈ s
    · rw [← Finset.add_sum_erase s _ hn, ← Finset.add_sum_erase s _ hn,
        Finset.sum_congr rfl fun n hn => hsize n (Finset.ne_of_mem_erase hn)] at hsum
      exact Nat.add_right_cancel hsum
    · rw [size, size, (hout names hn).1, (hout names hn).2]
  · exact hsize names hne

end Checksum

namespace LockedPackage

/-! ## Locked checkouts -/

theorem ofPath_dir {t : FileTree} {cwd path : Text} {d : Place}
    (hbase : Path.base path ≠ Checksum.historyName)
    (hdir : t.inspect .inspecting cwd path = .ok (d, .dir)) :
    Checksum.ofPath t cwd path
      = .ok (Checksum.ofBytes (Checksum.digested (Checksum.filesOf t d))) := by
  have hfind := FileTree.inspect_eq_ok hdir
  simp only [Checksum.ofPath, FileTree.inspect, hfind, if_neg hbase]

theorem verify_eq_ok_iff {h : Host} {p : LockedPackage} (hgit : p.isGit = true)
    (hsum : p.checksum ≠ []) {sum : Text}
    (hpath : Checksum.ofPath h.files h.cwd p.path = .ok sum) :
    p.verify h = .ok () ↔ sum = p.checksum := by
  have hne : p.checksum.isEmpty = false := List.isEmpty_eq_false_iff.mpr hsum
  unfold verify
  simp only [hgit, hne, hpath]
  by_cases heq : sum = p.checksum
  · simp [heq]
  · simp [heq]

theorem ofBytes_ne_nil (bytes : Text) : Checksum.ofBytes bytes ≠ [] :=
  List.append_ne_nil_of_left_ne_nil (by decide) _

/-- A checkout that was locked is taken for the same one exactly if its files make up the same
bytes. Then it is the same, if the lengths of names and contents are known, or of the contents of
all files but one, or if all that was there is there, or if all that is there was. -/
theorem verified_checkout {h h' : Host} {p : LockedPackage} {d d' : Place}
    (hgit : p.isGit = true) (hbase : Path.base p.path ≠ Checksum.historyName)
    (hproper : h.files.Proper) (hproper' : h'.files.Proper)
    (hdir : h.inspect p.path = .ok (d, .dir)) (hdir' : h'.inspect p.path = .ok (d', .dir))
    (hlocked : Checksum.ofPath h.files h.cwd p.path = .ok p.checksum)
    (hdigest : Sha256.digest (Checksum.digested (Checksum.filesOf h'.files d'))
        = Sha256.digest (Checksum.digested (Checksum.filesOf h.files d)) →
      Checksum.digested (Checksum.filesOf h'.files d')
        = Checksum.digested (Checksum.filesOf h.files d)) :
    (p.verify h' = .ok () ↔ Checksum.digested (Checksum.filesOf h'.files d')
        = Checksum.digested (Checksum.filesOf h.files d)) ∧
      (p.verify h' = .ok () →
        ((Checksum.filesOf h'.files d').map Checksum.extent
              = (Checksum.filesOf h.files d).map Checksum.extent ∨
          (∃ one, ∀ names ≠ one, (Checksum.contents h'.files d' names).map List.length
              = (Checksum.contents h.files d names).map List.length) ∨
          (∀ names content, Checksum.contents h.files d names = some content →
            Checksum.contents h'.files d' names = some content) ∨
          (∀ names content, Checksum.contents h'.files d' names = some content →
            Checksum.contents h.files d names = some content)) →
        Checksum.contents h'.files d' = Checksum.contents h.files d) := by
  have hsum : p.checksum
      = Checksum.ofBytes (Checksum.digested (Checksum.filesOf h.files d)) := by
    rw [ofPath_dir hbase hdir] at hlocked
    exact (Except.ok.inj hlocked).symm
  have hverify : p.verify h' = .ok () ↔ Checksum.digested (Checksum.filesOf h'.files d')
      = Checksum.digested (Checksum.filesOf h.files d) := by
    rw [verify_eq_ok_iff hgit (hsum ▸ ofBytes_ne_nil _) (ofPath_dir hbase hdir'), hsum]
    constructor
    · intro heq
      exact hdigest (Text.hex_injective (List.append_cancel_left heq))
    · intro heq
      rw [heq]
  refine ⟨hverify, fun hok hsame => ?_⟩
  have hbytes := hverify.mp hok
  have hd := (FileTree.find_eq_ok (FileTree.inspect_eq_ok hdir)).2.2
  have hd' := (FileTree.find_eq_ok (FileTree.inspect_eq_ok hdir')).2.2
  rcases hsame with hext | ⟨one, hlen⟩ | hle | hle
  · exact Checksum.contents_eq_of_extents hproper' hproper hext hbytes
  · exact Checksum.contents_eq_of_lengths hproper' hproper hd' hd one hlen hbytes
  · exact (Checksum.contents_eq_of_le hproper hproper' hd hd' hle hbytes.symm).symm
  · exact Checksum.contents_eq_of_le hproper' hproper hd' hd hle hbytes

/-- A machine with a checkout of one file. -/
def oneFile (name content : Text) : Host :=
  ⟨⟨[(["p"], .dir), (["p", name], .file content)]⟩, "/", [], [], []⟩

theorem filesOf_oneFile (name content : Text) :
    Checksum.filesOf (oneFile name content).files ["p"] = [([name], content)] := by
  simp [Checksum.filesOf, FileTree.filesBelow, oneFile, Checksum.counts]

theorem ofPath_oneFile (name content : Text) :
    Checksum.ofPath (oneFile name content).files "/" "/p"
      = .ok (Checksum.ofBytes (name ++ content)) := by
  have hdir : (oneFile name content).files.inspect .inspecting "/" "/p" = .ok (["p"], .dir) := rfl
  rw [ofPath_dir (by decide) hdir, filesOf_oneFile]
  simp [Checksum.digested, Text.join]

/-- A package that was locked with the file `a` and the content `bc`. -/
def lockedFile : LockedPackage := ⟨"lib", "v1@c", "git+u@c", "/p", Checksum.ofBytes "abc"⟩

/-- Another content of the file is noticed. -/
theorem verify_edited_file : lockedFile.verify (oneFile "a" "bd") ≠ .ok () := by
  have hbefore := filesOf_oneFile "a" "bc"
  have hafter := filesOf_oneFile "a" "bd"
  have hproper : ∀ content, (oneFile "a" content).files.Proper := by
    intro content
    refine ⟨by simp [oneFile], by simp [oneFile], ?_⟩
    simp only [oneFile, List.forall_mem_cons]
    exact ⟨by decide, by decide, by simp⟩
  have hdir : ∀ content, (oneFile "a" content).inspect "/p" = .ok (["p"], .dir) := fun _ => rfl
  intro hok
  have hbytes := (verified_checkout (p := lockedFile) rfl (by decide) (hproper "bc")
    (hproper "bd") (hdir "bc") (hdir "bd") (ofPath_oneFile "a" "bc") (by
      rw [hbefore, hafter]
      exact fun heq => absurd heq (by decide +kernel))).1.mp hok
  rw [hbefore, hafter] at hbytes
  exact absurd hbytes (by decide)

/-- A byte that goes over from the content of the file to its name is not noticed. -/
theorem verify_moved_byte :
    Checksum.contents (oneFile "ab" "c").files ["p"]
        ≠ Checksum.contents (oneFile "a" "bc").files ["p"] ∧
      Checksum.digested (Checksum.filesOf (oneFile "ab" "c").files ["p"])
        = Checksum.digested (Checksum.filesOf (oneFile "a" "bc").files ["p"]) ∧
      lockedFile.verify (oneFile "a" "bc") = .ok () ∧
      lockedFile.verify (oneFile "ab" "c") = .ok () := by
  refine ⟨fun heq => ?_, ?_, ?_, ?_⟩
  · exact absurd (congrFun heq ["a"]) (by decide)
  · rw [filesOf_oneFile, filesOf_oneFile]
    rfl
  · exact (verify_eq_ok_iff rfl (ofBytes_ne_nil _) (ofPath_oneFile "a" "bc")).mpr rfl
  · exact (verify_eq_ok_iff rfl (ofBytes_ne_nil _) (ofPath_oneFile "ab" "c")).mpr rfl

end LockedPackage

end Borealis
