import RuneSolver.Disk.Path
import RuneSolver.Proofs.Text.Trim

/-!
The components of paths. A part that is appended to a path is one component more, and the name that
a path ends in can be exchanged for another one in its text. Main statement: an extension is put
into the place of whatever follows the last point of this name, unless that is the point that the
name starts with.
-/

namespace RuneSolver.Path

variable {path base part name other stem extension : List Char}

/-! ### Components -/

/-- The pieces of a path that are components wherever they stand. -/
def pieces (path : List Char) : List (List Char) :=
  (path.splitOn '/').filter fun piece => !piece.isEmpty && piece != ['.']

/-- A path that does not start with a slash starts where its first piece says. -/
lemma origin_cons {c : Char} {cs : List Char} (rest : List (List Char)) :
    origin ((c :: cs) :: rest) = if c :: cs = ['.'] then [['.']] else [] := by
  rw [origin.eq_def]
  split
  · next heq => cases heq
  · next heq =>
    cases heq
    rfl
  · next hne =>
    rw [if_neg fun heq => hne _ (by rw [heq])]

/-- What follows a slash has no part in where the path starts. -/
lemma components_append (base part : List Char) :
    components (base ++ '/' :: part) = components (base ++ ['/']) ++ pieces part := by
  have horigin : origin (base.splitOn '/' ++ part.splitOn '/') =
      origin (base.splitOn '/' ++ [[]]) := by
    obtain ⟨first, hfirst⟩ := List.exists_cons_of_ne_nil (List.splitOn_ne_nil '/' base)
    obtain ⟨rest, hrest⟩ := hfirst
    obtain ⟨next, others, hnext⟩ := List.exists_cons_of_ne_nil (List.splitOn_ne_nil '/' part)
    rw [hrest, hnext]
    cases first with
    | nil => cases rest <;> rfl
    | cons c cs => rw [List.cons_append, List.cons_append, origin_cons, origin_cons]
  rw [components, components, pieces, List.splitOn_append_cons_self,
    List.splitOn_append_cons_self, List.splitOn_nil, horigin]
  simp

/-- A slash at the end of a path adds nothing to it. -/
lemma components_append_slash (hbase : base ≠ []) :
    components (base ++ ['/']) = components base := by
  have horigin : origin (base.splitOn '/' ++ [[]]) = origin (base.splitOn '/') := by
    have hjoin : ['/'].intercalate (base.splitOn '/') = base := List.intercalate_splitOn '/'
    rcases hsplit : base.splitOn '/' with _ | ⟨first, _ | ⟨second, rest⟩⟩
    · exact absurd hsplit (List.splitOn_ne_nil '/' base)
    · rw [hsplit] at hjoin
      cases first with
      | nil => exact absurd hjoin.symm hbase
      | cons c cs => rw [List.cons_append, origin_cons, origin_cons]
    · cases first with
      | nil => rfl
      | cons c cs => rw [List.cons_append, origin_cons, origin_cons]
  rw [components, components, List.splitOn_append_cons_self, List.splitOn_nil, horigin]
  simp

/-- A part without a slash that is neither empty nor a single point. -/
structure IsPiece (part : List Char) : Prop where
  noSlash : '/' ∉ part
  ne_nil : part ≠ []
  ne_here : part ≠ ['.']

/-- What a file or a directory can be called inside of another one. -/
structure IsName (name : List Char) : Prop extends IsPiece name where
  ne_parent : name ≠ ['.', '.']

instance (name : List Char) : Decidable (IsName name) :=
  decidable_of_iff (('/' ∉ name ∧ name ≠ [] ∧ name ≠ ['.']) ∧ name ≠ ['.', '.'])
    ⟨fun h => ⟨⟨h.1.1, h.1.2.1, h.1.2.2⟩, h.2⟩, fun h => ⟨⟨h.1.1, h.1.2, h.1.3⟩, h.2⟩⟩

lemma IsPiece.pieces_eq (h : IsPiece part) : pieces part = [part] := by
  rw [pieces, List.splitOn_eq_singleton h.noSlash]
  simp [h.ne_nil, h.ne_here]

lemma IsPiece.components_eq (h : IsPiece part) : components part = [part] := by
  have horigin : origin [part] = [] := by
    obtain ⟨c, cs, rfl⟩ := List.exists_cons_of_ne_nil h.ne_nil
    rw [origin_cons, if_neg h.ne_here]
  have hpieces := h.pieces_eq
  rw [pieces, List.splitOn_eq_singleton h.noSlash] at hpieces
  rw [components, List.splitOn_eq_singleton h.noSlash, horigin]
  exact hpieces

/-! ### Parts that are appended -/

lemma push_ne_empty {base : String} (hbase : base ≠ "") (part : String) : push base part ≠ "" := by
  have hne : base.toList ≠ [] := fun hnil => hbase (String.toList_injective hnil)
  intro hpush
  rw [push] at hpush
  split at hpush
  · next hslash =>
    rw [hpush] at hslash
    cases hslash
  · split at hpush
    · exact hne (List.append_eq_nil_iff.mp (by rw [← String.toList_append, hpush]; rfl)).1
    · have hnil : (base ++ "/").toList ++ part.toList = [] := by
        rw [← String.toList_append, hpush]
        rfl
      rw [List.append_eq_nil_iff, String.toList_append, List.append_eq_nil_iff] at hnil
      exact hne hnil.1.1

/-- A part that is appended comes behind the components of the path. -/
lemma components_push {base part : String} (hbase : base ≠ "") (hpart : '/' ∉ part.toList) :
    components (push base part).toList = components base.toList ++ pieces part.toList := by
  have hne : base.toList ≠ [] := fun hnil => hbase (String.toList_injective hnil)
  have hhead : (part.toList.head? == some '/') = false := by
    refine beq_eq_false_iff_ne.mpr fun hslash => hpart ?_
    obtain ⟨rest, hrest⟩ := List.head?_eq_some_iff.mp hslash
    rw [hrest]
    exact List.mem_cons_self
  have hempty : base.isEmpty = false := by
    simpa [String.isEmpty_eq_false_iff] using hbase
  rw [push, hhead, hempty]
  by_cases hslash : base.toList.getLast? = some '/'
  · obtain ⟨front, hfront⟩ := List.getLast?_eq_some_iff.mp hslash
    simp only [hslash, beq_self_eq_true, Bool.or_true, Bool.false_eq_true, if_false, if_true]
    rw [String.toList_append, hfront, List.append_assoc, List.singleton_append, components_append]
  · have hlast : (base.toList.getLast? == some '/') = false := beq_eq_false_iff_ne.mpr hslash
    have htext : (base ++ "/" ++ part).toList = base.toList ++ '/' :: part.toList := by
      rw [String.toList_append, String.toList_append, List.append_assoc]
      rfl
    simp only [hlast, Bool.or_false, Bool.false_eq_true, if_false]
    rw [htext, components_append, components_append_slash hne]

/-- A file inside of a directory is called as the part that leads to it. -/
lemma components_push_name {base part : String} (hbase : base ≠ "") (h : IsName part.toList) :
    components (push base part).toList = components base.toList ++ [part.toList] := by
  rw [components_push hbase h.noSlash, h.pieces_eq]

lemma IsName.of_getLast {path name : List Char} (h : (components path).getLast? = some name)
    (hname : IsName name) : fileName? path = some name := by
  have hslash : name ≠ ['/'] := fun heq => hname.noSlash (heq ▸ List.mem_singleton_self _)
  rw [fileName?, h]
  simp only
  rw [if_neg]
  rintro (heq | heq | heq)
  · exact hslash heq
  · exact hname.ne_here heq
  · exact hname.ne_parent heq

/-! ### The name that a path ends in -/

lemma fileName?_eq_some {path name : List Char} (h : fileName? path = some name) :
    (components path).getLast? = some name ∧ name ≠ ['/'] ∧ name ≠ ['.'] ∧ name ≠ ['.', '.'] := by
  rw [fileName?] at h
  split at h
  · cases h
  next last hlast =>
  split at h
  · cases h
  next hname =>
  cases h
  exact ⟨hlast, fun heq => hname (.inl heq), fun heq => hname (.inr (.inl heq)),
    fun heq => hname (.inr (.inr heq))⟩

/-- What is dropped at the end of a path are slashes and points. -/
lemma exists_dropEmptyEnd (cs : List Char) :
    ∃ after, cs = after ++ dropEmptyEnd cs ∧ ∀ c ∈ after, c = '/' ∨ c = '.' := by
  fun_induction dropEmptyEnd cs with
  | case1 cs ih =>
    obtain ⟨after, hafter, hchars⟩ := ih
    refine ⟨'/' :: after, by rw [List.cons_append, ← hafter], ?_⟩
    exact List.forall_mem_cons.mpr ⟨.inl rfl, hchars⟩
  | case2 cs ih =>
    obtain ⟨after, hafter, hchars⟩ := ih
    refine ⟨'.' :: '/' :: after, by rw [List.cons_append, List.cons_append, ← hafter], ?_⟩
    exact List.forall_mem_cons.mpr ⟨.inr rfl, List.forall_mem_cons.mpr ⟨.inl rfl, hchars⟩⟩
  | case3 cs => exact ⟨[], rfl, nofun⟩

/-- Nothing more can be dropped afterwards. -/
lemma dropEmptyEnd_ne (cs rest : List Char) :
    dropEmptyEnd cs ≠ '/' :: rest ∧ dropEmptyEnd cs ≠ '.' :: '/' :: rest := by
  fun_induction dropEmptyEnd cs with
  | case1 cs ih => exact ih
  | case2 cs ih => exact ih
  | case3 cs hslash hpoint => exact ⟨hslash rest, hpoint rest⟩

/-- What follows the last slash of a path that ends in a name can be left out, if it is no
component. -/
lemma components_of_pieces_eq_nil (hpart : pieces part = [])
    (h : fileName? (base ++ '/' :: part) = some name) :
    components (base ++ '/' :: part) = components base := by
  have hne : base ≠ [] := by
    rintro rfl
    have hroot : components ['/'] = [['/']] := by decide
    have hname := fileName?_eq_some h
    rw [components_append, List.nil_append, hroot, hpart] at hname
    exact hname.2.1 (Option.some.inj hname.1).symm
  rw [components_append, components_append_slash hne, hpart, List.append_nil]

lemma components_dropEmptyEnd {cs : List Char} (h : fileName? cs.reverse = some name) :
    components (dropEmptyEnd cs).reverse = components cs.reverse := by
  fun_induction dropEmptyEnd cs with
  | case1 cs ih =>
    rw [List.reverse_cons] at h ⊢
    have hsame := components_of_pieces_eq_nil (by decide) h
    rw [hsame, ih (by rwa [fileName?, hsame] at h)]
  | case2 cs ih =>
    have hreverse : ('.' :: '/' :: cs).reverse = cs.reverse ++ '/' :: ['.'] := by simp
    rw [hreverse] at h ⊢
    have hsame := components_of_pieces_eq_nil (by decide) h
    rw [hsame, ih (by rwa [fileName?, hsame] at h)]
  | case3 cs => rfl

lemma exists_last_slash (path : List Char) :
    '/' ∉ path ∨ ∃ base last, path = base ++ '/' :: last ∧ '/' ∉ last := by
  by_cases hslash : '/' ∈ path.reverse
  · obtain ⟨last, base, hpath, hlast⟩ := List.eq_append_cons_of_mem hslash
    refine .inr ⟨base.reverse, last.reverse, ?_, by simpa using hlast⟩
    rw [← List.reverse_reverse path, hpath]
    simp
  · exact .inl (by simpa using hslash)

/-- A path without empty ends is one piece, or it has its last piece behind a slash. This piece is
the name that it ends in. -/
lemma exists_append_of_fileName?
    (hends : ∀ rest, path.reverse ≠ '/' :: rest ∧ path.reverse ≠ '.' :: '/' :: rest)
    (h : fileName? path = some name) :
    ∃ before, path = before ++ name ∧ IsName name ∧
      ∀ other, IsPiece other →
        components (before ++ other) = (components path).dropLast ++ [other] := by
  obtain ⟨hlast, hroot, hhere, hparent⟩ := fileName?_eq_some h
  rcases exists_last_slash path with hslash | ⟨base, last, rfl, hslash⟩
  · have hpiece : IsPiece path := by
      refine ⟨hslash, ?_, ?_⟩
      · rintro rfl
        cases hlast
      · rintro rfl
        exact hhere (Option.some.inj hlast).symm
    rw [hpiece.components_eq, List.getLast?_singleton, Option.some.injEq] at hlast
    subst hlast
    refine ⟨[], rfl, ⟨hpiece, hparent⟩, fun other hother => ?_⟩
    rw [hpiece.components_eq]
    exact hother.components_eq
  · have hpiece : IsPiece last := by
      refine ⟨hslash, ?_, ?_⟩
      · rintro rfl
        exact (hends base.reverse).1 (by simp)
      · rintro rfl
        exact (hends base.reverse).2 (by simp)
    have hall : components (base ++ '/' :: last) = components (base ++ ['/']) ++ [last] := by
      rw [components_append, hpiece.pieces_eq]
    rw [hall, List.getLast?_concat, Option.some.injEq] at hlast
    subst hlast
    refine ⟨base ++ ['/'], by simp, ⟨hpiece, hparent⟩, fun other hother => ?_⟩
    rw [List.append_assoc, List.singleton_append, hall, List.dropLast_concat, components_append,
      hother.pieces_eq]

/-- **The name that a path ends in.** It stands in the text of the path, with nothing but slashes
and points behind it, and any other piece in its place is the last component instead of it. -/
theorem exists_of_fileName? (h : fileName? path = some name) :
    ∃ before after, path = before ++ name ++ after ∧ (∀ c ∈ after, c = '/' ∨ c = '.') ∧
      (dropEmptyEnd path.reverse).reverse = before ++ name ∧ IsName name ∧
      ∀ other, IsPiece other →
        components (before ++ other) = (components path).dropLast ++ [other] := by
  obtain ⟨after, hafter, hchars⟩ := exists_dropEmptyEnd path.reverse
  have hcomponents : components (dropEmptyEnd path.reverse).reverse = components path := by
    rw [components_dropEmptyEnd (by rwa [List.reverse_reverse]), List.reverse_reverse]
  have hends (rest : List Char) : (dropEmptyEnd path.reverse).reverse.reverse ≠ '/' :: rest ∧
      (dropEmptyEnd path.reverse).reverse.reverse ≠ '.' :: '/' :: rest := by
    rw [List.reverse_reverse]
    exact dropEmptyEnd_ne path.reverse rest
  have hfile : fileName? (dropEmptyEnd path.reverse).reverse = some name := by
    rwa [fileName?, hcomponents]
  obtain ⟨before, hkept, hname, hother⟩ := exists_append_of_fileName? hends hfile
  refine ⟨before, after.reverse, ?_, fun c hc => hchars c (List.mem_reverse.mp hc), hkept, hname,
    fun other hpiece => by rw [hother other hpiece, hcomponents]⟩
  rw [← hkept, ← List.reverse_append, ← hafter, List.reverse_reverse]

/-! ### Extensions -/

lemma splitName_of_notMem (h : '.' ∉ name.tail) : splitName name = (name, none) := by
  cases name with
  | nil => rfl
  | cons c cs =>
    have hcs : ∀ d ∈ cs.reverse, (d != '.') = true := by
      intro d hd
      refine bne_iff_ne.mpr fun heq => h ?_
      exact heq ▸ List.mem_reverse.mp hd
    have hdrop : (c :: cs).reverse.dropWhile (· != '.') = [c].dropWhile (· != '.') := by
      rw [List.reverse_cons, List.dropWhile_append_of_pos hcs]
    rw [splitName, hdrop]
    by_cases hc : (c != '.') = true
    · simp [hc]
    · simp [hc]

lemma splitName_append (hstem : stem ≠ []) (h : '.' ∉ extension) :
    splitName (stem ++ '.' :: extension) = (stem, some extension) := by
  have hextension : ∀ c ∈ extension.reverse, (c != '.') = true := by
    intro c hc
    refine bne_iff_ne.mpr fun heq => h ?_
    exact heq ▸ List.mem_reverse.mp hc
  have hname : (stem ++ '.' :: extension).reverse =
      extension.reverse ++ '.' :: stem.reverse := by simp
  rw [splitName, hname, List.dropWhile_append_of_pos hextension,
    List.takeWhile_append_of_pos hextension]
  simp [hstem]

/-- A name is one piece up to a point at its start, or it is cut at its last point. -/
lemma splitName_cases (name : List Char) :
    ('.' ∉ name.tail ∧ splitName name = (name, none)) ∨
      ∃ stem extension, stem ≠ [] ∧ '.' ∉ extension ∧ name = stem ++ '.' :: extension ∧
        splitName name = (stem, some extension) := by
  by_cases h : '.' ∈ name.tail
  · obtain ⟨c, cs, rfl⟩ := List.exists_cons_of_ne_nil (l := name) (by rintro rfl; cases h)
    obtain ⟨extension, stem, hreverse, hextension⟩ :=
      List.eq_append_cons_of_mem (List.mem_reverse.mpr h)
    have hname : c :: cs = (c :: stem.reverse) ++ '.' :: extension.reverse := by
      have hcs : cs = (extension ++ '.' :: stem).reverse := by
        rw [← hreverse, List.tail_cons, List.reverse_reverse]
      simp [hcs]
    have hpoint : '.' ∉ extension.reverse := fun hmem => hextension (List.mem_reverse.mp hmem)
    refine .inr ⟨c :: stem.reverse, extension.reverse, by simp, hpoint, hname, ?_⟩
    rw [hname]
    exact splitName_append (by simp) hpoint
  · exact .inl ⟨h, splitName_of_notMem h⟩

lemma IsName.stem_extension (h : IsName name) (hextension : '/' ∉ extension) :
    IsPiece ((splitName name).1 ++ '.' :: extension) := by
  have hstem : (splitName name).1 ≠ [] ∧ '/' ∉ (splitName name).1 := by
    rcases splitName_cases name with ⟨-, hsplit⟩ | ⟨stem, ext, hne, -, rfl, hsplit⟩
    · rw [hsplit]
      exact ⟨h.ne_nil, h.noSlash⟩
    · rw [hsplit]
      exact ⟨hne, fun hmem => h.noSlash (List.mem_append_left _ hmem)⟩
  obtain ⟨c, cs, hcs⟩ := List.exists_cons_of_ne_nil hstem.1
  refine ⟨?_, by simp, by simp [hcs]⟩
  simp [hstem.2, hextension]

/-- **A path with another extension.** What its last name has after the point goes, with the slashes
and points behind the name; the directories stay. -/
theorem withExtension_eq (h : fileName? path = some name) (hextension : '/' ∉ extension) :
    ∃ before after, path = before ++ name ++ after ∧ (∀ c ∈ after, c = '/' ∨ c = '.') ∧
      withExtension path extension = before ++ (splitName name).1 ++ '.' :: extension ∧
      components (withExtension path extension) =
        (components path).dropLast ++ [(splitName name).1 ++ '.' :: extension] := by
  obtain ⟨before, after, hpath, hchars, hkept, hname, hother⟩ := exists_of_fileName? h
  have htext : withExtension path extension =
      before ++ (splitName name).1 ++ '.' :: extension := by
    have hreverse : dropEmptyEnd path.reverse = name.reverse ++ before.reverse := by
      rw [← List.reverse_append, ← hkept, List.reverse_reverse]
    rw [withExtension, h, hreverse]
    rcases splitName_cases name with ⟨-, hsplit⟩ | ⟨stem, ext, -, -, rfl, hsplit⟩
    · simp [hsplit]
    · have hlength : (stem ++ '.' :: ext).length - stem.length = (ext.reverse ++ ['.']).length := by
        simp
      have hcut : (stem ++ '.' :: ext).reverse ++ before.reverse =
          (ext.reverse ++ ['.']) ++ (stem.reverse ++ before.reverse) := by
        simp
      simp only [hsplit]
      rw [hlength, hcut, List.drop_left]
      simp
  refine ⟨before, after, hpath, hchars, htext, ?_⟩
  rw [htext, List.append_assoc]
  exact hother _ (hname.stem_extension hextension)

/-! ### Paths inside of a base directory -/

/-- The parts of a relative path have no slash. -/
lemma mem_parts {relative part : String} (h : part ∈ parts relative) :
    '/' ∉ part.toList ∧ part ≠ "" := by
  obtain ⟨piece, hpiece, rfl⟩ := List.mem_map.mp h
  obtain ⟨hpiece, hne⟩ := List.mem_filter.mp hpiece
  have hslash := (Text.forall_mem_splitOnP (P := (· ≠ '/')) (p := isSeparator) relative.toList).mpr
    fun c _ => by
      by_cases hc : c = '/'
      · exact .inl (by rw [hc]; rfl)
      · exact .inr hc
  rw [String.toList_ofList]
  refine ⟨fun hmem => hslash piece hpiece '/' hmem rfl, fun hempty => ?_⟩
  have hnil : piece = [] := by simpa using congrArg String.toList hempty
  simp [hnil] at hne

/-- The components of a path inside of a base directory are those of the directory and then the
parts, but for single points. -/
theorem components_resolve {base : String} (hbase : base ≠ "") (relative : String) :
    components (resolve base relative).toList =
      components base.toList ++ ((parts relative).map String.toList).filter (· != ['.']) := by
  have hparts : ∀ part ∈ parts relative, '/' ∉ part.toList ∧ part ≠ "" := fun _ => mem_parts
  rw [resolve]
  generalize parts relative = steps at hparts ⊢
  induction steps generalizing base with
  | nil => simp
  | cons part rest ih =>
    obtain ⟨hslash, hne⟩ := hparts part List.mem_cons_self
    have hpieces : pieces part.toList = [part.toList].filter (· != ['.']) := by
      rw [pieces, List.splitOn_eq_singleton hslash]
      simp [List.filter_cons, hne]
    rw [List.foldl_cons, ih (push_ne_empty hbase part) fun p hp => hparts p (.tail _ hp),
      components_push hbase hslash, hpieces, List.append_assoc, ← List.filter_append]
    rfl

/-- What a relative path ends in, the path inside of the base directory ends in. -/
lemma fileName?_resolve {base relative part : String} (hbase : base ≠ "")
    (h : (parts relative).getLast? = some part) (hname : IsName part.toList) :
    fileName? (resolve base relative).toList = some part.toList := by
  obtain ⟨front, hfront⟩ := List.getLast?_eq_some_iff.mp h
  refine IsName.of_getLast ?_ hname
  rw [components_resolve hbase, hfront]
  simp [hname.ne_here]

end RuneSolver.Path
