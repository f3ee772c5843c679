import RuneSolver.Failure
import RuneSolver.Proofs.Text.Occurrence
import RuneSolver.Proofs.Text.Trim

/-!
Rules as they are written. A rule is printed without blanks: its name in brackets, the mark of a
definition, and its alternatives with bars between them, each a sequence of names in brackets. Main
statement: reading accepts exactly the texts that are printed rules once their blanks are taken
away, and gives the rule that is printed.
-/

namespace RuneSolver.Grammar

/-! ### Printing -/

/-- A reference to a name. -/
def bracketed (name : List Char) : List Char := '<' :: (name ++ ['>'])

/-- An alternative: its references, one after the other. -/
def printReferences (references : List String) : List Char :=
  references.flatMap fun name => bracketed name.toList

/-- A rule without blanks. -/
def Rule.print (r : Rule) : List Char :=
  bracketed r.name.toList ++ Rule.definitionMark ++
    ['|'].intercalate (r.alternatives.map printReferences)

/-- A nonempty text without delimiters, which can stand in brackets. -/
def Plain (name : List Char) : Prop := name ≠ [] ∧ ∀ c ∈ name, Rule.isDelimiter c = false

/-- A name has neither delimiters nor blanks, and no mark of a definition in it. -/
def IsName (name : List Char) : Prop :=
  Plain name ∧ (∀ c ∈ name, Text.isBlank c = false) ∧ ¬Rule.definitionMark <:+: name

instance (name : List Char) : Decidable (IsName name) :=
  have := List.decidableBAll (fun c => Rule.isDelimiter c = false) name
  have := List.decidableBAll (fun c => Text.isBlank c = false) name
  inferInstanceAs (Decidable ((_ ∧ _) ∧ _ ∧ _))

/-- The name of the rule and all names that it refers to. -/
def Rule.names (r : Rule) : List String := r.name :: r.alternatives.flatten

/-- There is an alternative, every alternative has a reference, and all names are names. -/
structure Rule.WellFormed (r : Rule) : Prop where
  alternatives_ne_nil : r.alternatives ≠ []
  references_ne_nil : [] ∉ r.alternatives
  isName : ∀ name ∈ r.names, IsName name.toList

namespace Rule

/-! ### References -/

/-- What has been read already: nothing, or a bracket and a part of a name. -/
def alreadyRead : Option (List Char) → List Char
  | none => []
  | some name => '<' :: name.reverse

lemma isDelimiter_ne {c d : Char} (hc : isDelimiter c = false) (hd : isDelimiter d = true) :
    c ≠ d := by
  rintro rfl
  rw [hd] at hc
  cases hc

/-- What is read as names is those names in brackets. -/
lemma of_readReferences {state : Option (List Char)} {cs : List Char} {names : List (List Char)}
    (hstate : ∀ name ∈ state, ∀ c ∈ name, isDelimiter c = false)
    (h : readReferences state cs = some names) :
    alreadyRead state ++ cs = names.flatMap bracketed ∧ ∀ name ∈ names, Plain name := by
  fun_induction readReferences state cs generalizing names with
  | case1 =>
    cases h
    exact ⟨rfl, nofun⟩
  | case2 c cs hopen ih =>
    have hread := ih (by rintro _ ⟨⟩; nofun) h
    obtain rfl : c = '<' := by simpa using hopen
    exact hread
  | case3 => cases h
  | case4 => cases h
  | case5 => cases h
  | case6 name c cs hclose hname ih =>
    obtain ⟨names, hrest, rfl⟩ := Option.map_eq_some_iff.mp h
    obtain ⟨hcs, hplain⟩ := ih nofun hrest
    obtain rfl : c = '>' := by simpa using hclose
    refine ⟨?_, List.forall_mem_cons.mpr ⟨⟨by simpa using hname, fun d hd => ?_⟩, hplain⟩⟩
    · rw [List.flatMap_cons, ← hcs]
      simp [alreadyRead, bracketed]
    · exact hstate name rfl d (List.mem_reverse.mp hd)
  | case7 => cases h
  | case8 name c cs hclose hdelimiter ih =>
    have hread := ih (by
      rintro _ ⟨⟩
      exact List.forall_mem_cons.mpr ⟨by simpa using hdelimiter, hstate name rfl⟩) h
    simpa [alreadyRead] using hread

/-- A name of which some characters are read already is read up to its bracket. -/
lemma readReferences_rest {rest : List Char} (hrest : ∀ c ∈ rest, isDelimiter c = false)
    (read : List Char) (hne : read.reverse ++ rest ≠ []) (cs : List Char) :
    readReferences (some read) (rest ++ '>' :: cs) =
      (readReferences none cs).map ((read.reverse ++ rest) :: ·) := by
  induction rest generalizing read with
  | nil =>
    have hread : read.isEmpty = false := by simpa using hne
    rw [List.nil_append, readReferences, if_pos (beq_self_eq_true _), hread, List.append_nil]
    rfl
  | cons c rest ih =>
    obtain ⟨hc, hrest⟩ := List.forall_mem_cons.mp hrest
    have hclose : ¬(c == '>') = true := by simpa using isDelimiter_ne hc rfl
    rw [List.cons_append, readReferences, if_neg hclose, if_neg (by simp [hc]),
      ih hrest _ (by simp), List.reverse_cons, List.append_assoc, List.singleton_append]

lemma readReferences_bracketed {name : List Char} (h : Plain name) (cs : List Char) :
    readReferences none (bracketed name ++ cs) = (readReferences none cs).map (name :: ·) := by
  have hopen : bracketed name ++ cs = '<' :: (name ++ '>' :: cs) := by simp [bracketed]
  rw [hopen, readReferences, if_pos (beq_self_eq_true _), readReferences_rest h.2 [] h.1]
  rfl

lemma readReferences_flatMap {names : List (List Char)} (h : ∀ name ∈ names, Plain name) :
    readReferences none (names.flatMap bracketed) = some names := by
  induction names with
  | nil => rfl
  | cons name names ih =>
    obtain ⟨hname, hnames⟩ := List.forall_mem_cons.mp h
    rw [List.flatMap_cons, readReferences_bracketed hname, ih hnames, Option.map_some]

/-- **A sequence of references is at least one name in brackets**, and nothing else. -/
theorem references?_eq_some_iff {cs : List Char} {names : List (List Char)} :
    references? cs = some names ↔
      names ≠ [] ∧ (∀ name ∈ names, Plain name) ∧ cs = names.flatMap bracketed := by
  have hread : readReferences none cs = some names ↔
      (∀ name ∈ names, Plain name) ∧ cs = names.flatMap bracketed := by
    constructor
    · intro h
      obtain ⟨hcs, hplain⟩ := of_readReferences (by nofun) h
      exact ⟨hplain, hcs⟩
    · rintro ⟨hplain, rfl⟩
      exact readReferences_flatMap hplain
  rw [references?, ← hread]
  split
  · next name rest h =>
    rw [h]
    constructor
    · rintro ⟨⟩
      exact ⟨List.cons_ne_nil name rest, rfl⟩
    · exact And.right
  · next hnone =>
    refine iff_of_false nofun ?_
    rintro ⟨hne, h⟩
    obtain ⟨name, rest, rfl⟩ := List.exists_cons_of_ne_nil hne
    exact hnone name rest h

lemma head?_eq_some_iff {cs name : List Char} :
    head? cs = some name ↔ Plain name ∧ cs = bracketed name := by
  have hsingle : references? cs = some [name] ↔ Plain name ∧ cs = bracketed name := by
    simp [references?_eq_some_iff]
  rw [← hsingle, head?]
  split
  · next other h => rw [h]; simp
  · next hnone =>
    refine iff_of_false nofun fun h => hnone name h

/-- An alternative is read from its printed references. -/
lemma references?_eq_map_iff {cs : List Char} {alternative : List String} :
    references? cs = some (alternative.map String.toList) ↔
      alternative ≠ [] ∧ (∀ reference ∈ alternative, Plain reference.toList) ∧
        cs = printReferences alternative := by
  rw [references?_eq_some_iff, List.flatMap_map, List.forall_mem_map, ne_eq, List.map_eq_nil_iff]
  rfl

lemma readAlternatives_cons_eq_ok_iff {name piece : List Char} {pieces : List (List Char)}
    {alternatives : List (List String)} :
    readAlternatives name (piece :: pieces) = .ok alternatives ↔
      ∃ alternative rest, references? piece = some (alternative.map String.toList) ∧
        readAlternatives name pieces = .ok rest ∧ alternatives = alternative :: rest := by
  rw [readAlternatives]
  cases hpiece : references? piece with
  | none => simp
  | some names =>
    cases hpieces : readAlternatives name pieces with
    | error e => simp [Except.map]
    | ok rest =>
      simp only [Except.map, Except.ok.injEq, Option.some.injEq]
      constructor
      · rintro rfl
        exact ⟨names.map String.ofList, rest, by simp [Function.comp_def], rfl, rfl⟩
      · rintro ⟨alternative, _, rfl, rfl, rfl⟩
        simp [Function.comp_def]

/-- Pieces are read as alternatives when each of them is a printed alternative. -/
lemma readAlternatives_eq_ok_iff {name : List Char} {pieces : List (List Char)}
    {alternatives : List (List String)} :
    readAlternatives name pieces = .ok alternatives ↔
      [] ∉ alternatives ∧ (∀ reference ∈ alternatives.flatten, Plain reference.toList) ∧
        pieces = alternatives.map printReferences := by
  induction pieces generalizing alternatives with
  | nil =>
    rw [readAlternatives]
    constructor
    · rintro ⟨⟩
      exact ⟨List.not_mem_nil, nofun, rfl⟩
    · rintro ⟨-, -, hpieces⟩
      rw [List.map_eq_nil_iff.mp hpieces.symm]
  | cons piece pieces ih =>
    simp only [readAlternatives_cons_eq_ok_iff, references?_eq_map_iff, ih]
    constructor
    · rintro ⟨alternative, rest, ⟨hne, hplain, rfl⟩, ⟨hnonempty, hrest, rfl⟩, rfl⟩
      refine ⟨by simp [hnonempty, hne.symm], ?_, rfl⟩
      rw [List.flatten_cons, List.forall_mem_append]
      exact ⟨hplain, hrest⟩
    · rintro ⟨hnonempty, hplain, hpieces⟩
      cases alternatives with
      | nil => cases hpieces
      | cons alternative rest =>
        obtain ⟨rfl, rfl⟩ := List.cons.inj hpieces
        obtain ⟨hne, hrest⟩ := not_or.mp (mt List.mem_cons.mpr hnonempty)
        rw [List.flatten_cons, List.forall_mem_append] at hplain
        exact ⟨alternative, rest, ⟨Ne.symm hne, hplain.1, rfl⟩, ⟨hrest, hplain.2, rfl⟩, rfl⟩

/-! ### Marks of a definition in a printed text -/

lemma mark_infix_bracketed_append_iff {name cs : List Char} :
    definitionMark <:+: bracketed name ++ cs ↔
      definitionMark <:+: name ∨ definitionMark <:+: cs := by
  have hopen : bracketed name ++ cs = [] ++ '<' :: (name ++ '>' :: cs) := by simp [bracketed]
  have hnil : ¬definitionMark <:+: [] := by decide
  rw [hopen, Text.infix_append_cons_iff (by decide) (by decide),
    Text.infix_append_cons_iff (by decide) (by decide), or_iff_right hnil]

lemma mark_infix_printReferences_iff {references : List String} :
    definitionMark <:+: printReferences references ↔
      ∃ name ∈ references, definitionMark <:+: name.toList := by
  induction references with
  | nil => decide
  | cons name references ih =>
    rw [printReferences, List.flatMap_cons, mark_infix_bracketed_append_iff,
      List.exists_mem_cons_iff, ← ih, printReferences]

/-- What is between the parts of a body occurs in no mark, so marks are within names. -/
lemma mark_infix_body_iff {alternatives : List (List String)} :
    definitionMark <:+: ['|'].intercalate (alternatives.map printReferences) ↔
      ∃ name ∈ alternatives.flatten, definitionMark <:+: name.toList := by
  induction alternatives with
  | nil => decide
  | cons alternative alternatives ih =>
    have hnil : ¬definitionMark <:+: [] := by decide
    simp only [List.flatten_cons, List.mem_append, or_and_right, exists_or, ← ih,
      ← mark_infix_printReferences_iff]
    cases alternatives with
    | nil => simp [hnil]
    | cons next alternatives =>
      rw [List.map_cons, List.map_cons, List.intercalate_cons_cons, List.append_assoc,
        List.singleton_append, Text.infix_append_cons_iff (by decide) (by decide)]

/-! ### Reading a rule -/

/-- The four conditions under which a rule is read. -/
lemma ofChars_eq_ok_iff {cs : List Char} {r : Rule} :
    ofChars cs = .ok r ↔
      ∃ head body, Text.cutAt? definitionMark (Text.removeBlanks cs) = some (head, body) ∧
        ¬definitionMark <:+: body ∧ head? head = some r.name.toList ∧
        readAlternatives r.name.toList (body.splitOn '|') = .ok r.alternatives := by
  rw [ofChars]
  constructor
  · intro h
    split at h
    · cases h
    · next head body hcut =>
      split at h
      · cases h
      · next hmark =>
        split at h
        · cases h
        · next name hhead =>
          cases halternatives : readAlternatives name (body.splitOn '|') with
          | error e => rw [halternatives] at h; cases h
          | ok alternatives =>
            rw [halternatives] at h
            cases h
            refine ⟨head, body, hcut, mt Text.contains_iff.mpr hmark, ?_, ?_⟩
            · rw [String.toList_ofList, hhead]
            · rw [String.toList_ofList, halternatives]
  · rintro ⟨head, body, hcut, hmark, hhead, halternatives⟩
    rw [hcut]
    simp only
    rw [if_neg (mt Text.contains_iff.mp hmark), hhead]
    simp only [halternatives, Except.map, String.ofList_toList]

lemma bar_notMem_printReferences {references : List String}
    (h : ∀ name ∈ references, Plain name.toList) : '|' ∉ printReferences references := by
  rw [printReferences, List.mem_flatMap]
  rintro ⟨name, hname, hbar⟩
  have hinside : '|' ∈ name.toList := by simpa [bracketed] using hbar
  exact isDelimiter_ne ((h name hname).2 _ hinside) rfl rfl

/-- A body is cut at its bars into the alternatives that it is printed from. -/
lemma readAlternatives_splitOn_iff {name body : List Char} {alternatives : List (List String)} :
    readAlternatives name (body.splitOn '|') = .ok alternatives ↔
      alternatives ≠ [] ∧ [] ∉ alternatives ∧
        (∀ reference ∈ alternatives.flatten, Plain reference.toList) ∧
        body = ['|'].intercalate (alternatives.map printReferences) := by
  rw [readAlternatives_eq_ok_iff]
  constructor
  · rintro ⟨hnonempty, hplain, hpieces⟩
    refine ⟨?_, hnonempty, hplain, ?_⟩
    · rintro rfl
      exact List.splitOn_ne_nil _ _ hpieces
    · rw [← hpieces, List.intercalate_splitOn]
  · rintro ⟨hne, hnonempty, hplain, rfl⟩
    refine ⟨hnonempty, hplain, List.splitOn_intercalate '|' ?_ (by simpa using hne)⟩
    rw [List.forall_mem_map]
    exact fun alternative halternative => bar_notMem_printReferences fun name hname =>
      hplain name (List.mem_flatten_of_mem halternative hname)

/-- Reading, as far as the text without blanks decides it. -/
lemma parse_eq_ok_iff_names {source : String} {r : Rule} :
    parse source = .ok r ↔
      Text.removeBlanks source.toList = r.print ∧ r.alternatives ≠ [] ∧ [] ∉ r.alternatives ∧
        ∀ name ∈ r.names, Plain name.toList ∧ ¬definitionMark <:+: name.toList := by
  have hopen {name : List Char} : definitionMark <:+: '<' :: name ↔ definitionMark <:+: name := by
    have hnil : ¬definitionMark <:+: [] := by decide
    have hsplit : definitionMark <:+: [] ++ '<' :: name ↔ _ :=
      Text.infix_append_cons_iff (by decide) (by decide)
    rwa [List.nil_append, or_iff_right hnil] at hsplit
  rw [parse, ofChars_eq_ok_iff, names, List.forall_mem_cons]
  constructor
  · rintro ⟨head, body, hcut, hmark, hhead, halternatives⟩
    obtain ⟨hname, rfl⟩ := head?_eq_some_iff.mp hhead
    obtain ⟨hne, hnonempty, hplain, rfl⟩ := readAlternatives_splitOn_iff.mp halternatives
    rw [bracketed, ← List.cons_append, Text.cutAt?_eq_some_append_iff (by decide), hopen] at hcut
    refine ⟨?_, hne, hnonempty, ⟨hname, hcut.2⟩, fun name hmem => ⟨hplain name hmem, fun h => ?_⟩⟩
    · rw [hcut.1, print, bracketed]
      simp
    · exact hmark (mark_infix_body_iff.mpr ⟨name, hmem, h⟩)
  · rintro ⟨hprint, hne, hnonempty, ⟨hname, hnoMark⟩, hnames⟩
    refine ⟨bracketed r.name.toList, ['|'].intercalate (r.alternatives.map printReferences),
      ?_, ?_, head?_eq_some_iff.mpr ⟨hname, rfl⟩, readAlternatives_splitOn_iff.mpr
        ⟨hne, hnonempty, fun name hmem => (hnames name hmem).1, rfl⟩⟩
    · rw [bracketed, ← List.cons_append, Text.cutAt?_eq_some_append_iff (by decide), hopen]
      refine ⟨?_, hnoMark⟩
      rw [hprint, print, bracketed]
      simp
    · rw [mark_infix_body_iff]
      rintro ⟨name, hmem, h⟩
      exact (hnames name hmem).2 h

/-! ### Blanks in a printed rule -/

lemma noBlank_print_iff {r : Rule} :
    (∀ c ∈ r.print, Text.isBlank c = false) ↔
      ∀ name ∈ r.names, ∀ c ∈ name.toList, Text.isBlank c = false := by
  have hbracketed (name : List Char) : (∀ c ∈ bracketed name, Text.isBlank c = false) ↔
      ∀ c ∈ name, Text.isBlank c = false := by
    rw [bracketed, List.forall_mem_cons, List.forall_mem_append, List.forall_mem_singleton]
    exact ⟨fun h => h.2.1, fun h => ⟨rfl, h, rfl⟩⟩
  have hmark : ∀ c ∈ definitionMark, Text.isBlank c = false :=
    List.forall_mem_cons.mpr
      ⟨rfl, List.forall_mem_cons.mpr ⟨rfl, List.forall_mem_singleton.mpr rfl⟩⟩
  have hbar : Text.isBlank '|' = false := rfl
  have hreferences (references : List String) :
      (∀ c ∈ printReferences references, Text.isBlank c = false) ↔
        ∀ name ∈ references, ∀ c ∈ name.toList, Text.isBlank c = false := by
    simp only [printReferences, List.forall_mem_flatMap, hbracketed]
  rw [print, names, List.forall_mem_append, List.forall_mem_append, hbracketed,
    Text.forall_mem_intercalate hbar, List.forall_mem_cons, List.forall_mem_map,
    List.forall_mem_flatten]
  simp only [hreferences]
  rw [and_iff_left hmark]

lemma parse_eq_ok_iff {source : String} {r : Rule} :
    parse source = .ok r ↔ Text.removeBlanks source.toList = r.print ∧ r.WellFormed := by
  rw [parse_eq_ok_iff_names]
  constructor
  · rintro ⟨hprint, hne, hnonempty, hnames⟩
    have hnoBlank : ∀ c ∈ r.print, Text.isBlank c = false := by
      rw [← hprint]
      exact fun c hc => by simpa using (List.mem_filter.mp hc).2
    exact ⟨hprint, hne, hnonempty, fun name hname =>
      ⟨(hnames name hname).1, noBlank_print_iff.mp hnoBlank name hname, (hnames name hname).2⟩⟩
  · rintro ⟨hprint, hne, hnonempty, hnames⟩
    exact ⟨hprint, hne, hnonempty, fun name hname =>
      ⟨(hnames name hname).1, (hnames name hname).2.2⟩⟩

lemma WellFormed.removeBlanks_print {r : Rule} (h : r.WellFormed) :
    Text.removeBlanks r.print = r.print := by
  have hnoBlank := noBlank_print_iff.mpr fun name hname => (h.isName name hname).2.1
  exact List.filter_eq_self.mpr fun c hc => by rw [hnoBlank c hc]; rfl

/-- **Reading accepts exactly the printed rules**, with blanks anywhere: a text is read as a rule
if and only if it is the rule as it is printed once its blanks are taken away. So texts that differ
in blanks only are read alike, every rule is read from what it is printed as, and every other text
is a failure of the grammar. -/
theorem parse_iff_print (source : String) :
    (∀ r, parse source = .ok r ↔
      Text.removeBlanks source.toList = r.print ∧ r.WellFormed) ∧
    (∀ other, Text.removeBlanks other.toList = Text.removeBlanks source.toList →
      ∀ r, parse other = .ok r ↔ parse source = .ok r) ∧
    (∀ r : Rule, r.WellFormed → parse (String.ofList r.print) = .ok r) ∧
    ((¬∃ r : Rule, Text.removeBlanks source.toList = r.print ∧ r.WellFormed) →
      ∃ e, parse source = .error e ∧ (Failure.rule e).area = .grammar) := by
  refine ⟨fun r => parse_eq_ok_iff, fun other hother r => ?_, fun r hr => ?_, fun hnone => ?_⟩
  · rw [parse_eq_ok_iff, parse_eq_ok_iff, hother]
  · rw [parse_eq_ok_iff, String.toList_ofList]
    exact ⟨hr.removeBlanks_print, hr⟩
  · cases hparse : parse source with
    | ok r => exact absurd ⟨r, parse_eq_ok_iff.mp hparse⟩ hnone
    | error e => exact ⟨e, rfl, rfl⟩

/-- Colons and equality signs are characters of names like any others, also next to the mark. -/
theorem parse_iff_print_colons :
    WellFormed ⟨":=", [["::", "="], [":"]]⟩ ∧
      parse "< := >  ::= <::> <=>|<: >" = .ok ⟨":=", [["::", "="], [":"]]⟩ ∧
      parse "<:=>::=<::><=>|<:>" = .ok ⟨":=", [["::", "="], [":"]]⟩ := by
  have hformed : WellFormed ⟨":=", [["::", "="], [":"]]⟩ := ⟨by decide, by decide, by decide⟩
  obtain ⟨-, hblanks, hprinted, -⟩ := parse_iff_print "<:=>::=<::><=>|<:>"
  have hcompact := hprinted _ hformed
  exact ⟨hformed, (hblanks _ (by decide +kernel) _).mpr hcompact, hcompact⟩

end Rule

end RuneSolver.Grammar
