import RuneSolver.Grammar.Replacements
import RuneSolver.Proofs.Alphabet.Lookup
import RuneSolver.Proofs.Text.Occurrence

/-!
Lists of replacements. A pattern that comes again changes the text of the earlier one in its place,
so what stands in the list is told by its rows: the place of a pattern by its first row, the text by
its last one. Main statement: a list is read just if each of its lines has a pattern and a text, it
is that of its rows, and it cleans a text up by replacing all occurrences of one pattern after the
other; what is added later is more rows.
-/

namespace RuneSolver.Grammar

/-- A pattern and its text, as a line holds them. -/
abbrev Replacement := List Char × List Char

/-- The line is a pattern up to the first semicolon and, behind it up to the next one if there is
any, the text of the pattern. -/
def HoldsReplacement (line : List Char) (row : Replacement) : Prop :=
  row.1 ≠ [] ∧ ';' ∉ row.1 ∧ ';' ∉ row.2 ∧
    (line = row.1 ++ ';' :: row.2 ∨ ∃ rest, line = row.1 ++ ';' :: (row.2 ++ ';' :: rest))

/-- A line holds a replacement when there is a semicolon on it, but not at the beginning. -/
lemma exists_holdsReplacement_iff {line : List Char} :
    (∃ row, HoldsReplacement line row) ↔ ';' ∈ line ∧ line.head? ≠ some ';' := by
  constructor
  · rintro ⟨⟨pattern, text⟩, hne, hpattern, -, hline⟩
    obtain ⟨c, rest, rfl⟩ := List.exists_cons_of_ne_nil hne
    have hc : c ≠ ';' := fun heq => hpattern (heq ▸ List.mem_cons_self)
    rcases hline with rfl | ⟨rest, rfl⟩ <;> exact ⟨by simp, by simpa using hc⟩
  · rintro ⟨hmem, hhead⟩
    obtain ⟨pattern, behind, rfl, hpattern⟩ := List.eq_append_cons_of_mem hmem
    have hne : pattern ≠ [] := by
      rintro rfl
      exact hhead rfl
    by_cases hagain : ';' ∈ behind
    · obtain ⟨text, rest, rfl, htext⟩ := List.eq_append_cons_of_mem hagain
      exact ⟨(pattern, text), hne, hpattern, htext, .inr ⟨rest, rfl⟩⟩
    · exact ⟨(pattern, behind), hne, hpattern, hagain, .inl rfl⟩

lemma pattern_ne_nil {lines : List (List Char)} {rows : List Replacement}
    (h : List.Forall₂ HoldsReplacement lines rows) : ∀ row ∈ rows, row.1 ≠ [] := by
  induction h with
  | nil => nofun
  | cons hrow _ ih => exact List.forall_mem_cons.mpr ⟨hrow.1, ih⟩

namespace Replacements

variable {entries : Replacements} {rows : List Replacement} {pattern text : List Char}

lemma entry_eq_ok_iff {number : ℕ} {line : List Char} {row : Replacement} :
    entry number line = .ok row ↔ HoldsReplacement line row := by
  have hpieces : (∃ rest, line.splitOn ';' = row.1 :: row.2 :: rest) ↔ ';' ∉ row.1 ∧ ';' ∉ row.2 ∧
      (line = row.1 ++ ';' :: row.2 ∨ ∃ rest, line = row.1 ++ ';' :: (row.2 ++ ';' :: rest)) := by
    simp only [Text.splitOn_eq_cons_iff]
    constructor
    · rintro ⟨_, hpattern, ⟨-, hnone⟩ | ⟨_, rfl, htext, ⟨rfl, -⟩ | ⟨rest, rfl, -⟩⟩⟩
      · cases hnone
      · exact ⟨hpattern, htext, .inl rfl⟩
      · exact ⟨hpattern, htext, .inr ⟨rest, rfl⟩⟩
    · rintro ⟨hpattern, htext, rfl | ⟨rest, rfl⟩⟩
      · exact ⟨[], hpattern, .inr ⟨_, rfl, htext, .inl ⟨rfl, rfl⟩⟩⟩
      · exact ⟨_, hpattern, .inr ⟨_, rfl, htext, .inr ⟨rest, rfl, rfl⟩⟩⟩
  rw [HoldsReplacement, ← hpieces]
  constructor
  · intro h
    rw [entry] at h
    split at h
    case h_2 => cases h
    case h_1 first second rest hsplit =>
      split at h
      case isTrue => cases h
      case isFalse hne =>
        cases h
        exact ⟨by simpa using hne, rest, hsplit⟩
  · rintro ⟨hne, rest, hsplit⟩
    rw [entry, hsplit]
    simp only [List.isEmpty_iff, if_neg hne]

/-! ### Rows one after the other -/

/-- The list with more rows. -/
def addAll (entries : Replacements) (rows : List Replacement) : Replacements :=
  rows.foldl (fun entries row => entries.add row.1 row.2) entries

lemma readsRows_addLines :
    ReadsRows addLines carriesData entry fun entries row => entries.add row.1 row.2 where
  nil _ := rfl
  cons entries line lines := by
    rw [addLines]
    cases carriesData line.1 with
    | false => rfl
    | true => cases entry line.2 line.1 <;> rfl

lemma parse_eq_ok_iff {source : String} :
    parse source = .ok entries ↔
      ∃ rows, List.Forall₂ HoldsReplacement (dataLines source) rows ∧ addAll [] rows = entries := by
  rw [parse, readsRows_addLines.eq_ok_iff entry_eq_ok_iff, List.zipIdx_map_fst]
  rfl

/-! ### What the rows tell -/

/-- The list is that of the rows: its patterns are different and in the order of their first rows,
and the text of each is that of its last row. -/
structure Means (entries : Replacements) (rows : List Replacement) : Prop where
  nodup : (entries.map Prod.fst).Nodup
  ordered : (entries.map Prod.fst).Pairwise fun p q =>
    (rows.map Prod.fst).idxOf p < (rows.map Prod.fst).idxOf q
  lookup_eq : ∀ p, entries.lookup p = rows.reverse.lookup p

/-- The patterns stay in their places, and one that is new comes last. -/
lemma patterns_add (pattern text : List Char) (entries : Replacements) :
    (entries.add pattern text).map Prod.fst =
      if pattern ∈ entries.map Prod.fst then entries.map Prod.fst
      else entries.map Prod.fst ++ [pattern] := by
  induction entries with
  | nil => rfl
  | cons e entries ih =>
    obtain ⟨p, t⟩ := e
    rw [add]
    by_cases hp : p = pattern
    · simp [hp]
    · simp only [if_neg hp, List.map_cons, ih, List.mem_cons, Ne.symm hp, false_or]
      split <;> rfl

/-- The text of the pattern is the new one, and those of all others are as before. -/
lemma lookup_add (pattern text : List Char) (entries : Replacements) (p : List Char) :
    (entries.add pattern text).lookup p =
      if p = pattern then some text else entries.lookup p := by
  induction entries with
  | nil =>
    rw [add, List.lookup_cons]
    by_cases hp : p = pattern
    · rw [if_pos hp, beq_iff_eq.mpr hp]
    · rw [if_neg hp, beq_eq_false_iff_ne.mpr hp]
  | cons e entries ih =>
    obtain ⟨q, t⟩ := e
    rw [add]
    by_cases hq : q = pattern
    · rw [if_pos hq, hq, List.lookup_cons, List.lookup_cons]
      by_cases hp : p = pattern
      · rw [if_pos hp, beq_iff_eq.mpr hp]
      · rw [if_neg hp, beq_eq_false_iff_ne.mpr hp]
    · rw [if_neg hq, List.lookup_cons, List.lookup_cons, ih]
      by_cases hp : p = q
      · have hother : p ≠ pattern := hp ▸ hq
        simp only [if_neg hother, beq_iff_eq.mpr hp]
      · rw [beq_eq_false_iff_ne.mpr hp]

lemma mem_patterns_iff : pattern ∈ entries.map Prod.fst ↔ (entries.lookup pattern).isSome := by
  rw [List.mem_map, List.lookup_isSome_iff]
  simp only [beq_iff_eq, @eq_comm _ pattern]

lemma means_nil : Means [] [] := ⟨.nil, .nil, fun _ => rfl⟩

namespace Means

lemma mem_patterns_iff (h : entries.Means rows) :
    pattern ∈ entries.map Prod.fst ↔ pattern ∈ rows.map Prod.fst := by
  rw [Replacements.mem_patterns_iff, h.lookup_eq, ← Replacements.mem_patterns_iff, List.map_reverse,
    List.mem_reverse]

/-- One more row changes the text of its pattern, or puts it behind all others. -/
lemma add (h : entries.Means rows) (row : Replacement) :
    (entries.add row.1 row.2).Means (rows ++ [row]) := by
  have hkeep : (entries.map Prod.fst).Pairwise fun p q =>
      ((rows ++ [row]).map Prod.fst).idxOf p < ((rows ++ [row]).map Prod.fst).idxOf q := by
    refine h.ordered.imp_of_mem fun hp hq hlt => ?_
    rwa [List.map_append, List.idxOf_append_of_mem (h.mem_patterns_iff.mp hp),
      List.idxOf_append_of_mem (h.mem_patterns_iff.mp hq)]
  have hlookup : ∀ p, (entries.add row.1 row.2).lookup p = (rows ++ [row]).reverse.lookup p := by
    intro p
    rw [lookup_add, List.reverse_concat, List.lookup_cons, h.lookup_eq]
    by_cases hp : p = row.1
    · rw [if_pos hp, beq_iff_eq.mpr hp]
    · rw [if_neg hp, beq_eq_false_iff_ne.mpr hp]
  by_cases hmem : row.1 ∈ entries.map Prod.fst
  · have hpatterns := (patterns_add row.1 row.2 entries).trans (if_pos hmem)
    exact ⟨hpatterns ▸ h.nodup, hpatterns ▸ hkeep, hlookup⟩
  · have hpatterns := (patterns_add row.1 row.2 entries).trans (if_neg hmem)
    refine ⟨?_, ?_, hlookup⟩
    · rw [hpatterns, ← List.concat_eq_append, List.nodup_concat]
      exact ⟨hmem, h.nodup⟩
    · rw [hpatterns, List.pairwise_append]
      refine ⟨hkeep, List.pairwise_singleton _ _, fun p hp q hq => ?_⟩
      -- the new pattern has its first row behind all rows so far
      have hrows := h.mem_patterns_iff.mp hp
      rw [List.mem_singleton.mp hq, List.map_append, List.idxOf_append_of_mem hrows,
        List.idxOf_append_of_notMem (h.mem_patterns_iff.not.mp hmem)]
      exact (List.idxOf_lt_length_of_mem hrows).trans_le (Nat.le_add_right _ _)

lemma addAll (h : entries.Means rows) (more : List Replacement) :
    (entries.addAll more).Means (rows ++ more) := by
  induction more generalizing entries rows with
  | nil => rwa [List.append_nil]
  | cons row more ih =>
    have hnext := ih (h.add row)
    rwa [List.append_assoc, List.singleton_append] at hnext

end Means

/-! ### Cleaning -/

/-- All occurrences of each pattern are replaced, of one pattern after the other. -/
inductive Cleans : Replacements → List Char → List Char → Prop
  | nil (cs : List Char) : Cleans [] cs cs
  | cons {pattern text cs next cleaned : List Char} {entries : Replacements} :
      Text.Replaced pattern text cs next → Cleans entries next cleaned →
      Cleans ((pattern, text) :: entries) cs cleaned

lemma applyTo_cons (pattern text : List Char) (entries : Replacements) (cs : List Char) :
    applyTo ((pattern, text) :: entries) cs =
      applyTo entries (Text.replaceAll pattern text cs) := rfl

lemma cleans_iff (hne : ∀ e ∈ entries, e.1 ≠ []) {cs cleaned : List Char} :
    entries.Cleans cs cleaned ↔ entries.applyTo cs = cleaned := by
  induction entries generalizing cs with
  | nil =>
    constructor
    · rintro ⟨⟩
      rfl
    · rintro rfl
      exact .nil cs
  | cons e entries ih =>
    obtain ⟨hpattern, hentries⟩ := List.forall_mem_cons.mp hne
    constructor
    · rintro (_ | ⟨hreplaced, hcleaned⟩)
      rw [applyTo_cons, (Text.replaced_iff hpattern).mp hreplaced]
      exact (ih hentries).mp hcleaned
    · intro happly
      exact .cons ((Text.replaced_iff hpattern).mpr rfl) ((ih hentries).mpr happly)

/-! ### Lists that are read -/

/-- **A list of replacements is that of its rows.** It is read when every line has a pattern and a
text; its patterns are not empty, it cleans a text up by replacing all occurrences of one pattern
after the other, and what is added to it counts as more rows. -/
theorem parse_means (source : String) :
    ((∃ entries, parse source = .ok entries) ↔
      ∀ line ∈ dataLines source, ';' ∈ line ∧ line.head? ≠ some ';') ∧
    ∀ entries, parse source = .ok entries →
      ∃ rows, List.Forall₂ HoldsReplacement (dataLines source) rows ∧ entries.Means rows ∧
        (∀ e ∈ entries, e.1 ≠ []) ∧
        (∀ attempt cleaned : String, entries.apply attempt = cleaned ↔
          entries.Cleans attempt.toList cleaned.toList) ∧
        ∀ additions, (entries.addAll additions).Means (rows ++ additions) := by
  constructor
  · simp only [parse_eq_ok_iff, ← exists_holdsReplacement_iff, ← exists_forall₂_iff]
    exact ⟨fun ⟨_, rows, hrows, _⟩ => ⟨rows, hrows⟩, fun ⟨rows, hrows⟩ => ⟨_, rows, hrows, rfl⟩⟩
  · intro entries h
    obtain ⟨rows, hrows, rfl⟩ := parse_eq_ok_iff.mp h
    have hmeans : (addAll [] rows).Means rows := means_nil.addAll rows
    have hne : ∀ e ∈ addAll [] rows, e.1 ≠ [] := by
      intro e he
      obtain ⟨row, hrow, hpattern⟩ :=
        List.mem_map.mp (hmeans.mem_patterns_iff.mp (List.mem_map_of_mem he))
      exact hpattern ▸ pattern_ne_nil hrows row hrow
    refine ⟨rows, hrows, hmeans, hne, fun attempt cleaned => ?_, hmeans.addAll⟩
    rw [cleans_iff hne, apply, ← String.toList_inj, String.toList_ofList]

/-- A pattern that comes again behind one that its text begins, a comment, a line with nothing but a
blank, a third part of a line, and a pattern without a text. -/
def repeatedSource : String := "a;b\n// a;x\n \nb;c;d\n 0 +;\na;z\n"

def repeatedEntries : Replacements :=
  [(['a'], ['z']), (['b'], ['c']), ([' ', '0', ' ', '+'], [])]

theorem parse_means_repeated :
    parse repeatedSource = .ok repeatedEntries ∧
    (∀ line ∈ dataLines repeatedSource, ';' ∈ line ∧ line.head? ≠ some ';') ∧
    repeatedEntries.Cleans "ab 0 +b".toList "zcc".toList ∧
    ∃ rows, List.Forall₂ HoldsReplacement (dataLines repeatedSource) rows ∧
      repeatedEntries.Means rows ∧
      (repeatedEntries.addAll [(['b'], ['x']), ([], ['y'])]).Means
        (rows ++ [(['b'], ['x']), ([], ['y'])]) := by
  have hparse : parse repeatedSource = .ok repeatedEntries := by decide +kernel
  obtain ⟨hread, hlist⟩ := parse_means repeatedSource
  obtain ⟨rows, hrows, hmeans, -, hcleans, hadded⟩ := hlist _ hparse
  exact ⟨hparse, hread.mp ⟨_, hparse⟩, (hcleans _ _).mp (by decide +kernel), rows, hrows, hmeans,
    hadded _⟩

end Replacements

end RuneSolver.Grammar
