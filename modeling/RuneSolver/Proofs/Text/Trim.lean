import Mathlib.Data.List.DropRight
import Mathlib.Data.List.TakeWhile
import RuneSolver.Proofs.Text.Blank
import RuneSolver.Proofs.Text.Numeral
import RuneSolver.Text.Lines

/-!
Texts without the blanks around them, and texts in pieces: what the characters of all pieces have,
those of the whole text have, but for the commas, blanks or line feeds between them.
-/

namespace RuneSolver.Text

/-! ### Trimmed texts -/

lemma trim_of_noBlanks {cs : List Char} (h : ∀ c ∈ cs, isBlank c = false) : trim cs = cs := by
  have hdrop {ds : List Char} (hd : ∀ c ∈ ds, isBlank c = false) : ds.dropWhile isBlank = ds := by
    cases ds with
    | nil => rfl
    | cons d ds => rw [List.dropWhile_cons_of_neg (by simp [hd d List.mem_cons_self])]
  rw [trim, trimStart, hdrop h, trimEnd, hdrop fun c hc => h c (List.mem_reverse.mp hc),
    List.reverse_reverse]

/-- A text is trimmed away when it is blank, and only then. -/
lemma trim_eq_nil_iff {cs : List Char} : trim cs = [] ↔ ∀ c ∈ cs, isBlank c = true := by
  have hend : trim cs = [] ↔ ∀ c ∈ trimStart cs, isBlank c = true := by
    simp only [trim, trimEnd, List.reverse_eq_nil_iff, List.dropWhile_eq_nil_iff, List.mem_reverse]
  rw [hend, trimStart]
  constructor
  · intro h
    rw [← List.takeWhile_append_dropWhile (p := isBlank) (l := cs)]
    exact List.forall_mem_append.mpr ⟨fun c hc => List.mem_takeWhile_imp hc, h⟩
  · exact fun h c hc => h c ((List.dropWhile_sublist _).subset hc)

/-- Trimming takes away blanks only. -/
lemma mem_trim_of_mem {cs : List Char} {c : Char} (h : c ∈ cs) (hc : isBlank c = false) :
    c ∈ trim cs := by
  have hdrop {ds : List Char} (hd : c ∈ ds) : c ∈ ds.dropWhile isBlank := by
    rw [← List.takeWhile_append_dropWhile (p := isBlank) (l := ds)] at hd
    refine (List.mem_append.mp hd).resolve_left fun htake => ?_
    have hblank := List.mem_takeWhile_imp htake
    rw [hc] at hblank
    cases hblank
  exact List.mem_reverse.mpr (hdrop (List.mem_reverse.mpr (hdrop h)))

/-- What is left by trimming is a piece of the text. -/
lemma trim_infix (cs : List Char) : trim cs <:+: cs :=
  (List.rdropWhile_prefix isBlank _).isInfix.trans (List.dropWhile_suffix isBlank).isInfix

/-- A trimmed text has nothing to trim. -/
lemma trim_trim (cs : List Char) : trim (trim cs) = trim cs := by
  have hstart : trimStart (trim cs) = trim cs := by
    cases htrim : trim cs with
    | nil => rfl
    | cons c rest =>
      -- the first character is that of the text without the blanks before it
      have hprefix : trim cs <+: cs.dropWhile isBlank := List.rdropWhile_prefix isBlank _
      rw [htrim] at hprefix
      obtain ⟨after, hafter⟩ := hprefix
      have hhead := List.head?_dropWhile_not isBlank cs
      rw [← hafter] at hhead
      exact List.dropWhile_cons_of_neg (by simpa using hhead)
  have hend (ds : List Char) : trimEnd (trimEnd ds) = trimEnd ds :=
    List.rdropWhile_idempotent isBlank ds
  rw [trim, hstart, trim, hend]

lemma trim_natural (n : ℕ) : trim (natural n) = natural n :=
  trim_of_noBlanks fun _ hc => isBlank_of_isDigit (isDigit_of_mem_natural hc)

lemma isBlank_of_mem_integer {i : ℤ} {c : Char} (h : c ∈ integer i) : isBlank c = false := by
  rcases eq_minus_or_isDigit_of_mem_integer h with rfl | hdigit
  · decide
  · exact isBlank_of_isDigit hdigit

lemma trim_integer (i : ℤ) : trim (integer i) = integer i :=
  trim_of_noBlanks fun _ hc => isBlank_of_mem_integer hc

/-! ### Texts in pieces -/

/-- What all pieces of a cut text have, all characters have at which it is not cut. -/
lemma forall_mem_splitOnP {P : Char → Prop} {p : Char → Bool} (cs : List Char) :
    (∀ piece ∈ cs.splitOnP p, ∀ c ∈ piece, P c) ↔ ∀ c ∈ cs, p c = true ∨ P c := by
  induction cs with
  | nil => simp [List.splitOnP_nil]
  | cons c cs ih =>
    obtain ⟨head, tail, hpieces⟩ := List.exists_cons_of_ne_nil (List.splitOnP_ne_nil p cs)
    rw [hpieces] at ih
    rw [List.splitOnP_cons_eq_if_modifyHead, hpieces, List.forall_mem_cons, ← ih]
    cases hc : p c with
    | true => simp
    | false =>
      simp only [Bool.false_eq_true, if_false, List.modifyHead_cons, List.forall_mem_cons,
        false_or, and_assoc]

/-- What all pieces between commas have, all characters but the commas have. -/
lemma forall_mem_splitOn {P : Char → Prop} (cs : List Char) :
    (∀ piece ∈ cs.splitOn ',', ∀ c ∈ piece, P c) ↔ ∀ c ∈ cs, c = ',' ∨ P c := by
  simpa only [List.splitOn, beq_iff_eq] using forall_mem_splitOnP (P := P) (p := (· == ',')) cs

/-- The first piece of a cut text is what stands before the first separator. -/
lemma splitOn_eq_cons_iff {c : Char} {cs piece : List Char} {pieces : List (List Char)} :
    cs.splitOn c = piece :: pieces ↔ c ∉ piece ∧
      (cs = piece ∧ pieces = [] ∨ ∃ rest, cs = piece ++ c :: rest ∧ rest.splitOn c = pieces) := by
  have hwhole {ds : List Char} (hds : c ∉ ds) : ds.splitOn c = [ds] :=
    List.splitOnP_eq_singleton fun d hd => by simpa using fun heq : d = c => hds (heq ▸ hd)
  have hcut {ds : List Char} (hds : c ∉ ds) (rest : List Char) :
      (ds ++ c :: rest).splitOn c = ds :: rest.splitOn c :=
    List.splitOnP_append_cons_of_forall_mem
      (fun d hd => by simpa using fun heq : d = c => hds (heq ▸ hd)) c (by simp) rest
  constructor
  · intro h
    by_cases hmem : c ∈ cs
    · obtain ⟨before, rest, rfl, hbefore⟩ := List.eq_append_cons_of_mem hmem
      rw [hcut hbefore] at h
      cases h
      exact ⟨hbefore, .inr ⟨rest, rfl, rfl⟩⟩
    · rw [hwhole hmem] at h
      cases h
      exact ⟨hmem, .inl ⟨rfl, rfl⟩⟩
  · rintro ⟨hpiece, ⟨rfl, rfl⟩ | ⟨rest, rfl, rfl⟩⟩
    · exact hwhole hpiece
    · exact hcut hpiece rest

/-- The fields of a text are words. -/
lemma isWord_of_mem_fields {cs word : List Char} (h : word ∈ fields cs) : IsWord word := by
  obtain ⟨hpiece, hne⟩ := List.mem_filter.mp h
  refine ⟨by simpa using hne, ?_⟩
  refine (forall_mem_splitOnP cs).mpr (fun c _ => ?_) word hpiece
  cases isBlank c with
  | true => exact .inl rfl
  | false => exact .inr rfl

/-- A text without line feeds is one line. -/
lemma lines_of_not_mem {cs : List Char} (h : '\n' ∉ cs) (hne : cs ≠ []) : lines cs = [cs] := by
  have hpieces : cs.splitOn '\n' = [cs] := splitOn_eq_cons_iff.mpr ⟨h, .inl ⟨rfl, rfl⟩⟩
  have hrest : cs.isEmpty = false := by simpa using hne
  have hlast : [cs].getLastD [] = cs := rfl
  rw [lines, hpieces, hlast, hrest]
  rfl

/-- What ends at a line feed, with none before it and no carriage return at the end, is a line. -/
lemma lines_append_cons {line : List Char} (hfeed : '\n' ∉ line)
    (hreturn : line.getLast? ≠ some '\r') (rest : List Char) :
    lines (line ++ '\n' :: rest) = line :: lines rest := by
  have hpieces : (line ++ '\n' :: rest).splitOn '\n' = line :: rest.splitOn '\n' :=
    splitOn_eq_cons_iff.mpr ⟨hfeed, .inr ⟨rest, rfl, rfl⟩⟩
  have hne : rest.splitOn '\n' ≠ [] := List.splitOnP_ne_nil _ rest
  have hlast : (line :: rest.splitOn '\n').getLastD [] = (rest.splitOn '\n').getLastD [] := by
    rw [List.getLastD_cons, List.getLastD_eq_getLast?, List.getLastD_eq_getLast?,
      List.getLast?_eq_some_getLast hne]
    rfl
  rw [lines, hpieces, hlast, List.dropLast_cons_of_ne_nil hne, List.map_cons, dropReturn,
    if_neg hreturn]
  rfl

/-- What a separator has, a joined text has when all of its parts have it. -/
lemma forall_mem_intercalate {P : Char → Prop} {separator : Char} (hseparator : P separator)
    (parts : List (List Char)) :
    (∀ c ∈ [separator].intercalate parts, P c) ↔ ∀ part ∈ parts, ∀ c ∈ part, P c := by
  induction parts with
  | nil => simp
  | cons part parts ih =>
    cases parts with
    | nil => simp
    | cons next parts =>
      rw [List.intercalate_cons_cons, List.forall_mem_append, List.forall_mem_append, ih,
        List.forall_mem_cons (a := part), List.forall_mem_singleton]
      simp only [hseparator, and_true]

end RuneSolver.Text
