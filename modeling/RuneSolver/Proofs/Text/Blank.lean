import Mathlib.Data.List.Basic
import RuneSolver.Text.Lines

/-!
Words that are written with blanks between them, and read back as the fields of the text.
-/

namespace RuneSolver.Text

lemma isBlank_of_isDigit {c : Char} (h : c.isDigit = true) : isBlank c = false := by
  have hrange : 48 ≤ c.toNat ∧ c.toNat ≤ 57 := Char.isDigit_iff_toNat.mp h
  simp only [isBlank, Bool.or_eq_false_iff, Bool.and_eq_false_iff, decide_eq_false_iff_not,
    beq_eq_false_iff_ne, ne_eq]
  omega

/-- A word that the cut at blanks can give: at least one character, and no blank. -/
def IsWord (cs : List Char) : Prop := cs ≠ [] ∧ ∀ c ∈ cs, isBlank c = false

lemma isWord_of_all {cs : List Char} (h : (!cs.isEmpty && cs.all (!isBlank ·)) = true) :
    IsWord cs := by
  rw [Bool.and_eq_true, List.all_eq_true] at h
  exact ⟨by simpa using h.1, fun c hc => by simpa using h.2 c hc⟩

/-- At least one blank, and nothing else. -/
structure Gap where
  first : Char
  rest : List Char
  blank : isBlank first = true ∧ ∀ c ∈ rest, isBlank c = true

def Gap.chars (g : Gap) : List Char := g.first :: g.rest

/-- Words one after the other, with a gap of any kind between two of them. -/
def withGaps (gaps : ℕ → Gap) : List (List Char) → List Char
  | [] => []
  | [word] => word
  | word :: words => word ++ (gaps 0).chars ++ withGaps (fun i => gaps (i + 1)) words

lemma fields_blanks {bs : List Char} (hblank : ∀ c ∈ bs, isBlank c = true) (cs : List Char) :
    fields (bs ++ cs) = fields cs := by
  induction bs with
  | nil => rfl
  | cons b bs ih =>
    rw [List.cons_append, fields, List.splitOnP_cons_eq_if_modifyHead, if_pos (hblank b (by simp)),
      List.filter_cons, if_neg (by simp)]
    exact ih fun c hc => hblank c (by simp [hc])

lemma fields_word {word : List Char} (h : IsWord word) : fields word = [word] := by
  have hne : word.isEmpty = false := by simpa using h.1
  rw [fields, List.splitOnP_eq_singleton h.2, List.filter_cons, hne]
  rfl

lemma fields_word_gap {word : List Char} (h : IsWord word) (g : Gap) (cs : List Char) :
    fields (word ++ g.chars ++ cs) = word :: fields cs := by
  have hne : word.isEmpty = false := by simpa using h.1
  rw [Gap.chars, List.append_assoc, List.cons_append, fields,
    List.splitOnP_append_cons_of_forall_mem h.2 g.first g.blank.1, List.filter_cons, hne]
  exact congrArg (word :: ·) (fields_blanks g.blank.2 cs)

/-- A blank divides a text into two whose fields do not touch. -/
lemma fields_append_cons (cs ds : List Char) {b : Char} (hb : isBlank b = true) :
    fields (cs ++ b :: ds) = fields cs ++ fields ds := by
  rw [fields, List.splitOnP_append_cons cs ds hb, List.filter_append]
  rfl

/-- The fields of texts joined by spaces are those of the texts, one text after the other. -/
lemma fields_intercalate (texts : List (List Char)) :
    fields ([' '].intercalate texts) = texts.flatMap fields := by
  induction texts with
  | nil => rfl
  | cons text texts ih =>
    cases texts with
    | nil => rw [List.intercalate_singleton, List.flatMap_singleton]
    | cons next texts =>
      rw [List.intercalate_cons_cons, List.append_assoc, List.singleton_append,
        fields_append_cons text _ (by decide), ih]
      rfl

/-- **The fields of spaced words are the words.** -/
theorem fields_withGaps (gaps : ℕ → Gap) {words : List (List Char)} (h : ∀ w ∈ words, IsWord w) :
    fields (withGaps gaps words) = words := by
  induction words generalizing gaps with
  | nil => rfl
  | cons word words ih =>
    have hword := h word (by simp)
    have hwords : ∀ w ∈ words, IsWord w := fun w hw => h w (by simp [hw])
    cases words with
    | nil => exact fields_word hword
    | cons next words =>
      rw [withGaps, fields_word_gap hword, ih _ hwords]
      simp

end RuneSolver.Text
