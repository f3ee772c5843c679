import RuneSolver.Language.Model
import RuneSolver.Proofs.Text.Slice

/-!
The windows of a text, which are cut out of its bytes. Main statement: whatever number of bytes the
characters have, every cut lies inside of the text and between characters, the windows are the runs
of successive characters in order, and the sum of their scores is divided by the number of
characters.
-/

namespace RuneSolver.Language

open Text (Cuts boundaries)

/-- A text has a start of a window for each run of characters that it has. -/
lemma starts_eq {text : String} {width : ℕ} (hwidth : 1 ≤ width) :
    (boundaries text).size - 1 - (width - 1) = text.toList.length + 1 - width := by
  rw [Text.size_boundaries]
  omega

/-- The window at a start is cut out between characters. -/
lemma exists_window? {text : String} {width start : ℕ} (h : start + width ≤ text.toList.length) :
    ∃ first last, (boundaries text)[start]? = some first ∧
      (boundaries text)[start + width]? = some last ∧
      Cuts text first last ((text.toList.drop start).take width) ∧
      window? text (boundaries text) width start =
        some (String.ofList ((text.toList.drop start).take width)) := by
  obtain ⟨first, last, hfirst, hlast, hcuts⟩ :=
    Text.cuts_boundaries (Nat.le_add_right start width) h
  rw [Nat.add_sub_cancel_left] at hcuts
  refine ⟨first, last, hfirst, hlast, hcuts, ?_⟩
  rw [window?, hfirst, hlast]
  exact hcuts.slice?_eq

/-- **Windows are runs of successive characters.** -/
theorem windows_eq {width : ℕ} (hwidth : 1 ≤ width) (cs : List Char) :
    windows width cs =
      (List.range (cs.length + 1 - width)).map fun start => (cs.drop start).take width := by
  have hwindow : ∀ start ∈ List.range (cs.length + 1 - width),
      window? (String.ofList cs) (boundaries (String.ofList cs)) width start =
        some (String.ofList ((cs.drop start).take width)) := by
    intro start hstart
    rw [List.mem_range] at hstart
    have hfits : start + width ≤ (String.ofList cs).toList.length := by
      rw [String.toList_ofList]
      omega
    obtain ⟨-, -, -, -, -, hwindow⟩ := exists_window? hfits
    rwa [String.toList_ofList] at hwindow
  rw [windows]
  simp only [starts_eq hwidth, String.toList_ofList]
  rw [List.filterMap_congr hwindow, List.filterMap_eq_map', List.map_map]
  simp only [Function.comp_def, String.toList_ofList]

namespace Model

lemma scoreJudged_of_ne_nil {m : Model} {cs : List Char} (h : cs ≠ []) :
    m.scoreJudged cs = m.sum (windows m.width cs) / cs.length.toUInt64.toFloat := by
  have hlength : (boundaries (String.ofList cs)).size - 1 = cs.length := by
    rw [Text.size_boundaries, String.toList_ofList, Nat.add_sub_cancel]
  rw [scoreJudged]
  simp only [hlength, if_neg (mt List.eq_nil_of_length_eq_zero h)]

/-- **A text is scored by its windows.** Every cut that is taken lies inside of the text and between
characters, the windows are the runs of as many successive characters as the width, from left to
right, and the sum of what the table has for them is divided by the number of characters. -/
theorem scoreJudged_eq_windows (m : Model) (hwidth : 1 ≤ m.width) {text : String}
    (htext : text.toList ≠ []) :
    (∀ start < (boundaries text).size - 1 - (m.width - 1), ∃ first last,
      (boundaries text)[start]? = some first ∧ (boundaries text)[start + m.width]? = some last ∧
      Cuts text first last ((text.toList.drop start).take m.width) ∧
      window? text (boundaries text) m.width start =
        some (String.ofList ((text.toList.drop start).take m.width))) ∧
    windows m.width text.toList = (List.range (text.toList.length + 1 - m.width)).map
      (fun start => (text.toList.drop start).take m.width) ∧
    m.scoreJudged text.toList =
      (List.range (text.toList.length + 1 - m.width)).foldl (fun total start =>
          total + m.scores.getD (String.ofList ((text.toList.drop start).take m.width)) m.unseen)
        0.0 / text.toList.length.toUInt64.toFloat := by
  have hwindows := windows_eq hwidth text.toList
  refine ⟨fun start hstart => ?_, hwindows, ?_⟩
  · rw [starts_eq hwidth] at hstart
    exact exists_window? (by omega)
  · rw [scoreJudged_of_ne_nil htext, hwindows, sum, List.foldl_map]
    rfl

/-- Characters of one to four bytes, in windows of two and in none of five. -/
theorem scoreJudged_eq_windows_bytes :
    ("aßᚠ𝄞".toList ≠ [] ∧ boundaries "aßᚠ𝄞" = #[0, 1, 3, 6, 10]) ∧
    (1 ≤ (2 : ℕ) ∧ windows 2 "aßᚠ𝄞".toList = [['a', 'ß'], ['ß', 'ᚠ'], ['ᚠ', '𝄞']] ∧
      ∃ first last, (boundaries "aßᚠ𝄞")[1]? = some first ∧ (boundaries "aßᚠ𝄞")[3]? = some last ∧
        Cuts "aßᚠ𝄞" first last ['ß', 'ᚠ']) ∧
    1 ≤ (5 : ℕ) ∧ windows 5 "aßᚠ𝄞".toList = [] := by
  have htext : "aßᚠ𝄞".toList ≠ [] := by decide +kernel
  obtain ⟨hcuts, hpairs, -⟩ := scoreJudged_eq_windows ⟨2, 0, ∅⟩ (by decide) htext
  obtain ⟨-, hnone, -⟩ := scoreJudged_eq_windows ⟨5, 0, ∅⟩ (by decide) htext
  obtain ⟨first, last, hfirst, hlast, hpiece, -⟩ := hcuts 1 (by decide +kernel)
  exact ⟨⟨htext, by decide +kernel⟩, ⟨by decide, hpairs, first, last, hfirst, hlast, hpiece⟩,
    by decide, hnone⟩

end Model

end RuneSolver.Language
