import RuneSolver.Formula.Token
import RuneSolver.Proofs.Text.Blank
import RuneSolver.Proofs.Text.Numeral

/-!
The words of tokens. Every token but an unknown one is read back from its own word, and its word
stands in a text between blanks as one field.
-/

namespace RuneSolver.Token

/-- A token that a formula with a value can hold. -/
def Known : Token → Prop
  | unknown _ => False
  | _ => True

/-- Every symbol is free of digits, and every numeral has one. -/
lemma symbol_ne_integerText {s : String × Category} (hs : s ∈ registry) (i : ℤ) :
    s.1 ≠ Text.integerText i := by
  have hsymbols : (registry.all fun p => p.1.toList.all (!·.isDigit)) = true := by decide
  intro heq
  obtain ⟨c, hc, hdigit⟩ := Text.exists_digit_mem_integer i
  have hmem : c ∈ s.1.toList := by rw [heq, Text.integerText, String.toList_ofList]; exact hc
  have hno := List.all_eq_true.mp (List.all_eq_true.mp hsymbols s hs) c hmem
  rw [hdigit] at hno
  cases hno

lemma ofWord_integerText (v : Int32) : ofWord (Text.integerText v.toInt) = literal v := by
  have hsingle : Single.ofSymbol? (Text.integerText v.toInt) = none := by
    refine List.find?_eq_none.mpr fun s hs => ?_
    have hmem : (s.symbol, Category.single) ∈ registry := by cases s <;> decide
    simpa using symbol_ne_integerText hmem v.toInt
  have hspecial : Special.ofSymbol? (Text.integerText v.toInt) = none := by
    refine List.find?_eq_none.mpr fun s hs => ?_
    have hmem : (s.symbol, Category.special) ∈ registry := by cases s <;> decide
    simpa using symbol_ne_integerText hmem v.toInt
  have hoperation : Operation.ofSymbol? (Text.integerText v.toInt) = none := by
    refine List.find?_eq_none.mpr fun o ho => ?_
    have hmem : (o.symbol, Category.operation) ∈ registry := by cases o <;> decide
    simpa using symbol_ne_integerText hmem v.toInt
  have hread : Text.readInt32 (Text.integerText v.toInt).toList = .ok v := by
    rw [Text.integerText, String.toList_ofList, Text.readInt32_integer]
  simp only [ofWord, hsingle, hspecial, hoperation, hread]

/-- **A known token is read back from its word.** -/
theorem ofWord_word {token : Token} (h : token.Known) : ofWord token.word = token := by
  cases token with
  | literal v => exact ofWord_integerText v
  | single s => cases s <;> decide
  | special s => cases s <;> decide
  | operation o => cases o <;> decide
  | unknown w => exact absurd h id

/-- The word of a known token is one field. -/
theorem isWord_word {token : Token} (h : token.Known) : Text.IsWord token.word.toList := by
  cases token with
  | literal v =>
    rw [word, Text.integerText, String.toList_ofList]
    refine ⟨?_, fun c hc => ?_⟩
    · obtain ⟨c, hc, -⟩ := Text.exists_digit_mem_integer v.toInt
      exact List.ne_nil_of_mem hc
    · rcases Text.eq_minus_or_isDigit_of_mem_integer hc with rfl | hdigit
      · decide
      · exact Text.isBlank_of_isDigit hdigit
  | single s => cases s <;> exact Text.isWord_of_all (by decide)
  | special s => cases s <;> exact Text.isWord_of_all (by decide)
  | operation o => cases o <;> exact Text.isWord_of_all (by decide)
  | unknown w => exact absurd h id

/-- **Known tokens are read back from their spaced words.** -/
theorem tokens_ofText_withGaps (gaps : ℕ → Text.Gap) {tokens : List Token}
    (h : ∀ token ∈ tokens, token.Known) :
    (Formula.ofText
      (String.ofList (Text.withGaps gaps (tokens.map (·.word.toList))))).tokens = tokens := by
  have hwords : ∀ w ∈ tokens.map (·.word.toList), Text.IsWord w := by
    intro w hw
    obtain ⟨token, htoken, rfl⟩ := List.mem_map.mp hw
    exact isWord_word (h token htoken)
  rw [Formula.ofText, String.toList_ofList, Text.fields_withGaps gaps hwords, List.map_map]
  refine (List.map_congr_left fun token htoken => ?_).trans (List.map_id tokens)
  simpa using ofWord_word (h token htoken)

/-- A text that is joined from others by spaces has their tokens, one text after the other. -/
theorem tokens_ofText_intercalate (texts : List String) :
    (Formula.ofText (" ".intercalate texts)).tokens =
      texts.flatMap fun text => (Formula.ofText text).tokens := by
  have hspace : " ".toList = [' '] := rfl
  rw [Formula.ofText, String.toList_intercalate, hspace, Text.fields_intercalate,
    List.flatMap_map, List.map_flatMap]
  rfl

end RuneSolver.Token
