import RuneSolver.Json.Printer
import RuneSolver.Proofs.Json.Reading

/-!
JSON that is printed and read back. What is printed writes the value by the grammar. Main
statement: a value whose numbers have the form of numbers and whose strings have texts is read back
from its printed text.
-/

namespace RuneSolver.Json

/-- A value that printing keeps: numbers have their form, strings and keys have texts. -/
inductive Printable : Json → Prop where
  | null : Printable .null
  | bool (b : Bool) : Printable (.bool b)
  | number {written : List Char} (h : isNumber written = true) : Printable (.number written)
  | string (text : String) : Printable (.string (some text))
  | array {elements : List Json} (h : ∀ v ∈ elements, Printable v) : Printable (.array elements)
  | object {members : Members} (hkeys : ∀ m ∈ members, m.1.isSome = true)
      (h : ∀ m ∈ members, Printable m.2) : Printable (.object members)

/-! ### Strings -/

lemma isHexDigit_hexDigit {n : ℕ} (h : n < 16) : IsHexDigit (hexDigit n) n := by
  have hall : ∀ n < 16, "0123456789abcdef".toList[n]? = some (hexDigit n) := by decide
  exact .inl (hall n h)

/-- A character is printed as one code unit, escaped or not. -/
lemma unitText_escape (c : Char) : UnitText (escape c) c.toNat := by
  unfold escape
  split
  · exact .short (by decide)
  · exact .short (by decide)
  · exact .short (by decide)
  · exact .short (by decide)
  · exact .short (by decide)
  · exact .short (by decide)
  · exact .short (by decide)
  · next hquote hslash _ _ _ _ _ =>
    split
    · next hcontrol =>
      have hzero : IsHexDigit '0' 0 := .inl rfl
      have hhex := UnitText.hexadecimal hzero hzero
        (isHexDigit_hexDigit (n := c.toNat / 16) (by omega))
        (isHexDigit_hexDigit (n := c.toNat % 16) (by omega))
      have hvalue : 16 * (16 * (16 * 0 + 0) + c.toNat / 16) + c.toNat % 16 = c.toNat := by omega
      rwa [hvalue] at hhex
    · next hplain => exact .plain hquote hslash (Nat.not_lt.mp hplain)

lemma decodes_map_toNat (cs : List Char) : Decodes (cs.map Char.toNat) cs := by
  induction cs with
  | nil => exact .nil
  | cons c cs ih => exact .char c ih

lemma stringText_quotedText {key : Option String} (h : key.isSome = true) :
    StringText (quotedText key) key := by
  obtain ⟨text, rfl⟩ := Option.isSome_iff_exists.mp h
  have hpieces : ∀ piece ∈ text.toList.map fun c => (escape c, c.toNat),
      UnitText piece.1 piece.2 := by
    intro piece hpiece
    obtain ⟨c, -, rfl⟩ := List.mem_map.mp hpiece
    exact unitText_escape c
  refine ⟨_, hpieces, (text_eq_iff hpieces).mp ?_, ?_⟩
  · have hunits : (text.toList.map fun c => (escape c, c.toNat)).map Prod.snd =
        text.toList.map Char.toNat := by
      rw [List.map_map]
      rfl
    rw [hunits, (decodes_map_toNat text.toList).ofUnits, Option.map_some, String.ofList_toList]
  · rw [List.flatMap_map]
    rfl

/-! ### Values -/

lemma blanks_newLine (depth : ℕ) : Blanks (newLine depth) := by
  refine List.forall_mem_cons.mpr ⟨.inr (.inr (.inl rfl)), fun c hc => .inl ?_⟩
  exact List.eq_of_mem_replicate hc

/-- A printed value on a line of its own. -/
lemma Writes.newLine {cs : List Char} {v : Json} (h : Writes cs v) (depth : ℕ) :
    Writes (newLine depth ++ cs) v := by
  have hpadded := h.padded (blanks_newLine depth) blanks_nil
  rwa [List.append_nil] at hpadded

lemma prettyElements_eq (depth : ℕ) (vs : List Json) :
    prettyElements depth vs = vs.flatMap fun v => ',' :: (newLine depth ++ pretty depth v) := by
  induction vs with
  | nil => rfl
  | cons v vs ih => simp [prettyElements, ih]

/-- A printed member, on a line of its own. -/
def memberText (depth : ℕ) (m : Option String × Json) : MemberText :=
  ⟨newLine depth, quotedText m.1, m.1, [], ' ' :: pretty depth m.2, m.2⟩

lemma prettyMembers_eq (depth : ℕ) (ms : Members) :
    prettyMembers depth ms = ms.flatMap fun m => ',' :: (memberText depth m).text := by
  induction ms with
  | nil => rfl
  | cons m ms ih => simp [prettyMembers, memberText, MemberText.text, ih]

/-- **A value is printed as a text that writes it.** -/
theorem Printable.writes {v : Json} (h : Printable v) (depth : ℕ) : Writes (pretty depth v) v := by
  induction h generalizing depth with
  | null => exact .null
  | bool b =>
    cases b with
    | true => exact .true
    | false => exact .false
  | number h => exact .number (isNumber_iff.mp h)
  | string text => exact .string (stringText_quotedText rfl)
  | @array elements h ih =>
    cases elements with
    | nil => exact .emptyArray blanks_nil
    | cons first rest =>
      have hall : ∀ element ∈ (first :: rest).map fun v =>
          (Json.newLine (depth + 1) ++ pretty (depth + 1) v, v), Writes element.1 element.2 := by
        intro element helement
        obtain ⟨v, hv, rfl⟩ := List.mem_map.mp helement
        exact (ih v hv (depth + 1)).newLine (depth + 1)
      have harray := Writes.array hall (blanks_newLine depth)
      simpa [pretty, prettyElements_eq, List.flatMap_map, Function.comp_def] using harray
  | @object members hkeys h ih =>
    cases members with
    | nil => exact .emptyObject blanks_nil
    | cons first rest =>
      have hkeys : ∀ m ∈ (first :: rest).map (memberText (depth + 1)), m.HasKey := by
        intro m hm
        obtain ⟨member, hmember, rfl⟩ := List.mem_map.mp hm
        exact ⟨blanks_newLine _, stringText_quotedText (hkeys member hmember), blanks_nil⟩
      have hvalues : ∀ m ∈ (first :: rest).map (memberText (depth + 1)),
          Writes m.valueText m.value := by
        intro m hm
        obtain ⟨member, hmember, rfl⟩ := List.mem_map.mp hm
        have hspace : Blanks [' '] := by
          intro c hc
          exact .inl (List.mem_singleton.mp hc)
        simpa [memberText] using (ih member hmember (depth + 1)).padded hspace blanks_nil
      have hobject := Writes.object hkeys hvalues (blanks_newLine depth)
      simpa [pretty, prettyMembers_eq, memberText, MemberText.text, MemberText.member,
        List.flatMap_map, Function.comp_def] using hobject

/-- **Printed values are read back.** -/
theorem parse_print {v : Json} (h : Printable v) : parse? (print v) = some v := by
  refine parse?_of_writes ?_
  rw [print, String.toList_ofList]
  exact h.writes 0

end RuneSolver.Json
