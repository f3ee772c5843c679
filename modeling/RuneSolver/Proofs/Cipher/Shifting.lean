import RuneSolver.Proofs.Cipher.Selection

/-!
Shifts of any size. A shift is added to the index of a rune in a word of sixty-four bits, and only
then the remainder by the size of the alphabet is taken. Main statement: a document has the same
text under a shift as under its remainder, with each rune where the exact sum belongs, as long as no
sum leaves the word; where one does, the document has no text at all.
-/

namespace RuneSolver.Cipher

namespace Solver

variable {s : Solver} {f : Formula} {d : Document} {shift : UInt64} {segments : List Segment}

/-- A shift can be added to all computed indices in a word. -/
def Fits (shift : UInt64) (segments : List Segment) : Prop :=
  ∀ index, .computed index ∈ segments → index + shift.toNat < 2 ^ 64

/-- The text of a segment whose index is moved by the exact sum. -/
def exactText (s : Solver) (shift : ℕ) : Segment → List Char
  | .plain c => [c]
  | .lineEnd => ['\n']
  | .skipped rune => rune.plaintext.toList
  | .computed index =>
    ((s.alphabet.at? ((index + shift) % s.size)).map (·.plaintext.toList)).getD []

lemma exactText_mod (s : Solver) (shift : ℕ) :
    s.exactText (shift % s.size) = s.exactText shift := by
  funext segment
  cases segment with
  | computed index => rw [exactText, exactText, Nat.add_mod_mod]
  | _ => rfl

lemma Fits.mono {shift' : UInt64} (h : Fits shift segments) (hle : shift'.toNat ≤ shift.toNat) :
    Fits shift' segments := by
  intro index hindex
  have hlt := h index hindex
  omega

/-- Segments whose sums stay in the word have the text of the exact sums. -/
lemma textOf?_of_fits (h : Fits shift segments) :
    s.textOf? shift segments = some (segments.flatMap (s.exactText shift.toNat)) := by
  induction segments with
  | nil => rfl
  | cons segment segments ih =>
    have hhead : s.segmentText? shift segment = some (s.exactText shift.toNat segment) := by
      cases segment with
      | computed index =>
        have hlt : index + shift.toNat < 2 ^ 64 := h index List.mem_cons_self
        rw [segmentText?, shifted?_of_lt hlt, exactText, Option.map_some]
        cases s.alphabet.at? ((index + shift.toNat) % s.size) <;> rfl
      | _ => rfl
    have htail := ih fun index hindex => h index (List.mem_cons_of_mem _ hindex)
    rw [textOf?, hhead, htail, List.flatMap_cons]
    rfl

lemma decipher_of_fits (hsegments : (s.segments f d).outcome [] = .ok segments)
    (h : Fits shift segments) :
    s.decipher f d shift = .ok (segments.flatMap (s.exactText shift.toNat)) := by
  rw [decipher, hsegments]
  simp only [textOf?_of_fits h]

/-- A formula fails under all shifts or under none of them. -/
lemma decipher_eq_failure_iff {e : FormulaError} :
    s.decipher f d shift = .error (.failure e) ↔ (s.segments f d).outcome [] = .error e := by
  rw [decipher]
  cases (s.segments f d).outcome [] with
  | error e' => simp
  | ok segments => cases htext : s.textOf? shift segments <;> simp [htext]

/-- The remainder of a shift, as a shift. -/
def remainder (s : Solver) (shift : UInt64) : UInt64 := .ofNat (shift.toNat % s.size)

lemma toNat_remainder : (s.remainder shift).toNat = shift.toNat % s.size :=
  UInt64.toNat_ofNat_of_lt' (Nat.lt_of_le_of_lt (Nat.mod_le _ _) shift.toNat_lt)

/-- **Shifts are cyclic as far as they fit.** No shift makes a formula fail that does not fail
without one. The text under a shift that can be added to all computed indices is that of the exact
sums, and its remainder has the same text; under any other shift there is no text. The remainder of
a shift has the text of the exact sums also then, if twice the size of the alphabet is a word. -/
theorem decipher_remainder {source : String} {s : Solver}
    (hparse : (Alphabet.parse source).2 = .ok s.alphabet) (f : Formula) (d : Document)
    (shift : UInt64) :
    (∀ e, s.decipher f d shift = .error (.failure e) ↔ s.decipher f d 0 = .error (.failure e)) ∧
    ∀ segments, (s.segments f d).outcome [] = .ok segments →
      (∀ index, .computed index ∈ segments → index < s.size ∧
        ∃ rune, s.alphabet.at? ((index + shift.toNat) % s.size) = some rune) ∧
      (s.decipher f d shift = .error .overflow ↔ ¬Fits shift segments) ∧
      (Fits shift segments →
        s.decipher f d shift = .ok (segments.flatMap (s.exactText shift.toNat)) ∧
          s.decipher f d shift = s.decipher f d (s.remainder shift)) ∧
      (2 * s.size ≤ 2 ^ 64 → s.decipher f d (s.remainder shift) =
        .ok (segments.flatMap (s.exactText shift.toNat))) := by
  obtain ⟨hpos, -, -⟩ := Alphabet.exists_first_of_parse hparse
  refine ⟨fun e => decipher_eq_failure_iff.trans decipher_eq_failure_iff.symm,
    fun segments hsegments => ⟨fun index hindex => ?_, ?_, fun hfits => ?_, fun hsize => ?_⟩⟩
  · exact ⟨(lt_size_of_mem_segments hsegments hindex).1,
      _, Array.getElem?_eq_getElem (Nat.mod_lt _ hpos)⟩
  · rw [decipher_eq_overflow_iff, Fits]
    simp only [hsegments, Except.ok.injEq, exists_eq_left', not_forall, not_lt, exists_prop]
  · have hremainder : Fits (s.remainder shift) segments :=
      hfits.mono (toNat_remainder.trans_le (Nat.mod_le _ _))
    rw [decipher_of_fits hsegments hfits, decipher_of_fits hsegments hremainder, toNat_remainder,
      exactText_mod]
    exact ⟨rfl, rfl⟩
  · have hremainder : Fits (s.remainder shift) segments := by
      intro index hindex
      have hlt := (lt_size_of_mem_segments hsegments hindex).1
      have hmod : shift.toNat % s.size < s.size := Nat.mod_lt _ hpos
      rw [toNat_remainder]
      omega
    rw [decipher_of_fits hsegments hremainder, toNat_remainder, exactText_mod]

end Solver

/-- The greatest shift that fits for both runes of the line. -/
theorem decipher_remainder_greatest :
    (Alphabet.parse Alphabet.sampleTable).2 = .ok sampleSolver.alphabet ∧
      Solver.Fits 18446744073709551614 sampleSegments ∧
      sampleSolver.decipher (.ofText "p") sampleLine 18446744073709551614 =
        .ok "CA-+*\n".toList ∧
      sampleSolver.decipher (.ofText "p") sampleLine (sampleSolver.remainder 18446744073709551614) =
        .ok "CA-+*\n".toList := by
  have hfits : Solver.Fits 18446744073709551614 sampleSegments := by
    intro index hindex
    have hshift : (18446744073709551614 : UInt64).toNat = 2 ^ 64 - 2 := by decide
    simp only [sampleSegments, List.mem_cons, Segment.computed.injEq, reduceCtorEq, or_false,
      List.not_mem_nil] at hindex
    omega
  obtain ⟨-, htext⟩ := Solver.decipher_remainder (s := sampleSolver) Alphabet.parse_sampleTable
    (.ofText "p") sampleLine 18446744073709551614
  obtain ⟨-, -, hsame, -⟩ := htext _ outcome_segments_sampleLine.1
  obtain ⟨hexact, hremainder⟩ := hsame hfits
  have hrunes : sampleSegments.flatMap
      (sampleSolver.exactText (18446744073709551614 : UInt64).toNat) = "CA-+*\n".toList := by
    decide +kernel
  rw [hrunes] at hexact
  exact ⟨Alphabet.parse_sampleTable, hfits, hexact, hremainder ▸ hexact⟩

/-- One more, and the sum for the second rune leaves the word, though the remainder zero has a
text. -/
theorem decipher_beyond_word :
    (Alphabet.parse Alphabet.sampleTable).2 = .ok sampleSolver.alphabet ∧
      sampleSolver.decipher (.ofText "p") sampleLine 18446744073709551615 = .error .overflow ∧
      sampleSolver.decipher (.ofText "p") sampleLine (sampleSolver.remainder 18446744073709551615) =
        .ok "AB-+*\n".toList := by
  rw [Solver.decipher, Solver.decipher, outcome_segments_sampleLine.1]
  exact ⟨Alphabet.parse_sampleTable, rfl, rfl⟩

end RuneSolver.Cipher
