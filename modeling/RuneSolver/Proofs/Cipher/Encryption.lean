import Mathlib.Algebra.Group.Int.Defs
import RuneSolver.Proofs.Cipher.Translation
import RuneSolver.Proofs.Formula.Postfix

/-!
Encryption by a key that depends on positions alone. Each rune is moved back by the value of the
key formula at its position, and by the shift. Main statement: the formula that adds the key to the
index of the rune at hand deciphers what comes out to the runes that went in.
-/

namespace RuneSolver

/-! ### Formulas of the position -/

/-- A token that asks for no rune. -/
def Token.IsPositional : Token → Prop
  | single s => s = .position
  | unknown _ => False
  | _ => True

instance (token : Token) : Decidable token.IsPositional :=
  match token with
  | .single s => inferInstanceAs (Decidable (s = .position))
  | .unknown _ => isFalse id
  | .literal _ | .special _ | .operation _ => isTrue trivial

namespace Token

variable {t : NumberTables} {c c' : Context}

lemma step_congr {token : Token} (h : token.IsPositional) (hc : c.position = c'.position) :
    token.step t c = token.step t c' := by
  cases token with
  | single s =>
    obtain rfl : s = .position := h
    rw [step, step, Single.value, Single.value, hc]
  | unknown word => exact absurd h id
  | literal value => rfl
  | special s => rfl
  | operation o => rfl

/-- A formula of the position has the same value for all runes. -/
lemma run_congr {tokens : List Token} (h : ∀ token ∈ tokens, token.IsPositional)
    (hc : c.position = c'.position) : run t c tokens = run t c' tokens := by
  induction tokens with
  | nil => rfl
  | cons token tokens ih =>
    obtain ⟨htoken, htokens⟩ := List.forall_mem_cons.mp h
    rw [run_cons, run_cons, step_congr htoken hc, ih htokens]

end Token

namespace Formula

variable {t : NumberTables} {c c' : Context} {g : String} {k : Int32}

lemma evaluate_congr {f : Formula} (h : ∀ token ∈ f.tokens, token.IsPositional)
    (hc : c.position = c'.position) : f.evaluate t c = f.evaluate t c' := by
  rw [evaluate, evaluate, evaluateOn, evaluateOn, Token.run_congr h hc]

/-- The words of a formula between `p` and `+` add its value to the index of the current rune. -/
lemma evaluate_index_add (h : (ofText g).evaluate t c = .ok k) :
    (ofText ("p " ++ g ++ " +")).evaluate t c =
      .ok (.ofInt (c.current.operand.toInt + k.toInt)) := by
  obtain ⟨e, htokens, hvalue⟩ := Expression.exists_of_outcome_evaluateOn h
  have hjoined : "p " ++ g ++ " +" = " ".intercalate ["p", g, "+"] :=
    String.toList_inj.mp (by simp)
  have hsum : (ofText ("p " ++ g ++ " +")).tokens =
      (Expression.operation .add (.single .index) e).postorder := by
    rw [hjoined, Token.tokens_ofText_intercalate]
    simp only [List.flatMap_cons, List.flatMap_nil, htokens, Expression.postorder]
    rfl
  rw [evaluate, Expression.outcome_evaluateOn hsum, Expression.value, Expression.value, hvalue]
  rfl

end Formula

namespace Cipher

/-! ### Words of runes as documents -/

/-- The text that is written with runes. -/
def written (word : List Rune) : List Char := word.map (·.symbol)

/-- The document whose only line is written with runes. -/
def Document.ofWord (word : List Rune) : Document :=
  ⟨[String.ofList (written word)], Skips.none⟩

section Words

variable {a : Alphabet} {word : List Rune}

lemma filterMap_written (ha : a.OneToOne) (hword : ∀ r ∈ word, r ∈ a.runes) :
    (written word).filterMap a.rune? = word := by
  rw [written, List.filterMap_map]
  refine (List.filterMap_congr fun r hr => ?_).trans List.filterMap_some
  exact (ha.rune?_iff _ r).mpr ⟨hword r hr, rfl⟩

lemma Place.ofLine_written (ha : a.OneToOne) (hword : ∀ r ∈ word, r ∈ a.runes) (j : ℕ) :
    ofLine a j (written word) = (List.range' j word.length).map rune ++ [lineEnd] := by
  induction word generalizing j with
  | nil => rfl
  | cons r word ih =>
    obtain ⟨hr, hrest⟩ := List.forall_mem_cons.mp hword
    have hlookup : a.rune? r.symbol = some r := (ha.rune?_iff _ r).mpr ⟨hr, rfl⟩
    change ofLine a j (r.symbol :: written word) = _
    rw [ofLine, hlookup, List.length_cons, List.range'_succ]
    simp only
    rw [ih hrest]
    rfl

/-- A word of runes is a document of one line, all of which is cipher text. -/
lemma parse_written (ha : a.OneToOne) (hword : ∀ r ∈ word, r ∈ a.runes) (hne : word ≠ [])
    (hskips : isSkipsLine (written word) = false) :
    Document.parse (String.ofList (written word)) = .ok (.ofWord word) := by
  have hfeed : '\n' ∉ written word := by
    intro hmem
    obtain ⟨r, hr, hsymbol⟩ := List.mem_map.mp hmem
    have hblank := ha.noBlank r (hword r hr)
    rw [hsymbol] at hblank
    exact absurd hblank (by decide)
  have hnil : written word ≠ [] := by simpa [written] using hne
  rw [Document.parse, Text.linesOf, String.toList_ofList, Text.lines_of_not_mem hfeed hnil,
    List.map_singleton, Document.ofLines, List.map_singleton, String.toList_ofList,
    List.find?_singleton, hskips]
  rfl

lemma content_ofWord (hskips : isSkipsLine (written word) = false) :
    (Document.ofWord word).content = [written word] := by
  rw [Document.content, Document.ofWord, List.map_singleton, String.toList_ofList,
    List.filter_cons_of_pos (by simpa using hskips)]
  rfl

lemma runesOf_ofWord (ha : a.OneToOne) (hword : ∀ r ∈ word, r ∈ a.runes)
    (hskips : isSkipsLine (written word) = false) :
    runesOf a (Document.ofWord word).content = word := by
  rw [content_ofWord hskips, runesOf, List.flatten_singleton, filterMap_written ha hword]

/-- The runes of a word are evaluated one after the other, none of them passes through. -/
lemma contextAt_ofWord (ha : a.OneToOne) (hword : ∀ r ∈ word, r ∈ a.runes)
    (hskips : isSkipsLine (written word) = false) {first r : Rune} {j : ℕ}
    (hr : word[j]? = some r) :
    (Reading.ofDocument a first (.ofWord word)).contextAt j =
      ⟨r, (Reading.ofDocument a first (.ofWord word)).previousAt j, .ofNat j⟩ := by
  have hcurrent : (Reading.ofDocument a first (.ofWord word)).runeAt j = r := by
    change (runesOf a (Document.ofWord word).content).getD j first = r
    rw [runesOf_ofWord ha hword hskips, List.getD_eq_getElem?_getD, hr, Option.getD_some]
  have hposition : (Document.ofWord word).skips.positionOf j = j := Skips.positionOf_none j
  rw [Reading.contextAt, hcurrent]
  change Context.mk r _ (.ofNat ((Document.ofWord word).skips.positionOf j)) = _
  rw [hposition]

end Words

/-! ### Moving back and forth -/

namespace Solver

/-- The index that a rune is enciphered to: it goes back by the key and by the shift, on the cycle
of the indices. -/
def cipherIndex (s : Solver) (k : Int32) (shift : UInt64) (r : Rune) : ℕ :=
  ((r.index.toNat - k.toInt - shift.toNat) % s.size).toNat

/-- A word of runes, each enciphered by the key of its position. -/
def encipher (s : Solver) (key : ℕ → Int32) (shift : UInt64) (word : List Rune) : List Rune :=
  word.mapIdx fun i r => (s.alphabet.at? (s.cipherIndex (key i) shift r)).getD r

variable {s : Solver} {shift : UInt64} {key : ℕ → Int32} {word : List Rune}

lemma length_encipher : (s.encipher key shift word).length = word.length := List.length_mapIdx

/-- What a rune is enciphered to is a rune of the table. -/
lemma exists_getElem?_encipher (key : ℕ → Int32) (shift : UInt64) (ha : s.alphabet.OneToOne)
    (hpos : 0 < s.size) {i : ℕ} {r : Rune} (hi : word[i]? = some r) :
    ∃ q, (s.encipher key shift word)[i]? = some q ∧ q ∈ s.alphabet.runes ∧
      (q.index.toNat : ℤ) = (r.index.toNat - (key i).toInt - shift.toNat) % s.size := by
  have hlow : 0 ≤ (r.index.toNat - (key i).toInt - shift.toNat) % s.size :=
    Int.emod_nonneg _ (by omega)
  have hhigh : (r.index.toNat - (key i).toInt - shift.toNat) % s.size < s.size :=
    Int.emod_lt_of_pos _ (by omega)
  have hlt : s.cipherIndex (key i) shift r < s.alphabet.runes.size := by
    change s.cipherIndex (key i) shift r < s.size
    rw [cipherIndex]
    omega
  obtain ⟨q, hat⟩ : ∃ q, s.alphabet.at? (s.cipherIndex (key i) shift r) = some q :=
    ⟨_, Array.getElem?_eq_getElem hlt⟩
  obtain ⟨hmem, hindex⟩ := (ha.at?_iff _ _).mp hat
  refine ⟨q, ?_, hmem, ?_⟩
  · rw [encipher, List.getElem?_mapIdx, hi, Option.map_some, hat, Option.getD_some]
  · rw [hindex, cipherIndex]
    omega

lemma mem_runes_of_mem_encipher (ha : s.alphabet.OneToOne) (hpos : 0 < s.size) {q : Rune}
    (hq : q ∈ s.encipher key shift word) : q ∈ s.alphabet.runes := by
  obtain ⟨i, hi⟩ := List.mem_iff_getElem?.mp hq
  obtain ⟨hlt, -⟩ := List.getElem?_eq_some_iff.mp hi
  rw [length_encipher] at hlt
  obtain ⟨q', hq', hmem, -⟩ :=
    exists_getElem?_encipher key shift ha hpos (List.getElem?_eq_getElem hlt)
  rw [hi] at hq'
  exact Option.some.inj hq' ▸ hmem

/-- A rune that went back by the key and the shift comes forth by them to where it was. -/
lemma targetOf_add {q r : Rune} {k : Int32} (hsize : s.size ≤ 2 ^ 31 - 1)
    (hr : r.index.toNat < s.size) (hq : q.index.toNat < s.size)
    (hqr : (q.index.toNat : ℤ) = (r.index.toNat - k.toInt - shift.toNat) % s.size)
    (hrange : -2 ^ 31 ≤ q.index.toNat + k.toInt ∧ q.index.toNat + k.toInt < 2 ^ 31) :
    s.targetOf shift (.ofInt (q.operand.toInt + k.toInt)) = r.index.toNat := by
  have hoperand : q.operand.toInt = q.index.toNat := Int32.toInt_ofNat_of_lt (by omega)
  have hvalue : (Int32.ofInt (q.operand.toInt + k.toInt)).toInt = q.index.toNat + k.toInt := by
    rw [hoperand]
    exact Int32.toInt_ofInt_of_le hrange.1 hrange.2
  have hlow : 0 ≤ (q.index.toNat + k.toInt) % s.size := Int.emod_nonneg _ (by omega)
  have htarget : (s.targetOf shift (.ofInt (q.operand.toInt + k.toInt)) : ℤ) = r.index.toNat :=
    calc (s.targetOf shift (.ofInt (q.operand.toInt + k.toInt)) : ℤ)
        = ((q.index.toNat + k.toInt) % s.size + shift.toNat) % s.size := by
          rw [targetOf, hvalue, Int.natCast_emod, Int.natCast_add, Int.toNat_of_nonneg hlow]
      _ = (q.index.toNat + (k.toInt + shift.toNat)) % s.size := by
          rw [Int.emod_add_emod, Int.add_assoc]
      _ = (r.index.toNat - k.toInt - shift.toNat + (k.toInt + shift.toNat)) % s.size := by
          rw [hqr, Int.emod_add_emod]
      _ = r.index.toNat % s.size := by
          congr 1
          omega
      _ = r.index.toNat := Int.emod_eq_of_lt (by omega) (by omega)
  omega

/-- A document that is a word of runes is deciphered to another word if the formula points, at
each rune of the one, to the rune of the other. -/
lemma decipher_written {cipher : List Rune} {f : Formula} (ha : s.alphabet.OneToOne)
    {first : Rune} (hfirst : s.alphabet.at? 0 = some first) (hsize : s.size ≤ 2 ^ 31 - 1)
    (hshift : shift.toNat < s.size) (hcipher : ∀ q ∈ cipher, q ∈ s.alphabet.runes)
    (hlength : cipher.length = word.length) (hskips : isSkipsLine (written cipher) = false)
    (hpoints : ∀ (j : ℕ) (q r previous : Rune), cipher[j]? = some q → word[j]? = some r →
      ∃ v, f.evaluate s.tables ⟨q, previous, .ofNat j⟩ = .ok v ∧
        s.alphabet.at? (s.targetOf shift v) = some r) :
    s.decipher f (.ofWord cipher) shift = .ok (word.flatMap (·.plaintext.toList) ++ ['\n']) := by
  let reading := Reading.ofDocument s.alphabet first (.ofWord cipher)
  have hnone (j : ℕ) : j ∉ reading.skips.passing := List.not_mem_nil
  have hvalue {j : ℕ} {r : Rune} (hr : word[j]? = some r) :
      s.failureAt? f reading j = none ∧
        s.placeText f reading shift (.rune j) = r.plaintext.toList := by
    obtain ⟨hj, -⟩ := List.getElem?_eq_some_iff.mp hr
    have hq := List.getElem?_eq_getElem (hlength ▸ hj)
    obtain ⟨v, hv, hat⟩ := hpoints j _ r (reading.previousAt j) hq hr
    rw [← contextAt_ofWord ha hcipher hskips hq] at hv
    rw [failureAt?, placeText, if_neg (hnone j), if_neg (hnone j), valueAt, hv]
    simp only [hat]
    exact ⟨trivial, rfl⟩
  have hfailure : (List.range cipher.length).findSome? (s.failureAt? f reading) = none := by
    refine List.findSome?_eq_none_iff.mpr fun j hj => ?_
    rw [List.mem_range, hlength] at hj
    exact (hvalue (List.getElem?_eq_getElem hj)).1
  have htexts : (List.range' 0 cipher.length).map
      (fun j => s.placeText f reading shift (.rune j)) = word.map (·.plaintext.toList) := by
    refine List.ext_getElem (by simp [hlength]) fun j hj hj' => ?_
    rw [List.length_map] at hj'
    simpa using (hvalue (List.getElem?_eq_getElem hj')).2
  rw [s.decipher_eq hfirst (by omega) hsize (by omega), runesOf_ofWord ha hcipher hskips, hfailure]
  simp only
  rw [content_ofWord hskips, Place.ofLines, Place.ofLine_written ha hcipher, Place.ofLines,
    List.append_nil, List.flatMap_append, List.flatMap_map, List.flatMap_def, htexts,
    ← List.flatMap_def]
  rfl

/-- **Decipherment inverts encryption by position.** A word of runes of a table without duplicates
is moved back, rune by rune, by the value of a key formula at the position, and by a shift. As long
as the key does not take an index out of the range of thirty-two bits and what comes out does not
read as a list of skips, the formula that adds the key to the index deciphers it, under the same
shift, to the plaintexts of the word. -/
theorem decipher_encipher {source : String} {s : Solver} {g : String} {key : ℕ → Int32}
    {shift : UInt64} {word : List Rune} (hparse : Alphabet.parse source = ([], .ok s.alphabet))
    (hsize : s.size ≤ 2 ^ 31 - 1) (hg : ∀ token ∈ (Formula.ofText g).tokens, token.IsPositional)
    (hword : ∀ r ∈ word, s.alphabet.rune? r.symbol = some r) (hne : word ≠ [])
    (hshift : shift.toNat < s.size)
    (hkey : ∀ i < word.length, ∃ current previous,
      (Formula.ofText g).evaluate s.tables ⟨current, previous, .ofNat i⟩ = .ok (key i))
    (hrange : ∀ i < word.length, ∀ index < s.size,
      -2 ^ 31 ≤ index + (key i).toInt ∧ index + (key i).toInt < 2 ^ 31)
    (hskips : isSkipsLine (written (s.encipher key shift word)) = false) :
    (s.encipher key shift word).length = word.length ∧
      (∀ (i : ℕ) (r : Rune), word[i]? = some r → ∃ q, (s.encipher key shift word)[i]? = some q ∧
        s.alphabet.rune? q.symbol = some q ∧
        (q.index.toNat : ℤ) = (r.index.toNat - (key i).toInt - shift.toNat) % s.size) ∧
      ∃ d, Document.parse (String.ofList (written (s.encipher key shift word))) = .ok d ∧
        s.decipher (.ofText ("p " ++ g ++ " +")) d shift =
          .ok (word.flatMap (·.plaintext.toList) ++ ['\n']) := by
  have hpos : 0 < s.size := by omega
  have ha := Alphabet.oneToOne_of_parse hparse (hsize.trans (by decide))
  have hcipher : ∀ q ∈ s.encipher key shift word, q ∈ s.alphabet.runes :=
    fun _ hq => mem_runes_of_mem_encipher ha hpos hq
  have hlength : (s.encipher key shift word).length = word.length := length_encipher
  have hnonempty : s.encipher key shift word ≠ [] := fun hnil =>
    hne (List.length_eq_zero_iff.mp (by rw [← hlength, hnil, List.length_nil]))
  obtain ⟨first, hfirst⟩ : ∃ first, s.alphabet.at? 0 = some first :=
    ⟨_, Array.getElem?_eq_getElem hpos⟩
  refine ⟨hlength, fun i r hi => ?_, _, parse_written ha hcipher hnonempty hskips, ?_⟩
  · obtain ⟨q, hq, hmem, hindex⟩ := exists_getElem?_encipher key shift ha hpos hi
    exact ⟨q, hq, (ha.rune?_iff _ q).mpr ⟨hmem, rfl⟩, hindex⟩
  · refine decipher_written ha hfirst hsize hshift hcipher hlength hskips
      fun j q r previous hq hr => ?_
    obtain ⟨q', hq', hmem, hindex⟩ := exists_getElem?_encipher key shift ha hpos hr
    obtain rfl : q = q' := Option.some.inj (hq.symm.trans hq')
    obtain ⟨hj, -⟩ := List.getElem?_eq_some_iff.mp hr
    obtain ⟨current, previous', hk⟩ := hkey j hj
    have hrtable : r ∈ s.alphabet.runes :=
      ((ha.rune?_iff _ r).mp (hword r (List.mem_of_getElem? hr))).1
    have hkq : (Formula.ofText g).evaluate s.tables ⟨q, previous, .ofNat j⟩ = .ok (key j) := by
      rw [← hk]
      exact Formula.evaluate_congr hg rfl
    refine ⟨_, Formula.evaluate_index_add hkq, ?_⟩
    rw [targetOf_add hsize (ha.index_lt hrtable) (ha.index_lt hmem) hindex
      (hrange j hj _ (ha.index_lt hmem))]
    exact (ha.at?_iff _ r).mpr ⟨hrtable, rfl⟩

end Solver

/-- Two runes of the sample alphabet, the last one and the first one. -/
def sampleWord : List Rune := [⟨'C', 2, 5, "C"⟩, ⟨'A', 0, 2, "A"⟩]

/-- The key doubles the position. -/
theorem decipher_encipher_doubled :
    written (sampleSolver.encipher (fun i => .ofNat (2 * i)) 1 sampleWord) = ['B', 'A'] ∧
      ∃ d, Document.parse "BA" = .ok d ∧
        sampleSolver.decipher (.ofText "p i 2 * +") d 1 = .ok "CA\n".toList := by
  have hparse : Alphabet.parse Alphabet.sampleTable = ([], .ok sampleSolver.alphabet) :=
    Prod.ext Alphabet.overridden_sampleTable Alphabet.parse_sampleTable
  have hword : ∀ r ∈ sampleWord, sampleSolver.alphabet.rune? r.symbol = some r := by
    have hfind : ∀ r ∈ sampleWord,
        Alphabet.sampleRunes.reverse.find? (·.symbol == r.symbol) = some r := by decide
    exact fun r hr => (Alphabet.rune?_sample r.symbol).trans (hfind r hr)
  have hkey : ∀ i < sampleWord.length, (Formula.ofText "i 2 *").evaluate sampleSolver.tables
      ⟨⟨'A', 0, 2, "A"⟩, ⟨'A', 0, 2, "A"⟩, .ofNat i⟩ = .ok (.ofNat (2 * i)) := by
    decide +kernel
  have hrange : ∀ i < sampleWord.length, ∀ index < sampleSolver.size,
      -2 ^ 31 ≤ index + (Int32.ofNat (2 * i)).toInt ∧
        index + (Int32.ofNat (2 * i)).toInt < 2 ^ 31 := by decide +kernel
  have hshift : (1 : UInt64).toNat < sampleSolver.size := by decide
  have hcipher : written (sampleSolver.encipher (fun i => .ofNat (2 * i)) 1 sampleWord) =
      ['B', 'A'] := by decide +kernel
  obtain ⟨-, -, d, hd, htext⟩ := Solver.decipher_encipher hparse (by decide) (by decide +kernel)
    hword (by decide) hshift (fun i hi => ⟨_, _, hkey i hi⟩) hrange (by rw [hcipher]; decide)
  rw [hcipher] at hd
  exact ⟨hcipher, d, hd, htext⟩

end Cipher

end RuneSolver
