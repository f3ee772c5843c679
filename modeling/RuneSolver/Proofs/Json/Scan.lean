import RuneSolver.Proofs.Json.Number

/-!
Scans of JSON texts, piece by piece. A piece closes when the scan stands outside of all tokens
after it; a word or a number is only settled by what comes next, so a piece that ends in one spells
its tokens as long as the next piece begins with a character that breaks them off. Main statements:
numbers, strings and blanks are scanned as the grammar says.
-/

namespace RuneSolver.Json

/-! ### Settling -/

/-- A character that belongs to no word and no number. -/
def Breaks (c : Char) : Prop := c.isLower = false ∧ isNumberChar c = false

instance (c : Char) : Decidable (Breaks c) := inferInstanceAs (Decidable (_ ∧ _))

namespace Scan

/-- The scan after the word or the number that it is inside of. -/
def settle (s : Scan) : Option Scan :=
  match s.inside with
  | .nothing => some s
  | .word letters => (word? letters.reverse).map fun token => ⟨token :: s.tokens, .nothing⟩
  | .number chars => (number? chars.reverse).map fun token => ⟨token :: s.tokens, .nothing⟩
  | _ => none

lemma finish_of_settle {s : Scan} {tokens : List Token}
    (h : s.settle = some ⟨tokens, .nothing⟩) : s.finish = some tokens.reverse := by
  obtain ⟨before, inside⟩ := s
  cases inside with
  | nothing => cases h; rfl
  | word letters =>
    obtain ⟨token, htoken, heq⟩ := Option.map_eq_some_iff.mp h
    cases heq
    simp only [finish, htoken, Option.map_some]
  | number chars =>
    obtain ⟨token, htoken, heq⟩ := Option.map_eq_some_iff.mp h
    cases heq
    simp only [finish, htoken, Option.map_some]
  | string units => cases h
  | escape units => cases h
  | unit units digits value => cases h

/-- A character that breaks off settles the scan first. -/
lemma step_of_breaks {s : Scan} {tokens : List Token} {c : Char} (hc : Breaks c)
    (h : s.settle = some ⟨tokens, .nothing⟩) : s.step c = step ⟨tokens, .nothing⟩ c := by
  obtain ⟨before, inside⟩ := s
  cases inside with
  | nothing => cases h; rfl
  | word letters =>
    obtain ⟨token, htoken, heq⟩ := Option.map_eq_some_iff.mp h
    cases heq
    simp only [step, hc.1, Bool.false_eq_true, if_false, htoken, Option.bind_some]
  | number chars =>
    obtain ⟨token, htoken, heq⟩ := Option.map_eq_some_iff.mp h
    cases heq
    simp only [step, hc.2, Bool.false_eq_true, if_false, htoken, Option.bind_some]
  | string units => cases h
  | escape units => cases h
  | unit units digits value => cases h

end Scan

/-! ### Pieces -/

/-- The characters are scanned as the tokens, and the scan is outside of them at the end. -/
def Closes (cs : List Char) (read : List Token) : Prop :=
  ∀ tokens, Scan.run ⟨tokens, .nothing⟩ cs = some ⟨read.reverse ++ tokens, .nothing⟩

/-- The characters are scanned as the tokens once the scan is settled. -/
def Spells (cs : List Char) (read : List Token) : Prop :=
  ∀ tokens, ∃ s, Scan.run ⟨tokens, .nothing⟩ cs = some s ∧
    s.settle = some ⟨read.reverse ++ tokens, .nothing⟩

variable {cs ds : List Char} {read next : List Token} {c : Char}

lemma Closes.spells (h : Closes cs read) : Spells cs read := fun tokens => ⟨_, h tokens, rfl⟩

lemma Closes.append (h : Closes cs read) (hd : Closes ds next) :
    Closes (cs ++ ds) (read ++ next) := by
  intro tokens
  rw [Scan.run_append, h, Option.bind_some, hd, List.reverse_append, List.append_assoc]

lemma Closes.append_spells (h : Closes cs read) (hd : Spells ds next) :
    Spells (cs ++ ds) (read ++ next) := by
  intro tokens
  obtain ⟨s, hrun, hsettle⟩ := hd (read.reverse ++ tokens)
  refine ⟨s, ?_, by rw [hsettle, List.reverse_append, List.append_assoc]⟩
  rw [Scan.run_append, h, Option.bind_some, hrun]

/-- A piece that begins with a character that breaks off may follow any other. -/
lemma Spells.append_cons (h : Spells cs read) (hd : Spells (c :: ds) next) (hc : Breaks c) :
    Spells (cs ++ c :: ds) (read ++ next) := by
  intro tokens
  obtain ⟨s, hrun, hsettle⟩ := h tokens
  obtain ⟨last, hlast, hsettled⟩ := hd (read.reverse ++ tokens)
  refine ⟨last, ?_, by rw [hsettled, List.reverse_append, List.append_assoc]⟩
  rw [Scan.run_append, hrun, Option.bind_some, Scan.run_cons, Scan.step_of_breaks hc hsettle,
    ← Scan.run_cons, hlast]

lemma Spells.append_cons_closes (h : Spells cs read) (hd : Closes (c :: ds) next)
    (hc : Breaks c) : Closes (cs ++ c :: ds) (read ++ next) := by
  intro tokens
  obtain ⟨s, hrun, hsettle⟩ := h tokens
  rw [Scan.run_append, hrun, Option.bind_some, Scan.run_cons, Scan.step_of_breaks hc hsettle,
    ← Scan.run_cons, hd, List.reverse_append, List.append_assoc]

lemma Spells.tokens (h : Spells cs read) : tokens? cs = some read := by
  obtain ⟨s, hrun, hsettle⟩ := h []
  rw [tokens?, Scan.start, hrun, Option.bind_some, Scan.finish_of_settle hsettle, List.append_nil,
    List.reverse_reverse]

/-! ### Blanks, punctuation and numbers -/

lemma closes_blanks (h : Blanks cs) : Closes cs [] := by
  induction cs with
  | nil => exact fun _ => rfl
  | cons c cs ih =>
    obtain ⟨hc, hcs⟩ := List.forall_mem_cons.mp h
    intro tokens
    have hstep : Scan.step ⟨tokens, .nothing⟩ c = some ⟨tokens, .nothing⟩ := by
      rcases hc with rfl | rfl | rfl | rfl <;> rfl
    rw [Scan.run_cons, hstep, Option.bind_some, ih hcs]

/-- Blanks settle what comes before them. -/
lemma Spells.append_blanks (h : Spells cs read) (hd : Blanks ds) : Spells (cs ++ ds) read := by
  cases ds with
  | nil => rwa [List.append_nil]
  | cons d ds =>
    have hbreaks : Breaks d := by
      rcases hd d List.mem_cons_self with rfl | rfl | rfl | rfl <;> decide
    have hall := h.append_cons_closes (closes_blanks hd) hbreaks
    rw [List.append_nil] at hall
    exact hall.spells

lemma closes_punctuation {token : Token} (h : punctuation? c = some token) :
    Closes [c] [token] := by
  unfold punctuation? at h
  split at h <;> cases h <;> exact fun _ => rfl

lemma run_number (tokens : List Token) (chars : List Char) (h : NumberChars cs) :
    Scan.run ⟨tokens, .number chars⟩ cs = some ⟨tokens, .number (cs.reverse ++ chars)⟩ := by
  induction cs generalizing chars with
  | nil => rfl
  | cons c cs ih =>
    obtain ⟨hc, hcs⟩ := List.forall_mem_cons.mp h
    have hstep : Scan.step ⟨tokens, .number chars⟩ c = some ⟨tokens, .number (c :: chars)⟩ := by
      simp only [Scan.step, hc, if_true]
    rw [Scan.run_cons, hstep, Option.bind_some, ih _ hcs, List.reverse_cons, List.append_assoc,
      List.singleton_append]

lemma enter_number (tokens : List Token) (h : (c == '-' || c.isDigit) = true) :
    Scan.enter tokens c = some ⟨tokens, .number [c]⟩ := by
  rcases Bool.or_eq_true_iff.mp h with hsign | hdigit
  · rw [beq_iff_eq.mp hsign]
    rfl
  · have hne (d : Char) (hd : d.isDigit = false) : (c == d) = false := by
      refine beq_eq_false_iff_ne.mpr fun heq => ?_
      rw [← heq, hdigit] at hd
      cases hd
    simp [Scan.enter, isBlank, hne ' ' (by decide), hne '\t' (by decide), hne '\n' (by decide),
      hne '\r' (by decide), hne '"' (by decide), isLower_of_isDigit hdigit, hdigit]

/-- **A number is scanned as it is written.** -/
theorem spells_number (h : isNumber cs = true) : Spells cs [.number cs] := by
  obtain ⟨c, rest, rfl, hstart⟩ := exists_cons_of_isNumber h
  intro tokens
  have hstep : Scan.step ⟨tokens, .nothing⟩ c = some ⟨tokens, .number [c]⟩ :=
    enter_number tokens hstart
  refine ⟨⟨tokens, .number (rest.reverse ++ [c])⟩, ?_, ?_⟩
  · rw [Scan.run_cons, hstep, Option.bind_some,
      run_number tokens [c] (List.forall_mem_cons.mp (numberChars_of_isNumber h)).2]
  · simp [Scan.settle, number?, h]

/-! ### Strings -/

lemma hexValue_of_isHexDigit {n : ℕ} (h : IsHexDigit c n) : hexValue? c = some n ∧ n < 16 := by
  have hall : ∀ digits ∈ ["0123456789abcdef".toList, "0123456789ABCDEF".toList],
      ∀ digit ∈ digits.zipIdx, hexValue? digit.1 = some digit.2 ∧ digit.2 < 16 := by
    decide
  rcases h with h | h
  · exact hall _ List.mem_cons_self (c, n) (List.mem_zipIdx_iff_getElem?.mpr h)
  · exact hall _ (.tail _ List.mem_cons_self) (c, n) (List.mem_zipIdx_iff_getElem?.mpr h)

/-- A code unit is scanned from whatever writes it. -/
lemma UnitText.run {u : ℕ} (h : UnitText cs u) (tokens : List Token) (units : List ℕ) :
    Scan.run ⟨tokens, .string units⟩ cs = some ⟨tokens, .string (u :: units)⟩ := by
  cases h with
  | @plain c hquote hslash hcontrol =>
    have hne : (c == '"') = false ∧ (c == '\\') = false :=
      ⟨beq_eq_false_iff_ne.mpr hquote, beq_eq_false_iff_ne.mpr hslash⟩
    simp [Scan.step, hne, Nat.not_lt.mpr hcontrol]
  | @short letter c h =>
    have hall : ∀ pair ∈ shortEscapes, pair.1 ≠ 'u' ∧ escaped? pair.1 = some pair.2 := by decide
    obtain ⟨hne, hescaped⟩ := hall _ h
    have hletter : (letter == 'u') = false := beq_eq_false_iff_ne.mpr hne
    simp [Scan.step, hletter, hescaped]
  | hexadecimal ha hb hc hd =>
    simp [Scan.step, (hexValue_of_isHexDigit ha).1, (hexValue_of_isHexDigit hb).1,
      (hexValue_of_isHexDigit hc).1, (hexValue_of_isHexDigit hd).1]

lemma run_unitTexts {pieces : List (List Char × ℕ)}
    (h : ∀ piece ∈ pieces, UnitText piece.1 piece.2) (tokens : List Token) (units : List ℕ) :
    Scan.run ⟨tokens, .string units⟩ (pieces.flatMap Prod.fst) =
      some ⟨tokens, .string ((pieces.map Prod.snd).reverse ++ units)⟩ := by
  induction pieces generalizing units with
  | nil => rfl
  | cons piece pieces ih =>
    obtain ⟨hpiece, hpieces⟩ := List.forall_mem_cons.mp h
    rw [List.flatMap_cons, Scan.run_append, hpiece.run, Option.bind_some, ih hpieces,
      List.map_cons, List.reverse_cons, List.append_assoc, List.singleton_append]

/-- No character is half of a surrogate pair. -/
lemma not_surrogate (c : Char) :
    isHighSurrogate c.toNat = false ∧ isLowSurrogate c.toNat = false := by
  have hvalid : c.toNat < 0xD800 ∨ 0xDFFF < c.toNat ∧ c.toNat < 0x110000 := c.valid
  simp only [isHighSurrogate, isLowSurrogate, Bool.and_eq_false_iff, decide_eq_false_iff_not]
  omega

/-- A code unit is a character or half of a surrogate pair. -/
lemma UnitText.lt {u : ℕ} (h : UnitText cs u) : u < 0x110000 := by
  have hchar (c : Char) : c.toNat < 0x110000 := by
    have hvalid : c.toNat < 0xD800 ∨ 0xDFFF < c.toNat ∧ c.toNat < 0x110000 := c.valid
    omega
  cases h with
  | plain => exact hchar _
  | short => exact hchar _
  | hexadecimal ha hb hc hd =>
    have := (hexValue_of_isHexDigit ha).2
    have := (hexValue_of_isHexDigit hb).2
    have := (hexValue_of_isHexDigit hc).2
    have := (hexValue_of_isHexDigit hd).2
    omega

lemma Decodes.ofUnits {units : List ℕ} (h : Decodes units cs) : ofUnits? units = some cs := by
  induction h with
  | nil => rfl
  | @char c units cs h ih =>
    obtain ⟨hhigh, hlow⟩ := not_surrogate c
    cases units with
    | nil =>
      cases h
      simp [ofUnits?, hhigh, hlow]
    | cons v units =>
      rw [ofUnits?, ih]
      simp [hhigh, hlow]
  | @pair high low c units cs hhigh hlow hc h ih =>
    have hfirst : isHighSurrogate high = true := by simp [isHighSurrogate, hhigh]
    have hsecond : isLowSurrogate low = true := by simp [isLowSurrogate, hlow]
    have hjoin : joinSurrogates high low = c := by rw [joinSurrogates, ← hc, Char.ofNat_toNat]
    simp [ofUnits?, hfirst, hsecond, ih, hjoin]

lemma toNat_ofNat_of_valid {u : ℕ} (h : u.isValidChar) : (Char.ofNat u).toNat = u := by
  rw [Char.ofNat, dif_pos h]
  rfl

/-- A code unit that is no half of a pair is a character. -/
lemma Decodes.cons_ofNat {u : ℕ} {units : List ℕ} (hlt : u < 0x110000)
    (hhigh : ¬isHighSurrogate u = true) (hlow : ¬isLowSurrogate u = true) (h : Decodes units cs) :
    Decodes (u :: units) (Char.ofNat u :: cs) := by
  have hvalid : u.isValidChar := by
    simp only [isHighSurrogate, isLowSurrogate, Bool.and_eq_true, decide_eq_true_eq] at hhigh hlow
    rw [Nat.isValidChar]
    omega
  have hchar := h.char (Char.ofNat u)
  rwa [toNat_ofNat_of_valid hvalid] at hchar

lemma decodes_of_ofUnits {units : List ℕ} (hlt : ∀ u ∈ units, u < 0x110000)
    (h : ofUnits? units = some cs) : Decodes units cs := by
  fun_induction ofUnits? units generalizing cs with
  | case1 =>
    cases h
    exact .nil
  | case2 => cases h
  | case3 u hsurrogate =>
    cases h
    rw [Bool.or_eq_true, not_or] at hsurrogate
    exact Decodes.nil.cons_ofNat (hlt u List.mem_cons_self) hsurrogate.1 hsurrogate.2
  | case4 high low units hhigh hlow ih =>
    obtain ⟨rest, hrest, rfl⟩ := Option.map_eq_some_iff.mp h
    simp only [isHighSurrogate, isLowSurrogate, Bool.and_eq_true, decide_eq_true_eq] at hhigh hlow
    refine .pair hhigh hlow (toNat_ofNat_of_valid ?_)
      (ih (fun u hu => hlt u (.tail _ (.tail _ hu))) hrest)
    rw [Nat.isValidChar]
    omega
  | case5 => cases h
  | case6 => cases h
  | case7 u v units hhigh hlow ih =>
    obtain ⟨rest, hrest, rfl⟩ := Option.map_eq_some_iff.mp h
    exact (ih (fun w hw => hlt w (.tail _ hw)) hrest).cons_ofNat (hlt u List.mem_cons_self) hhigh
      hlow

/-- The text of a string is what its code units decode to. -/
lemma text_eq_iff {pieces : List (List Char × ℕ)} {text : Option String}
    (h : ∀ piece ∈ pieces, UnitText piece.1 piece.2) :
    (ofUnits? (pieces.map Prod.snd)).map String.ofList = text ↔
      ∀ t, text = some t ↔ Decodes (pieces.map Prod.snd) t.toList := by
  have hlt : ∀ u ∈ pieces.map Prod.snd, u < 0x110000 := by
    intro u hu
    obtain ⟨piece, hpiece, rfl⟩ := List.mem_map.mp hu
    exact (h piece hpiece).lt
  have hread (t : String) : (ofUnits? (pieces.map Prod.snd)).map String.ofList = some t ↔
      Decodes (pieces.map Prod.snd) t.toList := by
    rw [Option.map_eq_some_iff]
    constructor
    · rintro ⟨cs, hcs, rfl⟩
      rw [String.toList_ofList]
      exact decodes_of_ofUnits hlt hcs
    · exact fun hdecodes => ⟨t.toList, hdecodes.ofUnits, String.ofList_toList⟩
  constructor
  · rintro rfl
    exact hread
  · exact fun htext => Option.ext fun t => (hread t).trans (htext t).symm

/-- **A string is scanned as its text.** -/
theorem closes_string {text : Option String} (h : StringText cs text) :
    Closes cs [.string text] := by
  obtain ⟨pieces, hpieces, htext, rfl⟩ := h
  intro tokens
  have hopen : Scan.step ⟨tokens, .nothing⟩ '"' = some ⟨tokens, .string []⟩ := rfl
  have hclose (units : List ℕ) : Scan.run ⟨tokens, .string units⟩ ['"'] =
      some ⟨.string ((ofUnits? units.reverse).map String.ofList) :: tokens, .nothing⟩ := rfl
  rw [Scan.run_cons, hopen, Option.bind_some, Scan.run_append, run_unitTexts hpieces,
    Option.bind_some, hclose, List.append_nil, List.reverse_reverse,
    (text_eq_iff hpieces).mpr htext]
  rfl

end RuneSolver.Json
