import Mathlib.Data.List.Infix
import RuneSolver.Proofs.Grammar.Shape
import RuneSolver.Proofs.Grammar.StackType
import RuneSolver.Proofs.Text.Occurrence

/-!
Cleaning up the attempts of the bundled rules by the bundled replacements. Each pattern is a single
written twice and an operation that cancels it. A pattern is looked for in the text, not among the
tokens, so it is also found where the first of two singles only ends like the second one. Main
statement: cleaning changes no result of an attempt, except that such half pairs leave a word that
is no token, and the attempt fails everywhere.
-/

namespace RuneSolver.Grammar

open Text (Unmarked)

/-! ### Marks and words -/

/-- A character that is the symbol of an operation. -/
def isSign (c : Char) : Bool := Operation.all.any fun o => o.symbol.toList == [c]

lemma exists_sign (o : Operation) : ∃ c, o.symbol.toList = [c] ∧ isSign c = true := by
  cases o <;> exact ⟨_, rfl, by decide⟩

lemma unmarked_single (s : Single) : Unmarked isSign s.symbol.toList := by
  cases s <;> decide

lemma unmarked_special (f : Special) : Unmarked isSign f.symbol.toList := by
  cases f <;> decide

lemma space_notMem_single (s : Single) : ' ' ∉ s.symbol.toList := by cases s <;> decide

lemma space_notMem_special (f : Special) : ' ' ∉ f.symbol.toList := by cases f <;> decide

/-- A suffix up to its last word. -/
lemma suffix_append_space_iff {before word text last : List Char} (hword : ' ' ∉ word)
    (hlast : ' ' ∉ last) :
    before ++ ' ' :: word <:+ text ++ ' ' :: last ↔ word = last ∧ before <:+ text := by
  have hunmarked {cs : List Char} (h : ' ' ∉ cs) : Unmarked (· == ' ') cs.reverse := by
    intro c hc
    have hne : c ≠ ' ' := fun heq => h (heq ▸ List.mem_reverse.mp hc)
    simpa using hne
  have hbefore : before <:+ text ↔ before.reverse <+: text.reverse := List.reverse_prefix.symm
  rw [hbefore, ← List.reverse_prefix]
  simp only [List.reverse_append, List.reverse_cons, List.append_assoc, List.singleton_append]
  constructor
  · intro h
    -- from the right, the first blank ends the last word of either side
    have hfirst : word.reverse ++ [' '] <+: last.reverse ++ ' ' :: text.reverse :=
      List.IsPrefix.trans (by simp) h
    obtain ⟨heq, -⟩ := (Text.append_singleton_prefix_iff (hunmarked hword) (by simp)
      (hunmarked hlast) (by simp)).mp hfirst
    rw [heq, List.prefix_append_right_inj, List.cons_prefix_cons] at h
    exact ⟨List.reverse_inj.mp heq, h.2⟩
  · rintro ⟨rfl, h⟩
    rw [List.prefix_append_right_inj, List.cons_prefix_cons]
    exact ⟨rfl, h⟩

/-! ### Pairs that cancel -/

/-- A single written twice and an operation. -/
def pairPattern (x : Single) (o : Operation) : List Char :=
  x.symbol.toList ++ ' ' :: x.symbol.toList ++ ' ' :: o.symbol.toList

/-- The pairs that the bundled replacements write as zero. -/
def cancellations : List (Single × Operation) :=
  [(.index, .subtract), (.position, .subtract), (.prime, .subtract), (.previousIndex, .subtract),
    (.previousPrime, .subtract), (.index, .exclusiveOr), (.position, .exclusiveOr)]

/-- The replacements that write pairs as zero. -/
def zeroing (pairs : List (Single × Operation)) : Replacements :=
  pairs.map fun (x, o) => (pairPattern x o, ['0'])

lemma parse_bundledReplacements :
    Replacements.parse bundledReplacements = .ok (zeroing cancellations) := by
  decide +kernel

/-- An operand and its operation between what stands before and what comes after them. -/
def segment (before : List Char) (b : Operand) (o : Operation) (after : List Char) : List Char :=
  before ++ ' ' :: b.text.toList ++ ' ' :: o.symbol.toList ++ after

lemma toList_text_single (s : Single) : (Operand.text ⟨s, none⟩).toList = s.symbol.toList := by
  simp [Operand.text]

lemma toList_text_special (s : Single) (f : Special) :
    (Operand.text ⟨s, some f⟩).toList = s.symbol.toList ++ ' ' :: f.symbol.toList := by
  simp [Operand.text]

lemma unmarked_operand (a : Operand) : Unmarked isSign a.text.toList := by
  obtain ⟨s, _ | f⟩ := a
  · rw [toList_text_single]
    exact unmarked_single s
  · rw [toList_text_special]
    exact List.forall_mem_append.mpr ⟨unmarked_single s,
      List.forall_mem_cons.mpr ⟨by decide, unmarked_special f⟩⟩

variable {x : Single} {o o' : Operation} {b : Operand} {before after replacement : List Char}

/-- A pattern ends at the operation of an operand that is its single, behind a text that ends like
this single. -/
lemma pairPattern_suffix_iff : pairPattern x o <:+ segment before b o' [] ↔
    o = o' ∧ b = ⟨x, none⟩ ∧ x.symbol.toList <:+ before := by
  have hoperation : o.symbol.toList = o'.symbol.toList ↔ o = o' := by
    cases o <;> cases o' <;> decide
  have hspace : ' ' ∉ o.symbol.toList ∧ ' ' ∉ o'.symbol.toList := by
    cases o <;> cases o' <;> decide
  rw [pairPattern, segment, List.append_nil, suffix_append_space_iff hspace.1 hspace.2, hoperation]
  refine and_congr_right fun _ => ?_
  obtain ⟨s, _ | f⟩ := b
  · have hsingle : x.symbol.toList = s.symbol.toList ↔ s = x := by
      cases x <;> cases s <;> decide
    rw [toList_text_single,
      suffix_append_space_iff (space_notMem_single x) (space_notMem_single s), hsingle]
    simp
  · have hspecial : x.symbol.toList ≠ f.symbol.toList := by cases x <;> cases f <;> decide
    have hsplit : before ++ ' ' :: (s.symbol.toList ++ ' ' :: f.symbol.toList) =
        before ++ ' ' :: s.symbol.toList ++ ' ' :: f.symbol.toList := by simp
    rw [toList_text_special, hsplit,
      suffix_append_space_iff (space_notMem_single x) (space_notMem_special f)]
    simp [hspecial]

/-- A pattern, with the sign that it ends in. -/
lemma exists_pairPattern (x : Single) (o : Operation) :
    ∃ body mark, pairPattern x o = body ++ [mark] ∧ Unmarked isSign body ∧ isSign mark = true := by
  obtain ⟨mark, hmark, hsign⟩ := exists_sign o
  refine ⟨x.symbol.toList ++ ' ' :: x.symbol.toList ++ [' '], mark, ?_, ?_, hsign⟩
  · simp [pairPattern, hmark]
  · cases x <;> decide

/-- A segment, with the sign that it ends in. -/
lemma exists_segment (hbefore : Unmarked isSign before) (b : Operand) (o : Operation) :
    ∃ text mark, (∀ after, segment before b o after = text ++ mark :: after) ∧
      Unmarked isSign text ∧ isSign mark = true := by
  obtain ⟨mark, hmark, hsign⟩ := exists_sign o
  refine ⟨before ++ ' ' :: b.text.toList ++ [' '], mark, fun after => ?_, ?_, hsign⟩
  · simp [segment, hmark]
  · have hspace : isSign ' ' = false := by decide
    simp only [Unmarked, List.mem_append, List.mem_cons, List.not_mem_nil, or_false]
    rintro c ((hc | rfl | hc) | rfl)
    · exact hbefore c hc
    · exact hspace
    · exact unmarked_operand b c hc
    · exact hspace

lemma replaceAll_segment_of_not (hbefore : Unmarked isSign before)
    (h : ¬(o = o' ∧ b = ⟨x, none⟩ ∧ x.symbol.toList <:+ before)) :
    Text.replaceAll (pairPattern x o) replacement (segment before b o' after) =
      segment before b o' (Text.replaceAll (pairPattern x o) replacement after) := by
  rw [← pairPattern_suffix_iff] at h
  obtain ⟨body, mark, hpattern, hbody, hmark⟩ := exists_pairPattern x o
  obtain ⟨text, next, hsegment, htext, hnext⟩ := exists_segment hbefore b o'
  rw [hsegment, hpattern] at h
  rw [hsegment, hsegment, hpattern, Text.replaceAll_append_singleton,
    Text.replaceAll_append_singleton, Text.replaceFrom_of_not_suffix hbody hmark htext hnext h]

lemma replaceAll_segment_of_pair (hbefore : Unmarked isSign before) :
    Text.replaceAll (pairPattern x o) replacement
        (segment (before ++ x.symbol.toList) ⟨x, none⟩ o after) =
      before ++ replacement ++ Text.replaceAll (pairPattern x o) replacement after := by
  obtain ⟨body, mark, hpattern, hbody, hmark⟩ := exists_pairPattern x o
  have hsegment : segment (before ++ x.symbol.toList) ⟨x, none⟩ o after =
      before ++ pairPattern x o ++ after := by
    simp [segment, pairPattern, toList_text_single]
  have hsplit : before ++ (body ++ [mark]) ++ after = before ++ body ++ mark :: after := by simp
  rw [hsegment, hpattern, hsplit, Text.replaceAll_append_singleton,
    Text.replaceAll_append_singleton, Text.replaceFrom_of_suffix hbody hmark hbefore]

lemma replaceAll_of_unmarked {text : List Char} (htext : Unmarked isSign text) :
    Text.replaceAll (pairPattern x o) replacement text = text := by
  obtain ⟨body, mark, hpattern, -, hmark⟩ := exists_pairPattern x o
  rw [hpattern, Text.replaceAll_append_singleton, Text.replaceFrom_of_unmarked hmark htext]

/-! ### Texts after all replacements -/

variable {pairs : List (Single × Operation)} {text : List Char}

lemma applyTo_zeroing_cons (pair : Single × Operation) (text : List Char) :
    (zeroing (pair :: pairs)).applyTo text =
      (zeroing pairs).applyTo (Text.replaceAll (pairPattern pair.1 pair.2) ['0'] text) := rfl

/-- No pair occurs in the text. -/
def Quiet (text : List Char) : Prop :=
  ∀ x o, Text.replaceAll (pairPattern x o) ['0'] text = text

lemma Quiet.applyTo_zeroing (h : Quiet text) : (zeroing pairs).applyTo text = text := by
  induction pairs with
  | nil => rfl
  | cons pair pairs ih => rw [applyTo_zeroing_cons, h, ih]

/-- Neither the beginning of a text nor a zero ends like a single. -/
lemma not_suffix_zero (x : Single) (before : List Char) :
    ¬x.symbol.toList <:+ [] ∧ ¬x.symbol.toList <:+ before ++ ['0'] := by
  have hne : x.symbol.toList ≠ [] := by cases x <;> decide
  have hzero : '0' ∉ x.symbol.toList := by cases x <;> decide
  refine ⟨fun h => hne (List.suffix_nil.mp h), fun h => ?_⟩
  rcases List.suffix_concat_iff.mp h with hnil | ⟨rest, heq, -⟩
  · exact hne hnil
  · exact hzero (heq ▸ by simp)

/-- The characters of what follows. -/
def Continuation.chars : Continuation → List Char
  | none => []
  | some (c, o) => segment [] c o []

lemma Continuation.toList_behind (head : String) (rest : Continuation) :
    (behind head rest).toList = head.toList ++ rest.chars := by
  obtain _ | ⟨c, o⟩ := rest <;> simp [behind, chars, segment]

lemma Continuation.quiet_append_chars (rest : Continuation) (hbefore : Unmarked isSign before)
    (hend : ∀ x : Single, ¬x.symbol.toList <:+ before) : Quiet (before ++ rest.chars) := by
  intro x o
  obtain _ | ⟨c, o'⟩ := rest
  · exact replaceAll_of_unmarked (by simpa [chars] using hbefore)
  · have hsegment : before ++ segment [] c o' [] = segment before c o' [] := by simp [segment]
    have hnil : Unmarked isSign [] := fun _ h => absurd h List.not_mem_nil
    rw [chars, hsegment, replaceAll_segment_of_not hbefore fun h => hend x h.2.2,
      replaceAll_of_unmarked hnil]

lemma Continuation.quiet_chars (rest : Continuation) : Quiet rest.chars :=
  rest.quiet_append_chars (fun _ h => absurd h List.not_mem_nil)
    fun x => (not_suffix_zero x []).1

lemma applyTo_zeroing_of_not (hbefore : Unmarked isSign before) (rest : Continuation)
    (h : ∀ pair ∈ pairs, ¬(pair.2 = o ∧ b = ⟨pair.1, none⟩ ∧ pair.1.symbol.toList <:+ before)) :
    (zeroing pairs).applyTo (segment before b o rest.chars) = segment before b o rest.chars := by
  induction pairs with
  | nil => rfl
  | cons pair pairs ih =>
    rw [applyTo_zeroing_cons, replaceAll_segment_of_not hbefore (h pair List.mem_cons_self),
      rest.quiet_chars, ih fun other hother => h other (List.mem_cons_of_mem pair hother)]

lemma applyTo_zeroing_of_mem (hbefore : Unmarked isSign before) (rest : Continuation)
    (h : (x, o) ∈ pairs) :
    (zeroing pairs).applyTo (segment (before ++ x.symbol.toList) ⟨x, none⟩ o rest.chars) =
      before ++ ['0'] ++ rest.chars := by
  induction pairs with
  | nil => cases h
  | cons pair pairs ih =>
    obtain ⟨y, o'⟩ := pair
    rw [applyTo_zeroing_cons]
    by_cases heq : (y, o') = (x, o)
    · -- from here on no pair occurs any more
      cases heq
      have hdigit : Unmarked isSign ['0'] := by decide
      have hzero : Unmarked isSign (before ++ ['0']) :=
        List.forall_mem_append.mpr ⟨hbefore, hdigit⟩
      have hquiet := rest.quiet_append_chars hzero fun x => (not_suffix_zero x before).2
      rw [replaceAll_segment_of_pair hbefore, rest.quiet_chars, hquiet.applyTo_zeroing]
    · have htext : Unmarked isSign (before ++ x.symbol.toList) :=
        List.forall_mem_append.mpr ⟨hbefore, unmarked_single x⟩
      have hother : ¬(o' = o ∧ (⟨x, none⟩ : Operand) = ⟨y, none⟩ ∧
          y.symbol.toList <:+ before ++ x.symbol.toList) := by
        rintro ⟨rfl, hxy, -⟩
        cases hxy
        exact heq rfl
      have hmem : (x, o) ∈ pairs := by
        rcases List.mem_cons.mp h with hhead | htail
        · exact absurd hhead.symm heq
        · exact htail
      rw [replaceAll_segment_of_not htext hother, rest.quiet_chars, ih hmem]

/-! ### Shapes after all replacements -/

lemma Shape.toList_text_compound (a b : Operand) (o : Operation) (rest : Continuation) :
    (compound a b o rest).text.toList = segment a.text.toList b o rest.chars := by
  rw [text, Continuation.toList_behind]
  simp [pairText, segment]

/-- An operand that ends like a single is one. -/
lemma Operand.exists_of_suffix_text {a : Operand} (h : x.symbol.toList <:+ a.text.toList) :
    ∃ s : Single, a = ⟨s, none⟩ ∧ x.symbol.toList <:+ s.symbol.toList := by
  obtain ⟨s, _ | f⟩ := a
  · exact ⟨s, rfl, by rwa [toList_text_single] at h⟩
  · have hspecial : ¬x.symbol.toList <:+ ' ' :: f.symbol.toList := by
      cases x <;> cases f <;> decide
    rw [toList_text_special] at h
    rcases List.suffix_or_suffix_of_suffix h (List.suffix_append s.symbol.toList _) with hin | hout
    · exact absurd hin hspecial
    · exact absurd (hout.subset List.mem_cons_self) (space_notMem_single x)

/-- Singles of which only the end of the first is like the second, with an operation for which the
pair of the second is written as zero. -/
def halfPairs : List (Single × Single × Operation) :=
  [(.previousIndex, .index, .subtract), (.previousIndex, .index, .exclusiveOr),
    (.previousPrime, .prime, .subtract)]

lemma eq_or_mem_halfPairs {s : Single} (hpair : (x, o) ∈ cancellations)
    (h : x.symbol.toList <:+ s.symbol.toList) : s = x ∨ (s, x, o) ∈ halfPairs := by
  have hall : ∀ pair ∈ cancellations, ∀ s ∈ Single.all,
      pair.1.symbol.toList <:+ s.symbol.toList → s = pair.1 ∨ (s, pair) ∈ halfPairs := by decide
  exact hall (x, o) hpair s (by cases s <;> decide) h

lemma of_mem_halfPairs {s : Single} (h : (s, x, o) ∈ halfPairs) :
    (x, o) ∈ cancellations ∧ s.symbol.toList = "prev".toList ++ x.symbol.toList := by
  have hall : ∀ half ∈ halfPairs, half.2 ∈ cancellations ∧
      half.1.symbol.toList = "prev".toList ++ half.2.1.symbol.toList := by decide
  exact hall _ h

lemma Shape.apply_zeroing_unary (a : Operand) :
    (zeroing cancellations).apply (unary a).text = (unary a).text := by
  have hquiet : Quiet (unary a).text.toList := by
    have htext : (unary a).text = a.text := by rw [text, String.intercalate_singleton]
    intro x o
    rw [htext, replaceAll_of_unmarked (unmarked_operand a)]
  rw [Replacements.apply, hquiet.applyTo_zeroing, String.ofList_toList]

/-- Where the operands are no pair, not even half of one, the text stays. -/
lemma Shape.apply_zeroing_of_not {a b : Operand} {o : Operation} (rest : Continuation)
    (h : ∀ s x, (x, o) ∈ cancellations → a = ⟨s, none⟩ → b = ⟨x, none⟩ →
      ¬x.symbol.toList <:+ s.symbol.toList) :
    (zeroing cancellations).apply (compound a b o rest).text = (compound a b o rest).text := by
  have hkept : ∀ pair ∈ cancellations,
      ¬(pair.2 = o ∧ b = ⟨pair.1, none⟩ ∧ pair.1.symbol.toList <:+ a.text.toList) := by
    rintro ⟨x, o⟩ hpair ⟨rfl, hb, hsuffix⟩
    obtain ⟨s, ha, hsuffix⟩ := Operand.exists_of_suffix_text hsuffix
    exact h s x hpair ha hb hsuffix
  rw [Replacements.apply, toList_text_compound,
    applyTo_zeroing_of_not (unmarked_operand a) rest hkept, ← toList_text_compound,
    String.ofList_toList]

/-- Where the operands are a pair or half of one, a zero is written behind what is left. -/
lemma Shape.apply_zeroing_of_mem {s : Single} (left : String) (rest : Continuation)
    (hleft : Unmarked isSign left.toList) (hpair : (x, o) ∈ cancellations)
    (hs : s.symbol.toList = left.toList ++ x.symbol.toList) :
    (zeroing cancellations).apply (compound ⟨s, none⟩ ⟨x, none⟩ o rest).text =
      rest.behind (left ++ "0") := by
  have hzero : (left ++ "0").toList = left.toList ++ ['0'] := by rw [String.toList_append]; rfl
  rw [Replacements.apply, toList_text_compound, toList_text_single, hs,
    applyTo_zeroing_of_mem hleft rest hpair, ← hzero, ← Continuation.toList_behind,
    String.ofList_toList]

/-! ### Results after all replacements -/

lemma outcome_congr {f f' : Formula} (t : NumberTables) (c : Context) (stack : Stack)
    (h : Token.run t c f.tokens = Token.run t c f'.tokens) :
    (f.evaluateOn t c).outcome stack = (f'.evaluateOn t c).outcome stack := by
  rw [Formula.evaluateOn, Formula.evaluateOn, h]

/-- A pair computes zero, whatever its single stands for. -/
lemma run_pair (hpair : (x, o) ∈ cancellations) (t : NumberTables) (c : Context) :
    Token.run t c [.single x, .single x, .operation o] = Token.run t c [.literal 0] := by
  have ho : o = .subtract ∨ o = .exclusiveOr := by
    have hall : ∀ pair ∈ cancellations, pair.2 = .subtract ∨ pair.2 = .exclusiveOr := by decide
    exact hall _ hpair
  have happly : o.apply (x.value c) (x.value c) = .ok 0 := by
    rcases ho with rfl | rfl
    · exact congrArg Except.ok (Int32.sub_self _)
    · exact congrArg Except.ok Int32.xor_self
  funext stack
  have hstep := Token.step_operation t c stack o (x.value c) (x.value c)
  rw [happly] at hstep
  change (Token.step t c (.operation o) >>= fun _ => pure ()) (x.value c :: x.value c :: stack) = _
  rw [bind_pure_unit, hstep]
  rfl

/-- The singles and the operation at the beginning of the tokens are half a pair. -/
def BeginsWithHalfPair (tokens : List Token) : Prop :=
  ∃ half ∈ halfPairs, [.single half.1, .single half.2.1, .operation half.2.2] <+: tokens

instance (tokens : List Token) : Decidable (BeginsWithHalfPair tokens) :=
  inferInstanceAs (Decidable (∃ half ∈ halfPairs, _))

lemma beginsWithHalfPair_compound_iff {a b : Operand} {rest : Continuation} :
    BeginsWithHalfPair (Shape.compound a b o rest).tokens ↔
      ∃ s x, (s, x, o) ∈ halfPairs ∧ a = ⟨s, none⟩ ∧ b = ⟨x, none⟩ := by
  constructor
  · rintro ⟨⟨s, x, o'⟩, hhalf, hprefix⟩
    obtain ⟨s', _ | f⟩ := a <;> obtain ⟨x', _ | g⟩ := b <;>
      simp [Shape.tokens, Operand.tokens] at hprefix
    obtain ⟨rfl, rfl, rfl⟩ := hprefix
    exact ⟨s, x, hhalf, rfl, rfl⟩
  · rintro ⟨s, x, hhalf, rfl, rfl⟩
    exact ⟨(s, x, o), hhalf, by simp [Shape.tokens, Operand.tokens]⟩

lemma not_beginsWithHalfPair_unary (a : Operand) :
    ¬BeginsWithHalfPair (Shape.unary a).tokens := by
  rintro ⟨half, -, hprefix⟩
  obtain ⟨s, _ | f⟩ := a <;> simp [Shape.tokens, Operand.tokens] at hprefix

/-- A whole pair computes what the zero in its place computes. -/
lemma Shape.outcome_apply_pair (hpair : (x, o) ∈ cancellations) (rest : Continuation)
    (t : NumberTables) (c : Context) (stack : Stack) :
    ((Formula.ofText ((zeroing cancellations).apply
        (compound ⟨x, none⟩ ⟨x, none⟩ o rest).text)).evaluateOn t c).outcome stack =
      ((Formula.ofText (compound ⟨x, none⟩ ⟨x, none⟩ o rest).text).evaluateOn t c).outcome
        stack := by
  have hclean := apply_zeroing_of_mem "" rest (by decide) hpair rfl
  have hzero : (Formula.ofText ("" ++ "0")).tokens = [.literal 0] := by decide +kernel
  refine outcome_congr t c stack ?_
  rw [hclean, Continuation.tokens_behind, hzero, tokens_text, tokens, Token.run_append,
    Token.run_append]
  exact congrArg (fun m => m >>= fun _ => Token.run t c rest.tokens) (run_pair hpair t c).symm

/-- Half a pair leaves a word that is no token. -/
lemma Shape.outcome_apply_halfPair {s : Single} (hhalf : (s, x, o) ∈ halfPairs)
    (rest : Continuation) (t : NumberTables) (c : Context) (stack : Stack) :
    ((Formula.ofText ((zeroing cancellations).apply
        (compound ⟨s, none⟩ ⟨x, none⟩ o rest).text)).evaluateOn t c).outcome stack =
      .error (.unknownToken "prev0") := by
  obtain ⟨hpair, hs⟩ := of_mem_halfPairs hhalf
  have hclean := apply_zeroing_of_mem "prev" rest (by decide) hpair hs
  have hunknown : (Formula.ofText ("prev" ++ "0")).tokens = [.unknown "prev0"] := by
    decide +kernel
  have htokens := Continuation.tokens_behind ("prev" ++ "0") rest
  rw [hunknown] at htokens
  rw [hclean, Formula.evaluateOn, htokens]
  rfl

/-- An attempt is cleaned up without a change of its results, or it begins with half a pair and
ends up with no token at its beginning. -/
lemma Shape.outcome_apply_zeroing (shape : Shape) (t : NumberTables) (c : Context)
    (stack : Stack) :
    (¬BeginsWithHalfPair shape.tokens →
      ((Formula.ofText ((zeroing cancellations).apply shape.text)).evaluateOn t c).outcome stack =
        ((Formula.ofText shape.text).evaluateOn t c).outcome stack) ∧
    (BeginsWithHalfPair shape.tokens →
      ((Formula.ofText ((zeroing cancellations).apply shape.text)).evaluateOn t c).outcome stack =
        .error (.unknownToken "prev0")) := by
  cases shape with
  | unary a =>
    rw [apply_zeroing_unary]
    exact ⟨fun _ => rfl, fun h => absurd h (not_beginsWithHalfPair_unary a)⟩
  | compound a b o rest =>
    rw [beginsWithHalfPair_compound_iff]
    refine ⟨fun hnone => ?_, ?_⟩
    · by_cases hfound : ∃ s x, (x, o) ∈ cancellations ∧ a = ⟨s, none⟩ ∧ b = ⟨x, none⟩ ∧
          x.symbol.toList <:+ s.symbol.toList
      · obtain ⟨s, x, hpair, rfl, rfl, hsuffix⟩ := hfound
        rcases eq_or_mem_halfPairs hpair hsuffix with rfl | hhalf
        · exact outcome_apply_pair hpair rest t c stack
        · exact absurd ⟨s, x, hhalf, rfl, rfl⟩ hnone
      · rw [apply_zeroing_of_not rest fun s x hpair ha hb hsuffix =>
          hfound ⟨s, x, hpair, ha, hb, hsuffix⟩]
    · rintro ⟨s, x, hhalf, rfl, rfl⟩
      exact outcome_apply_halfPair hhalf rest t c stack

/-- **The bundled replacements change results only at half pairs.** An attempt of the bundled rules
that begins with half a pair has results, or at worst a zero divisor or a function outside of its
table, and cleaned up it fails everywhere, for a word that is no token. Every other attempt has the
same result before and after. -/
theorem outcome_apply_bundledReplacements {selection : List String} {v : Vocabulary}
    (hv : Vocabulary.ofTokens selection = .ok v) :
    ∃ rules replacements a, parseRules bundledRules = .ok rules ∧
      Replacements.parse bundledReplacements = .ok replacements ∧
      Attempts.ofRules v rules [] = ([], .ok a) ∧
      ∀ text ∈ a.toList, ∀ (t : NumberTables) (c : Context) (stack : Stack),
        (¬BeginsWithHalfPair (Formula.ofText text).tokens →
          ((Formula.ofText (replacements.apply text)).evaluateOn t c).outcome stack =
            ((Formula.ofText text).evaluateOn t c).outcome stack) ∧
        (BeginsWithHalfPair (Formula.ofText text).tokens →
          ((Formula.ofText (replacements.apply text)).evaluateOn t c).outcome stack =
            .error (.unknownToken "prev0") ∧
          ∀ word, ((Formula.ofText text).evaluateOn t c).outcome stack ≠
            .error (.unknownToken word)) := by
  obtain ⟨e, he⟩ := exists_resolve_formulaRules hv
  have ha : Attempts.ofRules v formulaRules [] = ([], .ok ⟨e, []⟩) := by
    rw [Attempts.ofRules, he]
    rfl
  have hselected := Vocabulary.selected_ofTokens hv
  have htexts := Attempts.texts_of_ofRules_nil ha
  refine ⟨formulaRules, zeroing cancellations, ⟨e, []⟩, parseRules_bundledRules,
    parse_bundledReplacements, ha, fun text htext t c stack => ?_⟩
  have hsound := sound_texts hselected admits_formulaRules htexts text htext
  obtain ⟨shape, rfl⟩ := exists_shape hselected htexts text htext
  have hcleaned := shape.outcome_apply_zeroing t c stack
  rw [Shape.tokens_text]
  refine ⟨hcleaned.1, fun hhalf => ⟨hcleaned.2 hhalf, fun word hword => ?_⟩⟩
  have houtcome := hsound.outcome t c stack
  rw [hword] at houtcome
  rcases houtcome with ⟨v, hv⟩ | hzero | ⟨s, n, hrange⟩
  · cases hv
  · cases hzero
  · cases hrange

/-- A pair and half a pair among the attempts of one selection. -/
theorem outcome_apply_bundledReplacements_pairs :
    ∃ rules replacements a, parseRules bundledRules = .ok rules ∧
      Replacements.parse bundledReplacements = .ok replacements ∧
      Vocabulary.ofTokens ["p", "prevp", "-"] = .ok ⟨["-"], ["p", "prevp"], []⟩ ∧
      Attempts.ofRules ⟨["-"], ["p", "prevp"], []⟩ rules [] = ([], .ok a) ∧
      "p p - p -" ∈ a.toList ∧ "prevp p - p -" ∈ a.toList ∧
      ∀ (t : NumberTables) (c : Context) (stack : Stack),
        ((Formula.ofText (replacements.apply "p p - p -")).evaluateOn t c).outcome stack =
          ((Formula.ofText "p p - p -").evaluateOn t c).outcome stack ∧
        ((Formula.ofText (replacements.apply "prevp p - p -")).evaluateOn t c).outcome stack =
          .error (.unknownToken "prev0") := by
  have hv : Vocabulary.ofTokens ["p", "prevp", "-"] = .ok ⟨["-"], ["p", "prevp"], []⟩ := by decide
  obtain ⟨rules, replacements, a, hrules, hreplacements, ha, houtcome⟩ :=
    outcome_apply_bundledReplacements hv
  cases hrules.symm.trans parseRules_bundledRules
  have hlisting : Listing.texts? ⟨["-"], ["p", "prevp"], []⟩ formulaRules =
      some ["p", "prevp", "p p -", "p prevp -", "prevp p -", "prevp prevp -", "p p - p -",
        "p p - prevp -", "p prevp - p -", "p prevp - prevp -", "prevp p - p -",
        "prevp p - prevp -", "prevp prevp - p -", "prevp prevp - prevp -"] := by
    decide +kernel
  rw [Attempts.texts_of_ofRules_nil ha, Option.some.injEq] at hlisting
  have hpair : "p p - p -" ∈ a.toList := by rw [hlisting]; simp
  have hhalf : "prevp p - p -" ∈ a.toList := by rw [hlisting]; simp
  refine ⟨_, replacements, a, hrules, hreplacements, hv, ha, hpair, hhalf, fun t c stack => ?_⟩
  refine ⟨(houtcome _ hpair t c stack).1 ?_, ((houtcome _ hhalf t c stack).2 ?_).1⟩
  · decide +kernel
  · decide +kernel

/-- Half a pair has a value of its own, and none after cleaning. -/
theorem half_pair_loses_value :
    ∃ rules replacements v a, parseRules bundledRules = .ok rules ∧
      Replacements.parse bundledReplacements = .ok replacements ∧
      Vocabulary.ofTokens ["prevp", "p", "-"] = .ok v ∧
      Attempts.ofRules v rules [] = ([], .ok a) ∧ "prevp p -" ∈ a.toList ∧
      ∀ (t : NumberTables) (c : Context),
        ((Formula.ofText "prevp p -").evaluateOn t c).outcome [] =
          .ok (c.previous.operand - c.current.operand) ∧
        ((Formula.ofText (replacements.apply "prevp p -")).evaluateOn t c).outcome [] =
          .error (.unknownToken "prev0") := by
  have hv : Vocabulary.ofTokens ["prevp", "p", "-"] = .ok ⟨["-"], ["prevp", "p"], []⟩ := by decide
  obtain ⟨a, ha⟩ : ∃ a, Attempts.ofRules ⟨["-"], ["prevp", "p"], []⟩ formulaRules [] =
      ([], .ok a) := ⟨_, rfl⟩
  have hlisting : ∃ texts, Listing.texts? ⟨["-"], ["prevp", "p"], []⟩ formulaRules = some texts ∧
      "prevp p -" ∈ texts := by
    refine ⟨_, rfl, ?_⟩
    decide +kernel
  obtain ⟨texts, htexts, hmem⟩ := hlisting
  rw [Attempts.texts_of_ofRules_nil ha, Option.some.injEq] at htexts
  have hbefore : (Formula.ofText "prevp p -").tokens =
      [.single .previousIndex, .single .index, .operation .subtract] := by decide +kernel
  have hafter : (Formula.ofText ((zeroing cancellations).apply "prevp p -")).tokens =
      [.unknown "prev0"] := by decide +kernel
  refine ⟨_, _, _, a, parseRules_bundledRules, parse_bundledReplacements, hv, ha,
    htexts ▸ hmem, fun t c => ⟨?_, ?_⟩⟩
  · rw [Formula.evaluateOn, hbefore]
    rfl
  · rw [Formula.evaluateOn, hafter]
    rfl

end RuneSolver.Grammar
