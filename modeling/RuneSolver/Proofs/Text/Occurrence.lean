import Mathlib.Data.List.Infix
import RuneSolver.Text.Part

/-!
Occurrences of a pattern: the first one, at which a text is cut, and those beside a character that
the pattern does not have.

Replacement of all occurrences, each of them behind the one before it. A pattern that ends in a mark
and has no other mark in it can only end where the text has a mark, so there the text is replaced
piece by piece, each piece up to its next mark: it ends in the pattern and loses it to the
replacement, or it stays.
-/

namespace RuneSolver.Text

/-! ### The first occurrence -/

/-- A text is cut at the first position where the pattern begins. -/
lemma cutAt?_eq_some_iff {pattern cs before after : List Char} :
    cutAt? pattern cs = some (before, after) ↔
      cs = before ++ pattern ++ after ∧ ∀ k < before.length, ¬pattern <+: cs.drop k := by
  induction cs generalizing before with
  | nil =>
    rw [cutAt?]
    constructor
    · intro h
      split at h
      · next hempty =>
        cases h
        exact ⟨by simpa using hempty, nofun⟩
      · cases h
    · rintro ⟨h, -⟩
      obtain ⟨rfl, rfl, rfl⟩ : before = [] ∧ pattern = [] ∧ after = [] := by simpa using h.symm
      rfl
  | cons c cs ih =>
    rw [cutAt?]
    split
    · next hprefix =>
      rw [List.isPrefixOf_iff_prefix] at hprefix
      rw [Option.some.injEq, Prod.mk.injEq]
      constructor
      · rintro ⟨rfl, rfl⟩
        exact ⟨(List.prefix_iff_eq_append.mp hprefix).symm, nofun⟩
      · rintro ⟨h, hfirst⟩
        cases before with
        | nil => exact ⟨rfl, by rw [h, List.nil_append, List.drop_left]⟩
        | cons b before => exact absurd hprefix (hfirst 0 (by simp))
    · next hprefix =>
      rw [List.isPrefixOf_iff_prefix] at hprefix
      constructor
      · intro h
        obtain ⟨⟨before', after'⟩, hcut, heq⟩ := Option.map_eq_some_iff.mp h
        cases heq
        obtain ⟨rfl, hfirst⟩ := ih.mp hcut
        refine ⟨rfl, fun k hk => ?_⟩
        cases k with
        | zero => exact hprefix
        | succ k => exact hfirst k (by simpa using hk)
      · rintro ⟨h, hfirst⟩
        cases before with
        | nil => exact absurd ⟨after, h.symm⟩ hprefix
        | cons b before =>
          obtain ⟨rfl, htail⟩ := List.cons.inj h
          have hcut := ih.mpr ⟨htail, fun k hk => hfirst (k + 1) (by simpa using hk)⟩
          rw [hcut, Option.map_some]

lemma contains_iff {pattern cs : List Char} : contains pattern cs = true ↔ pattern <:+: cs := by
  induction cs with
  | nil => simp [contains, cutAt?]
  | cons c cs ih =>
    rw [contains, cutAt?, List.infix_cons_iff, ← ih, ← List.isPrefixOf_iff_prefix]
    cases pattern.isPrefixOf (c :: cs) <;> simp [contains]

/-! ### Occurrences beside a character that the pattern does not have -/

section

variable {pattern before after : List Char} {c : Char}

lemma prefix_of_prefix_append_cons (hc : c ∉ pattern) (h : pattern <+: before ++ c :: after) :
    pattern <+: before := by
  have hwhole : before ++ [c] <+: before ++ c :: after := by simp
  rcases List.prefix_or_prefix_of_prefix h hwhole with hshort | hlong
  · refine (List.prefix_concat_iff.mp hshort).resolve_left ?_
    rintro rfl
    exact hc (by simp)
  · exact absurd (hlong.subset (by simp)) hc

lemma infix_append_cons_iff (hne : pattern ≠ []) (hc : c ∉ pattern) :
    pattern <:+: before ++ c :: after ↔ pattern <:+: before ∨ pattern <:+: after := by
  induction before with
  | nil =>
    have hhead : ¬pattern <+: c :: after := fun h =>
      hne (List.prefix_nil.mp (prefix_of_prefix_append_cons hc h))
    simp [List.infix_cons_iff, hhead, hne]
  | cons b before ih =>
    have hhead : pattern <+: b :: before ++ c :: after ↔ pattern <+: b :: before :=
      ⟨prefix_of_prefix_append_cons hc, List.prefix_append_of_prefix⟩
    rw [List.cons_append] at hhead
    simp only [List.cons_append, List.infix_cons_iff, ih, hhead, or_assoc]

/-- A text is cut behind such a character when the pattern follows and has not come before. -/
lemma cutAt?_eq_some_append_iff {cs : List Char} (hc : c ∉ pattern) :
    cutAt? pattern cs = some (before ++ [c], after) ↔
      cs = before ++ c :: (pattern ++ after) ∧ ¬pattern <:+: before := by
  have hcs : before ++ [c] ++ pattern ++ after = before ++ c :: (pattern ++ after) := by simp
  rw [cutAt?_eq_some_iff, hcs]
  refine and_congr_right fun heq => ?_
  subst heq
  constructor
  · rintro hfirst ⟨s, t, rfl⟩
    have hlt : s.length < (s ++ pattern ++ t ++ [c]).length := by
      simp only [List.length_append, List.length_singleton]
      omega
    refine hfirst s.length hlt ?_
    rw [List.append_assoc, List.append_assoc, List.drop_left]
    exact List.prefix_append pattern _
  · intro hnot k hk hprefix
    rw [List.length_append, List.length_singleton] at hk
    rw [List.drop_append_of_le_length (by omega)] at hprefix
    have hbefore := prefix_of_prefix_append_cons hc hprefix
    exact hnot (hbefore.isInfix.trans (List.drop_suffix k before).isInfix)

end

/-! ### Replacement of all occurrences -/

section

variable {pattern replacement before after : List Char}

lemma replaceFrom_length (pattern replacement passed after : List Char) :
    replaceFrom pattern replacement passed.length (passed ++ after) =
      replaceFrom pattern replacement 0 after := by
  induction passed with
  | nil => rfl
  | cons c passed ih => exact ih

lemma replaceFrom_pattern (hne : pattern ≠ []) (after : List Char) :
    replaceFrom pattern replacement 0 (pattern ++ after) =
      replacement ++ replaceFrom pattern replacement 0 after := by
  obtain ⟨c, rest, rfl⟩ := List.exists_cons_of_ne_nil hne
  have hprefix : (c :: rest).isPrefixOf (c :: (rest ++ after)) = true :=
    List.isPrefixOf_iff_prefix.mpr (List.prefix_append (c :: rest) after)
  rw [List.cons_append, replaceFrom, if_pos hprefix, List.length_cons, Nat.add_sub_cancel,
    replaceFrom_length]

lemma replaceFrom_cons {c : Char}
    (h : ¬pattern <+: c :: after) :
    replaceFrom pattern replacement 0 (c :: after) =
      c :: replaceFrom pattern replacement 0 after := by
  rw [replaceFrom, if_neg fun hprefix => h (List.isPrefixOf_iff_prefix.mp hprefix)]

/-- What stands before the first occurrence stays. -/
lemma replaceFrom_append (h : ∀ k < before.length, ¬pattern <+: (before ++ after).drop k) :
    replaceFrom pattern replacement 0 (before ++ after) =
      before ++ replaceFrom pattern replacement 0 after := by
  induction before with
  | nil => rfl
  | cons c before ih =>
    have hhead : ¬pattern <+: c :: (before ++ after) := h 0 (by simp)
    have hrest := ih fun k hk => h (k + 1) (by simpa using hk)
    rw [List.cons_append, replaceFrom_cons hhead, hrest, List.cons_append]

lemma replaceFrom_of_not_occurs {cs : List Char} (h : ¬pattern <:+: cs) :
    replaceFrom pattern replacement 0 cs = cs := by
  have hnowhere : ∀ k < cs.length, ¬pattern <+: (cs ++ []).drop k := by
    intro k _ hstart
    rw [List.append_nil] at hstart
    exact h (hstart.isInfix.trans (List.drop_suffix k cs).isInfix)
  calc replaceFrom pattern replacement 0 cs
      = replaceFrom pattern replacement 0 (cs ++ []) := by rw [List.append_nil]
    _ = cs ++ [] := replaceFrom_append hnowhere
    _ = cs := List.append_nil cs

/-- From left to right, every occurrence of the pattern that begins behind the one before it gives
way to the replacement. -/
inductive Replaced (pattern replacement : List Char) : List Char → List Char → Prop
  | none {cs : List Char} : ¬pattern <:+: cs → Replaced pattern replacement cs cs
  | first {before after replaced : List Char} :
      (∀ k < before.length, ¬pattern <+: (before ++ (pattern ++ after)).drop k) →
      Replaced pattern replacement after replaced →
      Replaced pattern replacement (before ++ (pattern ++ after))
        (before ++ (replacement ++ replaced))

lemma replaced_replaceFrom (hne : pattern ≠ []) (cs : List Char) :
    Replaced pattern replacement cs (replaceFrom pattern replacement 0 cs) := by
  induction hlength : cs.length using Nat.strong_induction_on generalizing cs with
  | _ n ih =>
    cases hcut : cutAt? pattern cs with
    | none =>
      have hnone : ¬pattern <:+: cs := by
        rw [← contains_iff, contains, hcut]
        exact Bool.false_ne_true
      rw [replaceFrom_of_not_occurs hnone]
      exact .none hnone
    | some pieces =>
      obtain ⟨before, after⟩ := pieces
      obtain ⟨rfl, hfirst⟩ := cutAt?_eq_some_iff.mp hcut
      rw [List.append_assoc] at hfirst hlength ⊢
      have hpos := List.length_pos_of_ne_nil hne
      rw [List.length_append, List.length_append] at hlength
      rw [replaceFrom_append hfirst, replaceFrom_pattern hne]
      exact .first hfirst (ih after.length (by omega) after rfl)

/-- **A text has one replacement of all occurrences**, which is the one that is made. -/
theorem replaced_iff (hne : pattern ≠ []) {cs replaced : List Char} :
    Replaced pattern replacement cs replaced ↔ replaceAll pattern replacement cs = replaced := by
  rw [replaceAll, if_neg (by simpa using hne)]
  constructor
  · intro h
    induction h with
    | none hnone => exact replaceFrom_of_not_occurs hnone
    | first hfirst _ ih => rw [replaceFrom_append hfirst, replaceFrom_pattern hne, ih]
  · rintro rfl
    exact replaced_replaceFrom hne cs

end

/-! ### Replacement of a pattern that ends in a mark -/

variable {isMark : Char → Bool} {body replacement before text after : List Char} {mark next : Char}

/-- No character of the text is a mark. -/
def Unmarked (isMark : Char → Bool) (text : List Char) : Prop := ∀ c ∈ text, isMark c = false

-- decided by the characters of the text, not by all characters there are
instance (isMark : Char → Bool) (text : List Char) : Decidable (Unmarked isMark text) :=
  List.decidableBAll _ text

/-- What begins with the pattern has its first mark where the pattern has it. -/
lemma append_singleton_prefix_iff (hbody : Unmarked isMark body) (hmark : isMark mark = true)
    (htext : Unmarked isMark text) (hnext : isMark next = true) :
    body ++ [mark] <+: text ++ next :: after ↔ body = text ∧ mark = next := by
  induction body generalizing text with
  | nil =>
    cases text with
    | nil => simp
    | cons c text =>
      have hne : mark ≠ c := by
        rintro rfl
        rw [htext mark List.mem_cons_self] at hmark
        cases hmark
      simp [hne]
  | cons b body ih =>
    cases text with
    | nil =>
      have hne : b ≠ next := by
        rintro rfl
        rw [hbody b List.mem_cons_self] at hnext
        cases hnext
      simp [hne]
    | cons c text =>
      have htail := ih (fun d hd => hbody d (List.mem_cons_of_mem b hd))
        fun d hd => htext d (List.mem_cons_of_mem c hd)
      rw [List.cons_append, List.cons_append, List.cons_prefix_cons, htail, List.cons.injEq,
        and_assoc]

/-- Where the pattern ends at the first mark, it is replaced. -/
theorem replaceFrom_of_suffix (hbody : Unmarked isMark body) (hmark : isMark mark = true)
    (hbefore : Unmarked isMark before) :
    replaceFrom (body ++ [mark]) replacement 0 (before ++ body ++ mark :: after) =
      before ++ replacement ++ replaceFrom (body ++ [mark]) replacement 0 after := by
  induction before with
  | nil =>
    have hne : body ++ [mark] ≠ [] := by simp
    have hsplit : body ++ mark :: after = body ++ [mark] ++ after := by simp
    rw [List.nil_append, List.nil_append, hsplit, replaceFrom_pattern hne]
  | cons c before ih =>
    have hrest := ih fun d hd => hbefore d (List.mem_cons_of_mem c hd)
    have htext : Unmarked isMark (c :: before ++ body) :=
      List.forall_mem_append.mpr ⟨hbefore, hbody⟩
    have hlonger : body ≠ c :: before ++ body := fun heq => by
      have hlength := congrArg List.length heq
      simp only [List.cons_append, List.length_cons, List.length_append] at hlength
      omega
    have hnot : ¬body ++ [mark] <+: c :: before ++ body ++ mark :: after := fun hprefix =>
      hlonger ((append_singleton_prefix_iff hbody hmark htext hmark).mp hprefix).1
    simp only [List.cons_append] at hnot hrest ⊢
    rw [replaceFrom_cons hnot, hrest]

/-- A pattern that does not end at the first mark of a text does not stand at its beginning. -/
lemma not_prefix_of_not_suffix (hbody : Unmarked isMark body) (hmark : isMark mark = true)
    (htext : Unmarked isMark text) (hnext : isMark next = true)
    (h : ¬body ++ [mark] <:+ text ++ [next]) : ¬body ++ [mark] <+: text ++ next :: after := by
  intro hprefix
  obtain ⟨rfl, rfl⟩ := (append_singleton_prefix_iff hbody hmark htext hnext).mp hprefix
  exact h (List.suffix_refl _)

/-- Where the pattern does not end at the first mark, everything up to the mark stays. -/
theorem replaceFrom_of_not_suffix (hbody : Unmarked isMark body) (hmark : isMark mark = true)
    (htext : Unmarked isMark text) (hnext : isMark next = true)
    (h : ¬body ++ [mark] <:+ text ++ [next]) :
    replaceFrom (body ++ [mark]) replacement 0 (text ++ next :: after) =
      text ++ next :: replaceFrom (body ++ [mark]) replacement 0 after := by
  induction text with
  | nil => exact replaceFrom_cons (not_prefix_of_not_suffix hbody hmark htext hnext h)
  | cons c text ih =>
    have hnot : ¬body ++ [mark] <+: c :: (text ++ next :: after) :=
      not_prefix_of_not_suffix hbody hmark htext hnext h
    have hrest := ih (fun d hd => htext d (List.mem_cons_of_mem c hd))
      fun hsuffix => h (hsuffix.trans (List.suffix_cons c _))
    rw [List.cons_append, replaceFrom_cons hnot, hrest, List.cons_append]

/-- Without its mark in the text a pattern does not occur. -/
theorem replaceFrom_of_unmarked (hmark : isMark mark = true) (htext : Unmarked isMark text) :
    replaceFrom (body ++ [mark]) replacement 0 text = text := by
  induction text with
  | nil => rfl
  | cons c text ih =>
    have hnot : ¬body ++ [mark] <+: c :: text := fun hprefix => by
      have hmem : mark ∈ c :: text := hprefix.subset (by simp)
      rw [htext mark hmem] at hmark
      cases hmark
    rw [replaceFrom_cons hnot, ih fun d hd => htext d (List.mem_cons_of_mem c hd)]

lemma replaceAll_append_singleton (body replacement text : List Char) (mark : Char) :
    replaceAll (body ++ [mark]) replacement text =
      replaceFrom (body ++ [mark]) replacement 0 text := by
  rw [replaceAll, if_neg (by simp)]

end RuneSolver.Text
