import RuneSolver.Proofs.Grammar.Listing

/-!
Passes over the attempts of a grammar. A pass gives the attempts one after the other, and none
when all have come; counting what is left never goes wrong. Main statement: the attempts of rules
are the texts that the rules list, whether they are asked for by position, collected, or taken off
a fresh pass.
-/

namespace RuneSolver.Grammar

namespace Attempts

lemma getElem?_map_texts (a : Attempts) (i : ℕ) :
    (a.texts.toList.map a.replacements.apply)[i]? = a.get? i := by
  rw [List.getElem?_map, Enumeration.getElem?_toList, get?]

lemma get?_of_lt {a : Attempts} {i : ℕ} (h : i < a.size) :
    a.get? i = some (a.replacements.apply (a.texts.item i)) := by
  have h' : i < a.texts.size := h
  rw [get?, Enumeration.get?, if_pos h', Option.map_some]

lemma get?_of_le {a : Attempts} {i : ℕ} (h : a.size ≤ i) : a.get? i = none := by
  have h' : ¬i < a.texts.size := Nat.not_lt.mpr h
  rw [get?, Enumeration.get?, if_neg h', Option.map_none]

end Attempts

namespace Pass

/-- What that many calls give, one after the other, and the pass after them. -/
def calls : ℕ → Pass → List (Option String) × Pass
  | 0, p => ([], p)
  | k + 1, p => (p.advance.1 :: (calls k p.advance.2).1, (calls k p.advance.2).2)

variable {a : Attempts} {n : ℕ}

lemma advance_of_lt (h : n < a.size) : advance ⟨a, n⟩ = (a.get? n, ⟨a, n + 1⟩) := by
  rw [advance, if_neg (Nat.not_le.mpr h), Attempts.get?_of_lt h]

lemma advance_of_le (h : a.size ≤ n) : advance ⟨a, n⟩ = (a.get? n, ⟨a, n⟩) := by
  rw [advance, if_pos h, Attempts.get?_of_le h]

/-- Calls give the attempts that are left, and nothing after them. -/
lemma calls_eq (k : ℕ) (h : n ≤ a.size) :
    calls k ⟨a, n⟩ = ((List.range k).map fun i => a.get? (n + i), ⟨a, min (n + k) a.size⟩) := by
  induction k generalizing n with
  | zero => simp [calls, h]
  | succ k ih =>
    rw [List.range_succ_eq_map, List.map_cons, List.map_map, calls]
    rcases Nat.lt_or_ge n a.size with hlt | hge
    · rw [advance_of_lt hlt, ih hlt]
      simp only [Function.comp_def, Nat.add_zero, Nat.succ_eq_add_one, Nat.add_right_comm n 1,
        Nat.add_assoc n]
    · -- the pass stays after its last attempt, where every position is past the end
      rw [advance_of_le hge, ih h]
      have hpast : ∀ i, a.get? (n + i) = none := fun i => Attempts.get?_of_le (by omega)
      simp only [Function.comp_def, Nat.add_zero, hpast]
      congr 2
      omega

lemma collectOnto_eq (collected : List String) (k : ℕ) (h : n ≤ a.size) :
    collectOnto collected k ⟨a, n⟩ =
      collected.reverse ++ ((a.texts.toList.map a.replacements.apply).drop n).take k := by
  induction k generalizing collected n with
  | zero => simp [collectOnto]
  | succ k ih =>
    rw [collectOnto]
    rcases Nat.lt_or_ge n a.size with hlt | hge
    · have hn : n < (a.texts.toList.map a.replacements.apply).length := by
        simpa [Attempts.size] using hlt
      have hget : (a.texts.toList.map a.replacements.apply)[n] =
          a.replacements.apply (a.texts.item n) := by
        simp [Enumeration.toList]
      rw [advance_of_lt hlt, Attempts.get?_of_lt hlt]
      simp only
      rw [ih _ hlt, List.drop_eq_getElem_cons hn, List.take_succ_cons, hget]
      simp
    · rw [advance_of_le hge, Attempts.get?_of_le hge]
      simp only
      rw [List.drop_of_length_le (by simpa [Attempts.size] using hge)]
      simp

end Pass

lemma Attempts.toList_eq (a : Attempts) : a.toList = a.texts.toList.map a.replacements.apply := by
  rw [toList, pass, Pass.collectOnto_eq _ _ (Nat.zero_le _), List.drop_zero,
    List.take_of_length_le (by simp [size])]
  rfl

lemma Attempts.ofRules_ok {v : Vocabulary} {rules : List Rule} {replacements : Replacements}
    {again : List String} {a : Attempts}
    (h : Attempts.ofRules v rules replacements = (again, .ok a)) :
    resolve v rules = (again, .ok a.texts) ∧ a.replacements = replacements := by
  unfold Attempts.ofRules at h
  rcases hresolve : resolve v rules with ⟨names, _ | e⟩
  · rw [hresolve] at h; cases h
  · rw [hresolve] at h; cases h
    exact ⟨rfl, rfl⟩

/-- Attempts that are not cleaned up are the texts themselves. -/
lemma Attempts.texts_of_ofRules_nil {v : Vocabulary} {rules : List Rule} {again : List String}
    {a : Attempts} (h : Attempts.ofRules v rules [] = (again, .ok a)) :
    Listing.texts? v rules = some a.toList := by
  obtain ⟨hresolve, hreplacements⟩ := Attempts.ofRules_ok h
  have hsame : Replacements.apply [] = id := funext fun text => String.ofList_toList
  rw [resolve_ok hresolve, a.toList_eq, hreplacements, hsame, List.map_id]

/-- **Attempts are the texts of their rules.** Whenever rules resolve, their texts can be written
out, and the attempts are these texts in order, each cleaned up: by position, where there is none
past the end; collected; and from a fresh pass, of which the attempts not yet given are left. -/
theorem attempts_eq_texts {v : Vocabulary} {rules : List Rule} {replacements : Replacements}
    {again : List String} {a : Attempts}
    (h : Attempts.ofRules v rules replacements = (again, .ok a)) :
    ∃ texts, Listing.texts? v rules = some texts ∧
      a.size = texts.length ∧
      (∀ i, a.get? i = (texts.map replacements.apply)[i]?) ∧
      a.toList = texts.map replacements.apply ∧
      ∀ k, (a.pass.calls k).1 = ((List.range k).map fun i => (texts.map replacements.apply)[i]?) ∧
        (a.pass.calls k).2.remaining = texts.length - k := by
  obtain ⟨hresolve, rfl⟩ := Attempts.ofRules_ok h
  refine ⟨a.texts.toList, resolve_ok hresolve, ?_, ?_, a.toList_eq, fun k => ?_⟩
  · simp [Attempts.size]
  · intro i
    rw [a.getElem?_map_texts]
  · rw [Attempts.pass, Pass.calls_eq k (Nat.zero_le _)]
    refine ⟨?_, ?_⟩
    · simp only [Nat.zero_add, a.getElem?_map_texts]
    · simp only [Pass.remaining, Enumeration.length_toList, Attempts.size]
      omega

/-- A rule with an alternative that needs a special, another one of the same name, and a root that
refers to itself. -/
def sampleRules : List Rule :=
  [⟨"unary", [["single"], ["single", "special"]]⟩, ⟨"unary", [["op"]]⟩,
    ⟨"decryption", [["unary"], ["decryption", "unary", "op"]]⟩]

/-- Without specials the second alternative is empty, and the second rule is ignored anyway. -/
theorem attempts_eq_texts_sampleRules :
    ∃ a, Attempts.ofRules ⟨["+", "-"], ["p", "i"], []⟩ sampleRules
        [("p p -".toList, "0".toList)] = (["unary"], .ok a) ∧
      a.size = 10 ∧ a.get? 3 = some "0" ∧ a.get? 4 = some "p i +" ∧ a.get? 10 = none ∧
      (a.pass.calls 7).2.remaining = 3 := by
  have h : Attempts.ofRules ⟨["+", "-"], ["p", "i"], []⟩ sampleRules
      [("p p -".toList, "0".toList)] = (["unary"], .ok _) := rfl
  have hlisting : Listing.texts? ⟨["+", "-"], ["p", "i"], []⟩ sampleRules =
      some ["p", "i", "p p +", "p p -", "p i +", "p i -", "i p +", "i p -", "i i +", "i i -"] := by
    decide +kernel
  obtain ⟨texts, htexts, hsize, hget, -, hcalls⟩ := attempts_eq_texts h
  rw [hlisting] at htexts
  cases htexts
  exact ⟨_, h, hsize, hget 3, hget 4, hget 10, (hcalls 7).2⟩

end RuneSolver.Grammar
