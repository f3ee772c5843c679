import Mathlib.Algebra.BigOperators.Ring.List
import Mathlib.Algebra.Order.BigOperators.Group.List
import Mathlib.Algebra.Order.Group.Nat
import RuneSolver.Proofs.Grammar.Derivation

/-!
Overflow of the sizes of nonterminals. The exact sizes of a grammar are counted in unbounded
numbers, rule by rule: an alternative has the product of the sizes of its factors, a nonterminal the
sum over its alternatives. Main statement: rules that refer only backward overflow if and only if
one of these sizes reaches the limit, or the factors behind an empty one do so: they are multiplied
first, although the whole product is zero.
-/

namespace RuneSolver.Grammar

open Enumeration (sizeLimit)

/-! ### Exact sizes -/

/-- The nonterminals defined so far, each with the number of its texts. -/
abbrev Census := List (String × ℕ)

namespace Census

/-- The number of texts of a reference in an alternative of `name`, before which others have come.
-/
def reference (c : Census) (name : String) (earlier : ℕ) (reference : String) : ℕ :=
  if reference = name then earlier else (c.lookup reference).getD 0

/-- The sizes of the factors of each alternative. -/
def alternatives (c : Census) (name : String) : ℕ → List (List String) → List (List ℕ)
  | _, [] => []
  | earlier, references :: rest =>
    let factors := references.map (c.reference name earlier)
    factors :: c.alternatives name (earlier + factors.prod) rest

/-- The number of texts of all alternatives, from the sizes of their factors. -/
def total (alternatives : List (List ℕ)) : ℕ := (alternatives.map List.prod).sum

/-- For each rule that defines something, the sizes of the factors of its alternatives. -/
def ofRules : Census → List Rule → List (List (List ℕ))
  | _, [] => []
  | c, rule :: rules =>
    if rule.name ∈ c.map Prod.fst then c.ofRules rules
    else
      let alternatives := c.alternatives rule.name 0 rule.alternatives
      alternatives :: ofRules ((rule.name, total alternatives) :: c) rules

end Census

namespace Listing

/-- The number of texts of each nonterminal. -/
def census (l : Listing) : Census := l.map fun (name, texts) => (name, texts.length)

variable {l : Listing} {name : String} {earlier texts : List String}

lemma length_choices (lists : List (List String)) :
    (choices lists).length = (lists.map List.length).prod := by
  induction lists with
  | nil => rfl
  | cons texts others ih => simp [choices, ih]

lemma length_reference {reference : String} (h : l.reference? name earlier reference = some texts) :
    texts.length = l.census.reference name earlier.length reference := by
  rw [reference?] at h
  rw [Census.reference, census, lookup_map]
  split at h
  · next hself =>
    cases h
    rw [if_pos hself]
  · next hself => rw [if_neg hself, h, Option.map_some, Option.getD_some]

lemma length_alternative {references : List String}
    (h : l.alternative? name earlier references = some texts) :
    texts.length = (references.map (l.census.reference name earlier.length)).prod := by
  obtain ⟨lists, hlists, rfl⟩ := Option.map_eq_some_iff.mp h
  rw [List.length_map, length_choices]
  congr 1
  clear h
  induction references generalizing lists with
  | nil => cases hlists; rfl
  | cons reference references ih =>
    rw [List.mapM_cons] at hlists
    obtain ⟨first, hfirst, hlists⟩ := Option.bind_eq_some_iff.mp hlists
    obtain ⟨others, hothers, hlists⟩ := Option.bind_eq_some_iff.mp hlists
    cases hlists
    rw [List.map_cons, List.map_cons, length_reference hfirst, ih others hothers]

/-- The exact size of a nonterminal is the number of its texts. -/
theorem length_alternatives {rest : List (List String)}
    (h : l.alternatives? name earlier rest = some texts) :
    texts.length =
      earlier.length + Census.total (l.census.alternatives name earlier.length rest) := by
  induction rest generalizing earlier with
  | nil => cases h; rfl
  | cons references rest ih =>
    obtain ⟨next, hnext, h⟩ := Option.bind_eq_some_iff.mp h
    rw [ih h, List.length_append, length_alternative hnext, Census.alternatives, Census.total,
      Census.total, List.map_cons, List.sum_cons, Nat.add_assoc]

end Listing

/-! ### Sizes that reach the limit -/

/-- Every alternative refers to defined names only, or, after the first one, to the name of the rule
itself. -/
def Rule.RefersBack (names : List String) (rule : Rule) : Prop :=
  (∀ references ∈ rule.alternatives.take 1, references ⊆ names) ∧
    ∀ references ∈ rule.alternatives, references ⊆ rule.name :: names

/-- Every rule that defines something refers to what is defined before it, and there is a root. -/
def AllReferBack : List String → List Rule → Prop
  | names, [] => rootName ∈ names
  | names, rule :: rules =>
    if rule.name ∈ names then AllReferBack names rules
    else rule.RefersBack names ∧ AllReferBack (rule.name :: names) rules

instance (names : List String) (rule : Rule) : Decidable (rule.RefersBack names) :=
  inferInstanceAs (Decidable (_ ∧ _))

instance AllReferBack.decide : (names : List String) → (rules : List Rule) →
    Decidable (AllReferBack names rules)
  | names, [] => inferInstanceAs (Decidable (rootName ∈ names))
  | names, rule :: rules =>
    have := AllReferBack.decide names rules
    have := AllReferBack.decide (rule.name :: names) rules
    inferInstanceAs (Decidable (if rule.name ∈ names then AllReferBack names rules
      else rule.RefersBack names ∧ AllReferBack (rule.name :: names) rules))

namespace Listing

variable {l : Listing} {name : String} (earlier : List String)

/-- An alternative that refers to nothing undefined has texts. -/
lemma exists_alternative? {references : List String}
    (h : references ⊆ name :: l.map Prod.fst) :
    ∃ texts, l.alternative? name earlier references = some texts := by
  have hlists : ∃ lists, references.mapM (l.reference? name earlier) = some lists := by
    induction references with
    | nil => exact ⟨[], rfl⟩
    | cons reference references ih =>
      obtain ⟨hhead, htail⟩ := List.cons_subset.mp h
      obtain ⟨lists, hlists⟩ := ih htail
      obtain ⟨texts, htexts⟩ : ∃ texts, l.reference? name earlier reference = some texts := by
        rw [reference?]
        split
        · exact ⟨earlier, rfl⟩
        · next hself =>
          have hmem := (List.mem_cons.mp hhead).resolve_left hself
          exact Option.isSome_iff_exists.mp (isSome_lookup_iff.mpr hmem)
      exact ⟨texts :: lists, by rw [List.mapM_cons, htexts, hlists]; rfl⟩
  obtain ⟨lists, hlists⟩ := hlists
  exact ⟨_, by rw [alternative?, hlists, Option.map_some]⟩

lemma exists_alternatives? {rest : List (List String)}
    (h : ∀ references ∈ rest, references ⊆ name :: l.map Prod.fst) :
    ∃ texts, l.alternatives? name earlier rest = some texts := by
  induction rest generalizing earlier with
  | nil => exact ⟨earlier, rfl⟩
  | cons references rest ih =>
    obtain ⟨hhead, htail⟩ := List.forall_mem_cons.mp h
    obtain ⟨texts, htexts⟩ := exists_alternative? earlier hhead
    rw [alternatives?, htexts, Option.bind_some]
    exact ih _ htail

/-- The exact sizes of rules that refer backward are the numbers of the texts that they list, the
ones of the last rule first. -/
theorem exists_addRules? {rules : List Rule} (h : AllReferBack (l.map Prod.fst) rules) :
    ∃ last, l.addRules? rules = some last ∧
      last.map (·.2.length) =
        ((l.census.ofRules rules).map Census.total).reverse ++ l.map (·.2.length) := by
  induction rules generalizing l with
  | nil => exact ⟨l, rfl, rfl⟩
  | cons rule rules ih =>
    have hnames : l.census.map Prod.fst = l.map Prod.fst := by
      rw [census, List.map_map]
      rfl
    rw [addRules?, Census.ofRules, hnames]
    rw [AllReferBack] at h
    by_cases hmem : rule.name ∈ l.map Prod.fst
    · rw [if_pos hmem] at h
      rw [if_pos hmem, if_pos (isSome_lookup_iff.mpr hmem)]
      exact ih h
    · rw [if_neg hmem] at h
      rw [if_neg hmem, if_neg (mt isSome_lookup_iff.mp hmem)]
      obtain ⟨texts, htexts⟩ := exists_alternatives? [] h.1.2
      have hlength := length_alternatives htexts
      rw [List.length_nil, Nat.zero_add] at hlength
      obtain ⟨last, hlast, hsizes⟩ := @ih ((rule.name, texts) :: l) h.2
      have hcensus : census ((rule.name, texts) :: l) = (rule.name, texts.length) :: l.census := rfl
      rw [hcensus, hlength, List.map_cons, hlength] at hsizes
      refine ⟨last, by rw [htexts, Option.bind_some, hlast], ?_⟩
      rw [hsizes, List.map_cons, List.reverse_cons, List.append_assoc, List.singleton_append]

end Listing

/-- The exact size of an alternative, or of the whole nonterminal, reaches the limit. -/
def Census.ReachesLimit (alternatives : List (List ℕ)) : Prop :=
  sizeLimit ≤ total alternatives ∨ ∃ factors ∈ alternatives, sizeLimit ≤ factors.prod

instance (alternatives : List (List ℕ)) : Decidable (Census.ReachesLimit alternatives) :=
  inferInstanceAs (Decidable (_ ∨ _))

/-- Some factors up to the last one have a product that reaches the limit. -/
def SuffixReachesLimit (factors : List ℕ) : Prop :=
  ∃ suffix, suffix <:+ factors ∧ sizeLimit ≤ suffix.prod

/-- The factors behind an empty one have a product that reaches the limit. -/
def HidesLimit (factors : List ℕ) : Prop :=
  ∃ n ≤ factors.length, 0 ∈ factors.take n ∧ sizeLimit ≤ (factors.drop n).prod

instance (factors : List ℕ) : Decidable (HidesLimit factors) :=
  inferInstanceAs (Decidable (∃ n ≤ factors.length,
    0 ∈ factors.take n ∧ sizeLimit ≤ (factors.drop n).prod))

lemma suffixReachesLimit_iff {factors : List ℕ} :
    SuffixReachesLimit factors ↔ sizeLimit ≤ factors.prod ∨ HidesLimit factors := by
  constructor
  · rintro ⟨after, ⟨before, rfl⟩, hafter⟩
    by_cases hzero : 0 ∈ before
    · refine .inr ⟨before.length, by simp, ?_⟩
      rw [List.take_left, List.drop_left]
      exact ⟨hzero, hafter⟩
    · have hpos : 0 < before.prod := Nat.pos_of_ne_zero (List.prod_ne_zero hzero)
      rw [List.prod_append]
      exact .inl (hafter.trans (Nat.le_mul_of_pos_left _ hpos))
  · rintro (hwhole | ⟨n, -, -, hafter⟩)
    · exact ⟨factors, List.suffix_refl factors, hwhole⟩
    · exact ⟨factors.drop n, List.drop_suffix n factors, hafter⟩

/-! ### Sizes of products and concatenations -/

namespace Enumeration

lemma size_of_strides {factors : List Enumeration} {strides : List ℕ} {n : ℕ}
    (h : strides? factors = some (strides, n)) : n = (factors.map size).prod := by
  induction factors generalizing strides n with
  | nil =>
    cases h
    rfl
  | cons factor factors ih =>
    obtain ⟨rest, m, hrest, rfl, rfl⟩ := strides_cons h
    rw [List.map_cons, List.prod_cons, ← ih hrest, Nat.mul_comm]

/-- A product is multiplied from its last factor on, and has to stay below the limit all the way. -/
lemma strides_eq_none_iff {factors : List Enumeration} :
    strides? factors = none ↔ SuffixReachesLimit (factors.map size) := by
  have hone : ¬sizeLimit ≤ 1 := by decide
  induction factors with
  | nil => simp [strides?, SuffixReachesLimit, hone]
  | cons factor factors ih =>
    simp only [SuffixReachesLimit, List.map_cons, List.suffix_cons_iff, or_and_right, exists_or,
      exists_eq_left, List.prod_cons] at ih ⊢
    rw [strides?]
    cases hrest : strides? factors with
    | none => simp [ih.mp hrest]
    | some rest =>
      obtain ⟨strides, m⟩ := rest
      have hsome : ¬strides? factors = none := by
        rw [hrest]
        exact Option.some_ne_none (strides, m)
      have hbelow := mt ih.mpr hsome
      rw [size_of_strides hrest, Nat.mul_comm]
      simp [hbelow]

lemma product_eq_none_iff {factors : List Enumeration} :
    product? factors = none ↔ SuffixReachesLimit (factors.map size) := by
  rw [← strides_eq_none_iff, product?]
  cases strides? factors <;> simp

lemma size_of_product {factors : List Enumeration} {e : Enumeration}
    (h : product? factors = some e) : e.size = (factors.map size).prod := by
  rw [product?] at h
  cases hstrides : strides? factors with
  | none => rw [hstrides] at h; cases h
  | some result =>
    rw [hstrides] at h
    cases h
    exact size_of_strides hstrides

lemma totalSize_cases {start : ℕ} (hstart : start < sizeLimit) (parts : List Enumeration) :
    (totalSize? start parts = some (start + (parts.map size).sum) ∧
        start + (parts.map size).sum < sizeLimit) ∨
      (totalSize? start parts = none ∧ sizeLimit ≤ start + (parts.map size).sum) := by
  induction parts generalizing start with
  | nil => exact .inl ⟨rfl, hstart⟩
  | cons part parts ih =>
    rw [totalSize?, List.map_cons, List.sum_cons, ← Nat.add_assoc]
    split
    · next hnext => exact ih hnext
    · next hnext => exact .inr ⟨rfl, by omega⟩

/-- A concatenation has the sum of the sizes of its parts, or the sum reaches the limit. -/
lemma concat_cases (parts : List Enumeration) :
    (∃ e, concat? parts = some e ∧ e.size = (parts.map size).sum ∧
        (parts.map size).sum < sizeLimit) ∨
      (concat? parts = none ∧ sizeLimit ≤ (parts.map size).sum) := by
  have htotal := totalSize_cases (show 0 < sizeLimit by decide) parts
  rw [Nat.zero_add] at htotal
  rcases htotal with ⟨hsome, hbelow⟩ | ⟨hnone, hlimit⟩
  · exact .inl ⟨⟨(parts.map size).sum, itemOf parts⟩, by rw [concat?, hsome], rfl, hbelow⟩
  · exact .inr ⟨by rw [concat?, hnone], hlimit⟩

end Enumeration

/-! ### Rules that refer backward -/

namespace Census

/-- A rule whose alternatives have factors of these sizes overflows. -/
def Overflows (alternatives : List (List ℕ)) : Prop :=
  sizeLimit ≤ total alternatives ∨ ∃ factors ∈ alternatives, SuffixReachesLimit factors

end Census

namespace Definitions

/-- The sizes of the definitions. -/
def census (defs : Definitions) : Census := defs.map fun (name, e) => (name, e.size)

lemma lookup_census (defs : Definitions) (name : String) :
    defs.census.lookup name = (defs.lookup name).map (·.size) :=
  lookup_map Enumeration.size defs name

lemma names_census (defs : Definitions) : defs.census.map Prod.fst = defs.map Prod.fst := by
  rw [census, List.map_map]
  rfl

variable {defs : Definitions} {name : String} {earlier : List Enumeration}

/-- The number of texts of alternatives that are resolved. -/
abbrev totalSize (parts : List Enumeration) : ℕ := (parts.map (·.size)).sum

/-- A reference to something defined has its size; one to the rule itself has the size of what has
come before, which may be too large. -/
lemma factor_cases {reference : String} (hdefined : reference ∈ name :: defs.map Prod.fst)
    (hself : reference = name → earlier ≠ []) :
    (∃ e, defs.factor name earlier reference = .ok e ∧
        e.size = defs.census.reference name (totalSize earlier) reference) ∨
      (defs.factor name earlier reference = .error .overflow ∧
        sizeLimit ≤ totalSize earlier) := by
  rw [factor, Census.reference]
  by_cases heq : reference = name
  · have hsome : earlier.isEmpty = false := by simpa using hself heq
    simp only [if_pos heq, hsome]
    rcases Enumeration.concat_cases earlier with ⟨e, he, hsize, -⟩ | ⟨hnone, hlimit⟩
    · exact .inl ⟨e, by rw [he]; rfl, hsize⟩
    · exact .inr ⟨by rw [hnone]; rfl, hlimit⟩
  · have hmem := (List.mem_cons.mp hdefined).resolve_left heq
    obtain ⟨e, he⟩ := Option.isSome_iff_exists.mp (isSome_lookup_iff.mpr hmem)
    simp only [if_neg heq, lookup_census, he]
    exact .inl ⟨e, rfl, rfl⟩

lemma factors_cases {references : List String} (hdefined : references ⊆ name :: defs.map Prod.fst)
    (hself : name ∈ references → earlier ≠ []) :
    (∃ factors, defs.factors name earlier references = .ok factors ∧
        factors.map (·.size) =
          references.map (defs.census.reference name (totalSize earlier))) ∨
      (defs.factors name earlier references = .error .overflow ∧
        sizeLimit ≤ totalSize earlier) := by
  induction references with
  | nil => exact .inl ⟨[], rfl, rfl⟩
  | cons reference references ih =>
    obtain ⟨hhead, htail⟩ := List.cons_subset.mp hdefined
    rw [Definitions.factors]
    rcases factor_cases hhead fun h => hself (h ▸ List.mem_cons_self) with
      ⟨e, he, hsize⟩ | ⟨herror, hlimit⟩
    · rw [he]
      rcases ih htail fun h => hself (List.mem_cons_of_mem reference h) with
        ⟨factors, hfactors, hsizes⟩ | ⟨herror, hlimit⟩
      · refine .inl ⟨e :: factors, by simp only [hfactors]; rfl, ?_⟩
        rw [List.map_cons, List.map_cons, hsize, hsizes]
      · exact .inr ⟨by simp only [herror]; rfl, hlimit⟩
    · exact .inr ⟨by rw [herror], hlimit⟩

/-- Alternatives have the products of the sizes of their factors, or some size is too large. -/
lemma alternatives_cases {rest : List (List String)}
    (hdefined : ∀ references ∈ rest, references ⊆ name :: defs.map Prod.fst)
    (hself : earlier = [] → ∀ references ∈ rest.take 1, name ∉ references) :
    (∃ parts, defs.alternatives name earlier rest = .ok parts ∧
        totalSize parts = totalSize earlier +
          Census.total (defs.census.alternatives name (totalSize earlier) rest) ∧
        ∀ factors ∈ defs.census.alternatives name (totalSize earlier) rest,
          ¬SuffixReachesLimit factors) ∨
      (defs.alternatives name earlier rest = .error .overflow ∧
        (sizeLimit ≤ totalSize earlier +
            Census.total (defs.census.alternatives name (totalSize earlier) rest) ∨
          ∃ factors ∈ defs.census.alternatives name (totalSize earlier) rest,
            SuffixReachesLimit factors)) := by
  induction rest generalizing earlier with
  | nil => exact .inl ⟨earlier, rfl, rfl, nofun⟩
  | cons references rest ih =>
    obtain ⟨hhead, htail⟩ := List.forall_mem_cons.mp hdefined
    have hfirst : name ∈ references → earlier ≠ [] :=
      fun hmem hnone => hself hnone references (by simp) hmem
    rw [Definitions.alternatives, Census.alternatives]
    simp only [Census.total, List.map_cons, List.sum_cons, List.forall_mem_cons,
      List.exists_mem_cons_iff]
    rcases factors_cases hhead hfirst with ⟨factors, hfactors, hsizes⟩ | ⟨herror, hlimit⟩
    · rw [hfactors, ← hsizes]
      simp only
      cases hproduct : Enumeration.product? factors with
      | none => exact .inr ⟨rfl, .inr (.inl (Enumeration.product_eq_none_iff.mp hproduct))⟩
      | some e =>
        have hsome : ¬Enumeration.product? factors = none := by
          rw [hproduct]
          exact Option.some_ne_none e
        have hbelow := mt Enumeration.product_eq_none_iff.mpr hsome
        have hsize : totalSize (earlier ++ [e]) =
            totalSize earlier + (factors.map (·.size)).prod := by
          rw [totalSize, List.map_append, List.sum_append, List.map_singleton, List.sum_singleton,
            Enumeration.size_of_product hproduct]
        have hih := @ih (earlier ++ [e]) htail (by simp)
        rw [hsize, Census.total] at hih
        simp only [← Nat.add_assoc, hbelow, not_false_eq_true, true_and, false_or]
        exact hih
    · rw [herror]
      exact .inr ⟨rfl, .inl (hlimit.trans (Nat.le_add_right _ _))⟩

/-- A rule that refers backward has the exact size, or it overflows. -/
lemma meaning_cases {rule : Rule} (hnew : rule.name ∉ defs.map Prod.fst)
    (h : rule.RefersBack (defs.map Prod.fst)) :
    (∃ e, defs.meaning rule = .ok e ∧
        e.size = Census.total (defs.census.alternatives rule.name 0 rule.alternatives) ∧
        ¬Census.Overflows (defs.census.alternatives rule.name 0 rule.alternatives)) ∨
      (defs.meaning rule = .error .overflow ∧
        Census.Overflows (defs.census.alternatives rule.name 0 rule.alternatives)) := by
  obtain ⟨hfirst, hall⟩ := h
  have hcases := @alternatives_cases defs rule.name [] rule.alternatives hall
    fun _ references hreferences hmem => hnew (hfirst references hreferences hmem)
  simp only [totalSize, List.map_nil, List.sum_nil, Nat.zero_add] at hcases
  rw [meaning]
  rcases hcases with ⟨parts, hparts, hsize, hbelow⟩ | ⟨herror, hlimit⟩
  · rw [hparts]
    rcases Enumeration.concat_cases parts with ⟨e, he, hesize, hlt⟩ | ⟨hnone, hlimit⟩
    · refine .inl ⟨e, by simp only [he]; rfl, hesize.trans hsize, ?_⟩
      rintro (hlimit | ⟨factors, hfactors, hsuffix⟩)
      · rw [hsize] at hlt
        omega
      · exact hbelow factors hfactors hsuffix
    · exact .inr ⟨by simp only [hnone]; rfl, .inl (hsize ▸ hlimit)⟩
  · exact .inr ⟨by rw [herror], hlimit⟩

/-- Rules that refer backward are all added, or one of them overflows. -/
lemma addRules_cases {rules : List Rule} (h : AllReferBack (defs.map Prod.fst) rules) :
    (∃ result, (defs.addRules rules).2 = .ok result ∧ result.defines rootName = true ∧
        ∀ alternatives ∈ defs.census.ofRules rules, ¬Census.Overflows alternatives) ∨
      ((defs.addRules rules).2 = .error .overflow ∧
        ∃ alternatives ∈ defs.census.ofRules rules, Census.Overflows alternatives) := by
  induction rules generalizing defs with
  | nil => exact .inl ⟨defs, rfl, isSome_lookup_iff.mpr h, nofun⟩
  | cons rule rules ih =>
    rw [addRules, Census.ofRules, names_census]
    rw [AllReferBack] at h
    by_cases hmem : rule.name ∈ defs.map Prod.fst
    · have hdefines : defs.defines rule.name = true := isSome_lookup_iff.mpr hmem
      rw [if_pos hmem] at h
      rw [if_pos hmem, if_pos hdefines]
      exact ih h
    · have hdefines : ¬defs.defines rule.name = true := mt isSome_lookup_iff.mp hmem
      rw [if_neg hmem] at h
      rw [if_neg hmem, if_neg hdefines]
      simp only [List.forall_mem_cons, List.exists_mem_cons_iff]
      rcases meaning_cases hmem h.1 with ⟨e, he, hsize, hbelow⟩ | ⟨herror, hlimit⟩
      · have hih := @ih ((rule.name, e) :: defs) h.2
        rw [he]
        simp only [hbelow, not_false_eq_true, true_and, false_or, ← hsize]
        exact hih
      · exact .inr ⟨by rw [herror], .inl hlimit⟩

end Definitions

lemma names_definitions (v : Vocabulary) : v.definitions.map Prod.fst = categoryNames := rfl

lemma census_definitions (v : Vocabulary) :
    v.definitions.census = Listing.census v.nonterminals := by
  have hsize (tokens : List String) : (Enumeration.ofList tokens).size = tokens.length := by
    rw [← Enumeration.length_toList, Enumeration.toList_ofList]
  simp [Vocabulary.definitions, Listing.census, Definitions.census, Function.comp_def, hsize]

lemma Census.overflows_iff {alternatives : List (List ℕ)} :
    Overflows alternatives ↔
      ReachesLimit alternatives ∨ ∃ factors ∈ alternatives, HidesLimit factors := by
  simp only [Overflows, ReachesLimit, suffixReachesLimit_iff, and_or_left, exists_or, or_assoc]

/-- **Rules that refer backward overflow exactly at their exact sizes**, or behind an empty factor.
The exact sizes are the numbers of the texts that the rules list, whether they overflow or not. -/
theorem resolve_eq_overflow_iff {v : Vocabulary} {rules : List Rule}
    (h : AllReferBack categoryNames rules) :
    ((resolve v rules).2 = .error .overflow ↔
      ∃ alternatives ∈ (Listing.census v.nonterminals).ofRules rules,
        Census.ReachesLimit alternatives ∨ ∃ factors ∈ alternatives, HidesLimit factors) ∧
    ∃ l, Listing.addRules? v.nonterminals rules = some l ∧
      l.map (·.2.length) =
        (((Listing.census v.nonterminals).ofRules rules).map Census.total).reverse ++
          v.nonterminals.map (·.2.length) := by
  refine ⟨?_, Listing.exists_addRules? h⟩
  rw [← names_definitions v] at h
  have hcases := Definitions.addRules_cases h
  rw [census_definitions] at hcases
  simp only [Census.overflows_iff] at hcases
  rw [resolve]
  rcases hcases with ⟨result, hresult, hroot, hbelow⟩ | ⟨herror, hlimit⟩
  · obtain ⟨e, he⟩ := Option.isSome_iff_exists.mp hroot
    have hok : result.root = .ok e := by rw [Definitions.root, he]
    simp only [hresult, Except.bind, hok]
    constructor
    · nofun
    · rintro ⟨alternatives, hmem, hlimit⟩
      exact absurd hlimit (hbelow alternatives hmem)
  · simp only [herror, Except.bind]
    exact iff_of_true trivial hlimit

/-! ### Factors that are multiplied before an empty one -/

/-- A nonterminal with half as many bits as sizes have, twice in one alternative of the root with
an empty category. -/
def halfRules (first last : List String) : List Rule :=
  [⟨"half", [List.replicate 32 "single"]⟩,
    ⟨"decryption", [first ++ ["half", "half"] ++ last, ["single"]]⟩]

/-- Two tokens, and no special. -/
def twoSingles : Vocabulary := ⟨[], ["p", "i"], []⟩

/-- An empty factor behind the large ones makes the product zero before it grows. -/
theorem resolve_ne_overflow_halfRules :
    AllReferBack categoryNames (halfRules [] ["special"]) ∧
      (resolve twoSingles (halfRules [] ["special"])).2 ≠ .error .overflow := by
  have hback : AllReferBack categoryNames (halfRules [] ["special"]) := by decide +kernel
  obtain ⟨hiff, -⟩ := resolve_eq_overflow_iff hback
  refine ⟨hback, ?_⟩
  rw [ne_eq, hiff]
  decide +kernel

/-- **The factors behind an empty one overflow on their own**, although no exact size comes near
the limit. -/
theorem overflow_behind_empty_factor :
    AllReferBack categoryNames (halfRules ["special"] []) ∧
      (resolve twoSingles (halfRules ["special"] [])).2 = .error .overflow ∧
      ¬∃ alternatives ∈ (Listing.census twoSingles.nonterminals).ofRules (halfRules ["special"] []),
        Census.ReachesLimit alternatives :=
  ⟨by decide +kernel, rfl, by decide +kernel⟩

end RuneSolver.Grammar
