import Mathlib.Algebra.Order.BigOperators.Group.List
import Mathlib.Algebra.Order.Group.Nat
import RuneSolver.Grammar.Attempts
import RuneSolver.Proofs.Grammar.Derivation
import RuneSolver.Proofs.Grammar.Vocabulary

/-!
The bundled rules. They resolve over every vocabulary of selected tokens, because no nonterminal of
theirs can have more than a few hundred thousand texts: a rule has a meaning when bounds of the
nonterminals it refers to keep it below the limit of sizes.
-/

namespace RuneSolver.Grammar

/-- The product of the bounds of the nonterminals that an alternative refers to. -/
def bound (β : String → ℕ) (references : List String) : ℕ := (references.map β).prod

/-- Rules that define new names out of those before them, each within its bound. -/
def Bounded (β : String → ℕ) : List String → List Rule → Prop
  | _, [] => True
  | names, rule :: rules =>
    (rule.name ∉ names ∧ (∀ references ∈ rule.alternatives, references ⊆ names) ∧
      (rule.alternatives.map (bound β)).sum ≤ β rule.name) ∧ Bounded β (rule.name :: names) rules

namespace Definitions

/-! ### Rules over bounded nonterminals -/

/-- No nonterminal has more texts than its bound. -/
def Within (β : String → ℕ) (defs : Definitions) : Prop :=
  ∀ definition ∈ defs, definition.2.size ≤ β definition.1

variable {defs : Definitions} {name : String} {β : String → ℕ}

lemma Within.exists_lookup (hdefs : defs.Within β) (h : name ∈ defs.map Prod.fst) :
    ∃ e, defs.lookup name = some e ∧ e.size ≤ β name := by
  obtain ⟨e, hlookup⟩ := Option.isSome_iff_exists.mp (isSome_lookup_iff.mpr h)
  exact ⟨e, hlookup, hdefs (name, e) (mem_of_lookup hlookup)⟩

lemma Within.exists_factors (hdefs : defs.Within β) (hname : name ∉ defs.map Prod.fst)
    {references : List String} (h : references ⊆ defs.map Prod.fst) (earlier : List Enumeration) :
    ∃ factors, defs.factors name earlier references = .ok factors ∧
      List.Forall₂ (fun e bound => e.size ≤ bound) factors (references.map β) := by
  induction references with
  | nil => exact ⟨[], rfl, .nil⟩
  | cons reference references ih =>
    obtain ⟨hreference, hreferences⟩ := List.cons_subset.mp h
    obtain ⟨e, hlookup, hsize⟩ := hdefs.exists_lookup hreference
    obtain ⟨factors, hfactors, hbounds⟩ := ih hreferences
    have hother : reference ≠ name := fun heq => hname (heq ▸ hreference)
    have hfactor : defs.factor name earlier reference = .ok e := by
      rw [factor, if_neg hother, hlookup]
    refine ⟨e :: factors, ?_, .cons hsize hbounds⟩
    rw [Definitions.factors, hfactor]
    simp only [hfactors]
    rfl

lemma Within.exists_alternatives (hdefs : defs.Within β) (hname : name ∉ defs.map Prod.fst)
    (hpos : ∀ reference, 0 < β reference) {rest : List (List String)}
    (h : ∀ references ∈ rest, references ⊆ defs.map Prod.fst)
    (hlt : ∀ references ∈ rest, bound β references < Enumeration.sizeLimit)
    (earlier : List Enumeration) :
    ∃ parts, defs.alternatives name earlier rest = .ok (earlier ++ parts) ∧
      List.Forall₂ (fun e bound => e.size ≤ bound) parts (rest.map (bound β)) := by
  induction rest generalizing earlier with
  | nil => exact ⟨[], by rw [Definitions.alternatives, List.append_nil], .nil⟩
  | cons references rest ih =>
    obtain ⟨factors, hfactors, hbounds⟩ :=
      hdefs.exists_factors hname (h references List.mem_cons_self) earlier
    have hpositive : ∀ b ∈ references.map β, 0 < b :=
      List.forall_mem_map.mpr fun reference _ => hpos reference
    obtain ⟨e, he, hsize⟩ :=
      Enumeration.exists_product hbounds hpositive (hlt references List.mem_cons_self)
    obtain ⟨parts, hparts, hsizes⟩ := ih (fun r hr => h r (List.mem_cons_of_mem references hr))
      (fun r hr => hlt r (List.mem_cons_of_mem references hr)) (earlier ++ [e])
    refine ⟨e :: parts, ?_, .cons hsize hsizes⟩
    rw [Definitions.alternatives, hfactors]
    simp only [he]
    rw [hparts, List.append_assoc, List.singleton_append]

/-- A rule has a meaning when the bounds of what it refers to keep it below the limit. -/
lemma Within.exists_meaning (hdefs : defs.Within β) (hpos : ∀ reference, 0 < β reference)
    {rule : Rule} (hname : rule.name ∉ defs.map Prod.fst)
    (h : ∀ references ∈ rule.alternatives, references ⊆ defs.map Prod.fst)
    (hlt : (rule.alternatives.map (bound β)).sum < Enumeration.sizeLimit) :
    ∃ e, defs.meaning rule = .ok e ∧ e.size ≤ (rule.alternatives.map (bound β)).sum := by
  have hparts : ∀ references ∈ rule.alternatives, bound β references < Enumeration.sizeLimit :=
    fun r hr => Nat.lt_of_le_of_lt
      (List.single_le_sum (fun _ _ => Nat.zero_le _) _ (List.mem_map_of_mem hr)) hlt
  obtain ⟨parts, halternatives, hsizes⟩ := hdefs.exists_alternatives hname hpos h hparts []
  obtain ⟨e, he, hsize⟩ := Enumeration.exists_concat hsizes hlt
  refine ⟨e, ?_, hsize⟩
  rw [meaning, halternatives, List.nil_append]
  simp only [he]
  rfl

/-- Bounded rules are added one after the other, and none is passed over. -/
lemma Within.exists_addRules (hdefs : defs.Within β) (hpos : ∀ reference, 0 < β reference)
    (hlt : ∀ reference, β reference < Enumeration.sizeLimit) {rules : List Rule}
    (h : Bounded β (defs.map Prod.fst) rules) :
    ∃ result, defs.addRules rules = ([], .ok result) ∧
      ∀ other ∈ rules.map Rule.name ++ defs.map Prod.fst, result.defines other = true := by
  induction rules generalizing defs with
  | nil => exact ⟨defs, rfl, fun other hother => isSome_lookup_iff.mpr hother⟩
  | cons rule rules ih =>
    obtain ⟨⟨hname, hknown, hsum⟩, hrest⟩ := h
    obtain ⟨e, hmeaning, hsize⟩ :=
      hdefs.exists_meaning hpos hname hknown (Nat.lt_of_le_of_lt hsum (hlt rule.name))
    have hnext : Within β ((rule.name, e) :: defs) :=
      List.forall_mem_cons.mpr ⟨hsize.trans hsum, hdefs⟩
    obtain ⟨result, hresult, hdefines⟩ := ih hnext hrest
    refine ⟨result, ?_, fun other hother => hdefines other (List.perm_middle.mem_iff.mpr hother)⟩
    rw [addRules, defines, if_neg (isSome_lookup_iff.not.mpr hname), hmeaning]
    exact hresult

end Definitions

/-- **Bounded rules with a root resolve**, and define no name again. -/
theorem exists_resolve {β : String → ℕ} {v : Vocabulary} {rules : List Rule}
    (hv : v.definitions.Within β) (hpos : ∀ reference, 0 < β reference)
    (hlt : ∀ reference, β reference < Enumeration.sizeLimit) (h : Bounded β categoryNames rules)
    (hroot : rootName ∈ rules.map Rule.name) : ∃ e, resolve v rules = ([], .ok e) := by
  obtain ⟨result, hresult, hdefines⟩ := hv.exists_addRules hpos hlt h
  obtain ⟨e, hlookup⟩ := Option.isSome_iff_exists.mp
    (hdefines rootName (List.mem_append_left _ hroot))
  refine ⟨e, ?_⟩
  rw [resolve, hresult]
  simp only [Except.bind, Definitions.root, hlookup]

/-! ### The bundled rules -/

/-- What the bundled rules say. -/
def formulaRules : List Rule :=
  [⟨"unary", [["single"], ["single", "special"]]⟩, ⟨"binary", [["unary", "unary", "op"]]⟩,
    ⟨"decryption", [["unary"], ["binary"], ["binary", "unary", "op"]]⟩]

lemma parseRules_bundledRules : parseRules bundledRules = .ok formulaRules := by
  -- a literal takes the longer to open the longer it is, so the lines are opened one by one
  have hlines (a b c d e : String) : (a ++ b ++ c ++ d ++ e).toList =
      a.toList ++ b.toList ++ c.toList ++ d.toList ++ e.toList := by
    simp only [String.toList_append]
  unfold parseRules
  rw [show bundledRules.toList = _ from hlines _ _ _ _ _]
  decide +kernel

/-- How many texts the nonterminals of the bundled rules have when every token is selected. -/
def formulaBound : String → ℕ
  | "op" | "operation" => 6
  | "single" => 5
  | "special" => 3
  | "unary" => 20
  | "binary" => 2400
  | _ => 290420

lemma bounded_formulaRules : Bounded formulaBound categoryNames formulaRules :=
  ⟨by decide, by decide, by decide, trivial⟩

/-- **The bundled rules resolve over every selection of tokens.** -/
theorem exists_resolve_formulaRules {selection : List String} {v : Vocabulary}
    (h : Vocabulary.ofTokens selection = .ok v) : ∃ e, resolve v formulaRules = ([], .ok e) := by
  have hselected := Vocabulary.selected_ofTokens h
  have hv : v.definitions.Within formulaBound := by
    simp only [Definitions.Within, Vocabulary.definitions, Vocabulary.nonterminals, List.map_cons,
      List.map_nil, List.forall_mem_cons, List.not_mem_nil, false_implies, implies_true, and_true]
    exact ⟨hselected.length_le .operation, hselected.length_le .operation,
      hselected.length_le .single, hselected.length_le .special⟩
  have hbounds : ∀ reference, 0 < formulaBound reference ∧
      formulaBound reference < Enumeration.sizeLimit := by
    intro reference
    unfold formulaBound
    split <;> decide
  exact exists_resolve hv (fun r => (hbounds r).1) (fun r => (hbounds r).2) bounded_formulaRules
    (by decide)

end RuneSolver.Grammar
