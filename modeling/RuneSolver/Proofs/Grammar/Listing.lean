import RuneSolver.Grammar.Attempts
import RuneSolver.Proofs.Grammar.Enumeration
import RuneSolver.Proofs.Grammar.Vocabulary

/-!
The texts of a grammar, written out: every nonterminal with the list of its texts, each rule adding
one. Resolution of the same rules yields enumerations of these lists, so the attempts of a grammar
are the texts of its root in order, cleaned up one by one, however they are asked for.
-/

namespace RuneSolver.Grammar

/-- The nonterminals defined so far, each with all its texts. -/
abbrev Listing := List (String × List String)

namespace Listing

/-- The texts of a reference in an alternative of `name`, before which others have come. -/
def reference? (l : Listing) (name : String) (earlier : List String) (reference : String) :
    Option (List String) :=
  if reference = name then some earlier else l.lookup reference

/-- The texts of an alternative: one of each reference, joined by spaces. -/
def alternative? (l : Listing) (name : String) (earlier : List String)
    (references : List String) : Option (List String) :=
  (references.mapM (l.reference? name earlier)).map fun lists =>
    (choices lists).map (" ".intercalate ·)

/-- The texts of all alternatives, behind those that have come before. -/
def alternatives? (l : Listing) (name : String) :
    List String → List (List String) → Option (List String)
  | earlier, [] => some earlier
  | earlier, references :: rest =>
    (l.alternative? name earlier references).bind fun texts =>
      l.alternatives? name (earlier ++ texts) rest

/-- Adds the rules in order. A rule whose name is defined already is ignored. -/
def addRules? : Listing → List Rule → Option Listing
  | l, [] => some l
  | l, rule :: rules =>
    if (l.lookup rule.name).isSome then addRules? l rules
    else
      (l.alternatives? rule.name [] rule.alternatives).bind fun texts =>
        addRules? ((rule.name, texts) :: l) rules

/-- The texts of the root nonterminal. -/
def texts? (v : Vocabulary) (rules : List Rule) : Option (List String) :=
  (addRules? v.nonterminals rules).bind (·.lookup rootName)

end Listing

/-! ### Resolution lists the same texts -/

namespace Definitions

/-- All texts of the definitions. -/
def listing (defs : Definitions) : Listing := defs.map fun (name, e) => (name, e.toList)

lemma lookup_listing (defs : Definitions) (name : String) :
    defs.listing.lookup name = (defs.lookup name).map (·.toList) :=
  lookup_map Enumeration.toList defs name

lemma isSome_lookup_listing (defs : Definitions) (name : String) :
    (defs.listing.lookup name).isSome = defs.defines name := by
  rw [lookup_listing, Option.isSome_map, defines]

variable {defs : Definitions} {name : String} {earlier : List Enumeration}

/-- The texts of alternatives that are resolved. -/
abbrev allTexts (parts : List Enumeration) : List String := parts.flatMap Enumeration.toList

lemma orOverflow_ok {o : Option Enumeration} {e : Enumeration} (h : orOverflow o = .ok e) :
    o = some e := by
  cases o with
  | none => cases h
  | some e' => cases h; rfl

lemma factor_ok {reference : String} {e : Enumeration}
    (h : defs.factor name earlier reference = .ok e) :
    defs.listing.reference? name (allTexts earlier) reference = some e.toList := by
  unfold factor at h
  unfold Listing.reference?
  split at h
  · next hself =>
    split at h
    · cases h
    · rw [if_pos hself, Enumeration.toList_concat (orOverflow_ok h)]
  · next hself =>
    rw [if_neg hself, lookup_listing]
    split at h
    · next hlookup => cases h; rw [hlookup]; rfl
    · cases h

lemma factors_ok {references : List String} {factors : List Enumeration}
    (h : defs.factors name earlier references = .ok factors) :
    references.mapM (defs.listing.reference? name (allTexts earlier)) =
      some (factors.map (·.toList)) := by
  induction references generalizing factors with
  | nil => cases h; rfl
  | cons reference references ih =>
    unfold Definitions.factors at h
    split at h
    · cases h
    · next first hfirst =>
      rcases hrest : defs.factors name earlier references with e | rest
      · rw [hrest] at h; cases h
      · rw [hrest] at h; cases h
        rw [List.mapM_cons, factor_ok hfirst, ih hrest]
        rfl

lemma alternatives_ok {rest : List (List String)} {parts : List Enumeration}
    (h : defs.alternatives name earlier rest = .ok parts) :
    defs.listing.alternatives? name (allTexts earlier) rest = some (allTexts parts) := by
  induction rest generalizing earlier with
  | nil => cases h; rfl
  | cons references rest ih =>
    unfold Definitions.alternatives at h
    split at h
    · cases h
    · next factors hfactors =>
      split at h
      · cases h
      · next alternative hproduct =>
        have htexts : defs.listing.alternative? name (allTexts earlier) references =
            some alternative.toList := by
          unfold Listing.alternative?
          rw [factors_ok hfactors, Enumeration.toList_product hproduct]
          rfl
        have hih := ih h
        unfold Listing.alternatives?
        rw [htexts, Option.bind_some]
        simpa [allTexts] using hih

lemma meaning_ok {rule : Rule} {e : Enumeration} (h : defs.meaning rule = .ok e) :
    defs.listing.alternatives? rule.name [] rule.alternatives = some e.toList := by
  unfold meaning at h
  split at h
  · cases h
  · next parts hparts =>
    have halternatives := alternatives_ok hparts
    rw [Enumeration.toList_concat (orOverflow_ok h)]
    exact halternatives

/-- Rules that resolve add the same texts to the definitions and to their listing. -/
theorem addRules_ok {rules : List Rule} {again : List String} {result : Definitions}
    (h : defs.addRules rules = (again, .ok result)) :
    defs.listing.addRules? rules = some result.listing := by
  induction rules generalizing defs again with
  | nil => cases h; rfl
  | cons rule rules ih =>
    unfold addRules at h
    unfold Listing.addRules?
    rw [isSome_lookup_listing]
    split at h
    · next hdefined =>
      rw [if_pos hdefined]
      rcases hrest : defs.addRules rules with ⟨later, r⟩
      rw [hrest] at h
      cases h
      exact ih hrest
    · next hnew =>
      rw [if_neg hnew]
      split at h
      · cases h
      · next e he =>
        rw [meaning_ok he, Option.bind_some]
        exact ih h

end Definitions

lemma listing_definitions (v : Vocabulary) : v.definitions.listing = v.nonterminals := by
  simp [Vocabulary.definitions, Definitions.listing, Function.comp_def]

/-- The root that rules resolve to enumerates the texts of the root. -/
theorem resolve_ok {v : Vocabulary} {rules : List Rule} {again : List String} {e : Enumeration}
    (h : resolve v rules = (again, .ok e)) : Listing.texts? v rules = some e.toList := by
  unfold resolve at h
  rcases hadd : v.definitions.addRules rules with ⟨names, _ | defs⟩
  · rw [hadd] at h; cases h
  · rw [hadd] at h
    have hroot : defs.root = .ok e := (Prod.mk.inj h).2
    unfold Listing.texts?
    rw [← listing_definitions, Definitions.addRules_ok hadd, Option.bind_some,
      Definitions.lookup_listing]
    unfold Definitions.root at hroot
    split at hroot
    · next hlookup => cases hroot; rw [hlookup]; rfl
    · cases hroot

end RuneSolver.Grammar
