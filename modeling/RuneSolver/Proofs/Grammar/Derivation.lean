import RuneSolver.Proofs.Grammar.Listing
import RuneSolver.Proofs.Grammar.Vocabulary

/-!
Induction over the texts of a grammar. Every text of a nonterminal is joined from texts of the
nonterminals that one of its alternatives refers to, so what the tokens of the vocabulary have, and
what every rule that defines something hands on from parts to wholes, all texts have.
-/

namespace RuneSolver.Grammar

/-- The rules that define something when some names are defined already. -/
def firstDefinitions : List String → List Rule → List Rule
  | _, [] => []
  | defined, rule :: rules =>
    if rule.name ∈ defined then firstDefinitions defined rules
    else rule :: firstDefinitions (rule.name :: defined) rules

/-- The nonterminals that stand for the categories. -/
def categoryNames : List String := ["op", "operation", "single", "special"]

variable {P : String → String → Prop}

/-- A text of the name of the rule has the property when all of its parts have it. -/
def Rule.HandsOn (P : String → String → Prop) (rule : Rule) : Prop :=
  ∀ references ∈ rule.alternatives, ∀ parts,
    List.Forall₂ (fun part reference => P reference part) parts references →
      P rule.name (" ".intercalate parts)

namespace Listing

variable {l : Listing} {name text : String} {earlier texts : List String}

/-- Every text of every nonterminal has the property. -/
def All (P : String → String → Prop) (l : Listing) : Prop := ∀ row ∈ l, ∀ text ∈ row.2, P row.1 text

lemma All.of_lookup (hl : l.All P) (h : l.lookup name = some texts) :
    ∀ text ∈ texts, P name text :=
  hl (name, texts) (mem_of_lookup h)

lemma all_nonterminals {v : Vocabulary} (hop : ∀ token ∈ v.operations, P "op" token)
    (hoperation : ∀ token ∈ v.operations, P "operation" token)
    (hsingle : ∀ token ∈ v.singles, P "single" token)
    (hspecial : ∀ token ∈ v.specials, P "special" token) : All P v.nonterminals := by
  simp only [All, Vocabulary.nonterminals, List.forall_mem_cons, List.not_mem_nil, false_implies,
    implies_true, and_true]
  exact ⟨hop, hoperation, hsingle, hspecial⟩

/-- A choice from the lists of references has one text of each reference. -/
lemma forall₂_of_mem_choices {references choice : List String} {lists : List (List String)}
    (h : references.mapM (l.reference? name earlier) = some lists)
    (hchoice : choice ∈ choices lists) :
    List.Forall₂ (fun part reference =>
      ∃ texts, l.reference? name earlier reference = some texts ∧ part ∈ texts)
      choice references := by
  rw [mem_choices] at hchoice
  induction references generalizing lists choice with
  | nil => cases h; cases hchoice; exact .nil
  | cons reference references ih =>
    rw [List.mapM_cons] at h
    obtain ⟨first, hfirst, h⟩ := Option.bind_eq_some_iff.mp h
    obtain ⟨others, hothers, h⟩ := Option.bind_eq_some_iff.mp h
    cases h
    obtain _ | ⟨hhead, htail⟩ := hchoice
    exact .cons ⟨first, hfirst, hhead⟩ (ih hothers htail)

lemma All.reference {reference : String} {others : List String} (hl : l.All P)
    (hearlier : ∀ text ∈ earlier, P name text)
    (h : l.reference? name earlier reference = some others) :
    ∀ text ∈ others, P reference text := by
  rw [reference?] at h
  split at h
  · next hself => cases h; exact hself ▸ hearlier
  · exact hl.of_lookup h

lemma All.alternatives (hl : l.All P) {rest : List (List String)}
    (hrule : Rule.HandsOn P ⟨name, rest⟩) (hearlier : ∀ text ∈ earlier, P name text)
    (h : l.alternatives? name earlier rest = some texts) : ∀ text ∈ texts, P name text := by
  induction rest generalizing earlier with
  | nil => cases h; exact hearlier
  | cons references rest ih =>
    obtain ⟨next, hnext, h⟩ := Option.bind_eq_some_iff.mp h
    obtain ⟨lists, hlists, rfl⟩ := Option.map_eq_some_iff.mp hnext
    refine ih (fun r hr => hrule r (List.mem_cons_of_mem references hr)) ?_ h
    intro text htext
    rcases List.mem_append.mp htext with hold | hnew
    · exact hearlier text hold
    · obtain ⟨parts, hparts, rfl⟩ := List.mem_map.mp hnew
      refine hrule references List.mem_cons_self parts ?_
      refine (forall₂_of_mem_choices hlists hparts).imp fun part reference => ?_
      rintro ⟨others, hothers, hpart⟩
      exact hl.reference hearlier hothers part hpart

lemma All.addRules (hl : l.All P) {rules : List Rule} {l' : Listing}
    (hrules : ∀ rule ∈ firstDefinitions (l.map Prod.fst) rules, rule.HandsOn P)
    (h : l.addRules? rules = some l') : l'.All P := by
  induction rules generalizing l with
  | nil => cases h; exact hl
  | cons rule rules ih =>
    rw [addRules?] at h
    rw [firstDefinitions] at hrules
    split at h
    · next hdefined =>
      rw [if_pos (isSome_lookup_iff.mp hdefined)] at hrules
      exact ih hl hrules h
    · next hnew =>
      rw [if_neg fun hmem => hnew (isSome_lookup_iff.mpr hmem)] at hrules
      obtain ⟨texts, htexts, h⟩ := Option.bind_eq_some_iff.mp h
      have hrule : rule.HandsOn P := hrules rule List.mem_cons_self
      have hall := hl.alternatives hrule (fun _ hnone => absurd hnone List.not_mem_nil) htexts
      exact ih (l := (rule.name, texts) :: l) (List.forall_mem_cons.mpr ⟨hall, hl⟩)
        (fun r hr => hrules r (List.mem_cons_of_mem rule hr)) h

/-- **Induction over the texts of a grammar.** -/
theorem forall_texts {v : Vocabulary} {rules : List Rule}
    (hv : All P v.nonterminals)
    (hrules : ∀ rule ∈ firstDefinitions categoryNames rules, rule.HandsOn P)
    (h : texts? v rules = some texts) : ∀ text ∈ texts, P rootName text := by
  obtain ⟨l, hl, hlookup⟩ := Option.bind_eq_some_iff.mp h
  exact (hv.addRules hrules hl).of_lookup hlookup

end Listing

end RuneSolver.Grammar
