import RuneSolver.Proofs.Formula.Token
import RuneSolver.Proofs.Grammar.Bundled

/-!
The shapes of the formulas that the bundled rules generate: an operand, or two operands with their
operator, or these with a third operand and its operator. An operand is a single, or a special of a
single.
-/

namespace RuneSolver.Grammar

structure Operand where
  single : Single
  special : Option Special
  deriving DecidableEq

namespace Operand

def text (a : Operand) : String :=
  match a.special with
  | none => " ".intercalate [a.single.symbol]
  | some f => " ".intercalate [a.single.symbol, f.symbol]

def tokens (a : Operand) : List Token := .single a.single :: (a.special.map Token.special).toList

lemma tokens_ofText_single (s : Single) : (Formula.ofText s.symbol).tokens = [.single s] := by
  cases s <;> decide +kernel

lemma tokens_ofText_special (f : Special) : (Formula.ofText f.symbol).tokens = [.special f] := by
  cases f <;> decide +kernel

lemma tokens_ofText_operation (o : Operation) :
    (Formula.ofText o.symbol).tokens = [.operation o] := by
  cases o <;> decide +kernel

lemma tokens_text (a : Operand) : (Formula.ofText a.text).tokens = a.tokens := by
  obtain ⟨s, _ | f⟩ := a
  · simp only [text, Token.tokens_ofText_intercalate, List.flatMap_cons, tokens_ofText_single]
    rfl
  · simp only [text, Token.tokens_ofText_intercalate, List.flatMap_cons, tokens_ofText_single,
      tokens_ofText_special]
    rfl

end Operand

/-- What may follow the first two operands and their operator. -/
abbrev Continuation := Option (Operand × Operation)

namespace Continuation

/-- A text with what follows it. -/
def behind (head : String) : Continuation → String
  | none => " ".intercalate [head]
  | some (c, o) => " ".intercalate [head, c.text, o.symbol]

def tokens : Continuation → List Token
  | none => []
  | some (c, o) => c.tokens ++ [.operation o]

lemma tokens_behind (head : String) (rest : Continuation) :
    (Formula.ofText (behind head rest)).tokens = (Formula.ofText head).tokens ++ rest.tokens := by
  obtain _ | ⟨c, o⟩ := rest
  · rw [behind, Token.tokens_ofText_intercalate]
    simp [tokens]
  · rw [behind, Token.tokens_ofText_intercalate]
    simp [tokens, Operand.tokens_text, Operand.tokens_ofText_operation]

end Continuation

inductive Shape where
  | unary (a : Operand)
  | compound (a b : Operand) (o : Operation) (rest : Continuation)

namespace Shape

/-- Two operands and their operator. -/
def pairText (a b : Operand) (o : Operation) : String :=
  " ".intercalate [a.text, b.text, o.symbol]

def text : Shape → String
  | unary a => " ".intercalate [a.text]
  | compound a b o rest => rest.behind (pairText a b o)

def tokens : Shape → List Token
  | unary a => a.tokens
  | compound a b o rest => a.tokens ++ b.tokens ++ [.operation o] ++ rest.tokens

theorem tokens_text (shape : Shape) : (Formula.ofText shape.text).tokens = shape.tokens := by
  cases shape with
  | unary a =>
    rw [text, Token.tokens_ofText_intercalate]
    simp [tokens, Operand.tokens_text]
  | compound a b o rest =>
    rw [text, Continuation.tokens_behind, pairText, Token.tokens_ofText_intercalate]
    simp [tokens, Operand.tokens_text, Operand.tokens_ofText_operation]

/-- What the texts of each nonterminal of the bundled rules look like. -/
def Describes : String → String → Prop
  | "op", text => ∃ o : Operation, text = o.symbol
  | "single", text => ∃ s : Single, text = s.symbol
  | "special", text => ∃ f : Special, text = f.symbol
  | "unary", text => ∃ a : Operand, text = a.text
  | "binary", text => ∃ a b o, text = pairText a b o
  | "decryption", text => ∃ shape : Shape, text = shape.text
  | _, _ => True

/-- The tokens of a vocabulary are the symbols of their categories. -/
lemma describes_nonterminals {selection : List String} {v : Vocabulary}
    (hv : Vocabulary.Selected selection v) : Listing.All Describes v.nonterminals := by
  have hsymbol (c : Category) : ∀ token ∈ v.tokensOf c, token ∈ c.symbols :=
    fun _ htoken => Category.mem_symbols (hv.mem htoken).2
  refine Listing.all_nonterminals ?_ (fun _ _ => trivial) ?_ ?_ <;> intro token htoken
  · obtain ⟨o, -, rfl⟩ := List.mem_map.mp (hsymbol .operation token htoken)
    exact ⟨o, rfl⟩
  · obtain ⟨s, -, rfl⟩ := List.mem_map.mp (hsymbol .single token htoken)
    exact ⟨s, rfl⟩
  · obtain ⟨f, -, rfl⟩ := List.mem_map.mp (hsymbol .special token htoken)
    exact ⟨f, rfl⟩

/-- Every alternative of the bundled rules joins its parts to a text as described. -/
lemma handsOn_describes : ∀ rule ∈ formulaRules, rule.HandsOn Describes := by
  simp only [formulaRules, Rule.HandsOn, List.forall_mem_cons, List.not_mem_nil, false_implies,
    implies_true, and_true]
  refine ⟨⟨?single, ?special⟩, ?pair, ?unary, ?binary, ?ternary⟩
  case single =>
    rintro _ (_ | ⟨⟨s, rfl⟩, _ | _⟩)
    exact ⟨⟨s, none⟩, rfl⟩
  case special =>
    rintro _ (_ | ⟨⟨s, rfl⟩, _ | ⟨⟨f, rfl⟩, _ | _⟩⟩)
    exact ⟨⟨s, some f⟩, rfl⟩
  case pair =>
    rintro _ (_ | ⟨⟨a, rfl⟩, _ | ⟨⟨b, rfl⟩, _ | ⟨⟨o, rfl⟩, _ | _⟩⟩⟩)
    exact ⟨a, b, o, rfl⟩
  case unary =>
    rintro _ (_ | ⟨⟨a, rfl⟩, _ | _⟩)
    exact ⟨unary a, rfl⟩
  case binary =>
    rintro _ (_ | ⟨⟨a, b, o, rfl⟩, _ | _⟩)
    exact ⟨compound a b o none, rfl⟩
  case ternary =>
    rintro _ (_ | ⟨⟨a, b, o, rfl⟩, _ | ⟨⟨c, rfl⟩, _ | ⟨⟨o', rfl⟩, _ | _⟩⟩⟩)
    exact ⟨compound a b o (some (c, o')), rfl⟩

end Shape

/-- **The attempts of the bundled rules have the shapes.** -/
theorem exists_shape {selection : List String} {v : Vocabulary} {texts : List String}
    (hv : Vocabulary.Selected selection v) (h : Listing.texts? v formulaRules = some texts) :
    ∀ text ∈ texts, ∃ shape : Shape, text = shape.text := by
  have hfirst : firstDefinitions categoryNames formulaRules = formulaRules := by decide
  exact Listing.forall_texts (Shape.describes_nonterminals hv)
    (hfirst ▸ Shape.handsOn_describes) h

end RuneSolver.Grammar
