import RuneSolver.Proofs.Formula.Postfix
import RuneSolver.Proofs.Grammar.Attempts
import RuneSolver.Proofs.Grammar.Bundled

/-!
Stack types of nonterminals. A text takes part in a formula by the operands that it needs and by
how many more it leaves than it found; a grammar is typed when every alternative finds what its
references need and ends where its nonterminal says. Main statement: the attempts of a typed
grammar are written like trees, out of selected tokens, and so they fail nowhere but at a zero
divisor or outside of a table. The bundled rules are typed.
-/

namespace RuneSolver

/-- The category that a token was read as, if it stands for one of a grammar. -/
def Token.category? : Token → Option Category
  | .single _ => some .single
  | .special _ => some .special
  | .operation _ => some .operation
  | .literal _ => none
  | .unknown _ => none

/-- A symbol is a text of one token, of its own category. -/
lemma tokens_ofText_symbol {symbol : String} {c : Category}
    (h : RuneSolver.category? symbol = some c) :
    ∃ token : Token, (Formula.ofText symbol).tokens = [token] ∧ token.word = symbol ∧
      token.category? = some c := by
  have hrows : ∀ row ∈ registry, (Formula.ofText row.1).tokens = [Token.ofWord row.1] ∧
      (Token.ofWord row.1).word = row.1 ∧ (Token.ofWord row.1).category? = some row.2 := by
    decide +kernel
  exact ⟨_, hrows _ (mem_of_lookup h)⟩

namespace Grammar

/-- How many operands have to wait for a text, and how many more wait after it. -/
structure StackType where
  needs : ℕ
  net : ℤ
  deriving DecidableEq, Repr

namespace StackType

/-- What the tokens of each category do. -/
def ofCategory : Category → StackType
  | .operation => ⟨2, -1⟩
  | .single => ⟨0, 1⟩
  | .special => ⟨1, 0⟩

/-- What a formula does that starts on nothing and leaves its value. -/
def value : StackType := ⟨0, 1⟩

/-- The tokens read as trees wherever enough of them wait, and change their number as said. -/
def Moves (σ : StackType) (tokens : List Token) : Prop :=
  ∀ es : Forest, σ.needs ≤ es.length →
    ∃ next, es.read tokens = some next ∧ (next.length : ℤ) = es.length + σ.net

lemma moves_ofCategory {token : Token} {c : Category} (h : token.category? = some c) :
    (ofCategory c).Moves [token] := by
  intro es hneeds
  cases token with
  | literal v => cases h
  | unknown w => cases h
  | single s => cases h; exact ⟨.single s :: es, rfl, by simp [ofCategory]⟩
  | special s =>
    cases h
    obtain _ | ⟨e, es⟩ := es
    · simp [ofCategory] at hneeds
    · exact ⟨.special s e :: es, rfl, by simp [ofCategory]⟩
  | operation o =>
    cases h
    obtain _ | ⟨r, _ | ⟨l, es⟩⟩ := es
    · simp [ofCategory] at hneeds
    · simp [ofCategory] at hneeds
    · exact ⟨.operation o l r :: es, rfl, by simp [ofCategory]⟩

/-- Tokens that make a value out of nothing are those of a tree. -/
lemma Moves.exists_expression {tokens : List Token} (h : value.Moves tokens) :
    ∃ e : Expression, tokens = e.postorder := by
  obtain ⟨next, hread, hlength⟩ := h [] (Nat.zero_le _)
  have hone : next.length = 1 := by
    simp only [value, List.length_nil] at hlength
    omega
  obtain ⟨e, rfl⟩ := List.length_eq_one_iff.mp hone
  exact ⟨e, by simpa using (Forest.tokens_read hread).symm⟩

end StackType

/-- A stack type for every nonterminal. -/
abbrev Typing := String → StackType

namespace Typing

/-- How many operands wait after references that find so many, if each of them finds enough. -/
def after (τ : Typing) : ℤ → List String → Option ℤ
  | depth, [] => some depth
  | depth, reference :: references =>
    if (τ reference).needs ≤ depth then τ.after (depth + (τ reference).net) references else none

/-- Every alternative finds what it needs in what its nonterminal needs, and has its effect. -/
def Fits (τ : Typing) (rule : Rule) : Prop :=
  ∀ references ∈ rule.alternatives,
    τ.after (τ rule.name).needs references = some ((τ rule.name).needs + (τ rule.name).net)

instance (τ : Typing) (rule : Rule) : Decidable (τ.Fits rule) :=
  inferInstanceAs (Decidable (∀ _ ∈ _, _))

end Typing

/-- A typing under which every rule that defines something fits, the nonterminals of the
categories do what their tokens do, and the root makes a value. -/
structure Typing.Admits (τ : Typing) (rules : List Rule) : Prop where
  op : τ "op" = .ofCategory .operation
  operation : τ "operation" = .ofCategory .operation
  single : τ "single" = .ofCategory .single
  special : τ "special" = .ofCategory .special
  root : τ rootName = .value
  fits : ∀ rule ∈ firstDefinitions categoryNames rules, τ.Fits rule

/-- Rules for which there is a typing. -/
def StackTyped (rules : List Rule) : Prop := ∃ τ : Typing, τ.Admits rules

/-! ### The texts of typed nonterminals -/

/-- All tokens of the text are selected, and read as tokens of their own category. -/
def Drawn (selection : List String) (text : String) : Prop :=
  ∀ token ∈ (Formula.ofText text).tokens, token.word ∈ selection ∧
    ∃ c, token.category? = some c ∧ RuneSolver.category? token.word = some c

/-- A text of a nonterminal with that type, drawn from a selection. -/
structure Sound (selection : List String) (σ : StackType) (text : String) : Prop where
  moves : σ.Moves (Formula.ofText text).tokens
  drawn : Drawn selection text

variable {selection : List String} {τ : Typing}

lemma sound_symbol {symbol : String} {c : Category} (hsymbol : symbol ∈ selection)
    (hc : RuneSolver.category? symbol = some c) : Sound selection (.ofCategory c) symbol := by
  obtain ⟨token, htokens, hword, hcategory⟩ := tokens_ofText_symbol hc
  refine ⟨htokens ▸ StackType.moves_ofCategory hcategory, fun other hother => ?_⟩
  rw [htokens, List.mem_singleton] at hother
  subst hother
  exact ⟨hword ▸ hsymbol, c, hcategory, hword ▸ hc⟩

/-- Texts of references, one after the other, lead from depth to depth. -/
lemma read_flatMap {texts references : List String}
    (h : List.Forall₂ (fun text reference => Sound selection (τ reference) text) texts references)
    {depth last : ℤ} (hafter : τ.after depth references = some last) {es : Forest}
    (hdepth : depth ≤ es.length) :
    ∃ next, es.read (texts.flatMap fun text => (Formula.ofText text).tokens) = some next ∧
      (next.length : ℤ) = es.length + (last - depth) := by
  induction h generalizing depth es with
  | nil => cases hafter; exact ⟨es, rfl, by omega⟩
  | @cons text reference texts references hsound _ ih =>
    rw [Typing.after] at hafter
    split at hafter
    · next hneeds =>
      obtain ⟨middle, hmiddle, hlength⟩ := hsound.moves es (by omega)
      have hmiddleDepth : depth + (τ reference).net ≤ middle.length := by omega
      obtain ⟨next, hnext, hlength'⟩ := ih hafter hmiddleDepth
      refine ⟨next, ?_, by omega⟩
      rw [List.flatMap_cons, Forest.read_append, hmiddle]
      exact hnext
    · cases hafter

lemma sound_intercalate {texts references : List String} {σ : StackType}
    (h : List.Forall₂ (fun text reference => Sound selection (τ reference) text) texts references)
    (hafter : τ.after σ.needs references = some (σ.needs + σ.net)) :
    Sound selection σ (" ".intercalate texts) := by
  refine ⟨fun es hneeds => ?_, fun token htoken => ?_⟩
  · have hdepth : (σ.needs : ℤ) ≤ es.length := by omega
    obtain ⟨next, hread, hlength⟩ := read_flatMap h hafter hdepth
    rw [Token.tokens_ofText_intercalate]
    exact ⟨next, hread, by omega⟩
  · have hdrawn : ∀ text ∈ texts, Drawn selection text :=
      ((List.forall₂_and_left (R := fun _ _ => True) texts references).mp
        (h.imp fun _ _ hsound => ⟨hsound.drawn, trivial⟩)).1
    rw [Token.tokens_ofText_intercalate] at htoken
    obtain ⟨text, htext, htoken⟩ := List.mem_flatMap.mp htoken
    exact hdrawn text htext token htoken

lemma handsOn_of_fits {rule : Rule} (h : τ.Fits rule) :
    rule.HandsOn fun name text => Sound selection (τ name) text :=
  fun references hreferences _ hparts => sound_intercalate hparts (h references hreferences)

/-- The texts of typed rules make values, and are drawn from the selection. -/
theorem sound_texts {v : Vocabulary} {rules : List Rule} {texts : List String}
    (hv : Vocabulary.Selected selection v) (hτ : τ.Admits rules)
    (h : Listing.texts? v rules = some texts) :
    ∀ text ∈ texts, Sound selection .value text := by
  have hcategory (c : Category) : ∀ symbol ∈ v.tokensOf c, Sound selection (.ofCategory c) symbol :=
    fun symbol hsymbol => sound_symbol (hv.mem hsymbol).1 (hv.mem hsymbol).2
  have hbase : Listing.All (fun name text => Sound selection (τ name) text) v.nonterminals :=
    Listing.all_nonterminals (hτ.op ▸ hcategory .operation) (hτ.operation ▸ hcategory .operation)
      (hτ.single ▸ hcategory .single) (hτ.special ▸ hcategory .special)
  rw [← hτ.root]
  exact Listing.forall_texts hbase (fun rule hrule => handsOn_of_fits (hτ.fits rule hrule)) h

lemma Sound.outcome {text : String} (h : Sound selection .value text) (t : NumberTables)
    (c : Context) (stack : Stack) :
    (∃ v, ((Formula.ofText text).evaluateOn t c).outcome stack = .ok v) ∨
      ((Formula.ofText text).evaluateOn t c).outcome stack = .error .divisionByZero ∨
      ∃ s n, ((Formula.ofText text).evaluateOn t c).outcome stack = .error (.outOfRange s n) := by
  obtain ⟨e, htokens⟩ := h.moves.exists_expression
  rw [Expression.outcome_evaluateOn htokens stack]
  cases hvalue : e.value t c with
  | ok v => exact Or.inl ⟨v, rfl⟩
  | error err =>
    rcases Expression.error_of_value hvalue with rfl | ⟨s, n, rfl⟩
    · exact Or.inr (Or.inl rfl)
    · exact Or.inr (Or.inr ⟨s, n, rfl⟩)

/-- A typing of the bundled rules: unary and binary formulas make a value each. -/
def formulaTyping : Typing
  | "op" | "operation" => .ofCategory .operation
  | "single" => .ofCategory .single
  | "special" => .ofCategory .special
  | _ => .value

lemma admits_formulaRules : formulaTyping.Admits formulaRules where
  op := rfl
  operation := rfl
  single := rfl
  special := rfl
  root := rfl
  fits := by decide

/-- **Typed grammars generate formulas.** The attempts of typed rules over selected tokens have
selected tokens only, each read in its own category, and they have a value in every context, unless
a divisor is zero or a function is outside of its table. The bundled rules are typed, and resolve
over every selection. -/
theorem attempts_of_stackTyped :
    (∀ (selection : List String) (v : Vocabulary) (rules : List Rule) (again : List String)
        (a : Attempts),
      Vocabulary.ofTokens selection = .ok v → Attempts.ofRules v rules [] = (again, .ok a) →
      StackTyped rules → ∀ text ∈ a.toList, Drawn selection text ∧
        ∀ (t : NumberTables) (c : Context) (stack : Stack),
          (∃ value, ((Formula.ofText text).evaluateOn t c).outcome stack = .ok value) ∨
          ((Formula.ofText text).evaluateOn t c).outcome stack = .error .divisionByZero ∨
          ∃ s n, ((Formula.ofText text).evaluateOn t c).outcome stack =
            .error (.outOfRange s n)) ∧
    ∃ rules, parseRules bundledRules = .ok rules ∧ StackTyped rules ∧
      ∀ (selection : List String) (v : Vocabulary), Vocabulary.ofTokens selection = .ok v →
        ∃ a, Attempts.ofRules v rules [] = ([], .ok a) := by
  refine ⟨?_, formulaRules, parseRules_bundledRules, ⟨formulaTyping, admits_formulaRules⟩, ?_⟩
  · intro selection v rules again a hv ha ⟨τ, hτ⟩ text htext
    have htexts := Attempts.texts_of_ofRules_nil ha
    have hsound := sound_texts (Vocabulary.selected_ofTokens hv) hτ htexts text htext
    exact ⟨hsound.drawn, hsound.outcome⟩
  · intro selection v hv
    obtain ⟨e, he⟩ := exists_resolve_formulaRules hv
    exact ⟨⟨e, []⟩, by rw [Attempts.ofRules, he]; rfl⟩

/-- Formulas that grow by tails, which are no formulas of their own. -/
def tailRules : List Rule :=
  [⟨"tail", [["single", "op"], ["special"]]⟩, ⟨"tail", [["op"]]⟩,
    ⟨"decryption", [["single"], ["decryption", "tail"]]⟩]

/-- A tail needs one operand and replaces it. The second rule, which would not fit, defines
nothing. -/
theorem attempts_of_stackTyped_tailRules :
    ∃ a, Vocabulary.ofTokens ["/", "p", "φ"] = .ok ⟨["/"], ["p"], ["φ"]⟩ ∧
      Attempts.ofRules ⟨["/"], ["p"], ["φ"]⟩ tailRules [] = (["tail"], .ok a) ∧
      StackTyped tailRules ∧ "p p /" ∈ a.toList ∧ Drawn ["/", "p", "φ"] "p p /" ∧
      ∀ (t : NumberTables) (c : Context) (stack : Stack),
        (∃ value, ((Formula.ofText "p p /").evaluateOn t c).outcome stack = .ok value) ∨
        ((Formula.ofText "p p /").evaluateOn t c).outcome stack = .error .divisionByZero ∨
        ∃ s n, ((Formula.ofText "p p /").evaluateOn t c).outcome stack =
          .error (.outOfRange s n) := by
  have hv : Vocabulary.ofTokens ["/", "p", "φ"] = .ok ⟨["/"], ["p"], ["φ"]⟩ := by decide
  obtain ⟨a, ha⟩ : ∃ a, Attempts.ofRules ⟨["/"], ["p"], ["φ"]⟩ tailRules [] =
      (["tail"], .ok a) := ⟨_, rfl⟩
  have htyped : StackTyped tailRules :=
    ⟨fun name => if name = "tail" then ⟨1, 0⟩ else formulaTyping name,
      ⟨rfl, rfl, rfl, rfl, rfl, by decide⟩⟩
  have htexts : Listing.texts? ⟨["/"], ["p"], ["φ"]⟩ tailRules = some ["p", "p p /", "p φ"] := by
    decide +kernel
  rw [Attempts.texts_of_ofRules_nil ha, Option.some.injEq] at htexts
  have hmem : "p p /" ∈ a.toList := by rw [htexts]; simp
  exact ⟨a, hv, ha, htyped, hmem, attempts_of_stackTyped.1 _ _ _ _ _ hv ha htyped _ hmem⟩

end Grammar

end RuneSolver
