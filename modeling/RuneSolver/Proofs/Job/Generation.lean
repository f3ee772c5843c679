import RuneSolver.Job.Generation
import RuneSolver.Proofs.Alphabet
import RuneSolver.Proofs.Disk.Writing
import RuneSolver.Proofs.Equivalence.Earliest
import RuneSolver.Proofs.Grammar.Attempts

/-!
Generation with and without an elimination. Main statement: an elimination keeps the earliest of
the attempts that agree at every point, whatever the points are, so a generation with elimination
that succeeds gives some of the attempts of the one without it, in order and from the first one on.
-/

namespace RuneSolver.Job

open RuneSolver.Equivalence

variable {d : Disk} {dataDirectory : String} {s : Settings} {r : Recipe}
  {sample : Alphabet → SampleOptions → List Point}

lemma load_of_readText {ε α : Type} {path text : String} {failure : ε → Failure}
    {parse : String → Except ε α} (h : d.readText path = .ok text) :
    load d path failure parse = (parse text).mapError failure := by
  rw [load, readText, h]
  rfl

/-- Attempts come from the selected tokens and from two files that can be read. -/
lemma attempts_of_readText {v : Grammar.Vocabulary} {rules replacements : String}
    {parsed : List Grammar.Rule} {steps : Grammar.Replacements}
    (hvocabulary : r.vocabulary = .ok v) (hrules : d.readText r.rules = .ok rules)
    (hparsed : Grammar.parseRules rules = .ok parsed)
    (hreplacements : d.readText r.replacements = .ok replacements)
    (hsteps : Grammar.Replacements.parse replacements = .ok steps) :
    attempts d r = (Grammar.Attempts.ofRules v parsed steps).2.mapError .resolution := by
  rw [attempts, hvocabulary, loadRules, load_of_readText hrules, hparsed, loadReplacements,
    load_of_readText hreplacements, hsteps]
  rfl

/-- A table that can be read, with the rows that it overrides. -/
lemma loadAlphabet_eq {path text : String} (h : d.readText path = .ok text) :
    loadAlphabet d path =
      ((Alphabet.parse text).1, (Alphabet.parse text).2.mapError .alphabet) := by
  rw [loadAlphabet, readText, h]
  rfl

lemma generateWith_none :
    generateWith sample d dataDirectory s { r with elimination := none } =
      (attempts d r).map (·.toList) := by
  change (attempts d r).bind _ = _
  cases attempts d r <;> rfl

/-- Only the tables of the job can make a generation with elimination fail where the one without
it succeeds. -/
lemma generateWith_some (options : SampleOptions) :
    generateWith sample d dataDirectory s { r with elimination := some options } =
      (attempts d r).bind fun a =>
        (loadAlphabet d (Path.resolve dataDirectory s.gematriaPath)).2.bind fun alphabet =>
          (tablesOf d dataDirectory s).map fun tables =>
            (eliminate tables (sample alphabet options) a.toList).map (·.text) := by
  rfl

/-- What is left of the attempts once the tables of the job are there. -/
lemma exists_of_generateWith {options : SampleOptions} {kept : List String}
    (h : generateWith sample d dataDirectory s { r with elimination := some options } =
      .ok kept) :
    ∃ a tables points, attempts d r = .ok a ∧
      kept = (eliminate tables points a.toList).map (·.text) := by
  rw [generateWith_some] at h
  cases hattempts : attempts d r with
  | error e => rw [hattempts] at h; cases h
  | ok a =>
    cases halphabet : (loadAlphabet d (Path.resolve dataDirectory s.gematriaPath)).2 with
    | error e => rw [hattempts, halphabet] at h; cases h
    | ok alphabet =>
      cases htables : tablesOf d dataDirectory s with
      | error e => rw [hattempts, halphabet, htables] at h; cases h
      | ok tables =>
        rw [hattempts, halphabet, htables] at h
        cases h
        exact ⟨a, tables, sample alphabet options, rfl, rfl⟩

/-- **An elimination keeps the earliest of the attempts that agree.** It does so for any tables,
points and attempts; what it keeps it would keep again, and more attempts behind others only add to
what is kept of those. When a generation with elimination succeeds, however its sample is drawn, so
does the one without it, and what is generated are attempts of that one, in order and from the first
one on. -/
theorem eliminate_keeps_earliest :
    (∀ (t : NumberTables) (points : List Point) (attempts : List String),
      Earliest t points attempts (eliminate t points attempts) ∧
      eliminate t points ((eliminate t points attempts).map (·.text)) =
        eliminate t points attempts ∧
      ∀ more, eliminate t points attempts <+: eliminate t points (attempts ++ more)) ∧
    ∀ (sample : Alphabet → SampleOptions → List Point) (d : Disk) (dataDirectory : String)
      (s : Settings) (r : Recipe) (options : SampleOptions) (kept : List String),
      generateWith sample d dataDirectory s { r with elimination := some options } = .ok kept →
      ∃ all, generateWith sample d dataDirectory s { r with elimination := none } = .ok all ∧
        kept.Sublist all ∧ (all ≠ [] → kept ≠ [] ∧ kept.head? = all.head?) := by
  refine ⟨fun t points attempts => ⟨earliest_eliminate t points attempts,
    eliminate_texts_eliminate t points attempts, eliminate_prefix t points attempts⟩, ?_⟩
  intro sample d dataDirectory s r options kept h
  obtain ⟨a, tables, points, hattempts, rfl⟩ := exists_of_generateWith h
  have hhead := head?_texts_eliminate tables points a.toList
  refine ⟨a.toList, ?_, texts_eliminate_sublist tables points a.toList, fun hall => ⟨?_, hhead⟩⟩
  · rw [generateWith_none, hattempts]
    rfl
  · intro hnone
    rw [hnone] at hhead
    exact hall (List.head?_eq_none_iff.mp hhead.symm)

/-! ### Two tokens that agree at one point -/

/-- A disk with rules, an empty file of replacements and a table of three runes. -/
def twoTokensDisk : Disk :=
  ⟨[], [(["R"], .file "<decryption>::=<single>".toUTF8), (["L"], .file "".toUTF8),
    (["G"], .file Alphabet.sampleTable.toUTF8)]⟩

/-- The index of a rune and that of the rune before it. -/
def twoTokens : Recipe := ⟨"/R", "/L", ["p", "prevp"], none⟩

def twoTokensSettings : Settings :=
  { Settings.default with gematriaPath := "G", piPath := "", sieveLimit := 10 }

/-- A point that comes after itself. -/
def ownPredecessor : Point := ⟨⟨'B', 1, 3, "B"⟩, 4⟩

lemma loadAlphabet_twoTokensDisk : (loadAlphabet twoTokensDisk "/G").2 = .ok Alphabet.sample := by
  have hread : twoTokensDisk.readText "/G" = .ok Alphabet.sampleTable :=
    Disk.readText_of_readBytes rfl
  rw [loadAlphabet_eq hread, Alphabet.parse_sampleTable]
  rfl

lemma exists_attempts_twoTokens :
    ∃ a, attempts twoTokensDisk twoTokens = .ok a ∧ a.toList = ["p", "prevp"] := by
  have hvocabulary : twoTokens.vocabulary = .ok ⟨[], ["p", "prevp"], []⟩ := rfl
  have hrules : twoTokensDisk.readText "/R" = .ok "<decryption>::=<single>" :=
    Disk.readText_of_readBytes rfl
  have hreplacements : twoTokensDisk.readText "/L" = .ok "" := Disk.readText_of_readBytes rfl
  have hparsed : Grammar.parseRules "<decryption>::=<single>" =
      .ok [⟨"decryption", [["single"]]⟩] := by decide +kernel
  obtain ⟨a, ha⟩ : ∃ a, Grammar.Attempts.ofRules ⟨[], ["p", "prevp"], []⟩
      [⟨"decryption", [["single"]]⟩] [] = ([], .ok a) := ⟨_, rfl⟩
  have htexts : Grammar.Listing.texts? ⟨[], ["p", "prevp"], []⟩
      [⟨"decryption", [["single"]]⟩] = some ["p", "prevp"] := by decide +kernel
  rw [Grammar.Attempts.texts_of_ofRules_nil ha, Option.some.injEq] at htexts
  refine ⟨a, ?_, htexts⟩
  rw [attempts_of_readText hvocabulary hrules hparsed hreplacements rfl, ha]
  rfl

/-- At a point that comes after itself, the index of the rune is that of the rune before it. -/
lemma eliminate_twoTokens (t : NumberTables) :
    (eliminate t [ownPredecessor] ["p", "prevp"]).map (·.text) = ["p"] := by
  have hagree : AgreeAt t [ownPredecessor] (.ofText "p") (.ofText "prevp") := by
    intro k hk
    obtain rfl : k = 0 := Nat.lt_one_iff.mp hk
    rfl
  have hsecond : keepNew (fingerprint t [ownPredecessor]) ∅ [.ofText "p", .ofText "prevp"] =
      [.ofText "p"] :=
    (keepNew_append_of_mem (List.mem_singleton_self (Formula.ofText "p"))
      (fingerprint_eq_iff.mpr hagree)).trans
      (keepNew_of_pairwise (List.pairwise_singleton _ _))
  rw [eliminate_eq, eliminateBy, List.map_cons, List.map_singleton, hsecond]
  rfl

lemma generateWith_twoTokens :
    generateWith (fun _ _ => [ownPredecessor]) twoTokensDisk "/" twoTokensSettings
      { twoTokens with elimination := some .default } = .ok ["p"] := by
  obtain ⟨a, hattempts, htexts⟩ := exists_attempts_twoTokens
  have hpath : Path.resolve "/" twoTokensSettings.gematriaPath = "/G" := by decide +kernel
  rw [generateWith_some, hattempts, hpath, loadAlphabet_twoTokensDisk]
  change Except.ok ((eliminate _ _ a.toList).map _) = _
  rw [htexts, eliminate_twoTokens]

/-- Of the two tokens the first one is left. -/
theorem eliminate_keeps_earliest_two :
    generateWith (fun _ _ => [ownPredecessor]) twoTokensDisk "/" twoTokensSettings
        { twoTokens with elimination := some .default } = .ok ["p"] ∧
      ∃ all, generateWith (fun _ _ => [ownPredecessor]) twoTokensDisk "/" twoTokensSettings
          { twoTokens with elimination := none } = .ok all ∧
        ["p"].Sublist all ∧ (all ≠ [] → ["p"] ≠ [] ∧ ["p"].head? = all.head?) :=
  ⟨generateWith_twoTokens, eliminate_keeps_earliest.2 _ _ _ _ twoTokens .default _
    generateWith_twoTokens⟩

end RuneSolver.Job
