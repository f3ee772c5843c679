import RuneSolver.CommandLine.Execution
import RuneSolver.Proofs.Job.Generation
import RuneSolver.Proofs.Settings.Editing
import RuneSolver.Proofs.Settings.JobFile

/-!
Jobs that are generated. The attempts of a generated job are put into its settings without the
check that every other change of a setting has to pass. Main statement: the job file of a
generation that succeeds is read back as the settings that were generated, unless none of the
attempts has a character that counts; then it is refused.
-/

namespace RuneSolver.CommandLine

variable {d saved : Disk} {sample : Job.Sampling} {r : GenerateRequest} {s : Settings}

/-! ### Generated settings -/

lemma GenerateRequest.settings_ok (h : r.settings d sample = .ok s) :
    ∃ base attempts, Settings.default.overrideAll r.overrides = .ok base ∧
      Job.generateWith sample d r.dataDirectory base r.recipe = .ok attempts ∧
      s = { base with attempts := attempts } := by
  rw [settings] at h
  cases hoverrides : Settings.default.overrideAll r.overrides with
  | error e => rw [hoverrides] at h; cases h
  | ok base =>
    rw [hoverrides] at h
    change (Job.generateWith sample d r.dataDirectory base r.recipe).bind _ = _ at h
    cases hattempts : Job.generateWith sample d r.dataDirectory base r.recipe with
    | error e => rw [hattempts] at h; cases h
    | ok attempts =>
      rw [hattempts] at h
      cases h
      exact ⟨base, attempts, rfl, hattempts, rfl⟩

/-- Everything but the attempts of generated settings comes from accepted overrides. -/
lemma GenerateRequest.isValid_settings (h : r.settings d sample = .ok s) :
    ∀ setting, setting ≠ .attempts → s.IsValid setting := by
  obtain ⟨base, attempts, hoverrides, -, rfl⟩ := settings_ok h
  intro setting hne
  have hvalid := Settings.isValid_overrideAll Settings.isValid_default hoverrides setting
  cases setting <;> first | exact hvalid | exact absurd rfl hne

/-- A generation that succeeds has written the job file of its settings. -/
lemma GenerateRequest.exists_settings_of_run (h : (r.run d sample).value = .ok saved) :
    ∃ s, r.settings d sample = .ok s ∧ d.writeText r.output s.jobFile = .ok saved := by
  rw [run] at h
  cases hsettings : r.settings d sample with
  | error e => rw [hsettings] at h; cases h
  | ok s =>
    simp only [hsettings] at h
    cases hwrite : d.writeText r.output s.jobFile with
    | error e => simp only [Job.saveSettings, hwrite] at h; cases h
    | ok written =>
      simp only [Job.saveSettings, hwrite] at h
      cases h
      exact ⟨s, rfl, hwrite⟩

lemma loadSettings_of_writeText {path : String} (h : d.writeText path s.jobFile = .ok saved) :
    Job.loadSettings saved path = (Settings.parse s.jobFile).mapError .settings := by
  rw [Job.loadSettings, Job.load_of_readText (Disk.readText_of_writeText h)]

/-- After a generation that succeeds, loading reads the job file of the generated settings. -/
lemma exists_settings_of_execute {args : List String}
    (hparse : Request.parse args = some (.generate r)) (h : (execute d sample args).exit = 0) :
    ∃ s, r.settings d sample = .ok s ∧
      Job.loadSettings (execute d sample args).disk r.output =
        (Settings.parse s.jobFile).mapError .settings := by
  have hexecute : execute d sample args = (r.run d sample).result d := by
    rw [execute, hparse]
    rfl
  rw [hexecute] at h ⊢
  cases hvalue : (r.run d sample).value with
  | error fault =>
    rw [Transcript.result, hvalue] at h
    cases fault <;> cases h
  | ok saved =>
    have hdisk : ((r.run d sample).result d).disk = saved := by
      rw [Transcript.result, hvalue]
    obtain ⟨s, hsettings, hwrite⟩ := GenerateRequest.exists_settings_of_run hvalue
    exact ⟨s, hsettings, by rw [hdisk, loadSettings_of_writeText hwrite]⟩

/-- **Generated job files can be read, unless nothing has been generated**, however samples are
drawn. -/
theorem loadSettings_of_execute {args : List String}
    (hparse : Request.parse args = some (.generate r)) (h : (execute d sample args).exit = 0) :
    ∃ s, r.settings d sample = .ok s ∧
      (s.HasAttempt → Job.loadSettings (execute d sample args).disk r.output = .ok s) ∧
      (¬s.HasAttempt → Job.loadSettings (execute d sample args).disk r.output =
        .error (.settings (.invalid .attempts .noEntries))) := by
  obtain ⟨s, hsettings, hload⟩ := exists_settings_of_execute hparse h
  have hparsed := Settings.parse_jobFile_of_isValid (GenerateRequest.isValid_settings hsettings)
  refine ⟨s, hsettings, fun hattempt => ?_, fun hnone => ?_⟩
  · rw [hload, hparsed.1 hattempt]
    rfl
  · rw [hload, hparsed.2 hnone]
    rfl

/-! ### A generation from one token -/

/-- A disk with a file of rules and an empty file of replacements. -/
def sampleDisk (rules : String) : Disk :=
  ⟨[], [(["R"], .file rules.toUTF8), (["L"], .file "".toUTF8)]⟩

/-- Generation from the rules of the sample disk with only the index of a rune selected. -/
def sampleArguments : List String :=
  ["generate", "-d", "/", "--rules", "R", "--replacements", "L", "-t", "p", "-o", "J"]

def sampleRequest : GenerateRequest where
  dataDirectory := "/"
  output := "J"
  rules := "R"
  replacements := "L"
  tokens := ["p"]
  eliminate := false
  seed := none
  overrides := []

lemma parse_sampleArguments : Request.parse sampleArguments = some (.generate sampleRequest) := by
  decide +kernel

lemma settings_sample (sample : Job.Sampling) {rules : String} {parsed : List Grammar.Rule}
    {a : Grammar.Attempts}
    (hrules : Grammar.parseRules rules = .ok parsed)
    (ha : Grammar.Attempts.ofRules ⟨[], ["p"], []⟩ parsed [] = ([], .ok a)) :
    sampleRequest.settings (sampleDisk rules) sample =
      .ok { Settings.default with attempts := a.toList } := by
  have hpaths : sampleRequest.recipe.rules = "/R" ∧ sampleRequest.recipe.replacements = "/L" := by
    decide +kernel
  have hvocabulary : sampleRequest.recipe.vocabulary = .ok ⟨[], ["p"], []⟩ := rfl
  have hreadRules : (sampleDisk rules).readText sampleRequest.recipe.rules = .ok rules := by
    rw [hpaths.1]
    exact Disk.readText_of_readBytes rfl
  have hreadReplacements : (sampleDisk rules).readText sampleRequest.recipe.replacements =
      .ok "" := by
    rw [hpaths.2]
    exact Disk.readText_of_readBytes rfl
  have hattempts : Job.attempts (sampleDisk rules) sampleRequest.recipe = .ok a := by
    rw [Job.attempts_of_readText hvocabulary hreadRules hrules hreadReplacements rfl, ha]
    rfl
  rw [GenerateRequest.settings]
  change (Job.generateWith sample (sampleDisk rules) "/" .default sampleRequest.recipe).bind _ = _
  rw [Job.generateWith, hattempts]
  rfl

lemma exit_sample {rules : String} {s : Settings}
    (h : sampleRequest.settings (sampleDisk rules) sample = .ok s) :
    (execute (sampleDisk rules) sample sampleArguments).exit = 0 := by
  have htarget : (sampleDisk rules).target sampleRequest.output = .ok ["J"] := rfl
  rw [execute, parse_sampleArguments]
  simp only [Request.run, GenerateRequest.run, h, Job.saveSettings, Disk.writeText, htarget]
  rfl

/-- The one attempt of one token is written and read back. -/
theorem loadSettings_of_execute_single :
    ∃ s, sampleRequest.settings (sampleDisk "<decryption>::=<single>") (Job.drawing 0) = .ok s ∧
      s.attempts = ["p"] ∧ s.HasAttempt ∧
      (execute (sampleDisk "<decryption>::=<single>") (Job.drawing 0) sampleArguments).exit = 0 ∧
      Job.loadSettings
        (execute (sampleDisk "<decryption>::=<single>") (Job.drawing 0) sampleArguments).disk
        sampleRequest.output = .ok s := by
  have hrules : Grammar.parseRules "<decryption>::=<single>" =
      .ok [⟨"decryption", [["single"]]⟩] := by decide +kernel
  obtain ⟨a, ha⟩ : ∃ a, Grammar.Attempts.ofRules ⟨[], ["p"], []⟩ [⟨"decryption", [["single"]]⟩] [] =
      ([], .ok a) := ⟨_, rfl⟩
  have htexts : Grammar.Listing.texts? ⟨[], ["p"], []⟩ [⟨"decryption", [["single"]]⟩] =
      some ["p"] := by decide +kernel
  rw [Grammar.Attempts.texts_of_ofRules_nil ha, Option.some.injEq] at htexts
  have hsettings := settings_sample (Job.drawing 0) hrules ha
  have hexit := exit_sample hsettings
  obtain ⟨s, hs, hload, -⟩ := loadSettings_of_execute parse_sampleArguments hexit
  cases hsettings.symm.trans hs
  have hattempt : Settings.HasAttempt { Settings.default with attempts := a.toList } := by
    rw [htexts]
    exact ⟨"p", List.mem_singleton_self _, 'p', by decide, by decide⟩
  exact ⟨_, hsettings, htexts, hattempt, hexit, hload hattempt⟩

/-- A generation without attempts succeeds and writes a job file that is refused. -/
theorem loadSettings_of_execute_empty :
    ∃ s, sampleRequest.settings (sampleDisk "<decryption>::=<single><op>") (Job.drawing 0) = .ok s ∧
      (execute (sampleDisk "<decryption>::=<single><op>") (Job.drawing 0) sampleArguments).exit =
        0 ∧
      Job.loadSettings
        (execute (sampleDisk "<decryption>::=<single><op>") (Job.drawing 0) sampleArguments).disk
        sampleRequest.output = .error (.settings (.invalid .attempts .noEntries)) := by
  have hrules : Grammar.parseRules "<decryption>::=<single><op>" =
      .ok [⟨"decryption", [["single", "op"]]⟩] := by decide +kernel
  obtain ⟨a, ha⟩ : ∃ a,
      Grammar.Attempts.ofRules ⟨[], ["p"], []⟩ [⟨"decryption", [["single", "op"]]⟩] [] =
        ([], .ok a) := ⟨_, rfl⟩
  have htexts : Grammar.Listing.texts? ⟨[], ["p"], []⟩ [⟨"decryption", [["single", "op"]]⟩] =
      some [] := by decide +kernel
  rw [Grammar.Attempts.texts_of_ofRules_nil ha, Option.some.injEq] at htexts
  have hsettings := settings_sample (Job.drawing 0) hrules ha
  have hexit := exit_sample hsettings
  obtain ⟨s, hs, hload⟩ := exists_settings_of_execute parse_sampleArguments hexit
  cases hsettings.symm.trans hs
  have hnone : ¬Settings.HasAttempt { Settings.default with attempts := a.toList } := by
    rw [htexts]
    rintro ⟨attempt, hattempt, -⟩
    exact absurd hattempt List.not_mem_nil
  refine ⟨_, hsettings, hexit, ?_⟩
  rw [hload, (Settings.parse_jobFile_of_isValid (GenerateRequest.isValid_settings hs)).2 hnone]
  rfl

end RuneSolver.CommandLine
