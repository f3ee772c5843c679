import RuneSolver.Proofs.Settings.Reading

/-!
Job files that are written and read back. The members of a job file give every setting its value
again, so the settings that are read are those that were written, if they are valid. Main
statement: settings that are valid but for their attempts are refused for nothing but attempts
without a character that counts.
-/

namespace RuneSolver.Settings

open Json (Printable)

/-! ### The members of a job file -/

/-- There is a member for each setting, in order. -/
lemma members_eq (s : Settings) :
    s.members = Setting.all.map fun setting => (setting.name, (s.value setting).json) := rfl

lemma printable_json (x : StoredValue) : Printable x.json := by
  cases x with
  | text content => exact .string content
  | word number => exact .number (Text.isNumber_natural _)
  | flag set => exact .bool set
  | entries list =>
    refine .array fun v hv => ?_
    obtain ⟨text, -, rfl⟩ := List.mem_map.mp hv
    exact .string text
  | int32 number => exact .number (Text.isNumber_integer _)

lemma printable_members (s : Settings) : Printable (.ofMembers s.members) := by
  refine .object (fun m hm => ?_) fun m hm => ?_
  · obtain ⟨_, -, rfl⟩ := List.mem_map.mp hm
    rfl
  · obtain ⟨member, hmember, rfl⟩ := List.mem_map.mp hm
    rw [members_eq] at hmember
    obtain ⟨setting, -, rfl⟩ := List.mem_map.mp hmember
    exact printable_json _

lemma knownMembers_members (s : Settings) :
    knownMembers s.members = Setting.all.map fun setting => (setting, (s.value setting).json) := by
  simp [members_eq, knownMembers, List.filterMap_map, Setting.ofName?_name]

/-- **The members of settings give the settings back.** -/
theorem ofJson_members (s : Settings) : ofJson? (.ofMembers s.members) = some s := by
  have hall (setting : Setting) : setting ∈ Setting.all := by cases setting <;> decide
  have hkeys : (knownMembers s.members).map Prod.fst = Setting.all := by
    simp [knownMembers_members, Function.comp_def]
  have hvalue : ∀ m ∈ knownMembers s.members, (s.value m.1).json = m.2 := by
    intro m hm
    rw [knownMembers_members] at hm
    obtain ⟨setting, -, rfl⟩ := List.mem_map.mp hm
    rfl
  refine (ofJson?_ofMembers fun m hm => ?_).mpr
    ⟨⟨by rw [hkeys]; decide, fun m hm => ⟨s, hvalue m hm⟩⟩, fun setting => ?_⟩
  · rw [members_eq] at hm
    obtain ⟨setting, -, rfl⟩ := List.mem_map.mp hm
    exact (s.value setting).isFormed_json
  · refine ⟨fun v hv => hvalue (setting, v) hv, fun hnew => ?_⟩
    rw [hkeys] at hnew
    exact absurd (hall setting) hnew

/-- **A job file is read as the settings that it was written from, if these are valid.** -/
theorem parse_jobFile (s : Settings) : parse s.jobFile = s.validate.map fun _ => s := by
  rw [parse, jobFile, Json.parse_print s.printable_members, Option.bind_some, ofJson_members]

/-- **Valid settings come back from their job file.** It is a JSON object with one member for each
setting, in order and under the name of the setting, and it is read as the settings that it was
written from. -/
theorem parse_jobFile_of_validate {s : Settings} (h : s.validate = .ok ()) :
    Json.parse? s.jobFile = some (.ofMembers s.members) ∧
      s.members.map Prod.fst = Setting.all.map Setting.name ∧ parse s.jobFile = .ok s := by
  refine ⟨Json.parse_print s.printable_members, rfl, ?_⟩
  rw [parse_jobFile, h]
  rfl

/-- Settings whose texts have to be escaped, whose lists have entries with commas and without
anything, and whose numbers are as high as they get. -/
def escapedSettings : Settings where
  gematriaPath := "a \"b\" \\ c\n\t, \x00\x1f ᚠ 😀"
  ngramWidth := 18446744073709551615
  ngramStatisticsPath := "\x08\x0c\r/"
  isShiftMode := true
  datafileDirectory := "\x7f\u2028"
  fileNamesToDecrypt := ["", ",", "56.txt, 57.txt", "\r\n"]
  attempts := ["", "p, i", "\\u0070"]
  piPath := ""
  sieveLimit := 2147483647

theorem parse_jobFile_escapedSettings :
    escapedSettings.validate = .ok () ∧ parse escapedSettings.jobFile = .ok escapedSettings := by
  have hvalid : escapedSettings.validate = .ok () := by decide +kernel
  exact ⟨hvalid, (parse_jobFile_of_validate hvalid).2.2⟩

/-! ### Validity -/

/-- Where everything but the attempts is valid, only the attempts are at fault. -/
lemma validate_of_isValid {s : Settings} (h : ∀ setting, setting ≠ .attempts → s.IsValid setting) :
    s.validate = (Setting.attempts.check (s.text .attempts)).mapError (.invalid .attempts) := by
  have hall : Setting.all = [.gematriaPath, .ngramWidth, .ngramStatisticsPath, .isShiftMode,
      .datafileDirectory, .fileNamesToDecrypt] ++ .attempts :: [.piPath, .sieveLimit] := rfl
  have hrest : s.validateFrom [.piPath, .sieveLimit] = .ok () :=
    validateFrom_eq_ok_iff.mpr fun setting hmem => h setting fun heq => by simp [heq] at hmem
  rw [validate, hall, validateFrom_append fun setting hmem => h setting fun heq => by
    simp [heq] at hmem, validateFrom, hrest]
  cases Setting.attempts.check (s.text .attempts) <;> rfl

/-- Some attempt has a character that is neither a comma nor blank. -/
def HasAttempt (s : Settings) : Prop :=
  ∃ attempt ∈ s.attempts, ∃ c ∈ attempt.toList, ¬(c = ',' ∨ Text.isBlank c = true)

lemma not_hasAttempt_iff {s : Settings} :
    ¬s.HasAttempt ↔ listEntries (s.text .attempts) = [] := by
  rw [text, listEntries_intercalate_eq_nil_iff, HasAttempt]
  simp only [not_exists, not_and, Decidable.not_not]

/-- **Job files of settings that are valid but for their attempts.** They are read as the settings
that they were written from, unless no attempt has a character that counts. -/
theorem parse_jobFile_of_isValid {s : Settings}
    (h : ∀ setting, setting ≠ .attempts → s.IsValid setting) :
    (s.HasAttempt → parse s.jobFile = .ok s) ∧
      (¬s.HasAttempt → parse s.jobFile = .error (.invalid .attempts .noEntries)) := by
  rw [parse_jobFile, validate_of_isValid h, Setting.check]
  refine ⟨fun hattempt => ?_, fun hnone => ?_⟩
  · have hentries : listEntries (s.text .attempts) ≠ [] := fun hnil =>
      not_hasAttempt_iff.mpr hnil hattempt
    rw [Setting.checkEntries_eq_ok_iff.mpr hentries]
    rfl
  · rw [Setting.checkEntries, not_hasAttempt_iff.mp hnone]
    rfl

end RuneSolver.Settings
