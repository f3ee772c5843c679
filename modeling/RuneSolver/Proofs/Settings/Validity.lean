import RuneSolver.Proofs.Text.Trim
import RuneSolver.Settings.Basic

/-!
Valid settings, and what one change makes of settings. The settings that a program starts out with
are valid. Main statement: a change is accepted just if its name and its text are, and then it
leaves a valid text in the setting that it names and nothing else behind; a change that is refused
leaves nothing at all.
-/

namespace RuneSolver

open Text (trim isBlank naturalText integerText)

/-! ### Entries of lists -/

/-- The entries of a list are none when it holds nothing but commas and blanks. -/
theorem listEntries_eq_nil_iff {text : String} :
    listEntries text = [] ↔ ∀ c ∈ text.toList, c = ',' ∨ isBlank c = true := by
  rw [← Text.forall_mem_splitOn]
  simp [listEntries, List.filter_eq_nil_iff, Text.trim_eq_nil_iff]

/-- A list that is written from entries has none when none of them has more than commas and
blanks. -/
lemma listEntries_intercalate_eq_nil_iff {entries : List String} :
    listEntries (",".intercalate entries) = [] ↔
      ∀ entry ∈ entries, ∀ c ∈ entry.toList, c = ',' ∨ isBlank c = true := by
  have hcomma : ",".toList = [','] := rfl
  rw [listEntries_eq_nil_iff, String.toList_intercalate, hcomma,
    Text.forall_mem_intercalate (Or.inl rfl)]
  simp

/-- An entry that is read from a list is what stands between two commas, without the blanks around
it. -/
lemma exists_piece_of_mem_listEntries {text entry : String} (h : entry ∈ listEntries text) :
    ∃ piece, ',' ∉ piece ∧ trim piece ≠ [] ∧ entry = String.ofList (trim piece) := by
  obtain ⟨cs, hcs, rfl⟩ := List.mem_map.mp h
  obtain ⟨htrimmed, hne⟩ := List.mem_filter.mp hcs
  obtain ⟨piece, hpiece, rfl⟩ := List.mem_map.mp htrimmed
  have hcommas : ∀ piece ∈ text.toList.splitOn ',', ∀ c ∈ piece, c ≠ ',' :=
    (Text.forall_mem_splitOn text.toList).mpr fun c _ => eq_or_ne c ','
  exact ⟨piece, fun hmem => hcommas piece hpiece ',' hmem rfl, by simpa using hne, rfl⟩

/-- An entry that is read from a list has more than commas and blanks. -/
lemma exists_mem_of_mem_listEntries {text entry : String} (h : entry ∈ listEntries text) :
    ∃ c ∈ entry.toList, ¬(c = ',' ∨ isBlank c = true) := by
  obtain ⟨piece, hcomma, hne, rfl⟩ := exists_piece_of_mem_listEntries h
  rw [Ne, Text.trim_eq_nil_iff] at hne
  simp only [not_forall, Bool.not_eq_true] at hne
  obtain ⟨c, hc, hblank⟩ := hne
  refine ⟨c, by simpa using Text.mem_trim_of_mem hc hblank, ?_⟩
  rintro (rfl | h)
  · exact hcomma hc
  · rw [hblank] at h
    cases h

/-! ### Texts that are read and written again -/

namespace Setting

variable {text : String}

lemma checkPositive_naturalText {n : UInt64} (h : Text.readWord (trim text.toList) = .ok n) :
    checkPositive (naturalText n.toNat) = checkPositive text := by
  rw [checkPositive, checkPositive, h, naturalText, String.toList_ofList, Text.trim_natural,
    Text.readWord_natural]

lemma checkSieveLimit_integerText {v : Int32} (h : Text.readInt32 (trim text.toList) = .ok v) :
    checkSieveLimit (integerText v.toInt) = checkSieveLimit text := by
  rw [checkSieveLimit, checkSieveLimit, h, integerText, String.toList_ofList, Text.trim_integer,
    Text.readInt32_integer]

lemma checkBoolean_text (b : Bool) : checkBoolean (if b then "true" else "false") = .ok () := by
  cases b <;> decide +kernel

lemma checkEntries_eq_ok_iff : checkEntries text = .ok () ↔ listEntries text ≠ [] := by
  rw [checkEntries]
  cases listEntries text <;> simp

lemma checkEntries_join (h : checkEntries text = .ok ()) :
    checkEntries (",".intercalate (listEntries text)) = .ok () := by
  rw [checkEntries_eq_ok_iff] at h ⊢
  obtain ⟨entry, hentry⟩ := List.exists_mem_of_ne_nil _ h
  obtain ⟨c, hc, hcharacter⟩ := exists_mem_of_mem_listEntries hentry
  rw [Ne, listEntries_intercalate_eq_nil_iff]
  exact fun hnone => hcharacter (hnone entry hentry c hc)

lemma ofName?_name (setting : Setting) : ofName? setting.name = some setting := by
  cases setting <;> decide

lemma name_of_ofName? {name : String} {setting : Setting} (h : ofName? name = some setting) :
    setting.name = name := by
  simpa using List.find?_some h

end Setting

/-! ### Changes of settings -/

/-- A text that is valid for a number or a truth value can be read as one. -/
lemma Setting.exists_of_checkPositive {text : String} (h : checkPositive text = .ok ()) :
    ∃ n, Text.readWord (trim text.toList) = .ok n := by
  rw [checkPositive] at h
  cases hread : Text.readWord (trim text.toList) with
  | ok n => exact ⟨n, rfl⟩
  | error cause => rw [hread] at h; cases h

lemma Setting.exists_of_checkSieveLimit {text : String} (h : checkSieveLimit text = .ok ()) :
    ∃ n, Text.readInt32 (trim text.toList) = .ok n := by
  rw [checkSieveLimit] at h
  cases hread : Text.readInt32 (trim text.toList) with
  | ok n => exact ⟨n, rfl⟩
  | error cause => rw [hread] at h; cases h

lemma Setting.exists_of_checkBoolean {text : String} (h : checkBoolean text = .ok ()) :
    ∃ b, readBoolean (trim text.toList) = some b := by
  rw [checkBoolean] at h
  cases hread : readBoolean (trim text.toList) with
  | some b => exact ⟨b, rfl⟩
  | none => rw [hread] at h; cases h

/-- What is stored for one setting. -/
inductive StoredValue where
  | text (content : String)
  | word (number : UInt64)
  | flag (set : Bool)
  | entries (list : List String)
  | int32 (number : Int32)
  deriving DecidableEq

namespace Settings

/-- The setting has a valid text. -/
def IsValid (s : Settings) (setting : Setting) : Prop := setting.check (s.text setting) = .ok ()

instance (s : Settings) (setting : Setting) : Decidable (s.IsValid setting) :=
  inferInstanceAs (Decidable (_ = _))

lemma validateFrom_eq_ok_iff {s : Settings} {settings : List Setting} :
    s.validateFrom settings = .ok () ↔ ∀ setting ∈ settings, s.IsValid setting := by
  induction settings with
  | nil => simp [validateFrom]
  | cons setting settings ih =>
    rw [validateFrom, List.forall_mem_cons, IsValid]
    cases setting.check (s.text setting) with
    | ok u => simpa using ih
    | error cause => simp

/-- Settings that are valid are passed over. -/
lemma validateFrom_append {s : Settings} {before after : List Setting}
    (h : ∀ setting ∈ before, s.IsValid setting) :
    s.validateFrom (before ++ after) = s.validateFrom after := by
  induction before with
  | nil => rfl
  | cons setting before ih =>
    obtain ⟨hsetting, hbefore⟩ := List.forall_mem_cons.mp h
    have hcheck : setting.check (s.text setting) = .ok () := hsetting
    rw [List.cons_append, validateFrom, hcheck]
    exact ih hbefore

/-- Settings are accepted when each of them is valid. -/
theorem validate_eq_ok_iff {s : Settings} : s.validate = .ok () ↔ ∀ setting, s.IsValid setting := by
  have hall (setting : Setting) : setting ∈ Setting.all := by cases setting <;> decide
  rw [validate, validateFrom_eq_ok_iff]
  exact ⟨fun h setting => h setting (hall setting), fun h setting _ => h setting⟩

theorem isValid_default (setting : Setting) : default.IsValid setting := by
  cases setting <;> decide +kernel

def value (s : Settings) : Setting → StoredValue
  | .gematriaPath => .text s.gematriaPath
  | .ngramWidth => .word s.ngramWidth
  | .ngramStatisticsPath => .text s.ngramStatisticsPath
  | .isShiftMode => .flag s.isShiftMode
  | .datafileDirectory => .text s.datafileDirectory
  | .fileNamesToDecrypt => .entries s.fileNamesToDecrypt
  | .attempts => .entries s.attempts
  | .piPath => .text s.piPath
  | .sieveLimit => .int32 s.sieveLimit

lemma IsValid.of_value {s s' : Settings} {setting : Setting} (hs : s.IsValid setting)
    (h : s'.value setting = s.value setting) : s'.IsValid setting := by
  have htext : s'.text setting = s.text setting := by
    cases setting <;> simp only [value, StoredValue.text.injEq, StoredValue.word.injEq,
      StoredValue.flag.injEq, StoredValue.entries.injEq, StoredValue.int32.injEq] at h <;>
      simp only [text, h]
  rw [IsValid, htext]
  exact hs

end Settings

namespace Edit

/-- The edit changes one setting, to a valid text, and leaves all others as they are. -/
def Accepts (e : Edit) (s : Settings) (setting : Setting) : Prop :=
  ∃ next, e s = .ok () next ∧ next.IsValid setting ∧
    ∀ other, other ≠ setting → next.value other = s.value other

/-- The edit fails and leaves all settings as they are. -/
def Refuses (e : Edit) (s : Settings) : Prop := ∃ cause, e s = .error cause s

variable {s next : Settings} {setting : Setting} {name text : String}

/-- A text that is put into a setting leaves all others as they are, and one that cannot be read is
found out before anything is stored. -/
lemma assign_cases (setting : Setting) (text : String) (s : Settings) :
    (∃ next, assign setting text s = .ok () next ∧
      ∀ other, other ≠ setting → next.value other = s.value other) ∨
    ∃ cause, assign setting text s = .error cause s := by
  cases setting with
  | ngramWidth =>
    cases hread : Text.readWord (trim text.toList) with
    | error cause => exact .inr ⟨_, by simp only [assign, hread]; rfl⟩
    | ok n =>
      refine .inl ⟨{ s with ngramWidth := n }, by simp only [assign, hread]; rfl,
        fun other hne => ?_⟩
      cases other <;> first | rfl | exact absurd rfl hne
  | isShiftMode =>
    cases hread : readBoolean (trim text.toList) with
    | none => exact .inr ⟨_, by simp only [assign, hread]; rfl⟩
    | some b =>
      refine .inl ⟨{ s with isShiftMode := b }, by simp only [assign, hread]; rfl,
        fun other hne => ?_⟩
      cases other <;> first | rfl | exact absurd rfl hne
  | sieveLimit =>
    cases hread : Text.readInt32 (trim text.toList) with
    | error cause => exact .inr ⟨_, by simp only [assign, hread]; rfl⟩
    | ok n =>
      refine .inl ⟨{ s with sieveLimit := n }, by simp only [assign, hread]; rfl,
        fun other hne => ?_⟩
      cases other <;> first | rfl | exact absurd rfl hne
  | _ =>
    refine .inl ⟨_, rfl, fun other hne => ?_⟩
    cases other <;> first | rfl | exact absurd rfl hne

/-- **A valid text is never refused when it is put into its setting**, and leaves a valid text
there. -/
theorem exists_assign_of_check (h : setting.check text = .ok ()) (s : Settings) :
    ∃ next, assign setting text s = .ok () next ∧ next.IsValid setting := by
  cases setting with
  | gematriaPath => exact ⟨_, rfl, h⟩
  | ngramStatisticsPath => exact ⟨_, rfl, h⟩
  | datafileDirectory => exact ⟨_, rfl, h⟩
  | fileNamesToDecrypt => exact ⟨_, rfl, rfl⟩
  | piPath => exact ⟨_, rfl, rfl⟩
  | ngramWidth =>
    obtain ⟨n, hread⟩ := Setting.exists_of_checkPositive h
    refine ⟨{ s with ngramWidth := n }, ?_, (Setting.checkPositive_naturalText hread).trans h⟩
    simp only [assign, hread]
    rfl
  | sieveLimit =>
    obtain ⟨n, hread⟩ := Setting.exists_of_checkSieveLimit h
    refine ⟨{ s with sieveLimit := n }, ?_, (Setting.checkSieveLimit_integerText hread).trans h⟩
    simp only [assign, hread]
    rfl
  | isShiftMode =>
    obtain ⟨b, hread⟩ := Setting.exists_of_checkBoolean h
    refine ⟨{ s with isShiftMode := b }, ?_, Setting.checkBoolean_text b⟩
    simp only [assign, hread]
    rfl
  | attempts => exact ⟨_, rfl, Setting.checkEntries_join h⟩

/-- **What a change can do.** It is accepted just if the name is that of a setting and the text is
valid for it, and refused otherwise. -/
theorem set_cases (name text : String) (s : Settings) :
    (∃ setting : Setting, setting.name = name ∧ setting.check text = .ok () ∧
      (set name text).Accepts s setting) ∨
    ((set name text).Refuses s ∧
      ∀ setting : Setting, setting.name = name → setting.check text ≠ .ok ()) := by
  cases hname : Setting.ofName? name with
  | none =>
    refine .inr ⟨⟨.unknown name, by rw [set, hname]; rfl⟩, fun setting hsetting _ => ?_⟩
    rw [← hsetting, Setting.ofName?_name] at hname
    cases hname
  | some setting =>
    have hsetting : setting.name = name := Setting.name_of_ofName? hname
    cases hcheck : setting.check text with
    | error cause =>
      refine .inr ⟨⟨.invalid setting cause, ?_⟩, fun other hother hok => ?_⟩
      · simp only [set, hname, hcheck]
        rfl
      · rw [← hother, Setting.ofName?_name, Option.some.injEq] at hname
        rw [hname, hcheck] at hok
        cases hok
    | ok u =>
      obtain ⟨next, hassign, hvalid⟩ := exists_assign_of_check hcheck s
      refine .inl ⟨setting, hsetting, hcheck, next, ?_, hvalid, ?_⟩
      · simp only [set, hname, hcheck, hassign]
      · rcases assign_cases setting text s with ⟨last, hlast, hothers⟩ | ⟨cause, hlast⟩
        · rw [hassign] at hlast
          cases hlast
          exact hothers
        · rw [hassign] at hlast
          cases hlast

lemma outcome_eq_ok {e : Edit} (h : e.outcome s = .ok next) : e s = .ok () next := by
  rw [outcome] at h
  cases he : e s with
  | ok u last => rw [he] at h; cases h; rfl
  | error cause left => rw [he] at h; cases h

end Edit

end RuneSolver
