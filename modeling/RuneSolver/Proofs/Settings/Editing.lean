import RuneSolver.Proofs.Settings.Validity

/-!
Settings that are changed again and again. A change is tried on whatever the changes before it have
left, also those that were refused. Main statement: from valid settings, no sequence of changes
leads to others than valid ones, a change that is refused leaves everything as it was, and one that
is accepted touches the setting that it names and no other.
-/

namespace RuneSolver

/-- A request for a change: by the name of a setting and a text, or by an assignment of the two. -/
inductive Change where
  | set (name text : String)
  | override (assignment : String)
  deriving DecidableEq, Repr

namespace Change

def edit : Change → Edit
  | set name text => Edit.set name text
  | override assignment => Edit.override assignment

/-- The name and the text of a change, which an override without an assignment has not. -/
def target? : Change → Option (String × String)
  | set name text => some (name, text)
  | override assignment =>
    (Text.cutAt? ['='] assignment.toList).map fun (name, text) =>
      (String.ofList (Text.trim name), String.ofList text)

/-- The settings that a change leaves, be it accepted or refused. -/
def leave (s : Settings) (c : Change) : Settings :=
  match c.edit s with
  | .ok () next => next
  | .error _ left => left

lemma edit_of_target {c : Change} {name text : String} (h : c.target? = some (name, text)) :
    c.edit = Edit.set name text := by
  cases c with
  | set name' text' => cases h; rfl
  | override assignment =>
    obtain ⟨pair, hcut, hpair⟩ := Option.map_eq_some_iff.mp h
    cases hpair
    rw [edit, Edit.override, hcut]

lemma edit_of_no_target {c : Change} (h : c.target? = none) : ∃ cause, c.edit = throw cause := by
  cases c with
  | set name text => cases h
  | override assignment =>
    refine ⟨.noAssignment assignment, ?_⟩
    rw [edit, Edit.override, Option.map_eq_none_iff.mp h]

/-- **What a request can do.** It is accepted just if it names a setting and its text is valid for
that, and refused otherwise. -/
theorem edit_cases (c : Change) (s : Settings) :
    (∃ setting text, c.target? = some (setting.name, text) ∧ setting.check text = .ok () ∧
      c.edit.Accepts s setting) ∨
    (c.edit.Refuses s ∧ ∀ (setting : Setting) (text : String),
      c.target? = some (setting.name, text) → setting.check text ≠ .ok ()) := by
  cases htarget : c.target? with
  | none =>
    obtain ⟨cause, hedit⟩ := edit_of_no_target htarget
    exact .inr ⟨⟨cause, by rw [hedit]; rfl⟩, nofun⟩
  | some target =>
    obtain ⟨name, text⟩ := target
    rw [edit_of_target htarget]
    rcases Edit.set_cases name text s with ⟨setting, rfl, hcheck, haccepts⟩ | ⟨hrefuses, hno⟩
    · exact .inl ⟨setting, text, rfl, hcheck, haccepts⟩
    · refine .inr ⟨hrefuses, fun setting _ h => ?_⟩
      obtain ⟨hname, rfl⟩ := Prod.mk.inj (Option.some.inj h)
      exact hno setting hname.symm

/-- A change leaves valid settings valid. -/
lemma isValid_leave {s : Settings} (hs : ∀ setting, s.IsValid setting) (c : Change) :
    ∀ setting, (c.leave s).IsValid setting := by
  intro setting
  rcases c.edit_cases s with
    ⟨changed, -, -, -, next, hnext, hvalid, hothers⟩ | ⟨⟨cause, hcause⟩, -⟩
  · rw [leave, hnext]
    by_cases hsame : setting = changed
    · exact hsame ▸ hvalid
    · exact (hs setting).of_value (hothers setting hsame)
  · rw [leave, hcause]
    exact hs setting

end Change

namespace Settings

/-- The settings after changes that are tried one after the other. -/
def after (s : Settings) (changes : List Change) : Settings := changes.foldl Change.leave s

lemma isValid_after {s : Settings} (hs : ∀ setting, s.IsValid setting) (changes : List Change) :
    ∀ setting, (s.after changes).IsValid setting := by
  induction changes generalizing s with
  | nil => exact hs
  | cons c changes ih => exact ih (c.isValid_leave hs)

/-- Overrides of which none is refused lead from valid settings to valid settings. -/
theorem isValid_overrideAll {s s' : Settings} {assignments : List String}
    (hs : ∀ setting, s.IsValid setting) (h : s.overrideAll assignments = .ok s') :
    ∀ setting, s'.IsValid setting := by
  induction assignments generalizing s with
  | nil => cases h; exact hs
  | cons assignment assignments ih =>
    rw [overrideAll] at h
    split at h
    · cases h
    next next hnext =>
    have hleave : Change.leave s (.override assignment) = next := by
      rw [Change.leave, Change.edit, Edit.outcome_eq_ok hnext]
    exact ih (hleave ▸ Change.isValid_leave hs (.override assignment)) h

/-- **Settings stay valid, and refused changes leave no trace.** Whatever changes are tried on valid
settings, the settings are valid after them. There, a change that is refused leaves everything as it
is; a change that is accepted names a setting and leaves all others as they are; a text that is
valid for a setting can be put into it, and a change to that text is accepted. -/
theorem validate_after {s : Settings} (h : s.validate = .ok ()) (changes : List Change) :
    (s.after changes).validate = .ok () ∧
    (∀ (c : Change) (cause : SettingsError) (left : Settings),
      c.edit (s.after changes) = .error cause left → left = s.after changes) ∧
    (∀ (c : Change) (next : Settings), c.edit (s.after changes) = .ok () next →
      ∃ setting text, c.target? = some (setting.name, text) ∧ setting.check text = .ok () ∧
        ∀ other, other ≠ setting → next.value other = (s.after changes).value other) ∧
    ∀ (setting : Setting) (text : String), setting.check text = .ok () →
      (∃ next, Edit.assign setting text (s.after changes) = .ok () next) ∧
      ∀ c : Change, c.target? = some (setting.name, text) →
        ∃ next, c.edit (s.after changes) = .ok () next := by
  refine ⟨?_, fun c cause left hc => ?_, fun c next hc => ?_, fun setting text hcheck => ⟨?_, ?_⟩⟩
  · exact validate_eq_ok_iff.mpr (isValid_after (validate_eq_ok_iff.mp h) changes)
  · rcases c.edit_cases (s.after changes) with
      ⟨-, -, -, -, next, hnext, -⟩ | ⟨⟨cause', hcause⟩, -⟩
    · rw [hnext] at hc
      cases hc
    · rw [hcause] at hc
      cases hc
      rfl
  · rcases c.edit_cases (s.after changes) with
      ⟨setting, text, htarget, hcheck, next', hnext, -, hothers⟩ | ⟨⟨cause, hcause⟩, -⟩
    · rw [hnext] at hc
      cases hc
      exact ⟨setting, text, htarget, hcheck, hothers⟩
    · rw [hcause] at hc
      cases hc
  · obtain ⟨next, hnext, -⟩ := Edit.exists_assign_of_check hcheck (s.after changes)
    exact ⟨next, hnext⟩
  · intro c htarget
    rcases c.edit_cases (s.after changes) with ⟨-, -, -, -, next, hnext, -⟩ | ⟨-, hrefused⟩
    · exact ⟨next, hnext⟩
    · exact absurd hcheck (hrefused setting text htarget)

/-- Refused changes between accepted ones: a width of zero, and an override without a name. -/
theorem validate_after_mixed :
    default.validate = .ok () ∧
    default.after [.set "NgramWidth" "0", .override " Attempts = i , ,p", .override "true",
        .set "PiPath" ""] =
      { default with attempts := ["i", "p"], piPath := "" } ∧
    (default.after [.set "NgramWidth" "0", .override " Attempts = i , ,p", .override "true",
        .set "PiPath" ""]).validate = .ok () := by
  have hdefault : default.validate = .ok () := validate_eq_ok_iff.mpr isValid_default
  exact ⟨hdefault, by decide +kernel, (validate_after hdefault _).1⟩

end Settings

end RuneSolver
