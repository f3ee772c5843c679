import RuneSolver.Proofs.Settings.Editing
import RuneSolver.Proofs.Settings.Reading

/-!
Settings that are put together again from their texts. A list is written as its entries with commas
between them, so it is read back only if no entry has a comma in it or a blank at an end, which is
so for entries that have been read from a text. Main statement: whatever changes have been made to
the settings that a program starts out with, the text of each setting is accepted for it and changes
nothing, and the texts of all settings, in any order, give the same settings again.
-/

namespace RuneSolver

open Text (trim)

/-! ### Entries that are read and written -/

/-- An entry as a list has it that is read from a text. -/
structure IsEntry (entry : String) : Prop where
  ne_nil : entry.toList ≠ []
  noComma : ',' ∉ entry.toList
  trimmed : trim entry.toList = entry.toList

lemma isEntry_of_mem_listEntries {text entry : String} (h : entry ∈ listEntries text) :
    IsEntry entry := by
  obtain ⟨piece, hcomma, hne, rfl⟩ := exists_piece_of_mem_listEntries h
  refine ⟨by rwa [String.toList_ofList], ?_, by rw [String.toList_ofList, Text.trim_trim]⟩
  rw [String.toList_ofList]
  exact fun hmem => hcomma ((Text.trim_infix piece).subset hmem)

/-- **Entries that are joined by commas are read as they are.** -/
theorem listEntries_intercalate {entries : List String} (h : ∀ entry ∈ entries, IsEntry entry) :
    listEntries (",".intercalate entries) = entries := by
  have hcomma : ",".toList = [','] := rfl
  rw [listEntries, String.toList_intercalate, hcomma]
  cases entries with
  | nil => rfl
  | cons first rest =>
    have hnoComma : ∀ piece ∈ (first :: rest).map String.toList, ',' ∉ piece := by
      intro piece hpiece
      obtain ⟨entry, hentry, rfl⟩ := List.mem_map.mp hpiece
      exact (h entry hentry).noComma
    have htrimmed : ((first :: rest).map String.toList).map trim =
        (first :: rest).map String.toList := by
      rw [List.map_map]
      exact List.map_congr_left fun entry hentry => (h entry hentry).trimmed
    have hne : ∀ piece ∈ (first :: rest).map String.toList, (!piece.isEmpty) = true := by
      intro piece hpiece
      obtain ⟨entry, hentry, rfl⟩ := List.mem_map.mp hpiece
      simpa using (h entry hentry).ne_nil
    rw [List.splitOn_intercalate ',' hnoComma (List.cons_ne_nil _ _), htrimmed,
      List.filter_eq_self.mpr hne, List.map_map]
    simp [Function.comp_def]

/-! ### Values that are read and written -/

/-- If the value is a list, its entries are such as are read from texts. -/
def StoredValue.IsTidy (x : StoredValue) : Prop :=
  ∀ list, x = .entries list → ∀ entry ∈ list, IsEntry entry

namespace Edit

variable {s t next : Settings} {setting : Setting} {text : String}

/-- A change to a text that is valid puts the text into the setting. -/
lemma set_of_check (h : setting.check text = .ok ()) :
    set setting.name text = assign setting text := by
  simp only [set, Setting.ofName?_name, h]

lemma isTidy_of_assign (h : assign setting text s = .ok () next) : (next.value setting).IsTidy := by
  intro list hlist
  cases setting with
  | fileNamesToDecrypt | attempts =>
    cases h
    cases hlist
    exact fun entry hentry => isEntry_of_mem_listEntries hentry
  | gematriaPath | ngramWidth | ngramStatisticsPath | isShiftMode | datafileDirectory | piPath
  | sieveLimit => cases hlist

/-- The text of a value is read as the value. -/
lemma exists_assign_text (hs : (s.value setting).IsTidy) (t : Settings) :
    ∃ next, assign setting (s.text setting) t = .ok () next ∧
      next.value setting = s.value setting := by
  cases setting with
  | gematriaPath | ngramStatisticsPath | datafileDirectory | piPath => exact ⟨_, rfl, rfl⟩
  | ngramWidth =>
    have hread : Text.readWord (trim (s.text .ngramWidth).toList) = .ok s.ngramWidth := by
      rw [Settings.text, Text.naturalText, String.toList_ofList, Text.trim_natural,
        Text.readWord_natural]
    exact ⟨{ t with ngramWidth := s.ngramWidth }, by simp only [assign, hread]; rfl, rfl⟩
  | sieveLimit =>
    have hread : Text.readInt32 (trim (s.text .sieveLimit).toList) = .ok s.sieveLimit := by
      rw [Settings.text, Text.integerText, String.toList_ofList, Text.trim_integer,
        Text.readInt32_integer]
    exact ⟨{ t with sieveLimit := s.sieveLimit }, by simp only [assign, hread]; rfl, rfl⟩
  | isShiftMode =>
    have hread : readBoolean (trim (s.text .isShiftMode).toList) = some s.isShiftMode := by
      rw [Settings.text]
      cases s.isShiftMode <;> decide +kernel
    exact ⟨{ t with isShiftMode := s.isShiftMode }, by simp only [assign, hread]; rfl, rfl⟩
  | fileNamesToDecrypt =>
    exact ⟨_, rfl, congrArg StoredValue.entries (listEntries_intercalate (hs _ rfl))⟩
  | attempts => exact ⟨_, rfl, congrArg StoredValue.entries (listEntries_intercalate (hs _ rfl))⟩

/-- The text of a setting gives other settings the value of this one. -/
lemma exists_set_text (hvalid : s.IsValid setting) (htidy : (s.value setting).IsTidy)
    (t : Settings) : ∃ next, set setting.name (s.text setting) t = .ok () next ∧
      next.value setting = s.value setting ∧
      ∀ other, other ≠ setting → next.value other = t.value other := by
  obtain ⟨next, hnext, hvalue⟩ := exists_assign_text htidy t
  refine ⟨next, by rw [set_of_check hvalid, hnext], hvalue, ?_⟩
  rcases assign_cases setting (s.text setting) t with ⟨last, hlast, hothers⟩ | ⟨cause, hcause⟩
  · rw [hnext] at hlast
    cases hlast
    exact hothers
  · rw [hnext] at hcause
    cases hcause

/-- The texts of some settings are put into others, one after the other. -/
def restore (s : Settings) : List Setting → Edit
  | [] => pure ()
  | setting :: order => do
    set setting.name (s.text setting)
    restore s order

/-- The settings that are restored have the values of the others, and the rest is as before. -/
lemma exists_restore (hvalid : ∀ setting, s.IsValid setting)
    (htidy : ∀ setting, (s.value setting).IsTidy) (order : List Setting) (t : Settings) :
    ∃ next, restore s order t = .ok () next ∧
      (∀ setting ∈ order, next.value setting = s.value setting) ∧
      ∀ setting ∉ order, next.value setting = t.value setting := by
  induction order generalizing t with
  | nil => exact ⟨t, rfl, nofun, fun setting _ => rfl⟩
  | cons first order ih =>
    obtain ⟨mid, hmid, hfirst, hothers⟩ := exists_set_text (hvalid first) (htidy first) t
    obtain ⟨next, hnext, hrestored, hrest⟩ := ih mid
    refine ⟨next, ?_, fun setting hmem => ?_, fun setting hmem => ?_⟩
    · change EStateM.bind (set first.name (s.text first)) (fun _ => restore s order) t = _
      simp only [EStateM.bind, hmid, hnext]
    · by_cases hlater : setting ∈ order
      · exact hrestored setting hlater
      · -- nothing after the first text touches its setting
        obtain rfl := (List.mem_cons.mp hmem).resolve_right hlater
        rw [hrest setting hlater, hfirst]
    · rw [List.mem_cons, not_or] at hmem
      rw [hrest setting hmem.2, hothers setting hmem.1]

/-- All texts turn any settings into these, in whatever order they are put in. -/
lemma restore_eq (hvalid : ∀ setting, s.IsValid setting)
    (htidy : ∀ setting, (s.value setting).IsTidy) {order : List Setting}
    (horder : order.Perm Setting.all) (t : Settings) : restore s order t = .ok () s := by
  obtain ⟨next, hnext, hrestored, -⟩ := exists_restore hvalid htidy order t
  have hall (setting : Setting) : setting ∈ order :=
    horder.mem_iff.mpr (by cases setting <;> decide)
  have hsame : next = s := Settings.ext_value fun setting => hrestored setting (hall setting)
  rw [hnext, hsame]

end Edit

/-! ### Settings after changes -/

lemma Change.isTidy_leave {s : Settings} (hs : ∀ setting, (s.value setting).IsTidy) (c : Change) :
    ∀ setting, ((c.leave s).value setting).IsTidy := by
  intro setting
  rcases c.edit_cases s with
    ⟨changed, text, htarget, hcheck, next, hnext, -, hothers⟩ | ⟨⟨cause, hcause⟩, -⟩
  · rw [leave, hnext]
    by_cases hsame : setting = changed
    · rw [edit_of_target htarget, Edit.set_of_check hcheck] at hnext
      exact hsame ▸ Edit.isTidy_of_assign hnext
    · exact hothers setting hsame ▸ hs setting
  · rw [leave, hcause]
    exact hs setting

namespace Settings

variable {s t : Settings}

lemma isTidy_default (setting : Setting) : (default.value setting).IsTidy := by
  intro list hlist
  cases setting with
  | fileNamesToDecrypt =>
    cases hlist
    nofun
  | attempts =>
    cases hlist
    have hentries : default.attempts = listEntries Setting.attempts.defaultText := by
      decide +kernel
    rw [hentries]
    exact fun entry hentry => isEntry_of_mem_listEntries hentry
  | gematriaPath | ngramWidth | ngramStatisticsPath | isShiftMode | datafileDirectory | piPath
  | sieveLimit => cases hlist

/-- The texts of the schema turn any settings into those of a new job. -/
theorem set_defaultText (t : Settings) :
    (Setting.all.forM fun setting => Edit.set setting.name setting.defaultText) t =
      .ok () default := by
  simp only [← text_default]
  exact Edit.restore_eq isValid_default isTidy_default (List.Perm.refl _) t

lemma isTidy_after (hs : ∀ setting, (s.value setting).IsTidy) (changes : List Change) :
    ∀ setting, ((s.after changes).value setting).IsTidy := by
  induction changes generalizing s with
  | nil => exact hs
  | cons c changes ih => exact ih (c.isTidy_leave hs)

/-- **Texts of settings give the settings back.** After any changes, the text under a name is
accepted under this name and changes nothing, there is one for every setting, and all of them, in
whatever order, turn the settings that a program starts out with into these. -/
theorem set_text_after (changes : List Change) :
    (∀ name text, (default.after changes).textOf? name = some text →
      Edit.set name text (default.after changes) = .ok () (default.after changes)) ∧
    (∀ setting : Setting, (default.after changes).textOf? setting.name =
      some ((default.after changes).text setting)) ∧
    ∀ order : List Setting, order.Perm Setting.all →
      Edit.restore (default.after changes) order default = .ok () (default.after changes) := by
  have hvalid := isValid_after isValid_default changes
  have htidy := isTidy_after isTidy_default changes
  refine ⟨fun name text htext => ?_, fun setting => ?_, fun order horder => ?_⟩
  · obtain ⟨setting, hname, rfl⟩ := Option.map_eq_some_iff.mp htext
    rw [← Setting.name_of_ofName? hname]
    obtain ⟨next, hnext, hvalue, hothers⟩ :=
      Edit.exists_set_text (hvalid setting) (htidy setting) (default.after changes)
    have hsame : next = default.after changes := ext_value fun other => by
      by_cases hother : other = setting
      · rw [hother, hvalue]
      · rw [hothers other hother]
    rw [hnext, hsame]
  · rw [textOf?, Setting.ofName?_name, Option.map_some]
  · exact Edit.restore_eq hvalid htidy horder default

/-- Entries that lose blanks and commas, a width with a sign, and a limit that is refused. -/
def untidyChanges : List Change :=
  [.set "Attempts" " i,, p\t,", .override " FileNamesToDecrypt =b.txt , a b,",
    .set "NgramWidth" " +4 ", .set "SieveLimit" "2", .override "IsShiftMode= true"]

theorem set_text_after_untidy :
    default.after untidyChanges =
      { default with attempts := ["i", "p"], fileNamesToDecrypt := ["b.txt", "a b"],
                     ngramWidth := 4, isShiftMode := true } ∧
    (default.after untidyChanges).textOf? "FileNamesToDecrypt" = some "b.txt,a b" ∧
    Edit.set "FileNamesToDecrypt" "b.txt,a b" (default.after untidyChanges) =
      .ok () (default.after untidyChanges) ∧
    Setting.all.reverse.Perm Setting.all ∧
    Edit.restore (default.after untidyChanges) Setting.all.reverse default =
      .ok () (default.after untidyChanges) := by
  obtain ⟨hsame, -, hall⟩ := set_text_after untidyChanges
  have htext : (default.after untidyChanges).textOf? "FileNamesToDecrypt" = some "b.txt,a b" := by
    decide +kernel
  have hperm : Setting.all.reverse.Perm Setting.all := List.reverse_perm _
  exact ⟨by decide +kernel, htext, hsame _ _ htext, hperm, hall _ hperm⟩

end Settings

end RuneSolver
