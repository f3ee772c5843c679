import Mathlib.Data.List.Perm.Basic
import RuneSolver.Proofs.Json.RoundTrip
import RuneSolver.Proofs.Settings.Validity
import RuneSolver.Settings.JobFile

/-!
Job files that are read. A value is put into its setting just if it is how a value of this setting
is written; members are put one after another, and those that name no setting are passed over. Main
statement: any text of an object is read as the defaults that its known members overwrite, in
whatever order they come and whatever else comes between them.
-/

namespace RuneSolver

/-! ### Values of a job file -/

namespace Json

/-- A number has the form of one. -/
def IsFormed (v : Json) : Prop := ∀ written, v = .number written → isNumber written = true

variable {v : Json}

lemma text?_eq_some_iff {t : String} : v.text? = some t ↔ v = .ofText t := by
  cases v <;> simp [text?, ofText]

lemma bool?_eq_some_iff {b : Bool} : v.bool? = some b ↔ v = .bool b := by
  cases v <;> simp [bool?]

lemma texts?_eq_some_iff {ts : List String} :
    v.texts? = some ts ↔ v = .array (ts.map ofText) := by
  have helements (vs : List Json) : vs.mapM text? = some ts ↔ vs = ts.map ofText := by
    induction vs generalizing ts with
    | nil => cases ts <;> simp
    | cons v vs ih =>
      rw [List.mapM_cons]
      cases ts with
      | nil => cases htext : v.text? <;> cases hrest : vs.mapM text? <;> simp
      | cons t ts =>
        rw [List.map_cons, List.cons.injEq, ← text?_eq_some_iff, ← ih]
        cases v.text? <;> cases vs.mapM text? <;> simp
  cases v <;> simp [texts?, helements]

end Json

namespace Settings

open Json (ofText IsFormed)

variable {v : Json}

lemma word?_eq_some_iff (hv : v.IsFormed) {n : UInt64} :
    word? v = some n ↔ v = .number (Text.natural n.toNat) := by
  constructor
  · intro h
    unfold word? at h
    split at h
    · next written =>
      split at h
      · next hdigits =>
        cases hread : Text.readWord written with
        | error e => rw [hread] at h; cases h
        | ok m =>
          rw [hread] at h
          cases h
          have hall := (Json.isDigits_iff.mp hdigits).2
          obtain ⟨digits, rfl | rfl, -, -, hvalue⟩ := Text.readWord_eq_ok_iff.mp hread
          · rw [← hvalue, Text.natural_of_isNumber (hv written rfl) hall]
          · exact absurd (hall '+' List.mem_cons_self) (by decide)
      · cases h
    · cases h
  · rintro rfl
    rw [word?, if_pos (Text.isDigits_natural _), Text.readWord_natural]
    rfl

lemma int32?_eq_some_iff (hv : v.IsFormed) {n : Int32} :
    int32? v = some n ↔ v = .number (Text.integer n.toInt) := by
  constructor
  · intro h
    unfold int32? at h
    split at h
    · next written =>
      split at h
      · cases h
      · next hzero =>
        cases hread : Text.readInteger 2147483648 2147483647 written with
        | error e => rw [Text.readInt32, hread] at h; cases h
        | ok i =>
          rw [Text.readInt32, hread] at h
          cases h
          obtain ⟨hinteger, hlow, hhigh⟩ :=
            Text.integer_of_readInteger (hv written rfl) hzero hread
          rw [Int32.toInt_ofInt_of_le (by omega) (by omega), hinteger]
    · cases h
  · rintro rfl
    rw [int32?, if_neg (Text.integer_ne_minus_zero _), Text.readInt32_integer]
    rfl

end Settings

/-- How a value is written in a job file. -/
def StoredValue.json : StoredValue → Json
  | .text content => .ofText content
  | .word number => .number (Text.natural number.toNat)
  | .flag set => .bool set
  | .entries list => .array (list.map .ofText)
  | .int32 number => .number (Text.integer number.toInt)

lemma StoredValue.isFormed_json (x : StoredValue) : x.json.IsFormed := by
  intro written h
  cases x with
  | word number =>
    cases h
    exact Text.isNumber_natural _
  | int32 number =>
    cases h
    exact Text.isNumber_integer _
  | text content => cases h
  | flag set => cases h
  | entries list => cases h

namespace Settings

lemma ext_value {s s' : Settings} (h : ∀ setting, s.value setting = s'.value setting) : s = s' := by
  have hall : ∀ setting ∈ Setting.all, s.value setting = s'.value setting := fun setting _ =>
    h setting
  cases s
  cases s'
  simpa [Setting.all, value] using hall

variable {s next : Settings} {setting : Setting} {v : Json}

/-- A value of a setting can be put into the setting as it is written. -/
lemma exists_put? (s other : Settings) (setting : Setting) :
    ∃ next, s.put? (other.value setting).json setting = some next ∧
      next.value setting = other.value setting := by
  have hform := (other.value setting).isFormed_json
  cases setting with
  | ngramWidth =>
    exact ⟨_, Option.map_eq_some_iff.mpr ⟨_, (word?_eq_some_iff hform).mpr rfl, rfl⟩, rfl⟩
  | fileNamesToDecrypt | attempts =>
    exact ⟨_, Option.map_eq_some_iff.mpr ⟨_, Json.texts?_eq_some_iff.mpr rfl, rfl⟩, rfl⟩
  | sieveLimit =>
    exact ⟨_, Option.map_eq_some_iff.mpr ⟨_, (int32?_eq_some_iff hform).mpr rfl, rfl⟩, rfl⟩
  | gematriaPath | ngramStatisticsPath | isShiftMode | datafileDirectory | piPath =>
    exact ⟨_, rfl, rfl⟩

/-- What has been put into a setting is how its value is written, and all others are as before. -/
lemma value_of_put? (hv : v.IsFormed) (h : s.put? v setting = some next) :
    (next.value setting).json = v ∧
      ∀ other, other ≠ setting → next.value other = s.value other := by
  cases setting with
  | gematriaPath | ngramStatisticsPath | datafileDirectory | piPath =>
    obtain ⟨t, ht, rfl⟩ := Option.map_eq_some_iff.mp h
    refine ⟨(Json.text?_eq_some_iff.mp ht).symm, fun other hne => ?_⟩
    cases other <;> first | rfl | exact absurd rfl hne
  | fileNamesToDecrypt | attempts =>
    obtain ⟨ts, hts, rfl⟩ := Option.map_eq_some_iff.mp h
    refine ⟨(Json.texts?_eq_some_iff.mp hts).symm, fun other hne => ?_⟩
    cases other <;> first | rfl | exact absurd rfl hne
  | ngramWidth =>
    obtain ⟨n, hn, rfl⟩ := Option.map_eq_some_iff.mp h
    refine ⟨((word?_eq_some_iff hv).mp hn).symm, fun other hne => ?_⟩
    cases other <;> first | rfl | exact absurd rfl hne
  | isShiftMode =>
    obtain ⟨b, hb, rfl⟩ := Option.map_eq_some_iff.mp h
    refine ⟨(Json.bool?_eq_some_iff.mp hb).symm, fun other hne => ?_⟩
    cases other <;> first | rfl | exact absurd rfl hne
  | sieveLimit =>
    obtain ⟨n, hn, rfl⟩ := Option.map_eq_some_iff.mp h
    refine ⟨((int32?_eq_some_iff hv).mp hn).symm, fun other hne => ?_⟩
    cases other <;> first | rfl | exact absurd rfl hne

/-- Different values of a setting are written in different ways. -/
lemma value_eq_of_json {s s' : Settings} {setting : Setting}
    (h : (s.value setting).json = (s'.value setting).json) :
    s.value setting = s'.value setting := by
  obtain ⟨next, hput, hvalue⟩ := exists_put? default s setting
  obtain ⟨next', hput', hvalue'⟩ := exists_put? default s' setting
  rw [h, hput', Option.some.injEq] at hput
  rw [← hvalue, ← hput, hvalue']

/-! ### Members of an object -/

/-- The members of an object that name settings. -/
def knownMembers (ms : List (String × Json)) : List (Setting × Json) :=
  ms.filterMap fun m => (Setting.ofName? m.1).map (·, m.2)

/-- Each setting comes at most once and with a value that is one of its own. -/
structure WellFormed (known : List (Setting × Json)) : Prop where
  once : (known.map Prod.fst).Nodup
  typed : ∀ m ∈ known, ∃ s : Settings, (s.value m.1).json = m.2

/-- The settings are others that are overwritten by what is given. -/
def Overwrites (next s : Settings) (known : List (Setting × Json)) : Prop :=
  ∀ setting : Setting, (∀ v, (setting, v) ∈ known → (next.value setting).json = v) ∧
    (setting ∉ known.map Prod.fst → next.value setting = s.value setting)

lemma overwrites_nil_iff : next.Overwrites s [] ↔ next = s := by
  constructor
  · exact fun h => ext_value fun setting => (h setting).2 List.not_mem_nil
  · rintro rfl setting
    exact ⟨fun v hv => absurd hv List.not_mem_nil, fun _ => rfl⟩

/-- The first of some settings is overwritten before the others, if it is none of them. -/
lemma overwrites_cons_iff {first : Settings} {known : List (Setting × Json)}
    (hnew : setting ∉ known.map Prod.fst) (hfirst : (first.value setting).json = v)
    (hothers : ∀ other, other ≠ setting → first.value other = s.value other) :
    next.Overwrites s ((setting, v) :: known) ↔ next.Overwrites first known := by
  constructor
  · intro h other
    refine ⟨fun w hw => (h other).1 w (.tail _ hw), fun hother => ?_⟩
    by_cases hsame : other = setting
    · rw [hsame]
      exact value_eq_of_json (((h setting).1 v List.mem_cons_self).trans hfirst.symm)
    · rw [hothers other hsame]
      exact (h other).2 (List.not_mem_cons_of_ne_of_not_mem hsame hother)
  · intro h other
    refine ⟨fun w hw => ?_, fun hother => ?_⟩
    · rcases List.mem_cons.mp hw with heq | hw
      · cases heq
        rw [(h setting).2 hnew]
        exact hfirst
      · exact (h other).1 w hw
    · obtain ⟨hne, hother⟩ := List.ne_and_not_mem_of_not_mem_cons hother
      rw [(h other).2 hother, hothers other hne]

/-- **Members are put into settings** just if no setting comes twice and every value is one of its
setting. -/
lemma putMembers?_eq_some_iff {given : List Setting} {ms : List (String × Json)}
    (hforms : ∀ m ∈ ms, m.2.IsFormed) :
    putMembers? given s (ms.map fun m => (some m.1, m.2)) = some next ↔
      WellFormed (knownMembers ms) ∧
        (∀ setting ∈ given, setting ∉ (knownMembers ms).map Prod.fst) ∧
        next.Overwrites s (knownMembers ms) := by
  induction ms generalizing given s with
  | nil =>
    have hnil : WellFormed [] := ⟨List.nodup_nil, fun _ h => absurd h List.not_mem_nil⟩
    simp [putMembers?, knownMembers, hnil, overwrites_nil_iff, eq_comm]
  | cons m ms ih =>
    obtain ⟨key, v⟩ := m
    obtain ⟨hform, hforms⟩ := List.forall_mem_cons.mp hforms
    cases hname : Setting.ofName? key with
    | none =>
      have hknown : knownMembers ((key, v) :: ms) = knownMembers ms := by
        simp [knownMembers, hname]
      simp only [List.map_cons, putMembers?, hname, hknown]
      exact ih hforms
    | some setting =>
      have hknown : knownMembers ((key, v) :: ms) = (setting, v) :: knownMembers ms := by
        simp [knownMembers, hname]
      simp only [List.map_cons, putMembers?, hname, hknown]
      by_cases hgiven : setting ∈ given
      · rw [if_pos hgiven]
        constructor
        · exact fun h => nomatch h
        · exact fun h => absurd List.mem_cons_self (h.2.1 setting hgiven)
      · rw [if_neg hgiven, Option.bind_eq_some_iff]
        constructor
        · rintro ⟨first, hfirst, hrest⟩
          obtain ⟨hwell, hnew, hover⟩ := (ih hforms).mp hrest
          obtain ⟨hvalue, hothers⟩ := value_of_put? hform hfirst
          obtain ⟨hsetting, hnew⟩ := List.forall_mem_cons.mp hnew
          refine ⟨⟨List.nodup_cons.mpr ⟨hsetting, hwell.once⟩,
            List.forall_mem_cons.mpr ⟨⟨first, hvalue⟩, hwell.typed⟩⟩, fun g hg => ?_,
            (overwrites_cons_iff hsetting hvalue hothers).mpr hover⟩
          refine List.not_mem_cons_of_ne_of_not_mem ?_ (hnew g hg)
          rintro rfl
          exact hgiven hg
        · rintro ⟨hwell, hnew, hover⟩
          obtain ⟨hsetting, honce⟩ := List.nodup_cons.mp hwell.once
          obtain ⟨first, hfirst, -⟩ := exists_put? s next setting
          rw [(hover setting).1 v List.mem_cons_self] at hfirst
          obtain ⟨hvalue, hothers⟩ := value_of_put? hform hfirst
          refine ⟨first, hfirst, (ih hforms).mpr ⟨⟨honce, fun m hm => hwell.typed m (.tail _ hm)⟩,
            List.forall_mem_cons.mpr ⟨hsetting, fun g hg => ?_⟩,
            (overwrites_cons_iff hsetting hvalue hothers).mp hover⟩⟩
          exact (List.ne_and_not_mem_of_not_mem_cons (hnew g hg)).2

/-! ### Job files -/

variable {known known' : List (Setting × Json)}

lemma exists_overwrites (h : WellFormed known) (s : Settings) :
    ∃ next : Settings, next.Overwrites s known := by
  induction known generalizing s with
  | nil => exact ⟨s, overwrites_nil_iff.mpr rfl⟩
  | cons m known ih =>
    obtain ⟨setting, v⟩ := m
    obtain ⟨hnew, honce⟩ := List.nodup_cons.mp h.once
    obtain ⟨⟨source, hsource⟩, htyped⟩ := List.forall_mem_cons.mp h.typed
    obtain ⟨first, hfirst, -⟩ := exists_put? s source setting
    obtain ⟨hvalue, hothers⟩ := value_of_put? (source.value setting).isFormed_json hfirst
    rw [hsource] at hvalue
    obtain ⟨next, hnext⟩ := ih ⟨honce, htyped⟩ first
    exact ⟨next, (overwrites_cons_iff hnew hvalue hothers).mpr hnext⟩

/-- There is one way to overwrite settings. -/
lemma Overwrites.unique {other : Settings} (h : next.Overwrites s known)
    (hother : other.Overwrites s known) : other = next := by
  refine ext_value fun setting => ?_
  by_cases hmem : setting ∈ known.map Prod.fst
  · obtain ⟨⟨_, v⟩, hv, rfl⟩ := List.mem_map.mp hmem
    exact value_eq_of_json (((hother _).1 v hv).trans ((h _).1 v hv).symm)
  · rw [(h setting).2 hmem, (hother setting).2 hmem]

/-- The order of what is given has no part in it. -/
lemma WellFormed.perm (h : WellFormed known) (hperm : known.Perm known') : WellFormed known' :=
  ⟨(hperm.map Prod.fst).nodup_iff.mp h.once, fun m hm => h.typed m (hperm.mem_iff.mpr hm)⟩

lemma Overwrites.perm (h : next.Overwrites s known) (hperm : known.Perm known') :
    next.Overwrites s known' := by
  intro setting
  refine ⟨fun v hv => (h setting).1 v (hperm.mem_iff.mpr hv), fun hnew => (h setting).2 ?_⟩
  exact fun hmem => hnew ((hperm.map Prod.fst).mem_iff.mp hmem)

/-- An object is read as the defaults that its known members overwrite. -/
lemma ofJson?_ofMembers {ms : List (String × Json)} (hforms : ∀ m ∈ ms, m.2.IsFormed) :
    ofJson? (.ofMembers ms) = some next ↔
      WellFormed (knownMembers ms) ∧ next.Overwrites default (knownMembers ms) := by
  have hmembers : ofJson? (.ofMembers ms) =
      putMembers? [] default (ms.map fun m => (some m.1, m.2)) := rfl
  rw [hmembers, putMembers?_eq_some_iff hforms]
  simp

lemma isFormed_of_writes {cs : List Char} {ms : List (String × Json)}
    (h : Json.Writes cs (.ofMembers ms)) : ∀ m ∈ ms, m.2.IsFormed := by
  intro m hm written hwritten
  obtain ⟨ds, hds⟩ := h.members (some m.1, m.2) (List.mem_map.mpr ⟨m, hm, rfl⟩)
  rw [hwritten] at hds
  exact Json.isNumber_iff.mpr hds.numberText

/-- **A job file is read as the defaults that its known members overwrite**, whatever else is in it
and however it is written. The settings are refused for the first of them that is not valid; a file
that gives a setting twice, or a value that is none of its setting, is no job file. -/
theorem parse_of_writes {source : String} {ms : List (String × Json)}
    (h : Json.Writes source.toList (.ofMembers ms)) :
    (WellFormed (knownMembers ms) →
      ∃ s : Settings, s.Overwrites default (knownMembers ms) ∧
        (∀ other : Settings, other.Overwrites default (knownMembers ms) → other = s) ∧
        ((∀ setting, s.IsValid setting) → parse source = .ok s) ∧
        ∀ before setting after cause, Setting.all = before ++ setting :: after →
          (∀ earlier ∈ before, s.IsValid earlier) →
          setting.check (s.text setting) = .error cause →
          parse source = .error (.invalid setting cause)) ∧
    (¬WellFormed (knownMembers ms) → parse source = .error .notJobFile) ∧
    ∀ (other : String) (others : List (String × Json)),
      Json.Writes other.toList (.ofMembers others) →
      (knownMembers ms).Perm (knownMembers others) → parse other = parse source := by
  have hforms := isFormed_of_writes h
  refine ⟨fun hwell => ?_, fun hwell => ?_, fun other others hother hperm => ?_⟩
  · obtain ⟨s, hs⟩ := exists_overwrites hwell default
    have hparse : parse source = s.validate.map fun _ => s := by
      rw [parse, Json.parse?_of_writes h, Option.bind_some,
        (ofJson?_ofMembers hforms).mpr ⟨hwell, hs⟩]
    refine ⟨s, hs, fun other hother => hs.unique hother, fun hvalid => ?_,
      fun before setting after cause hall hbefore hcheck => ?_⟩
    · rw [hparse, validate_eq_ok_iff.mpr hvalid]
      rfl
    · rw [hparse, validate, hall, validateFrom_append hbefore, validateFrom, hcheck]
      rfl
  · have hnone : ofJson? (.ofMembers ms) = none := by
      rw [Option.eq_none_iff_forall_ne_some]
      exact fun s hs => hwell ((ofJson?_ofMembers hforms).mp hs).1
    rw [parse, Json.parse?_of_writes h, Option.bind_some, hnone]
  · have hsame : ofJson? (.ofMembers others) = ofJson? (.ofMembers ms) := by
      refine Option.ext fun s => ?_
      rw [ofJson?_ofMembers hforms, ofJson?_ofMembers (isFormed_of_writes hother)]
      exact ⟨fun h => ⟨h.1.perm hperm.symm, h.2.perm hperm.symm⟩,
        fun h => ⟨h.1.perm hperm, h.2.perm hperm⟩⟩
    rw [parse, parse, Json.parse?_of_writes h, Json.parse?_of_writes hother, Option.bind_some,
      Option.bind_some, hsame]

/-! ### A job file in another form -/

section Noted

open Json (Blanks MemberText StringText UnitText Writes)

/-- Two settings out of order, one of them under an escaped name, and a note with half of a
surrogate pair in it. -/
def notedFile : String :=
  "\t\x7b \"SieveLimit\" :97,\n\"note\": [null, \"\\ud800\"] , \"\\u0050iPath\":\"\"\x7d\r\n"

def notedMembers : List (String × Json) :=
  [("SieveLimit", .number ['9', '7']), ("note", .array [.null, .string none]),
    ("PiPath", .ofText "")]

lemma blanks_space : Blanks [' '] := by simp [Blanks]

lemma writes_note : Writes " [null, \"\\ud800\"] ".toList (.array [.null, .string none]) := by
  have hhalf : StringText "\"\\ud800\"".toList none := by
    have hpieces : ∀ piece ∈ [("\\ud800".toList, 0xd800)], UnitText piece.1 piece.2 := by
      refine List.forall_mem_singleton.mpr ?_
      exact UnitText.hexadecimal (i := 13) (j := 8) (k := 0) (l := 0) (.inl rfl) (.inl rfl)
        (.inl rfl) (.inl rfl)
    exact ⟨_, hpieces, (Json.text_eq_iff hpieces).mp (by decide), by decide⟩
  have helements : ∀ element ∈ [(['n', 'u', 'l', 'l'], Json.null),
      ([' '] ++ "\"\\ud800\"".toList ++ [], .string none)], Writes element.1 element.2 := by
    refine List.forall_mem_cons.mpr ⟨.null, List.forall_mem_singleton.mpr ?_⟩
    exact (Writes.string hhalf).padded blanks_space Json.blanks_nil
  exact ((Writes.array helements Json.blanks_nil).padded blanks_space blanks_space)

lemma stringText_escapedName : StringText "\"\\u0050iPath\"".toList (some "PiPath") := by
  have hplain : ∀ c ∈ ['i', 'P', 'a', 't', 'h'], c ≠ '"' ∧ c ≠ '\\' ∧ 0x20 ≤ c.toNat := by simp
  have hpieces : ∀ piece ∈ ("\\u0050".toList, 0x50) ::
      ['i', 'P', 'a', 't', 'h'].map fun c => ([c], c.toNat), UnitText piece.1 piece.2 := by
    refine List.forall_mem_cons.mpr ⟨?_, fun piece hpiece => ?_⟩
    · exact UnitText.hexadecimal (i := 0) (j := 0) (k := 5) (l := 0) (.inl rfl) (.inl rfl)
        (.inl rfl) (.inl rfl)
    · obtain ⟨c, hc, rfl⟩ := List.mem_map.mp hpiece
      exact .plain (hplain c hc).1 (hplain c hc).2.1 (hplain c hc).2.2
  exact ⟨_, hpieces, (Json.text_eq_iff hpieces).mp (by decide), by decide⟩

/-- The members as they are written. -/
def notedTexts : List MemberText :=
  [⟨[' '], Json.quotedText (some "SieveLimit"), some "SieveLimit", [' '], ['9', '7'],
      .number ['9', '7']⟩,
    ⟨['\n'], Json.quotedText (some "note"), some "note", [], " [null, \"\\ud800\"] ".toList,
      .array [.null, .string none]⟩,
    ⟨[' '], "\"\\u0050iPath\"".toList, some "PiPath", [], Json.quotedText (some ""), .ofText ""⟩]

lemma writes_notedFile : Writes notedFile.toList (.ofMembers notedMembers) := by
  have hkeys : ∀ m ∈ notedTexts, m.HasKey := by
    simp only [notedTexts, List.forall_mem_cons, List.not_mem_nil, false_implies, implies_true,
      and_true]
    exact ⟨⟨blanks_space, Json.stringText_quotedText rfl, blanks_space⟩,
      ⟨by simp [Blanks], Json.stringText_quotedText rfl, Json.blanks_nil⟩,
      ⟨blanks_space, stringText_escapedName, Json.blanks_nil⟩⟩
  have hvalues : ∀ m ∈ notedTexts, Writes m.valueText m.value := by
    simp only [notedTexts, List.forall_mem_cons, List.not_mem_nil, false_implies, implies_true,
      and_true]
    exact ⟨.number (Json.isNumber_iff.mp rfl), writes_note,
      .string (Json.stringText_quotedText rfl)⟩
  have hbefore : Blanks ['\t'] := by simp [Blanks]
  have hafter : Blanks ['\r', '\n'] := by simp [Blanks]
  exact (Writes.object hkeys hvalues Json.blanks_nil).padded hbefore hafter

end Noted

/-- The settings that it gives are valid with the other ones as they are by default. -/
theorem parse_notedFile :
    Json.Writes notedFile.toList (.ofMembers notedMembers) ∧
      WellFormed (knownMembers notedMembers) ∧
      parse notedFile = .ok { default with sieveLimit := 97, piPath := "" } := by
  have hknown : knownMembers notedMembers =
      [(.sieveLimit, .number ['9', '7']), (.piPath, .ofText "")] := rfl
  have hover : Overwrites { default with sieveLimit := 97, piPath := "" } default
      (knownMembers notedMembers) := by
    rw [hknown]
    intro setting
    refine ⟨fun v hv => ?_, fun hnew => ?_⟩
    · rcases List.mem_cons.mp hv with heq | hv
      · cases heq
        rfl
      · cases List.mem_singleton.mp hv
        rfl
    · cases setting <;> first | rfl | exact absurd (by decide) hnew
  have hwell : WellFormed (knownMembers notedMembers) := by
    refine ⟨by rw [hknown]; decide, fun m hm => ⟨_, (hover m.1).1 m.2 hm⟩⟩
  obtain ⟨s, -, hunique, hvalid, -⟩ := (parse_of_writes writes_notedFile).1 hwell
  refine ⟨writes_notedFile, hwell, ?_⟩
  rw [hunique _ hover]
  refine hvalid fun setting => ?_
  rw [← hunique _ hover]
  cases setting <;> decide +kernel

end Settings

end RuneSolver
