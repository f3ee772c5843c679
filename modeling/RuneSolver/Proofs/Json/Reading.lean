import RuneSolver.Json.Reader
import RuneSolver.Proofs.Json.Scan

/-!
JSON texts that are read. Whatever writes a value spells its tokens, with blanks between them;
reading these tokens hands the value to whatever waits for it. Main statement: every text that
writes a value by the grammar is read as this value, however deep it nests and whatever half
surrogate pairs its strings and its inner keys have.
-/

namespace RuneSolver.Json

mutual

/-- The tokens of a value. -/
def spelling : Json → List Token
  | .null => [.null]
  | .bool b => [.bool b]
  | .number written => [.number written]
  | .string text => [.string text]
  | .array [] => [.arrayOpen, .arrayClose]
  | .array (first :: rest) =>
    .arrayOpen :: spelling first ++ elementsSpelling rest ++ [.arrayClose]
  | .object [] => [.objectOpen, .objectClose]
  | .object ((key, first) :: rest) =>
    .objectOpen :: .string key :: .colon :: spelling first ++ membersSpelling rest ++
      [.objectClose]

/-- The tokens of the elements after the first. -/
def elementsSpelling : List Json → List Token
  | [] => []
  | v :: vs => .comma :: spelling v ++ elementsSpelling vs

/-- The tokens of the members after the first. -/
def membersSpelling : Members → List Token
  | [] => []
  | (key, v) :: rest => .comma :: .string key :: .colon :: spelling v ++ membersSpelling rest

end

variable {cs blanks : List Char} {read : List Token}

/-! ### Tokens -/

/-- Elements that are spelled one by one are spelled together behind what comes before. -/
lemma spells_elements {elements : List (List Char × Json)}
    (h : ∀ element ∈ elements, Spells element.1 (spelling element.2)) (hcs : Spells cs read) :
    Spells (cs ++ elements.flatMap fun element => ',' :: element.1)
      (read ++ elementsSpelling (elements.map Prod.snd)) := by
  induction elements generalizing cs read with
  | nil => simpa [elementsSpelling] using hcs
  | cons element elements ih =>
    obtain ⟨helement, helements⟩ := List.forall_mem_cons.mp h
    have hpiece := (closes_punctuation (c := ',') rfl).append_spells helement
    simpa [elementsSpelling] using ih helements (hcs.append_cons hpiece (by decide))

lemma MemberText.spells {m : MemberText} (hkey : m.HasKey)
    (hvalue : Spells m.valueText (spelling m.value)) :
    Spells m.text (.string m.key :: .colon :: spelling m.value) := by
  have hstart := ((closes_blanks hkey.before).append (closes_string hkey.keyText)).append
    (closes_blanks hkey.after)
  simpa [MemberText.text] using
    (hstart.append (closes_punctuation (c := ':') rfl)).append_spells hvalue

lemma spells_members {ms : List MemberText} (hkeys : ∀ m ∈ ms, m.HasKey)
    (h : ∀ m ∈ ms, Spells m.valueText (spelling m.value)) (hcs : Spells cs read) :
    Spells (cs ++ ms.flatMap fun m => ',' :: m.text)
      (read ++ membersSpelling (ms.map MemberText.member)) := by
  induction ms generalizing cs read with
  | nil => simpa [membersSpelling] using hcs
  | cons m ms ih =>
    obtain ⟨hkey, hkeys⟩ := List.forall_mem_cons.mp hkeys
    obtain ⟨hvalue, h⟩ := List.forall_mem_cons.mp h
    have hpiece := (closes_punctuation (c := ',') rfl).append_spells (m.spells hkey hvalue)
    simpa [membersSpelling, MemberText.member] using
      ih hkeys h (hcs.append_cons hpiece (by decide))

/-- Between two brackets, with blanks before the closing one. -/
lemma closes_bracketed (opening closing : Char) {first last : Token}
    (hopening : punctuation? opening = some first) (hclosing : punctuation? closing = some last)
    (hbreaks : Breaks closing) (h : Spells cs read) (hblanks : Blanks blanks) :
    Closes (opening :: (cs ++ (blanks ++ [closing]))) (first :: (read ++ [last])) := by
  have hall := ((closes_punctuation hopening).append_spells
    (h.append_blanks hblanks)).append_cons_closes (closes_punctuation hclosing) hbreaks
  simpa using hall

/-- **A text that writes a value spells its tokens.** -/
theorem Writes.spells {v : Json} (h : Writes cs v) : Spells cs (spelling v) := by
  have hnil : Spells [] [] := fun _ => ⟨_, rfl, rfl⟩
  induction h with
  | null => exact fun _ => ⟨_, rfl, rfl⟩
  | true => exact fun _ => ⟨_, rfl, rfl⟩
  | false => exact fun _ => ⟨_, rfl, rfl⟩
  | number h => exact spells_number (isNumber_iff.mpr h)
  | string h => exact (closes_string h).spells
  | emptyArray h => exact (closes_bracketed '[' ']' rfl rfl (by decide) hnil h).spells
  | @array first rest blanks h hblanks ih =>
    obtain ⟨hfirst, hrest⟩ := List.forall_mem_cons.mp ih
    have hall := closes_bracketed '[' ']' rfl rfl (by decide)
      (spells_elements hrest hfirst) hblanks
    simpa [spelling] using hall.spells
  | emptyObject h => exact (closes_bracketed '\x7b' '\x7d' rfl rfl (by decide) hnil h).spells
  | @object first rest blanks hkeys hvalues hblanks ih =>
    obtain ⟨hkey, hkeys⟩ := List.forall_mem_cons.mp hkeys
    obtain ⟨hfirst, hrest⟩ := List.forall_mem_cons.mp ih
    have hall := closes_bracketed '\x7b' '\x7d' rfl rfl (by decide)
      (spells_members hkeys hrest (first.spells hkey hfirst)) hblanks
    simpa [spelling, MemberText.member] using hall.spells
  | padded hbefore h hafter ih =>
    exact ((closes_blanks hbefore).append_spells ih).append_blanks hafter

/-! ### Values -/

namespace Reading

lemma run_append (r : Reading) (first second : List Token) :
    r.run (first ++ second) = (r.run first).bind fun next => next.run second := by
  induction first generalizing r with
  | nil => rfl
  | cons token first ih =>
    simp only [List.cons_append, run_cons, Option.bind_assoc]
    exact congrArg _ (funext fun next => ih next)

/-- The tokens of the value hand it to what waits for a value. -/
def Delivers (v : Json) : Prop :=
  ∀ outer, run (.value outer) (spelling v) = some (deliver v outer)

/-- The first element of an array is read like any other value. -/
lemma run_firstElement {v : Json} (h : Delivers v) (outer : List Frame) :
    run (.firstElement outer) (spelling v) = some (.afterElement [v] outer) := by
  have hsame : ∀ token rest, token ≠ .arrayClose →
      run (.firstElement outer) (token :: rest) =
        run (.value (.element [] :: outer)) (token :: rest) := by
    intro token rest hne
    cases token <;> first | rfl | exact absurd rfl hne
  have hfirst : ∃ token rest, spelling v = token :: rest ∧ token ≠ .arrayClose := by
    cases v with
    | array elements => cases elements <;> exact ⟨_, _, rfl, by simp⟩
    | object members => cases members <;> exact ⟨_, _, rfl, by simp⟩
    | _ => exact ⟨_, _, rfl, by simp⟩
  obtain ⟨token, rest, hspelling, hne⟩ := hfirst
  have hvalue := h (.element [] :: outer)
  rw [hspelling] at hvalue ⊢
  rw [hsame token rest hne, hvalue]
  rfl

lemma run_elements {vs : List Json} (h : ∀ v ∈ vs, Delivers v) (before : List Json)
    (outer : List Frame) :
    run (.afterElement before outer) (elementsSpelling vs) =
      some (.afterElement (vs.reverse ++ before) outer) := by
  induction vs generalizing before with
  | nil => rfl
  | cons v vs ih =>
    have hcomma : step (.afterElement before outer) .comma =
        some (.value (.element before :: outer)) := rfl
    rw [elementsSpelling, List.cons_append, run_cons, hcomma, Option.bind_some, run_append,
      h v List.mem_cons_self, Option.bind_some]
    have hrest := ih (fun w hw => h w (List.mem_cons_of_mem v hw)) (v :: before)
    simpa [deliver] using hrest

lemma run_members {ms : Members} (h : ∀ m ∈ ms, Delivers m.2) (before : Members)
    (outer : List Frame) :
    run (.afterMember before outer) (membersSpelling ms) =
      some (.afterMember (ms.reverse ++ before) outer) := by
  induction ms generalizing before with
  | nil => rfl
  | cons m ms ih =>
    obtain ⟨key, v⟩ := m
    have hkey (rest : List Token) :
        run (.afterMember before outer) (.comma :: .string key :: .colon :: rest) =
          run (.value (.member before key :: outer)) rest := rfl
    rw [membersSpelling, List.cons_append, List.cons_append, List.cons_append, hkey, run_append,
      h (key, v) List.mem_cons_self, Option.bind_some]
    have hrest := ih (fun m hm => h m (List.mem_cons_of_mem _ hm)) ((key, v) :: before)
    simpa [deliver] using hrest

lemma delivers_array {elements : List Json} (h : ∀ v ∈ elements, Delivers v) :
    Delivers (.array elements) := by
  intro outer
  cases elements with
  | nil => rfl
  | cons first rest =>
    obtain ⟨hfirst, hrest⟩ := List.forall_mem_cons.mp h
    have hopen : step (.value outer) .arrayOpen = some (.firstElement outer) := rfl
    have hclose (vs : List Json) : run (.afterElement vs outer) [.arrayClose] =
        some (deliver (.array vs.reverse) outer) := rfl
    rw [spelling, List.cons_append, List.cons_append, run_cons, hopen, Option.bind_some,
      run_append, run_append, run_firstElement hfirst, Option.bind_some, run_elements hrest,
      Option.bind_some, hclose]
    simp

lemma delivers_object {members : Members} (h : ∀ m ∈ members, Delivers m.2) :
    Delivers (.object members) := by
  intro outer
  cases members with
  | nil => rfl
  | cons m rest =>
    obtain ⟨key, first⟩ := m
    obtain ⟨hfirst, hrest⟩ := List.forall_mem_cons.mp h
    have hopen (tokens : List Token) :
        run (.value outer) (.objectOpen :: .string key :: .colon :: tokens) =
          run (.value (.member [] key :: outer)) tokens := rfl
    have hclose (ms : Members) : run (.afterMember ms outer) [.objectClose] =
        some (deliver (.object ms.reverse) outer) := rfl
    simp only [spelling, List.cons_append]
    rw [hopen, run_append, run_append, hfirst, Option.bind_some, deliver, run_members hrest,
      Option.bind_some, hclose]
    simp

/-- **The tokens of a value are read as the value.** -/
theorem delivers : (v : Json) → Delivers v
  | .null => fun _ => rfl
  | .bool _ => fun _ => rfl
  | .number _ => fun _ => rfl
  | .string _ => fun _ => rfl
  | .array _ => delivers_array fun v _ => delivers v
  | .object _ => delivers_object fun m _ => delivers m.2
termination_by v => sizeOf v
decreasing_by
  · next hv =>
    have hlt := List.sizeOf_lt_of_mem hv
    rw [array.sizeOf_spec]
    omega
  · next hm =>
    have hlt := List.sizeOf_lt_of_mem hm
    have hmember : sizeOf m = 1 + sizeOf m.1 + sizeOf m.2 := rfl
    rw [object.sizeOf_spec]
    omega

end Reading

/-- **JSON texts are read as the values that they write.** -/
theorem parse?_of_writes {source : String} {v : Json} (h : Writes source.toList v) :
    parse? source = some v := by
  rw [parse?, h.spells.tokens, Option.bind_some, ofTokens?, Reading.delivers v []]
  rfl

end RuneSolver.Json
