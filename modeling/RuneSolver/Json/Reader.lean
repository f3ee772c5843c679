import RuneSolver.Json.Token
import RuneSolver.Json.Value

/-!
The value of a sequence of JSON tokens, read in one pass. Values may nest to any depth: those
that are still open wait in a stack, and a value that is complete is handed to the innermost of
them.
-/

namespace RuneSolver.Json

abbrev Members := List (Option String × Json)

/-- An open array or object that waits for a value. What it has so far is kept from the last to
the first. -/
inductive Frame where
  | element (before : List Json)
  | member (before : Members) (key : Option String)

/-- What a reading expects next. -/
inductive Reading where
  | value (outer : List Frame)
  | firstElement (outer : List Frame)
  | firstKey (outer : List Frame)
  | nextKey (before : Members) (outer : List Frame)
  | keyColon (before : Members) (key : Option String) (outer : List Frame)
  | afterElement (elements : List Json) (outer : List Frame)
  | afterMember (members : Members) (outer : List Frame)
  | finished (value : Json)

namespace Reading

/-- Hands a complete value to the innermost open one. -/
def deliver (v : Json) : List Frame → Reading
  | [] => .finished v
  | .element before :: outer => .afterElement (v :: before) outer
  | .member before key :: outer => .afterMember ((key, v) :: before) outer

/-- A token that starts a value, or is one. -/
def begin? (outer : List Frame) : Token → Option Reading
  | .null => some (deliver .null outer)
  | .bool b => some (deliver (.bool b) outer)
  | .number written => some (deliver (.number written) outer)
  | .string text => some (deliver (.string text) outer)
  | .arrayOpen => some (.firstElement outer)
  | .objectOpen => some (.firstKey outer)
  | _ => none

def step : Reading → Token → Option Reading
  | .value outer, token => begin? outer token
  | .firstElement outer, .arrayClose => some (deliver (.array []) outer)
  | .firstElement outer, token => begin? (.element [] :: outer) token
  | .firstKey outer, .objectClose => some (deliver (.object []) outer)
  | .firstKey outer, .string key => some (.keyColon [] key outer)
  | .nextKey before outer, .string key => some (.keyColon before key outer)
  | .keyColon before key outer, .colon => some (.value (.member before key :: outer))
  | .afterElement elements outer, .comma => some (.value (.element elements :: outer))
  | .afterElement elements outer, .arrayClose =>
    some (deliver (.array elements.reverse) outer)
  | .afterMember members outer, .comma => some (.nextKey members outer)
  | .afterMember members outer, .objectClose =>
    some (deliver (.object members.reverse) outer)
  | _, _ => none

/-- The reading after some tokens, unless one of them is not expected. -/
def run : Reading → List Token → Option Reading
  | r, [] => some r
  | r, token :: tokens => (r.step token).bind fun next => run next tokens

@[simp] theorem run_nil (r : Reading) : r.run [] = some r := rfl

@[simp] theorem run_cons (r : Reading) (token : Token) (tokens : List Token) :
    r.run (token :: tokens) = (r.step token).bind fun next => next.run tokens := rfl

end Reading

/-- The value that tokens spell, if they spell exactly one. -/
def ofTokens? (tokens : List Token) : Option Json :=
  match Reading.run (.value []) tokens with
  | some (.finished v) => some v
  | _ => none

/-- The value of a text. -/
def parse? (source : String) : Option Json := (tokens? source.toList).bind ofTokens?

end RuneSolver.Json
