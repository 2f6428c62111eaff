import CssTokens.Json.Mark

/-!
# JSON values

The values that JSON text stands for. Members of objects keep their order and may be repeated; what
that means is up to the reader of the object.

Marks are put together by a machine that keeps the arrays and objects which have been opened and not
closed, so it takes each mark once, however deeply the values are nested.
-/

namespace CssTokens

/-- A JSON value. -/
inductive JsonValue where
  | null
  | bool (b : Bool)
  | number (n : Numeral)
  | string (cs : List JsonChar)
  | array (items : List JsonValue)
  | object (members : List (List JsonChar × JsonValue))
  deriving Inhabited

namespace JsonValue

/-- An array or object that has been opened. Items and members are in reverse order. -/
inductive Frame where
  | array (items : List JsonValue)
  /-- The value of the member with this key is being read. -/
  | object (key : List JsonChar) (members : List (List JsonChar × JsonValue))

/-- What the machine has just taken, or may take next. -/
inductive State where
  /-- A value must come. -/
  | value
  /-- A value must come, or the end of the array. -/
  | itemOrEnd
  /-- A key must come, for an object with these members so far. -/
  | key (members : List (List JsonChar × JsonValue))
  /-- A key must come, or the end of the object. -/
  | keyOrEnd
  /-- The colon after a key must come. -/
  | colon (key : List JsonChar) (members : List (List JsonChar × JsonValue))
  /-- This value is complete. -/
  | done (v : JsonValue)

/-- Take a mark that starts a value. -/
def startValue (frames : List Frame) (mark : JsonMark) : Option (State × List Frame) :=
  match mark with
  | .null => some (.done .null, frames)
  | .bool b => some (.done (.bool b), frames)
  | .number n => some (.done (.number n), frames)
  | .string cs => some (.done (.string cs), frames)
  | .openArray => some (.itemOrEnd, .array [] :: frames)
  | .openObject => some (.keyOrEnd, frames)
  | _ => none

/-- Take a mark after a value that is complete. -/
def afterValue (v : JsonValue) (frames : List Frame) (mark : JsonMark) :
    Option (State × List Frame) :=
  match frames, mark with
  | .array items :: frames, .comma => some (.value, .array (v :: items) :: frames)
  | .array items :: frames, .closeArray => some (.done (.array (v :: items).reverse), frames)
  | .object key members :: frames, .comma => some (.key ((key, v) :: members), frames)
  | .object key members :: frames, .closeObject =>
    some (.done (.object ((key, v) :: members).reverse), frames)
  | _, _ => none

/-- Take a mark. -/
def step (state : State × List Frame) (mark : JsonMark) : Option (State × List Frame) :=
  match state, mark with
  | (.value, frames), mark => startValue frames mark
  | (.itemOrEnd, .array [] :: frames), .closeArray => some (.done (.array []), frames)
  | (.itemOrEnd, frames), mark => startValue frames mark
  | (.keyOrEnd, frames), .closeObject => some (.done (.object []), frames)
  | (.keyOrEnd, frames), .string key => some (.colon key [], frames)
  | (.key members, frames), .string key => some (.colon key members, frames)
  | (.colon key members, frames), .colon => some (.value, .object key members :: frames)
  | (.done v, frames), mark => afterValue v frames mark
  | _, _ => none

/-- The value that a text stands for, if it stands for one. -/
def ofText? (text : String) : Option JsonValue := do
  let marks ← JsonMark.ofText? text.toList
  match ← marks.foldlM step (.value, []) with
  | (.done v, []) => some v
  | _ => none

/-! ## Reading values -/

def bool? : JsonValue → Option Bool
  | bool b => some b
  | _ => none

def text? : JsonValue → Option (List Char)
  | string cs => JsonChar.text? cs
  | _ => none

/-- What `read` makes of a value, unless the value is null. -/
def optional? {α : Type} (read : JsonValue → Option α) : JsonValue → Option (Option α)
  | null => some none
  | v => (read v).map some

/-- The members of an object by name. All names must be texts. -/
def named? (members : List (List JsonChar × JsonValue)) : Option (List (String × JsonValue)) :=
  members.mapM fun m => (JsonChar.text? m.1).map fun name => (String.ofList name, m.2)

/-- The member of the given name, if there is one. There must not be two. -/
def member? (members : List (String × JsonValue)) (name : String) : Option (Option JsonValue) :=
  match members.filter (·.1 == name) with
  | [] => some none
  | [m] => some (some m.2)
  | _ => none

/--
The values of a record, which may be written as an object with the given names or as an array in
their order. Values at the end of the array may be left out, other members of the object are
ignored.
-/
def fields? (names : List String) : JsonValue → Option (List (Option JsonValue))
  | object members => do
    let members ← named? members
    names.mapM (member? members)
  | array items =>
    if items.length ≤ names.length then
      some (items.map some ++ List.replicate (names.length - items.length) none)
    else none
  | _ => none

/-! ## Writing values -/

/-- A character inside a string. -/
def escapeChar (c : Char) : List Char :=
  if c == '"' || c == '\\' then ['\\', c]
  else if c == '\n' then ['\\', 'n']
  else if c == '\r' then ['\\', 'r']
  else if c == '\t' then ['\\', 't']
  else if c == '\x08' then ['\\', 'b']
  else if c == '\x0C' then ['\\', 'f']
  else if c.toNat < 0x10 then ['\\', 'u', '0', '0', '0'] ++ hexDigits c.toNat
  else if c.toNat < 0x20 then ['\\', 'u', '0', '0'] ++ hexDigits c.toNat
  else [c]

/-- The JSON text of a string. -/
def stringText (text : String) : String :=
  String.ofList ('"' :: text.toList.flatMap escapeChar ++ ['"'])

/-- The JSON text of an object, given the texts of its members. -/
def objectText (members : List (String × String)) : String :=
  "\x7b" ++ ",".intercalate (members.map fun m => stringText m.1 ++ ":" ++ m.2) ++ "\x7d"

end JsonValue

end CssTokens
