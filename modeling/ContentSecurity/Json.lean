/-!
# JSON values

Values of the data format in which policies are exchanged, and the ways to look into them.

A record of named fields has two written forms: an object of its fields in any order, where fields
of other names are ignored, and an array of the values of all its fields in their order.  A value
that comes in several variants is a record led by a tag, which names the variant: in a field of its
own, or as the first item of the array.
-/

namespace ContentSecurity

/-- A JSON value.  A number that is written with a fraction or an exponent is a decimal,
`mantissa * 10 ^ exponent`, also where its value is whole.  An object has no two fields of one
name. -/
inductive Json where
  | null
  | bool (value : Bool)
  | integer (value : Int)
  | decimal (mantissa exponent : Int)
  | string (value : String)
  | array (items : List Json)
  | object (fields : List (String × Json))

namespace Json

/-! ### Writing -/

/-- An integer that is not negative. -/
def ofNat (value : Nat) : Json :=
  .integer value

/-- A text, or `null`. -/
def ofText? : Option String → Json
  | some text => .string text
  | none => .null

/-- An array of texts. -/
def ofTexts (texts : List String) : Json :=
  .array (texts.map .string)

/-! ### Single values -/

/-- An integer that is not negative. -/
def nat? : Json → Option Nat
  | .integer (.ofNat value) => some value
  | _ => none

def string? : Json → Option String
  | .string value => some value
  | _ => none

def array? : Json → Option (List Json)
  | .array items => some items
  | _ => none

/-- Every item of an array, read in the same way. -/
def list? {α : Type} (item? : Json → Option α) (json : Json) : Option (List α) :=
  json.array?.bind (·.mapM item?)

/-- An array of texts. -/
def texts? : Json → Option (List String) :=
  list? string?

/-- A text or `null`. -/
def text? : Json → Option (Option String)
  | .null => some none
  | .string value => some (some value)
  | _ => none

/-! ### Names

The value of a type whose variants hold nothing is the name of the variant, or an object whose
only field has this name and is empty.  The name of a variant that stands inside another variant
is read more freely. -/

/-- The name of a variant, where an empty field is `null`. -/
def name? : Json → Option String
  | .string name => some name
  | .object [(name, .null)] => some name
  | _ => none

/-- The name of a variant inside another one, where an object without fields is empty, too. -/
def innerName? : Json → Option String
  | .object [(name, .object [])] => some name
  | json => json.name?

/-- The tag of a variant inside another one: its name, or its place among the names of all. -/
def innerTag? (names : List String) : Json → Option String
  | .string name => some name
  | .integer (.ofNat place) => names[place]?
  | _ => none

/-! ### Records -/

/-- The value of a field of an object. -/
def field? (name : String) : Json → Option Json
  | .object fields => fields.lookup name
  | _ => none

/-- A field that has to be there. -/
def required? {α : Type} (json : Json) (name : String) (read? : Json → Option α) : Option α :=
  (json.field? name).bind read?

/-- A field that holds a text or `null`, or is missing. -/
def optionalText? (json : Json) (name : String) : Option (Option String) :=
  match json.field? name with
  | some value => value.text?
  | none => some none

/-- The record with fields of these names, as an object.  An array has as many items. -/
def record? (names : List String) : Json → Option Json
  | .object fields => some (.object fields)
  | .array items =>
    if items.length = names.length then some (.object (names.zip items)) else none
  | _ => none

/-- The record with fields of these names, as an object.  An array may lack the last items. -/
def initialRecord? (names : List String) : Json → Option Json
  | .object fields => some (.object fields)
  | .array items =>
    if items.length ≤ names.length then some (.object (names.zip items)) else none
  | _ => none

/-- The tag of a variant and the record of its fields.  In an object the tag is the field `name`,
which stays in the record as one of another name would; in an array it is the first item. -/
def tagged? (name : String) : Json → Option (Json × Json)
  | .object fields => (fields.lookup name).map (·, .object fields)
  | .array (tag :: items) => some (tag, .array items)
  | _ => none

end Json

end ContentSecurity
