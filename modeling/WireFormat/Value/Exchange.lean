import WireFormat.Document
import WireFormat.Value.Basic

/-!
# Values as documents

A value is an object with one member, whose key names the shape of the value; `Undefined` and `Null` may also stand as
plain strings and are exported so. A union value is an object of `tag` and `val`, where null is no payload. Floats that
are not finite are exported as null, which is not accepted as a float again.
-/
namespace WireFormat.Value

mutual

def toDocument : Value → Document
  | bool b => .object [("Bool", .bool b)]
  | str s => .object [("Str", .str s)]
  | int i => .object [("Int", .int i.toInt)]
  | float x => .object [("Float", .ofFloat x)]
  | tuple items => .object [("Tuple", .array (documentsOfItems items))]
  | struct fields => .object [("Struct", .object (documentsOfFields fields))]
  | unit tag => .object [("Union", .object [("tag", .str tag), ("val", .null)])]
  | tagged tag payload => .object [("Union", .object [("tag", .str tag), ("val", payload.toDocument)])]
  | vec items => .object [("Vec", .array (documentsOfItems items))]
  | present value => .object [("Some", value.toDocument)]
  | undefined => .str "Undefined"
  | null => .str "Null"

def documentsOfItems : List Value → List Document
  | [] => []
  | value :: rest => value.toDocument :: documentsOfItems rest

def documentsOfFields : List (String × Value) → List (String × Document)
  | [] => []
  | (name, value) :: rest => (name, value.toDocument) :: documentsOfFields rest

end

/-- An integer that 64 bits hold. -/
def integerOfDocument? : Document → Option Value
  | .int i => if -0x8000000000000000 ≤ i ∧ i < 0x8000000000000000 then some (int (.ofInt i)) else none
  | _ => none

/-- A float, or an integer rounded to the nearest one. -/
def floatOfDocument? : Document → Option Value
  | .float x => if x.isFinite then some (float x) else none
  | .int i => some (float (.ofInt i))
  | _ => none

def boolOfDocument? : Document → Option Value
  | .bool b => some (bool b)
  | _ => none

def strOfDocument? : Document → Option Value
  | .str s => some (str s)
  | _ => none

/-- The absent values carry nothing. -/
def absentOfDocument? (value : Value) : Document → Option Value
  | .null => some value
  | _ => none

mutual

def ofDocument? : Document → Option Value
  | .str shape =>
    match shape with
    | "Undefined" => some undefined
    | "Null" => some null
    | _ => none
  | .object [(shape, document)] =>
    match shape with
    | "Bool" => boolOfDocument? document
    | "Str" => strOfDocument? document
    | "Int" => integerOfDocument? document
    | "Float" => floatOfDocument? document
    | "Tuple" => (itemsOf? document).map tuple
    | "Struct" => (fieldsOf? document).map struct
    | "Union" => unionOf? document
    | "Vec" => (itemsOf? document).map vec
    | "Some" => (ofDocument? document).map present
    | "Undefined" => absentOfDocument? undefined document
    | "Null" => absentOfDocument? null document
    | _ => none
  | _ => none

def itemsOf? : Document → Option (List Value)
  | .array items => itemsOfDocuments? items
  | _ => none

def fieldsOf? : Document → Option (List (String × Value))
  | .object members => fieldsOfDocuments? members
  | _ => none

def unionOf? : Document → Option Value
  | .object members =>
    match members.lookup "tag", payloadIn? members with
    | some (.str tag), some (some payload) => some (tagged tag payload)
    | some (.str tag), some none => some (unit tag)
    | _, _ => none
  | _ => none

/-- The payload under `val`, if there is one. -/
def payloadIn? : List (String × Document) → Option (Option Value)
  | [] => some none
  | (key, document) :: rest =>
    if key = "val" then
      match document with
      | .null => some none
      | document => (ofDocument? document).map some
    else payloadIn? rest

def itemsOfDocuments? : List Document → Option (List Value)
  | [] => some []
  | document :: rest => do
    let value ← ofDocument? document
    let items ← itemsOfDocuments? rest
    return value :: items

def fieldsOfDocuments? : List (String × Document) → Option (List (String × Value))
  | [] => some []
  | (name, document) :: rest => do
    let value ← ofDocument? document
    let fields ← fieldsOfDocuments? rest
    return (name, value) :: fields

end

end WireFormat.Value
