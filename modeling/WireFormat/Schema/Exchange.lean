import WireFormat.Document
import WireFormat.Schema.Basic

/-!
# Schemas as documents

A schema node is an object whose member `tag` names its kind. What the kind needs, its content, stands beside it:
`variants`, `fields`, `components` or `type`. On import the members may stand in any order and unknown ones are skipped,
and a node may also be an array of its tag and its content. Below the outermost node a tag may be the position of the
kind in place of its name. Nothing is checked beyond the form, so unchecked schemas come back as they were.
-/
namespace WireFormat.Schema

mutual

def toDocument : Schema → Document
  | bool => .object [("tag", .str "Bool")]
  | str => .object [("tag", .str "Str")]
  | u8 => .object [("tag", .str "U8")]
  | u16 => .object [("tag", .str "U16")]
  | u32 => .object [("tag", .str "U32")]
  | i32 => .object [("tag", .str "I32")]
  | f32 => .object [("tag", .str "F32")]
  | f64 => .object [("tag", .str "F64")]
  | enum names => .object [("tag", .str "Enum"), ("variants", .array (names.map .str))]
  | struct fields => .object [("tag", .str "Struct"), ("fields", .object (documentsOfFields fields))]
  | tuple components => .object [("tag", .str "Tuple"), ("components", .array (documentsOfComponents components))]
  | union variants => .object [("tag", .str "Union"), ("variants", .object (documentsOfVariants variants))]
  | vec element => .object [("tag", .str "Vec"), ("type", element.toDocument)]
  | option element => .object [("tag", .str "Option"), ("type", element.toDocument)]
  | nullable element => .object [("tag", .str "Nullable"), ("type", element.toDocument)]

def documentsOfFields : List (String × Schema) → List (String × Document)
  | [] => []
  | (name, schema) :: rest => (name, schema.toDocument) :: documentsOfFields rest

def documentsOfComponents : List Schema → List Document
  | [] => []
  | schema :: rest => schema.toDocument :: documentsOfComponents rest

def documentsOfVariants : List (String × Option Schema) → List (String × Document)
  | [] => []
  | (tag, none) :: rest => (tag, .null) :: documentsOfVariants rest
  | (tag, some schema) :: rest => (tag, schema.toDocument) :: documentsOfVariants rest

end

def nameOfDocument? : Document → Option String
  | .str name => some name
  | _ => none

/-- The names of an enumeration. -/
def namesOf? : Document → Option (List String)
  | .array items => items.mapM nameOfDocument?
  | _ => none

/-- A kind by its name or by its position. -/
def tagOf? : Document → Option Tag
  | .str name => Tag.ofName? name
  | .int (.ofNat index) => Tag.ofIndex? index
  | _ => none

/-- The schema of a kind that has no content. -/
def leaf? : Tag → Option Schema
  | .bool => some bool
  | .str => some str
  | .u8 => some u8
  | .u16 => some u16
  | .u32 => some u32
  | .i32 => some i32
  | .f32 => some f32
  | .f64 => some f64
  | _ => none

mutual

/-- The schema of a node in either form, its kind named or numbered. -/
def ofNode? : Document → Option Schema
  | .object members =>
    match (members.lookup "tag").bind tagOf? with
    | none => none
    | some .enum => (members.lookup "variants").bind namesOf? |>.map enum
    | some .struct => (fieldsIn? members).map struct
    | some .tuple => (componentsIn? members).map tuple
    | some .union => (variantsIn? members).map union
    | some .vec => (elementIn? members).map vec
    | some .option => (elementIn? members).map option
    | some .nullable => (elementIn? members).map nullable
    | some tag => leaf? tag
  | .array [tag] => (tagOf? tag).bind leaf?
  | .array [tag, content] =>
    match tagOf? tag with
    | some .enum => (namesOf? content).map enum
    | some .struct => (fieldsOf? content).map struct
    | some .tuple => (componentsOf? content).map tuple
    | some .union => (variantsOf? content).map union
    | some .vec => (ofNode? content).map vec
    | some .option => (ofNode? content).map option
    | some .nullable => (ofNode? content).map nullable
    | _ => none
  | _ => none

/-- The schema under `type`. -/
def elementIn? : List (String × Document) → Option Schema
  | [] => none
  | (key, document) :: rest => if key = "type" then ofNode? document else elementIn? rest

/-- The schemas under `fields`. -/
def fieldsIn? : List (String × Document) → Option (List (String × Schema))
  | [] => none
  | (key, document) :: rest => if key = "fields" then fieldsOf? document else fieldsIn? rest

/-- The schemas under `components`. -/
def componentsIn? : List (String × Document) → Option (List Schema)
  | [] => none
  | (key, document) :: rest => if key = "components" then componentsOf? document else componentsIn? rest

/-- The payloads under `variants`, for a union. -/
def variantsIn? : List (String × Document) → Option (List (String × Option Schema))
  | [] => none
  | (key, document) :: rest => if key = "variants" then variantsOf? document else variantsIn? rest

def fieldsOf? : Document → Option (List (String × Schema))
  | .object members => fieldsOfDocuments? members
  | _ => none

def componentsOf? : Document → Option (List Schema)
  | .array items => componentsOfDocuments? items
  | _ => none

def variantsOf? : Document → Option (List (String × Option Schema))
  | .object members => variantsOfDocuments? members
  | _ => none

def fieldsOfDocuments? : List (String × Document) → Option (List (String × Schema))
  | [] => some []
  | (name, document) :: rest => do
    let schema ← ofNode? document
    let fields ← fieldsOfDocuments? rest
    return (name, schema) :: fields

def componentsOfDocuments? : List Document → Option (List Schema)
  | [] => some []
  | document :: rest => do
    let schema ← ofNode? document
    let components ← componentsOfDocuments? rest
    return schema :: components

def variantsOfDocuments? : List (String × Document) → Option (List (String × Option Schema))
  | [] => some []
  | (tag, .null) :: rest => do
    let variants ← variantsOfDocuments? rest
    return (tag, none) :: variants
  | (tag, document) :: rest => do
    let schema ← ofNode? document
    let variants ← variantsOfDocuments? rest
    return (tag, some schema) :: variants

end

/-- What stands for the kind of a node. -/
def tagDocument? : Document → Option Document
  | .object members => members.lookup "tag"
  | .array items => items.head?
  | _ => none

/-- The schema of a whole document, whose outermost node has to name its kind. -/
def ofDocument? (document : Document) : Option Schema :=
  match tagDocument? document with
  | some (.str _) => ofNode? document
  | _ => none

end WireFormat.Schema
