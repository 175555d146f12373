import WireFormat.Layout.Basic
import WireFormat.Schema.Basic

/-!
# The schema and the description of a layout

A layout has a schema with the same wire format, a text that describes how it is built, and, if it is a record, a union
or an enumeration, the names that it declares. A retyped layout has those of its base.
-/
namespace WireFormat

variable {Self : Type}

mutual

/-- The schema of a layout, where the given one stands for `self`. -/
def Layout.schemaWith {α : Type} (self : Schema) : Layout Self α → Schema
  | .bool => .bool
  | .str => .str
  | .u8 => .u8
  | .u16 => .u16
  | .u32 => .u32
  | .i32 => .i32
  | .f32 => .f32
  | .f64 => .f64
  | .enumeration e => .enum e.names
  | .record _ fields => .struct (fields.schemasWith self)
  | .tuple parts => .tuple (parts.schemasWith self)
  | .union _ variants _ => .union (variants.schemasWith self)
  | .vector element => .vec (element.schemaWith self)
  | .optional element => .option (element.schemaWith self)
  | .nullable element => .nullable (element.schemaWith self)
  | .retyped _ base => base.schemaWith self
  | .self => self

def Parts.schemasWith {α : Type} (self : Schema) : Parts Self α → List Schema
  | .pair first second => [first.schemaWith self, second.schemaWith self]
  | .cons first rest => first.schemaWith self :: rest.schemasWith self

def Fields.schemasWith {names : List String} {α : Type} (self : Schema) :
    Fields Self names α → List (String × Schema)
  | .nil => []
  | .cons name layout rest _ => (name, layout.schemaWith self) :: rest.schemasWith self

def Variants.schemasWith {tags : List String} {α : Type} (self : Schema) :
    Variants Self tags α → List (String × Option Schema)
  | .nil => []
  | .unit tag rest _ => (tag, none) :: rest.schemasWith self
  | .payload tag layout rest _ => (tag, some (layout.schemaWith self)) :: rest.schemasWith self

end

/-- The schema of a layout that does not refer back; the unit in the place of `self` is a record without fields. -/
def Layout.schema {α : Type} (layout : Layout Unit α) : Schema :=
  layout.schemaWith (.struct [])

/-- The kind of a layout is the kind of its schema. -/
def Layout.tag {α : Type} (layout : Layout Self α) : Tag :=
  (layout.schemaWith (.struct [])).tag

mutual

/-- The description of a layout, where the given text stands for `self`. -/
def Layout.describe {α : Type} (self : String) : Layout Self α → String
  | .bool => "Bool"
  | .str => "Str"
  | .u8 => "U8"
  | .u16 => "U16"
  | .u32 => "U32"
  | .i32 => "I32"
  | .f32 => "F32"
  | .f64 => "F64"
  | .enumeration e => "Enum<" ++ e.name ++ ">"
  | .record name _ => "Struct<" ++ name ++ ">"
  | .tuple parts => "Tuple((" ++ ", ".intercalate (parts.describe self) ++ "))"
  | .union name _ _ => "Union<" ++ name ++ ">"
  | .vector element => "Vector(" ++ element.describe self ++ ")"
  | .optional element => "Optional(" ++ element.describe self ++ ")"
  | .nullable element => "Nullable(" ++ element.describe self ++ ")"
  | .retyped host base =>
    match host.name with
    | none => base.describe self
    | some name => "Retype \x7b base: " ++ base.describe self ++ ", alias: \"" ++ name ++ "\" \x7d"
  | .self => self

def Parts.describe {α : Type} (self : String) : Parts Self α → List String
  | .pair first second => [first.describe self, second.describe self]
  | .cons first rest => first.describe self :: rest.describe self

end

/-- The names that a layout declares, in order. -/
def Layout.declared? {α : Type} : Layout Self α → Option (List String)
  | .enumeration e => some e.names
  | .record _ fields => some fields.names
  | .union _ variants _ => some variants.tags
  | .retyped _ base => base.declared?
  | _ => none

end WireFormat
