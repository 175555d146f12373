import WireFormat.Narrow
import WireFormat.Schema.Basic
import WireFormat.Schema.Written
import WireFormat.Value.Basic

/-!
# Writing by a schema

Integers are narrowed by wrapping, numbers are converted between integers and floats, and the fields of a struct are
matched by name. A struct or a tuple stops at its first component that does not fit. A sequence goes on: the elements
after it are still written, and the first error stands.
-/
namespace WireFormat.Schema
open Floating

def mismatch (schema : Schema) (value : Value) : WriteError :=
  .mismatch schema.tag value.kind

/-- The integer that a value offers to an integer schema. -/
def integerOf? : Value → Option Int64
  | .int i => some i
  | .float x => some x.toInt64
  | _ => none

/-- The float that a value offers to a float schema. -/
def floatOf? : Value → Option Binary64
  | .float x => some x
  | .int i => some (.ofInt i.toInt)
  | _ => none

def writeInteger (schema : Schema) (piece : Int64 → Piece) (value : Value) : Written :=
  match integerOf? value with
  | some i => .done [piece i]
  | none => .refused (schema.mismatch value)

def writeFloat (schema : Schema) (piece : Binary64 → Piece) (value : Value) : Written :=
  match floatOf? value with
  | some x => .done [piece x]
  | none => .refused (schema.mismatch value)

mutual

def write : Schema → Value → Written
  | bool, value =>
    match value with
    | .bool b => .done [.mark b]
    | _ => .refused (bool.mismatch value)
  | str, value =>
    match value with
    | .str s => .done (Piece.str s)
    | _ => .refused (str.mismatch value)
  | u8, value => writeInteger u8 (fun i => .u8 (Narrow.u8 i)) value
  | u16, value => writeInteger u16 (fun i => .u16 (Narrow.u16 i)) value
  | u32, value => writeInteger u32 (fun i => .u32 (Narrow.u32 i)) value
  | i32, value => writeInteger i32 (fun i => .i32 (Narrow.i32 i)) value
  | f32, value => writeFloat f32 (fun x => .f32 x.narrow) value
  | f64, value => writeFloat f64 .f64 value
  | enum names, value =>
    match value with
    | .str name =>
      match names.idxOf? name with
      | some index => .done [.index index]
      | none => .refused (.unknownVariant .enum name)
    | _ => .refused ((enum names).mismatch value)
  | struct fields, value =>
    match value with
    | .struct values => writeFields fields values
    | _ => .refused ((struct fields).mismatch value)
  | tuple components, value =>
    match value with
    | .tuple values =>
      if values.length = components.length then writeComponents components values
      else .refused (.arity components.length values.length)
    | _ => .refused ((tuple components).mismatch value)
  | union variants, value =>
    match value with
    | .unit tag => writeVariant variants 0 tag none
    | .tagged tag payload => writeVariant variants 0 tag (some payload)
    | _ => .refused ((union variants).mismatch value)
  | vec element, value =>
    match value with
    | .vec values => (Written.all (values.map element.write)).after [.frame values.length]
    | _ => .refused ((vec element).mismatch value)
  | option element, value =>
    match value with
    | .undefined => .done [.mark false]
    | .present value => (element.write value).after [.mark true]
    | value => (element.write value).after [.mark true]
  | nullable element, value =>
    match value with
    | .null => .done [.mark false]
    | value => (element.write value).after [.mark true]

/-- A field that the value leaves out is absent if it is optional and missing otherwise. -/
def writeFields : List (String × Schema) → List (String × Value) → Written
  | [], _ => .done []
  | (name, schema) :: rest, values =>
    match values.lookup name, schema.tag with
    | some value, _ => (schema.write value).andThen (writeFields rest values)
    | none, .option => (schema.write .undefined).andThen (writeFields rest values)
    | none, _ => .refused (.missingField name)

def writeComponents : List Schema → List Value → Written
  | schema :: rest, value :: values => (schema.write value).andThen (writeComponents rest values)
  | _, _ => .done []

/-- Looks for the variant of the given tag; the first of those listed has the given index. -/
def writeVariant : List (String × Option Schema) → (index : Nat) → (tag : String) → Option Value → Written
  | [], _, tag, _ => .refused (.unknownVariant .union tag)
  | (name, none) :: rest, index, tag, payload =>
    if name = tag then
      match payload with
      | none => .done [.index index]
      | some _ => .refused (.unexpectedPayload tag)
    else writeVariant rest (index + 1) tag payload
  | (name, some schema) :: rest, index, tag, payload =>
    if name = tag then
      match payload with
      | none => .refused (.missingPayload tag)
      | some value => (schema.write value).after [.index index]
    else writeVariant rest (index + 1) tag payload

end

end WireFormat.Schema
