import WireFormat.Reader
import WireFormat.Schema.Basic
import WireFormat.Value.Basic

/-!
# Reading by a schema
-/
namespace WireFormat.Schema

/-- The value of an optional whose element has the given schema. Only an optional below an optional is marked. -/
def presented (element : Schema) (value : Value) : Value :=
  match element with
  | option _ => .present value
  | _ => value

mutual

def read : Schema → Reader Value
  | bool => do
    let b ← Reader.mark
    return .bool b
  | str => do
    let s ← Reader.str
    return .str s
  | u8 => do
    let n ← Reader.u8
    return .int (.ofInt n.toNat)
  | u16 => do
    let n ← Reader.u16
    return .int (.ofInt n.toNat)
  | u32 => do
    let n ← Reader.u32
    return .int (.ofInt n.toNat)
  | i32 => do
    let n ← Reader.i32
    return .int n.toInt64
  | f32 => do
    let x ← Reader.f32
    return .float x.widen
  | f64 => do
    let x ← Reader.f64
    return .float x
  | enum names => do
    let index ← Reader.u32
    match names[index.toNat]? with
    | some name => return .str name
    | none => Reader.fail (.badDiscriminant "Enum" index.toNat names.length)
  | struct fields => do
    let values ← readFields fields
    return .struct values
  | tuple components => do
    let values ← readComponents components
    return .tuple values
  | union variants => do
    let index ← Reader.u32
    readVariant index.toNat variants.length variants index.toNat
  | vec element => do
    let values ← Reader.seq element.read
    return .vec values
  | option element => do
    let value ← Reader.opt element.read
    match value with
    | some value => return presented element value
    | none => return .undefined
  | nullable element => do
    let value ← Reader.opt element.read
    return value.getD .null

def readFields : List (String × Schema) → Reader (List (String × Value))
  | [] => return []
  | (name, schema) :: rest => do
    let value ← schema.read
    let values ← readFields rest
    return (name, value) :: values

def readComponents : List Schema → Reader (List Value)
  | [] => return []
  | schema :: rest => do
    let value ← schema.read
    let values ← readComponents rest
    return value :: values

/-- Reads the payload of the variant that stands `skip` places on. The index and the count of all variants are only
needed for the error. -/
def readVariant (index count : Nat) : List (String × Option Schema) → (skip : Nat) → Reader Value
  | [], _ => Reader.fail (.badDiscriminant "Union" index count)
  | (tag, none) :: _, 0 => return .unit tag
  | (tag, some schema) :: _, 0 => do
    let payload ← schema.read
    return .tagged tag payload
  | _ :: rest, skip + 1 => readVariant index count rest skip

end

end WireFormat.Schema
