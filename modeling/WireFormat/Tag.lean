/-!
# Kinds of schema nodes

A closed list. Its order is the order of the tags.
-/
namespace WireFormat

inductive Tag where
  | bool
  | str
  | u8
  | u16
  | u32
  | i32
  | f32
  | f64
  | enum
  | struct
  | tuple
  | union
  | vec
  | option
  | nullable
deriving DecidableEq, Repr, Ord

namespace Tag

def name : Tag → String
  | bool => "Bool"
  | str => "Str"
  | u8 => "U8"
  | u16 => "U16"
  | u32 => "U32"
  | i32 => "I32"
  | f32 => "F32"
  | f64 => "F64"
  | enum => "Enum"
  | struct => "Struct"
  | tuple => "Tuple"
  | union => "Union"
  | vec => "Vec"
  | option => "Option"
  | nullable => "Nullable"

def all : List Tag :=
  [bool, str, u8, u16, u32, i32, f32, f64, enum, struct, tuple, union, vec, option, nullable]

def ofName? (name : String) : Option Tag :=
  all.find? fun tag => tag.name == name

@[simp] theorem ofName?_name (tag : Tag) : ofName? tag.name = some tag := by
  cases tag <;> rfl

/-- The tag at a position in the order of the tags. -/
def ofIndex? (index : Nat) : Option Tag :=
  all[index]?

end Tag

end WireFormat
