import WireFormat.Entries
import WireFormat.Floating.Binary
import WireFormat.WriteError

/-!
# Dynamic values

What a schema reads and writes. A present optional value is the value itself, except below an optional of an optional,
where `present` keeps a present absence apart from an absence. An absent optional is `undefined`, an absent nullable is
`null`, and an enumeration value is the string of its name.
-/
namespace WireFormat
open Floating

inductive Value where
  | bool (b : Bool)
  | str (s : String)
  | int (i : Int64)
  | float (x : Binary64)
  | tuple (items : List Value)
  | struct (fields : List (String × Value))
  | unit (tag : String)
  | tagged (tag : String) (payload : Value)
  | vec (items : List Value)
  | present (value : Value)
  | undefined
  | null
deriving Repr

namespace Value

def kind : Value → Kind
  | bool _ => .bool
  | str _ => .string
  | int _ => .integer
  | float _ => .float
  | tuple _ => .tuple
  | struct _ => .struct
  | unit _ | tagged _ _ => .union
  | vec _ => .vec
  | present _ => .some
  | undefined => .undefined
  | null => .null

/-- A struct value of the given entries, the last of each name. -/
def ofFields (entries : List (String × Value)) : Value :=
  struct (Entries.ofList entries)

end Value

end WireFormat
