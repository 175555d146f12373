import WireFormat.Entries
import WireFormat.Floating.Binary

/-!
# Documents

The self-describing trees that schemas and values are exchanged as. Objects keep the order of their members. A document
has no infinite floats and no NaNs: null stands in their place.
-/
namespace WireFormat
open Floating

inductive Document where
  | null
  | bool (b : Bool)
  | str (s : String)
  | int (i : Int)
  | float (x : Binary64)
  | array (items : List Document)
  | object (members : List (String × Document))
deriving Repr

namespace Document

def ofFloat (x : Binary64) : Document :=
  if x.isFinite then float x else null

/-- An object of the given members, the last of each key. -/
def ofMembers (members : List (String × Document)) : Document :=
  object (Entries.ofList members)

end Document

end WireFormat
