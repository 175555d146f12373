import WireFormat.Value.Basic

/-!
# Equality of values

Values are compared as what they stand for: floats as numbers, so a NaN equals nothing and the zeros are equal, and
structs by their fields without regard to order.
-/
namespace WireFormat.Value

mutual

def same : Value → Value → Bool
  | bool a, bool b => a == b
  | str a, str b => a == b
  | int a, int b => a == b
  | float a, float b => a.sameNumber b
  | tuple as, tuple bs => sameItems as bs
  | struct as, struct bs => as.length == bs.length && sameFields as bs
  | unit a, unit b => a == b
  | tagged a x, tagged b y => a == b && x.same y
  | vec as, vec bs => sameItems as bs
  | present x, present y => x.same y
  | undefined, undefined => true
  | null, null => true
  | _, _ => false
termination_by structural a => a

def sameItems : List Value → List Value → Bool
  | [], [] => true
  | a :: as, b :: bs => a.same b && sameItems as bs
  | _, _ => false
termination_by structural a => a

/-- Every field of the first list is bound to an equal value in the second. -/
def sameFields : List (String × Value) → List (String × Value) → Bool
  | [], _ => true
  | (name, a) :: rest, bs =>
    (match bs.lookup name with
      | some b => a.same b
      | none => false) && sameFields rest bs
termination_by structural a => a

end

end WireFormat.Value
