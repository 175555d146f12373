import WireFormat.Schema.Basic

/-!
# Equality of schemas

Struct fields and union variants are compared by name without regard to order, enumeration names and tuple components
in order.
-/
namespace WireFormat.Schema

mutual

def same : Schema → Schema → Bool
  | enum as, enum bs => as == bs
  | struct as, struct bs => as.length == bs.length && sameFields as bs
  | tuple as, tuple bs => sameComponents as bs
  | union as, union bs => as.length == bs.length && sameVariants as bs
  | vec a, vec b => a.same b
  | option a, option b => a.same b
  | nullable a, nullable b => a.same b
  | bool, bool | str, str | u8, u8 | u16, u16 | u32, u32 | i32, i32 | f32, f32 | f64, f64 => true
  | _, _ => false
termination_by structural a => a

/-- Every field of the first list is bound to an equal schema in the second. -/
def sameFields : List (String × Schema) → List (String × Schema) → Bool
  | [], _ => true
  | (name, a) :: rest, bs =>
    (match bs.lookup name with
      | some b => a.same b
      | none => false) && sameFields rest bs
termination_by structural a => a

def sameComponents : List Schema → List Schema → Bool
  | [], [] => true
  | a :: as, b :: bs => a.same b && sameComponents as bs
  | _, _ => false
termination_by structural a => a

/-- Every variant of the first list has a counterpart in the second, with an equal payload or with none. -/
def sameVariants : List (String × Option Schema) → List (String × Option Schema) → Bool
  | [], _ => true
  | (tag, none) :: rest, bs =>
    (match bs.lookup tag with
      | some none => true
      | _ => false) && sameVariants rest bs
  | (tag, some a) :: rest, bs =>
    (match bs.lookup tag with
      | some (some b) => a.same b
      | _ => false) && sameVariants rest bs
termination_by structural a => a

end

end WireFormat.Schema
