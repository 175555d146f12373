/-!
# Values that may be null

Null is a value that was set to nothing, as an option's absence is a value that was never set. Null comes before every
other value.
-/
namespace WireFormat

inductive Nullable (α : Type) where
  | null
  | value (a : α)
deriving DecidableEq, Repr, Ord

namespace Nullable

variable {α : Type}

instance : Inhabited (Nullable α) := ⟨null⟩

def isNull : Nullable α → Bool
  | null => true
  | value _ => false

def toOption : Nullable α → Option α
  | null => none
  | value a => some a

def ofOption : Option α → Nullable α
  | none => null
  | some a => value a

@[simp] theorem toOption_ofOption (a : Option α) : (ofOption a).toOption = a := by
  cases a <;> rfl

@[simp] theorem ofOption_toOption (a : Nullable α) : ofOption a.toOption = a := by
  cases a <;> rfl

end Nullable

end WireFormat
