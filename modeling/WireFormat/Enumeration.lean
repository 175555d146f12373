/-!
# Enumerations

A closed list of names. A variant is known by its index, which four bytes must hold, and by its name, which is its own.
-/
namespace WireFormat

structure Enumeration where
  name : String
  names : List String
  distinct : names.Nodup := by decide
  bounded : names.length ≤ 0x100000000 := by decide

/-- A name that no variant has. -/
structure UnknownVariant where
  typeName : String
  name : String
deriving DecidableEq, Repr

def UnknownVariant.message (error : UnknownVariant) : String :=
  s!"`{error.name}` is not a variant of `{error.typeName}`"

namespace Enumeration

variable (e : Enumeration)

abbrev Variant : Type :=
  Fin e.names.length

variable {e}

def nameOf (variant : e.Variant) : String :=
  e.names[variant]

variable (e)

def ofIndex? (index : Nat) : Option e.Variant :=
  if h : index < e.names.length then some ⟨index, h⟩ else none

def ofName? (name : String) : Option e.Variant :=
  (e.names.idxOf? name).bind e.ofIndex?

def parse (name : String) : Except UnknownVariant e.Variant :=
  match e.ofName? name with
  | some variant => .ok variant
  | none => .error ⟨e.name, name⟩

theorem ofIndex?_val (variant : e.Variant) : e.ofIndex? variant.val = some variant := by
  simp [ofIndex?]

end Enumeration

end WireFormat
