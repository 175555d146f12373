import WireFormat.Tag

/-!
# Why a value does not fit a schema
-/
namespace WireFormat

/-- The shapes of dynamic values, as messages name them. -/
inductive Kind where
  | bool
  | string
  | integer
  | float
  | tuple
  | struct
  | union
  | vec
  | some
  | undefined
  | null
deriving DecidableEq, Repr

def Kind.name : Kind → String
  | bool => "bool"
  | string => "string"
  | integer => "integer"
  | float => "float"
  | tuple => "tuple"
  | struct => "struct"
  | union => "union"
  | vec => "vec"
  | some => "some"
  | undefined => "undefined"
  | null => "null"

inductive WriteError where
  /-- A value of the wrong kind for the schema node. -/
  | mismatch (expected : Tag) (found : Kind)
  /-- An enumeration name or union tag that the schema does not declare. -/
  | unknownVariant (expected : Tag) (name : String)
  | missingField (field : String)
  | arity (expected actual : Nat)
  | missingPayload (tag : String)
  | unexpectedPayload (tag : String)
deriving DecidableEq, Repr

def WriteError.message : WriteError → String
  | mismatch expected found => s!"cannot write {found.name} value as {expected.name}"
  | unknownVariant expected name => s!"`{name}` is not a declared variant of this {expected.name}"
  | missingField field => s!"struct value is missing field `{field}`"
  | arity expected actual => s!"{actual}-component value written to {expected}-component tuple"
  | missingPayload tag => s!"union variant `{tag}` requires a payload"
  | unexpectedPayload tag => s!"unit union variant `{tag}` cannot carry a payload"

end WireFormat
