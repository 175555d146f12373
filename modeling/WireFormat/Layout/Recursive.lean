import WireFormat.Layout.Codec

/-!
# Layouts that contain themselves

A recursive layout refers back to itself only below a sequence, so the count of the sequence is read before any value of
the layout is read inside it. Reading therefore needs no more levels of nesting than there are bytes to read, and
writing no more than the rank of the value.

A layout refers back to one type. A recursive layout inside the body of another one, or two of them that refer to each
other, are not expressed.
-/
namespace WireFormat

variable {Self : Type}

mutual

/-- Whether `self` occurs only below sequences. -/
def Layout.guarded {α : Type} : Layout Self α → Bool
  | .self => false
  | .record _ fields => fields.guarded
  | .tuple parts => parts.guarded
  | .union _ variants _ => variants.guarded
  | .optional element => element.guarded
  | .nullable element => element.guarded
  | .retyped _ base => base.guarded
  | .vector _ | .bool | .str | .u8 | .u16 | .u32 | .i32 | .f32 | .f64 | .enumeration _ => true

def Parts.guarded {α : Type} : Parts Self α → Bool
  | .pair first second => first.guarded && second.guarded
  | .cons first rest => first.guarded && rest.guarded

def Fields.guarded {names : List String} {α : Type} : Fields Self names α → Bool
  | .nil => true
  | .cons _ layout rest _ => layout.guarded && rest.guarded

def Variants.guarded {tags : List String} {α : Type} : Variants Self tags α → Bool
  | .nil => true
  | .unit _ rest _ => rest.guarded
  | .payload _ layout rest _ => layout.guarded && rest.guarded

end

mutual

/-- The values at the places of `self`, in the order they are written. -/
def Layout.selves {α : Type} : Layout Self α → α → List Self
  | .self, value => [value]
  | .record _ fields, value => fields.selves value
  | .tuple parts, value => parts.selves value
  | .union _ variants _, value => variants.selves value
  | .vector element, items => items.flatMap element.selves
  | .optional element, value => value.toList.flatMap element.selves
  | .nullable element, value => value.toOption.toList.flatMap element.selves
  | .retyped host base, value => base.selves (host.view value)
  | .bool, _ | .str, _ | .u8, _ | .u16, _ | .u32, _ | .i32, _ | .f32, _ | .f64, _ | .enumeration _, _ => []

def Parts.selves {α : Type} : Parts Self α → α → List Self
  | .pair first second, (a, b) => first.selves a ++ second.selves b
  | .cons first rest, (a, b) => first.selves a ++ rest.selves b

def Fields.selves {names : List String} {α : Type} : Fields Self names α → α → List Self
  | .nil, _ => []
  | .cons _ layout rest _, (a, b) => layout.selves a ++ rest.selves b

def Variants.selves {tags : List String} {α : Type} : Variants Self tags α → α → List Self
  | .unit _ _ _, .inl _ => []
  | .unit _ rest _, .inr b => rest.selves b
  | .payload _ layout _ _, .inl a => layout.selves a
  | .payload _ _ rest _, .inr b => rest.selves b

end

/-- A type with a layout that refers back to it. The rank of a value is above the ranks of the values it contains. -/
structure Recursive (α : Type) where
  body : Layout α α
  guarded : body.guarded = true
  rank : α → Nat
  rank_lt : ∀ value, ∀ inner ∈ body.selves value, rank inner < rank value

namespace Recursive

variable {α : Type}

/-- Reads with at most the given number of levels, below which the given reader takes over. -/
def readWithin (layout : Recursive α) (bottom : Reader α) : (levels : Nat) → Reader α
  | 0 => bottom
  | levels + 1 => layout.body.read (layout.readWithin bottom levels)

/-- One level more than there are bytes left is never used up, so what stands at the bottom does not matter. -/
def read (layout : Recursive α) : Reader α := fun b =>
  layout.readWithin (Reader.fail (.unexpectedEnd b.filled 1 0)) (b.remaining + 1) b

def piecesWithin (layout : Recursive α) : (levels : Nat) → α → List Piece
  | 0, _ => []
  | levels + 1, value => layout.body.pieces (layout.piecesWithin levels) value

def pieces (layout : Recursive α) (value : α) : List Piece :=
  layout.piecesWithin (layout.rank value + 1) value

def codec (layout : Recursive α) : Codec α :=
  ⟨layout.read, layout.pieces⟩

end Recursive

end WireFormat
