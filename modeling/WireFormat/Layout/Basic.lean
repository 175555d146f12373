import WireFormat.Enumeration
import WireFormat.Floating.Binary
import WireFormat.Nullable

/-!
# Layouts

A layout is a wire format whose values have a type of their own: `Layout Self α` describes how an `α` is laid out. The
parameter `Self` is the type that `self` refers back to, for a layout that contains itself. Tuples have at least two
components, and no record or union names a member twice.
-/
namespace WireFormat
open Floating

/-- Another type for the values of a layout, in one-to-one correspondence with them. An alias without a name leaves no
trace in descriptions. -/
structure Alias (α β : Type) where
  name : Option String
  make : α → β
  view : β → α
  view_make : ∀ a, view (make a) = a := by intro _; rfl
  make_view : ∀ b, make (view b) = b := by intro _; rfl

mutual

inductive Layout (Self : Type) : Type → Type 1 where
  | bool : Layout Self Bool
  | str : Layout Self String
  | u8 : Layout Self UInt8
  | u16 : Layout Self UInt16
  | u32 : Layout Self UInt32
  | i32 : Layout Self Int32
  | f32 : Layout Self Binary32
  | f64 : Layout Self Binary64
  | enumeration (e : Enumeration) : Layout Self e.Variant
  | record {names : List String} {α : Type} (name : String) (fields : Fields Self names α) : Layout Self α
  | tuple {α : Type} (parts : Parts Self α) : Layout Self α
  | union {tags : List String} {α : Type} (name : String) (variants : Variants Self tags α)
      (bounded : tags.length ≤ 0x100000000 := by decide) : Layout Self α
  | vector {α : Type} (element : Layout Self α) : Layout Self (List α)
  | optional {α : Type} (element : Layout Self α) : Layout Self (Option α)
  | nullable {α : Type} (element : Layout Self α) : Layout Self (Nullable α)
  | retyped {α β : Type} (host : Alias α β) (base : Layout Self α) : Layout Self β
  | self : Layout Self Self

/-- The components of a tuple. -/
inductive Parts (Self : Type) : Type → Type 1 where
  | pair {α β : Type} (first : Layout Self α) (second : Layout Self β) : Parts Self (α × β)
  | cons {α β : Type} (first : Layout Self α) (rest : Parts Self β) : Parts Self (α × β)

/-- The fields of a record, with their names. -/
inductive Fields (Self : Type) : List String → Type → Type 1 where
  | nil : Fields Self [] Unit
  | cons {names : List String} {α β : Type} (name : String) (layout : Layout Self α) (rest : Fields Self names β)
      (fresh : name ∉ names := by decide) : Fields Self (name :: names) (α × β)

/-- The variants of a union, with their tags. A value belongs to the first variant or to one of the rest. -/
inductive Variants (Self : Type) : List String → Type → Type 1 where
  | nil : Variants Self [] Empty
  | unit {tags : List String} {β : Type} (tag : String) (rest : Variants Self tags β)
      (fresh : tag ∉ tags := by decide) : Variants Self (tag :: tags) (Unit ⊕ β)
  | payload {tags : List String} {α β : Type} (tag : String) (layout : Layout Self α) (rest : Variants Self tags β)
      (fresh : tag ∉ tags := by decide) : Variants Self (tag :: tags) (α ⊕ β)

end

variable {Self : Type}

def Fields.names {names : List String} {α : Type} (_ : Fields Self names α) : List String :=
  names

def Variants.tags {tags : List String} {α : Type} (_ : Variants Self tags α) : List String :=
  tags

/-- Where the variant of a value stands among all variants. -/
def Variants.indexOf {tags : List String} {α : Type} : Variants Self tags α → α → Nat
  | .unit _ _ _, .inl _ => 0
  | .unit _ rest _, .inr b => rest.indexOf b + 1
  | .payload _ _ _ _, .inl _ => 0
  | .payload _ _ rest _, .inr b => rest.indexOf b + 1

def Variants.tagOf {tags : List String} {α : Type} : Variants Self tags α → α → String
  | .unit tag _ _, .inl _ => tag
  | .unit _ rest _, .inr b => rest.tagOf b
  | .payload tag _ _ _, .inl _ => tag
  | .payload _ _ rest _, .inr b => rest.tagOf b

end WireFormat
