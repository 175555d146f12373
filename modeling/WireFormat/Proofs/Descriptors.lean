import WireFormat.Layout.Recursive
import WireFormat.Proofs.Wrappers

/-!
# Descriptors and the choices they offer

A descriptor is a layout together with the descriptor of the type that it refers back to, or a recursive layout. What a
schema or a descriptor lets choose from are the enumerations and unions inside it. Each of them counts its variants, and
has the name under which a wrong index is reported.

As a layout refers to one type besides those that it spells out, a record may hold values of one recursive type in any
number of its fields, but not of two different ones.
-/
namespace WireFormat

/-- How the values of a type are laid out, with nothing left open. -/
inductive Descriptor : Type → Type 1 where
  | unit : Descriptor Unit
  | layout {Self α : Type} (self : Descriptor Self) (layout : Layout Self α) : Descriptor α
  | recursive {α : Type} (layout : Recursive α) : Descriptor α

def Descriptor.codec {α : Type} : Descriptor α → Codec α
  | unit => Codec.unit
  | layout self body => body.codecWith self.codec
  | recursive whole => whole.codec

namespace Schema

/-- The name and the number of variants of a schema that is itself an enumeration or a union. -/
def choice? : Schema → Option (String × Nat)
  | enum names => some ("Enum", names.length)
  | union variants => some ("Union", variants.length)
  | _ => none

def choices (schema : Schema) : List (String × Nat) :=
  schema.nodes.filterMap choice?

theorem mem_choices_of_choice? {schema : Schema} {choice : String × Nat} (h : schema.choice? = some choice) :
    choice ∈ schema.choices :=
  List.mem_filterMap.2 ⟨schema, schema.mem_nodes, h⟩

theorem choices_subset_of_mem_parts {schema part : Schema} (h : part ∈ schema.parts) :
    part.choices ⊆ schema.choices := by
  intro choice hchoice
  obtain ⟨node, hnode, heq⟩ := List.mem_filterMap.1 hchoice
  exact List.mem_filterMap.2 ⟨node, mem_nodes_of_mem_parts h hnode, heq⟩

end Schema

variable {Self : Type}

mutual

def Layout.choices {α : Type} : Layout Self α → List (String × Nat)
  | .enumeration e => [(e.name, e.names.length)]
  | .record _ fields => fields.choices
  | .tuple parts => parts.choices
  | .union name variants _ => (name, variants.tags.length) :: variants.choices
  | .vector element | .optional element | .nullable element => element.choices
  | .retyped _ base => base.choices
  | .bool | .str | .u8 | .u16 | .u32 | .i32 | .f32 | .f64 | .self => []

def Parts.choices {α : Type} : Parts Self α → List (String × Nat)
  | .pair first second => first.choices ++ second.choices
  | .cons first rest => first.choices ++ rest.choices

def Fields.choices {names : List String} {α : Type} : Fields Self names α → List (String × Nat)
  | .nil => []
  | .cons _ layout rest _ => layout.choices ++ rest.choices

def Variants.choices {tags : List String} {α : Type} : Variants Self tags α → List (String × Nat)
  | .nil => []
  | .unit _ rest _ => rest.choices
  | .payload _ layout rest _ => layout.choices ++ rest.choices

end

def Descriptor.choices {α : Type} : Descriptor α → List (String × Nat)
  | unit => []
  | layout self body => body.choices ++ self.choices
  | recursive whole => whole.body.choices

end WireFormat
