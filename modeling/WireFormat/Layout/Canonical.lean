import WireFormat.Layout.Basic

/-!
# Canonical layouts

Each scalar, sequence, option, nullable and pair type has one layout that its values are laid out by unless something
else is said.
-/
namespace WireFormat
open Floating

class Canonical (α : Type) where
  layout (Self : Type) : Layout Self α

/-- The canonical layout of a type. -/
def Layout.of (α : Type) [Canonical α] {Self : Type} : Layout Self α :=
  Canonical.layout Self

variable {α β : Type} [Canonical α] [Canonical β]

instance : Canonical Bool := ⟨fun _ => .bool⟩

instance : Canonical String := ⟨fun _ => .str⟩

instance : Canonical UInt8 := ⟨fun _ => .u8⟩

instance : Canonical UInt16 := ⟨fun _ => .u16⟩

instance : Canonical UInt32 := ⟨fun _ => .u32⟩

instance : Canonical Int32 := ⟨fun _ => .i32⟩

instance : Canonical Binary32 := ⟨fun _ => .f32⟩

instance : Canonical Binary64 := ⟨fun _ => .f64⟩

instance : Canonical (List α) := ⟨fun _ => .vector (.of α)⟩

instance : Canonical (Option α) := ⟨fun _ => .optional (.of α)⟩

instance : Canonical (Nullable α) := ⟨fun _ => .nullable (.of α)⟩

instance : Canonical (α × β) := ⟨fun _ => .tuple (.pair (.of α) (.of β))⟩

end WireFormat
