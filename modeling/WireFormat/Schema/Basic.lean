import WireFormat.Entries
import WireFormat.Tag

/-!
# Schemas

A schema is a tree that describes a wire format. The constructors of the type check nothing; `ofNames`, `ofComponents`,
`ofFields` and `ofVariants` refuse repeated names and tuples of fewer than two components.
-/
namespace WireFormat

inductive Schema where
  | bool
  | str
  | u8
  | u16
  | u32
  | i32
  | f32
  | f64
  | enum (names : List String)
  | struct (fields : List (String × Schema))
  | tuple (components : List Schema)
  /-- A variant without a schema carries no payload. -/
  | union (variants : List (String × Option Schema))
  | vec (element : Schema)
  | option (element : Schema)
  | nullable (element : Schema)
deriving Repr

inductive SchemaError where
  | tupleArity (actual : Nat)
  | duplicate (name : String)
deriving DecidableEq, Repr

def SchemaError.message : SchemaError → String
  | tupleArity actual => s!"tuple requires at least 2 components, got {actual}"
  | duplicate name => s!"name `{name}` declared more than once"

namespace Schema

def tag : Schema → Tag
  | bool => .bool
  | str => .str
  | u8 => .u8
  | u16 => .u16
  | u32 => .u32
  | i32 => .i32
  | f32 => .f32
  | f64 => .f64
  | enum _ => .enum
  | struct _ => .struct
  | tuple _ => .tuple
  | union _ => .union
  | vec _ => .vec
  | option _ => .option
  | nullable _ => .nullable

/-- The schema, unless a name occurs twice among those it declares. -/
def ifDistinct (names : List String) (schema : Schema) : Except SchemaError Schema :=
  match Entries.repeated? [] names with
  | some name => .error (.duplicate name)
  | none => .ok schema

def ofNames (names : List String) : Except SchemaError Schema :=
  ifDistinct names (enum names)

def ofComponents (components : List Schema) : Except SchemaError Schema :=
  if components.length < 2 then .error (.tupleArity components.length) else .ok (tuple components)

def ofFields (fields : List (String × Schema)) : Except SchemaError Schema :=
  ifDistinct (Entries.names fields) (struct fields)

def ofVariants (variants : List (String × Option Schema)) : Except SchemaError Schema :=
  ifDistinct (Entries.names variants) (union variants)

/-- A struct of whatever entries are given; a repeated name keeps its first position and its last schema. -/
def mergeFields (entries : List (String × Schema)) : Schema :=
  struct (Entries.ofList entries)

/-- A union of whatever entries are given; a repeated tag keeps its first position and its last payload. -/
def mergeVariants (entries : List (String × Option Schema)) : Schema :=
  union (Entries.ofList entries)

mutual

/-- No struct and no union anywhere inside declares a name twice. -/
def Keyed : Schema → Prop
  | struct fields => (Entries.names fields).Nodup ∧ KeyedFields fields
  | tuple components => KeyedComponents components
  | union variants => (Entries.names variants).Nodup ∧ KeyedVariants variants
  | vec element | option element | nullable element => element.Keyed
  | bool | str | u8 | u16 | u32 | i32 | f32 | f64 | enum _ => True

def KeyedFields : List (String × Schema) → Prop
  | [] => True
  | (_, schema) :: rest => schema.Keyed ∧ KeyedFields rest

def KeyedComponents : List Schema → Prop
  | [] => True
  | schema :: rest => schema.Keyed ∧ KeyedComponents rest

def KeyedVariants : List (String × Option Schema) → Prop
  | [] => True
  | (_, none) :: rest => KeyedVariants rest
  | (_, some schema) :: rest => schema.Keyed ∧ KeyedVariants rest

end

/-- The schemas directly inside a schema. -/
def parts : Schema → List Schema
  | struct fields => fields.map Prod.snd
  | tuple components => components
  | union variants => variants.filterMap Prod.snd
  | vec element | option element | nullable element => [element]
  | bool | str | u8 | u16 | u32 | i32 | f32 | f64 | enum _ => []

theorem sizeOf_lt_of_mem_parts {schema part : Schema} (h : part ∈ schema.parts) : sizeOf part < sizeOf schema := by
  cases schema with
  | struct fields =>
    obtain ⟨⟨name, field⟩, hmem, rfl⟩ := List.mem_map.1 h
    have hlt := List.sizeOf_lt_of_mem hmem
    simp only [Prod.mk.sizeOf_spec, struct.sizeOf_spec] at *
    omega
  | tuple components =>
    have hlt := List.sizeOf_lt_of_mem (show part ∈ components from h)
    simp only [tuple.sizeOf_spec]
    omega
  | union variants =>
    obtain ⟨⟨tag, payload⟩, hmem, rfl⟩ := List.mem_filterMap.1 h
    have hlt := List.sizeOf_lt_of_mem hmem
    simp only [Prod.mk.sizeOf_spec, Option.some.sizeOf_spec, union.sizeOf_spec] at *
    omega
  | vec element | option element | nullable element =>
    obtain rfl := List.mem_singleton.1 h
    simp
  | _ => cases h

theorem keyedFields_iff (fields : List (String × Schema)) :
    KeyedFields fields ↔ ∀ part ∈ fields.map Prod.snd, part.Keyed := by
  induction fields with
  | nil => simp [KeyedFields]
  | cons field rest ih => simp [KeyedFields, ih]

theorem keyedComponents_iff (components : List Schema) :
    KeyedComponents components ↔ ∀ part ∈ components, part.Keyed := by
  induction components with
  | nil => simp [KeyedComponents]
  | cons schema rest ih => simp [KeyedComponents, ih]

theorem keyedVariants_iff (variants : List (String × Option Schema)) :
    KeyedVariants variants ↔ ∀ part ∈ variants.filterMap Prod.snd, part.Keyed := by
  induction variants with
  | nil => simp [KeyedVariants]
  | cons variant rest ih =>
    obtain ⟨tag, _ | schema⟩ := variant
    · exact ih
    · simp [KeyedVariants, ih]

theorem Keyed.part {schema part : Schema} (h : schema.Keyed) (hpart : part ∈ schema.parts) : part.Keyed := by
  cases schema with
  | struct fields => exact (keyedFields_iff fields).1 h.2 part hpart
  | tuple components => exact (keyedComponents_iff components).1 h part hpart
  | union variants => exact (keyedVariants_iff variants).1 h.2 part hpart
  | vec element | option element | nullable element =>
    obtain rfl := List.mem_singleton.1 hpart
    exact h
  | _ => cases hpart

/-- What holds of a schema whenever it holds of its parts holds of every schema. -/
@[elab_as_elim]
theorem induction_on_parts {motive : Schema → Prop} (schema : Schema)
    (step : ∀ schema : Schema, (∀ part ∈ schema.parts, motive part) → motive schema) : motive schema :=
  step schema fun part _ => induction_on_parts part step
termination_by sizeOf schema
decreasing_by exact sizeOf_lt_of_mem_parts ‹_›

theorem ofFields_eq_ok_iff (fields : List (String × Schema)) (schema : Schema) :
    ofFields fields = .ok schema ↔ (Entries.names fields).Nodup ∧ schema = struct fields := by
  have h := Entries.repeated?_eq_none_iff [] (Entries.names fields)
  unfold ofFields ifDistinct
  split <;> simp_all [eq_comm]

theorem ofVariants_eq_ok_iff (variants : List (String × Option Schema)) (schema : Schema) :
    ofVariants variants = .ok schema ↔ (Entries.names variants).Nodup ∧ schema = union variants := by
  have h := Entries.repeated?_eq_none_iff [] (Entries.names variants)
  unfold ofVariants ifDistinct
  split <;> simp_all [eq_comm]

theorem ofNames_eq_ok_iff (names : List String) (schema : Schema) :
    ofNames names = .ok schema ↔ names.Nodup ∧ schema = enum names := by
  have h := Entries.repeated?_eq_none_iff [] names
  unfold ofNames ifDistinct
  split <;> simp_all [eq_comm]

end Schema

end WireFormat
