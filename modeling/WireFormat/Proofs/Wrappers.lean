import WireFormat.Proofs.Writing

/-!
# Wrappers around wrappers

A dynamic value has one absence, one null and one mark for what is present, however deep the optionals and nullables
around it are nested. Three ways of nesting make two of these meet. Main statement: where none of the three occurs,
what an element shows is never what the wrapper around it takes for its own absence or mark.
-/
namespace WireFormat

namespace Schema

mutual

/-- The schema and every schema inside it. -/
def nodes : Schema → List Schema
  | bool => [bool]
  | str => [str]
  | u8 => [u8]
  | u16 => [u16]
  | u32 => [u32]
  | i32 => [i32]
  | f32 => [f32]
  | f64 => [f64]
  | enum names => [enum names]
  | struct fields => struct fields :: nodesOfFields fields
  | tuple components => tuple components :: nodesOfComponents components
  | union variants => union variants :: nodesOfVariants variants
  | vec element => vec element :: element.nodes
  | option element => option element :: element.nodes
  | nullable element => nullable element :: element.nodes

def nodesOfFields : List (String × Schema) → List Schema
  | [] => []
  | (_, schema) :: rest => schema.nodes ++ nodesOfFields rest

def nodesOfComponents : List Schema → List Schema
  | [] => []
  | schema :: rest => schema.nodes ++ nodesOfComponents rest

def nodesOfVariants : List (String × Option Schema) → List Schema
  | [] => []
  | (_, none) :: rest => nodesOfVariants rest
  | (_, some schema) :: rest => schema.nodes ++ nodesOfVariants rest

end

theorem mem_nodes (schema : Schema) : schema ∈ schema.nodes := by
  cases schema <;> simp only [nodes, List.mem_cons, true_or]

theorem nodesOfFields_eq (fields : List (String × Schema)) :
    nodesOfFields fields = (fields.map Prod.snd).flatMap nodes := by
  induction fields with
  | nil => rfl
  | cons field rest ih => rw [nodesOfFields, ih, List.map_cons, List.flatMap_cons]

theorem nodesOfComponents_eq (components : List Schema) : nodesOfComponents components = components.flatMap nodes := by
  induction components with
  | nil => rfl
  | cons schema rest ih => rw [nodesOfComponents, ih, List.flatMap_cons]

theorem nodesOfVariants_eq (variants : List (String × Option Schema)) :
    nodesOfVariants variants = (variants.filterMap Prod.snd).flatMap nodes := by
  induction variants with
  | nil => rfl
  | cons variant rest ih =>
    obtain ⟨tag, _ | schema⟩ := variant
    · exact ih
    · exact congrArg (schema.nodes ++ ·) ih

theorem nodes_eq (schema : Schema) : schema.nodes = schema :: schema.parts.flatMap nodes := by
  cases schema with
  | struct fields => exact congrArg (struct fields :: ·) (nodesOfFields_eq fields)
  | tuple components => exact congrArg (tuple components :: ·) (nodesOfComponents_eq components)
  | union variants => exact congrArg (union variants :: ·) (nodesOfVariants_eq variants)
  | vec element | option element | nullable element => rw [parts, List.flatMap_singleton, nodes]
  | _ => rfl

/-- The schemas inside a part are inside the schema. -/
theorem mem_nodes_of_mem_parts {schema part node : Schema} (hpart : part ∈ schema.parts) (hnode : node ∈ part.nodes) :
    node ∈ schema.nodes := by
  rw [nodes_eq]
  exact List.mem_cons_of_mem _ (List.mem_flatMap.2 ⟨part, hpart, hnode⟩)

/-- A wrapper whose own absence or mark is also one of what it wraps. -/
def collides : Schema → Bool
  | nullable (nullable _) => true
  | nullable (option (nullable _)) => true
  | option (nullable (option _)) => true
  | _ => false

/-- No wrapper inside the schema collides with what it wraps. -/
def Apart (schema : Schema) : Prop :=
  ∀ node ∈ schema.nodes, node.collides = false

instance (schema : Schema) : Decidable schema.Apart :=
  inferInstanceAs (Decidable (∀ node ∈ schema.nodes, node.collides = false))

theorem Apart.vec {element : Schema} (h : (vec element).Apart) : element.Apart :=
  fun node hnode => h node (List.mem_cons_of_mem _ hnode)

theorem Apart.option {element : Schema} (h : (option element).Apart) : element.Apart :=
  fun node hnode => h node (List.mem_cons_of_mem _ hnode)

theorem Apart.nullable {element : Schema} (h : (nullable element).Apart) : element.Apart :=
  fun node hnode => h node (List.mem_cons_of_mem _ hnode)

/-- The kinds of value that a schema may read. Only wrappers read absences, nulls and marks. -/
def Shows : Schema → Kind → Prop
  | option element, kind => kind = .undefined ∨ if element.tag = .option then kind = .some else element.Shows kind
  | nullable element, kind => kind = .null ∨ element.Shows kind
  | bool, kind | str, kind | u8, kind | u16, kind | u32, kind | i32, kind | f32, kind | f64, kind | enum _, kind
  | struct _, kind | tuple _, kind | union _, kind | vec _, kind => kind ≠ .undefined ∧ kind ≠ .some ∧ kind ≠ .null

theorem shows_presented {element : Schema} {value : Value} (h : element.Shows value.kind) :
    (option element).Shows (element.presented value).kind := by
  right
  rw [presented_eq]
  by_cases htag : element.tag = .option
  · rw [if_pos htag, if_pos htag]
    rfl
  · rw [if_neg htag, if_neg htag]
    exact h

/-- A nullable below an optional shows no absence and no mark unless it wraps an optional. -/
theorem Apart.not_shows_option {element : Schema} {kind : Kind} (h : (Schema.option element).Apart)
    (htag : element.tag ≠ .option) (hkind : element.Shows kind) : kind ≠ .undefined ∧ kind ≠ .some := by
  have hhere := h _ (mem_nodes _)
  cases element with
  | option element => exact absurd rfl htag
  | nullable element =>
    have hbelow := h.option _ (mem_nodes _)
    cases element with
    | option element => cases hhere
    | nullable element => cases hbelow
    | _ =>
      rcases hkind with rfl | hkind
      · exact ⟨Kind.noConfusion, Kind.noConfusion⟩
      · exact ⟨hkind.1, hkind.2.1⟩
  | _ => exact ⟨hkind.1, hkind.2.1⟩

theorem Apart.not_shows_nullable {element : Schema} {kind : Kind} (h : (Schema.nullable element).Apart)
    (hkind : element.Shows kind) : kind ≠ .null := by
  have hhere := h _ (mem_nodes _)
  cases element with
  | nullable element => cases hhere
  | option element =>
    rcases hkind with rfl | hkind
    · exact Kind.noConfusion
    · split at hkind
      · rw [hkind]
        exact Kind.noConfusion
      · cases element with
        | nullable element => cases hhere
        | option element => exact absurd rfl ‹_›
        | _ => exact hkind.2.2
  | _ => exact hkind.2.2

/-- Where wrappers are apart, what was read as present is written as present. -/
theorem Apart.write_option {element : Schema} {value : Value} (h : (Schema.option element).Apart)
    (hvalue : element.Shows value.kind) :
    (Schema.option element).write (element.presented value) = (element.write value).after [.mark true] :=
  write_option_presented (fun htag => (h.not_shows_option htag hvalue).1) fun htag =>
    (h.not_shows_option htag hvalue).2

theorem Apart.write_nullable {element : Schema} {value : Value} (h : (Schema.nullable element).Apart)
    (hvalue : element.Shows value.kind) :
    (Schema.nullable element).write value = (element.write value).after [.mark true] :=
  Schema.write_nullable (h.not_shows_nullable hvalue)

/-- What collides is an absence that the wrapped schema shows as well. -/
theorem shows_of_collides_option {element : Schema} (h : (Schema.option element).collides = true) :
    element.tag ≠ .option ∧ element.Shows .undefined := by
  cases element with
  | nullable element =>
    cases element with
    | option element => exact ⟨Tag.noConfusion, .inr (.inl rfl)⟩
    | _ => cases h
  | _ => cases h

theorem shows_of_collides_nullable {element : Schema} (h : (Schema.nullable element).collides = true) :
    element.Shows .null := by
  cases element with
  | nullable element => exact .inl rfl
  | option element =>
    cases element with
    | nullable element => exact .inr (.inl rfl)
    | _ => cases h
  | _ => cases h

/-- Below anything but an optional, a mark can only come from an optional, which can be absent. -/
theorem shows_undefined_of_some (element : Schema) (htag : element.tag ≠ .option) (h : element.Shows .some) :
    element.Shows .undefined := by
  cases element with
  | option element => exact absurd rfl htag
  | nullable element =>
    rcases h with h | h
    · cases h
    · by_cases hbelow : element.tag = .option
      · cases element with
        | option element => exact .inr (.inl rfl)
        | _ => cases hbelow
      · exact .inr (shows_undefined_of_some element hbelow h)
  | _ => exact absurd rfl h.2.1

end Schema

end WireFormat
