import Mathlib
import WireFormat.Proofs.RoundTrip
import WireFormat.Proofs.Rounding
import WireFormat.Proofs.Simulation
import WireFormat.Proofs.Wrappers

/-!
# Schemas reproduce the bytes of their layouts

The schema of a layout decodes every encoding of the layout to the image of the encoded value. Main statement: where no
wrapper collides with what it wraps, it writes the image of a value as the very pieces of the value, so what it has
decoded it encodes to the same bytes.
-/
namespace WireFormat

theorem Fields.nodup {Self α : Type} {names : List String} (fields : Fields Self names α) : names.Nodup := by
  cases fields with
  | nil => exact List.nodup_nil
  | cons _ _ rest fresh => exact List.nodup_cons.2 ⟨fresh, rest.nodup⟩

theorem Fields.names_schemasWith {Self α : Type} {names : List String} (self : Schema)
    (fields : Fields Self names α) : Entries.names (fields.schemasWith self) = names := by
  cases fields with
  | nil => rfl
  | cons name _ rest _ => exact congrArg (name :: ·) (rest.names_schemasWith self)

theorem Fields.names_toValues {names : List String} {α : Type} (fields : Fields Unit names α) (value : α) :
    Entries.names (fields.toValues value) = names := by
  match fields, value with
  | .nil, _ => rfl
  | .cons name _ rest _, (_, b) => exact congrArg (name :: ·) (rest.names_toValues b)

theorem Fields.writeFields_toValues {names : List String} {α : Type} (fields : Fields Unit names α) (value : α) :
    Schema.writeFields (fields.schemasWith (.struct [])) (fields.toValues value) =
      Schema.writeComponents ((fields.schemasWith (.struct [])).map Prod.snd)
        ((fields.toValues value).map Prod.snd) := by
  have hnames : Entries.names (fields.toValues value) = Entries.names (fields.schemasWith (.struct [])) :=
    (fields.names_toValues value).trans (fields.names_schemasWith _).symm
  have hnodup : (Entries.names (fields.schemasWith (.struct []))).Nodup := by
    rw [fields.names_schemasWith]
    exact fields.nodup
  exact Schema.writeFields_eq_writeComponents hnames hnodup

theorem Parts.length_toValues {α : Type} (parts : Parts Unit α) (value : α) :
    (parts.toValues value).length = (parts.schemasWith (.struct [])).length := by
  match parts, value with
  | .pair _ _, _ => rfl
  | .cons _ rest, (_, b) => exact congrArg (· + 1) (rest.length_toValues b)

/-- The tag of the value of a union is one of those declared. -/
theorem Variants.variant?_toValue {tags : List String} {α : Type} (variants : Variants Unit tags α) (value : α) :
    ∃ tag ∈ tags, (variants.toValue value).variant? = some tag := by
  match variants, value with
  | .unit tag _ _, .inl _ => exact ⟨tag, List.mem_cons_self, rfl⟩
  | .payload tag _ _ _, .inl _ => exact ⟨tag, List.mem_cons_self, rfl⟩
  | .unit _ rest _, .inr b | .payload _ _ rest _, .inr b =>
    obtain ⟨tag, htag, hvalue⟩ := rest.variant?_toValue b
    exact ⟨tag, List.mem_cons_of_mem _ htag, hvalue⟩

/-- Writing the payload that a value of a union carries. -/
def Variants.writePayload {tags : List String} {α : Type} : Variants Unit tags α → α → Written
  | .unit _ _ _, .inl _ => .done []
  | .unit _ rest _, .inr b => rest.writePayload b
  | .payload _ layout _ _, .inl a => (layout.schemaWith (.struct [])).write (layout.toValue a)
  | .payload _ _ rest _, .inr b => rest.writePayload b

theorem Variants.writeUnion_toValue {tags : List String} {α : Type} (variants : Variants Unit tags α) (value : α)
    (index : Nat) :
    Schema.writeUnion (variants.schemasWith (.struct [])) index (variants.toValue value) =
      (variants.writePayload value).after [.index (index + variants.indexOf value)] := by
  match variants, value with
  | .unit tag rest _, .inl _ => exact Schema.writeUnion_unit _ _ _
  | .payload tag layout rest _, .inl a => exact Schema.writeUnion_tagged _ _ _ _ _
  | .unit tag rest fresh, .inr b | .payload tag _ rest fresh, .inr b =>
    obtain ⟨other, hother, hvalue⟩ := rest.variant?_toValue b
    have hne : (rest.toValue b).variant? ≠ some tag := by
      rw [hvalue]
      rintro ⟨⟩
      exact fresh hother
    have ih := rest.writeUnion_toValue b (index + 1)
    rw [Nat.add_right_comm] at ih
    exact (Schema.writeUnion_cons hne).trans ih

theorem Layout.toValue_some {α : Type} (element : Layout Unit α) (a : α) :
    element.optional.toValue (some a) = (element.schemaWith (.struct [])).presented (element.toValue a) :=
  (Schema.presented_eq _ _).symm

theorem Layout.shows_toValue {α : Type} (layout : Layout Unit α) (value : α) :
    (layout.schemaWith (.struct [])).Shows (layout.toValue value).kind := by
  cases layout with
  | union name variants bounded =>
    obtain ⟨tag, -, hvalue⟩ := variants.variant?_toValue value
    have hkind : ((Layout.union name variants bounded).toValue value).kind = .union := Value.kind_of_variant? hvalue
    rw [hkind]
    exact ⟨Kind.noConfusion, Kind.noConfusion, Kind.noConfusion⟩
  | optional element =>
    cases value with
    | none => exact .inl rfl
    | some a =>
      rw [Layout.toValue_some]
      exact Schema.shows_presented (element.shows_toValue a)
  | nullable element =>
    cases value with
    | null => exact .inl rfl
    | value a => exact .inr (element.shows_toValue a)
  | retyped host base => exact base.shows_toValue (host.view value)
  | _ => exact ⟨Kind.noConfusion, Kind.noConfusion, Kind.noConfusion⟩

open Schema

/-- The image of the value is written as the pieces of the value. -/
def Layout.Reproduces {α : Type} (layout : Layout Unit α) (value : α) : Prop :=
  (layout.schemaWith (.struct [])).write (layout.toValue value) = .done (layout.pieces Codec.unit.pieces value)

def Parts.Reproduces {α : Type} (parts : Parts Unit α) (value : α) : Prop :=
  writeComponents (parts.schemasWith (.struct [])) (parts.toValues value) = .done (parts.pieces Codec.unit.pieces value)

def Fields.Reproduces {names : List String} {α : Type} (fields : Fields Unit names α) (value : α) : Prop :=
  writeComponents ((fields.schemasWith (.struct [])).map Prod.snd) ((fields.toValues value).map Prod.snd) =
    .done (fields.pieces Codec.unit.pieces value)

def Variants.Reproduces {tags : List String} {α : Type} (variants : Variants Unit tags α) (value : α) : Prop :=
  variants.writePayload value = .done (variants.payloadPieces Codec.unit.pieces value)

section

variable {α β : Type} {names tags : List String}

theorem Parts.reproduces_pair {first : Layout Unit α} {second : Layout Unit β} {a : α} {b : β}
    (ha : first.Reproduces a) (hb : second.Reproduces b) : (Parts.pair first second).Reproduces (a, b) := by
  rw [Layout.Reproduces] at ha hb
  rw [Parts.Reproduces, Parts.schemasWith, Parts.toValues, writeComponents, writeComponents_single, ha, hb]
  rfl

theorem Parts.reproduces_cons {first : Layout Unit α} {rest : Parts Unit β} {a : α} {b : β}
    (ha : first.Reproduces a) (hb : rest.Reproduces b) : (Parts.cons first rest).Reproduces (a, b) := by
  rw [Layout.Reproduces] at ha
  rw [Parts.Reproduces] at hb
  rw [Parts.Reproduces, Parts.schemasWith, Parts.toValues, writeComponents, ha, hb]
  rfl

theorem Fields.reproduces_cons {name : String} {layout : Layout Unit α} {rest : Fields Unit names β}
    {fresh : name ∉ names} {a : α} {b : β} (ha : layout.Reproduces a) (hb : rest.Reproduces b) :
    (Fields.cons name layout rest fresh).Reproduces (a, b) := by
  rw [Layout.Reproduces] at ha
  rw [Fields.Reproduces] at hb
  rw [Fields.Reproduces, Fields.schemasWith, Fields.toValues, List.map_cons, List.map_cons, writeComponents, ha, hb]
  rfl

theorem Layout.reproduces_record {name : String} {fields : Fields Unit names α} {value : α}
    (h : fields.Reproduces value) : (Layout.record name fields).Reproduces value :=
  (fields.writeFields_toValues value).trans h

theorem Layout.reproduces_tuple {parts : Parts Unit α} {value : α} (h : parts.Reproduces value) :
    (Layout.tuple parts).Reproduces value :=
  (if_pos (parts.length_toValues value)).trans h

theorem Layout.reproduces_union {name : String} {variants : Variants Unit tags α}
    {bounded : tags.length ≤ 0x100000000} {value : α} (h : variants.Reproduces value) :
    (Layout.union name variants bounded).Reproduces value := by
  have hunion := variants.writeUnion_toValue value 0
  rw [Variants.Reproduces] at h
  rw [h, Nat.zero_add] at hunion
  exact (write_union _ _).trans hunion

theorem Layout.reproduces_vector {element : Layout Unit α} {items : List α} (h : ∀ a ∈ items, element.Reproduces a) :
    element.vector.Reproduces items := by
  have hall := Written.all_done h
  show (Written.all ((items.map element.toValue).map _)).after [.frame (items.map element.toValue).length] = _
  rw [List.map_map, List.length_map, Function.comp_def, hall]
  rfl

theorem Layout.reproduces_some {element : Layout Unit α} {a : α}
    (hapart : (element.optional.schemaWith (.struct [])).Apart) (h : element.Reproduces a) :
    element.optional.Reproduces (some a) := by
  rw [Layout.Reproduces] at h
  rw [Layout.Reproduces, Layout.toValue_some]
  refine (hapart.write_option (element.shows_toValue a)).trans ?_
  rw [h]
  rfl

theorem Layout.reproduces_value {element : Layout Unit α} {a : α}
    (hapart : (element.nullable.schemaWith (.struct [])).Apart) (h : element.Reproduces a) :
    element.nullable.Reproduces (.value a) := by
  rw [Layout.Reproduces] at h
  refine (hapart.write_nullable (element.shows_toValue a)).trans ?_
  rw [h]
  rfl

theorem Layout.reproduces_retyped {host : Alias α β} {base : Layout Unit α} {a : α} (h : base.Reproduces a) :
    (Layout.retyped host base).Reproduces (host.make a) := by
  rwa [Layout.Reproduces, Layout.toValue, Layout.pieces, host.view_make]

end

section

variable {limits : Limits} {ok : Unit → Prop}

mutual

/-- By induction on the layout. A collision would break the induction at the wrapper where it occurs. -/
theorem Layout.reproduces {α : Type} (hsingle : ∀ x, limits.single x → x.isNaN = false) :
    (layout : Layout Unit α) → (value : α) → layout.Within limits ok value →
      (layout.schemaWith (.struct [])).Apart → layout.Reproduces value
  | .bool, _, _, _ => rfl
  | .str, _, _, _ => rfl
  | .u8, n, _, _ => write_u8 n
  | .u16, n, _, _ => write_u16 n
  | .u32, n, _, _ => write_u32 n
  | .i32, n, _, _ => write_i32 n
  | .f32, x, h, _ => write_f32 (Floating.narrow_widen (hsingle x h))
  | .f64, _, _, _ => rfl
  | .enumeration e, variant, _, _ => write_enum e.distinct variant.isLt
  | .record _ fields, value, h, hapart => by
    apply Layout.reproduces_record
    exact fields.reproduces hsingle value h fun node hnode => hapart node (List.mem_cons_of_mem _ hnode)
  | .tuple parts, value, h, hapart => by
    apply Layout.reproduces_tuple
    exact parts.reproduces hsingle value h fun node hnode => hapart node (List.mem_cons_of_mem _ hnode)
  | .union name variants bounded, value, h, hapart => by
    apply Layout.reproduces_union
    exact variants.reproduces hsingle value h fun node hnode => hapart node (List.mem_cons_of_mem _ hnode)
  | .vector element, items, h, hapart => by
    apply Layout.reproduces_vector
    intro a ha
    exact element.reproduces hsingle a (h.2 a ha) hapart.vec
  | .optional _, none, _, _ => rfl
  | .optional element, some a, h, hapart =>
    Layout.reproduces_some hapart (element.reproduces hsingle a (h a rfl) hapart.option)
  | .nullable _, .null, _, _ => rfl
  | .nullable element, .value a, h, hapart =>
    Layout.reproduces_value hapart (element.reproduces hsingle a (h a rfl) hapart.nullable)
  | .retyped host base, value, h, hapart => base.reproduces hsingle (host.view value) h hapart
  | .self, _, _, _ => rfl

theorem Parts.reproduces {α : Type} (hsingle : ∀ x, limits.single x → x.isNaN = false) :
    (parts : Parts Unit α) → (value : α) → parts.Within limits ok value →
      (∀ node ∈ nodesOfComponents (parts.schemasWith (.struct [])), node.collides = false) → parts.Reproduces value
  | .pair first second, (a, b), h, hapart => by
    apply Parts.reproduces_pair
    · exact first.reproduces hsingle a h.1 fun node hnode => hapart node (List.mem_append_left _ hnode)
    · exact second.reproduces hsingle b h.2 fun node hnode =>
        hapart node (List.mem_append_right _ (List.mem_append_left _ hnode))
  | .cons first rest, (a, b), h, hapart => by
    apply Parts.reproduces_cons
    · exact first.reproduces hsingle a h.1 fun node hnode => hapart node (List.mem_append_left _ hnode)
    · exact rest.reproduces hsingle b h.2 fun node hnode => hapart node (List.mem_append_right _ hnode)

theorem Fields.reproduces {names : List String} {α : Type} (hsingle : ∀ x, limits.single x → x.isNaN = false) :
    (fields : Fields Unit names α) → (value : α) → fields.Within limits ok value →
      (∀ node ∈ nodesOfFields (fields.schemasWith (.struct [])), node.collides = false) → fields.Reproduces value
  | .nil, _, _, _ => rfl
  | .cons name layout rest fresh, (a, b), h, hapart => by
    apply Fields.reproduces_cons
    · exact layout.reproduces hsingle a h.1 fun node hnode => hapart node (List.mem_append_left _ hnode)
    · exact rest.reproduces hsingle b h.2 fun node hnode => hapart node (List.mem_append_right _ hnode)

theorem Variants.reproduces {tags : List String} {α : Type} (hsingle : ∀ x, limits.single x → x.isNaN = false) :
    (variants : Variants Unit tags α) → (value : α) → variants.Within limits ok value →
      (∀ node ∈ nodesOfVariants (variants.schemasWith (.struct [])), node.collides = false) →
      variants.Reproduces value
  | .unit _ _ _, .inl _, _, _ => rfl
  | .unit _ rest _, .inr b, h, hapart => rest.reproduces hsingle b h hapart
  | .payload _ layout _ _, .inl a, h, hapart =>
    layout.reproduces hsingle a h fun node hnode => hapart node (List.mem_append_left _ hnode)
  | .payload _ _ rest _, .inr b, h, hapart =>
    rest.reproduces hsingle b h fun node hnode => hapart node (List.mem_append_right _ hnode)

end

end

/-- A schema decodes an encoding of its layout to the image of the encoded value. -/
theorem Layout.schema_decode_encode {α : Type} {limits : Limits} (hlimits : ∀ n, limits.length n → n < 2 ^ 32)
    (layout : Layout Unit α) (value : α) (h : layout.Within limits (fun _ => True) value) (leftover : Leftover) :
    layout.schema.decode leftover (layout.codec.encode value) = .ok (layout.toValue value) := by
  have hstatic := (layout.codec_yields hlimits value h).decode leftover
  have hagree := layout.read_simulates.decode leftover (layout.codec.encode value)
  rw [Codec.encode_eq] at hagree ⊢
  rw [show (layout.read Codec.unit.read).decode leftover _ = _ from hstatic] at hagree
  cases hdynamic : layout.schema.decode leftover (bytesOf .little (layout.codec.pieces value)) with
  | ok w =>
    rw [show (layout.schemaWith (.struct [])).read.decode leftover _ = _ from hdynamic] at hagree
    cases hagree
    rfl
  | error e =>
    rw [show (layout.schemaWith (.struct [])).read.decode leftover _ = _ from hdynamic] at hagree
    cases hagree

/-- The schema of the layout decodes the encoding of the value, and encodes what it has decoded to the same bytes. -/
def Layout.Reproduced {α : Type} (layout : Layout Unit α) (value : α) : Prop :=
  ∀ leftover, ∃ image, layout.schema.decode leftover (layout.codec.encode value) = .ok image ∧
    layout.schema.encode image = .ok (layout.codec.encode value)

theorem Layout.Reproduces.reproduced {α : Type} {limits : Limits} (hlimits : ∀ n, limits.length n → n < 2 ^ 32)
    {layout : Layout Unit α} {value : α} (h : layout.Within limits (fun _ => True) value)
    (hreproduces : layout.Reproduces value) : layout.Reproduced value := by
  intro leftover
  refine ⟨layout.toValue value, layout.schema_decode_encode hlimits value h leftover, ?_⟩
  rw [Codec.encode_eq]
  exact encode_of_done hreproduces

end WireFormat
