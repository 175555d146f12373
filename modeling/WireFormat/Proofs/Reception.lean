import WireFormat.Layout.Schema
import WireFormat.Proofs.Acceptance
import WireFormat.Proofs.RoundTrip

/-!
# Layouts read what their schemas write

A schema accepts values that no value of its layout looks like: numbers that are coerced, fields that are left out, marks
that are missing. Main statement: whatever it accepts, it writes it as the pieces of some value of the layout, so the
layout decodes the bytes, and encodes what it has decoded to the same bytes.
-/
namespace WireFormat
open Floating Schema

/-- What the schema accepts is written as a value of the layout is. -/
def Layout.Receives {α : Type} (layout : Layout Unit α) : Prop :=
  ∀ ⦃value : Value⦄, (layout.schemaWith (.struct [])).Accepts value → value.Short →
    ∃ a, layout.Short a ∧ ((layout.schemaWith (.struct [])).write value).pieces = layout.pieces Codec.unit.pieces a

def Parts.Receives {α : Type} (parts : Parts Unit α) : Prop :=
  ∀ ⦃values : List Value⦄, values.length = (parts.schemasWith (.struct [])).length →
    (writeComponents (parts.schemasWith (.struct [])) values).error? = none → Value.ShortItems values →
      ∃ a, parts.Within .short (fun _ => True) a ∧
        (writeComponents (parts.schemasWith (.struct [])) values).pieces = parts.pieces Codec.unit.pieces a

def Fields.Receives {names : List String} {α : Type} (fields : Fields Unit names α) : Prop :=
  ∀ ⦃values : List (String × Value)⦄, (writeFields (fields.schemasWith (.struct [])) values).error? = none →
    Value.ShortFields values →
      ∃ a, fields.Within .short (fun _ => True) a ∧
        (writeFields (fields.schemasWith (.struct [])) values).pieces = fields.pieces Codec.unit.pieces a

/-- The index that is written is the one of the variant. -/
def Variants.Receives {tags : List String} {α : Type} (variants : Variants Unit tags α) : Prop :=
  ∀ ⦃start : Nat⦄ ⦃value : Value⦄, (writeUnion (variants.schemasWith (.struct [])) start value).error? = none →
    value.Short →
      ∃ a, variants.Within .short (fun _ => True) a ∧
        (writeUnion (variants.schemasWith (.struct [])) start value).pieces =
          .index (start + variants.indexOf a) :: variants.payloadPieces Codec.unit.pieces a

section

variable {α β : Type} {names tags : List String}

theorem Layout.receives_bool : (Layout.bool : Layout Unit Bool).Receives := by
  intro value h hshort
  obtain ⟨b, rfl⟩ := h.bool
  exact ⟨b, trivial, rfl⟩

theorem Layout.receives_str : (Layout.str : Layout Unit String).Receives := by
  intro value h hshort
  obtain ⟨s, rfl⟩ := h.str
  exact ⟨s, hshort, rfl⟩

theorem Layout.receives_enumeration (e : Enumeration) : (Layout.enumeration e : Layout Unit e.Variant).Receives := by
  intro value h hshort
  obtain ⟨index, hindex, rfl, -, hwrite⟩ := Accepts.enum h
  refine ⟨⟨index, hindex⟩, trivial, ?_⟩
  rw [Layout.schemaWith, hwrite]
  rfl

/-- An integer schema and a float schema write the number that they make of the value. -/
theorem Layout.receives_integer {layout : Layout Unit α} {schema : Schema} {piece : Int64 → Piece} (narrow : Int64 → α)
    (hwrite : ∀ value, (layout.schemaWith (.struct [])).write value = writeInteger schema piece value)
    (hpieces : ∀ i, layout.pieces Codec.unit.pieces (narrow i) = [piece i]) (hshort : ∀ i, layout.Short (narrow i)) :
    layout.Receives := by
  intro value h _
  rw [Accepts, hwrite] at h
  obtain ⟨i, -, hi⟩ := integer_accepted h
  refine ⟨narrow i, hshort i, ?_⟩
  rw [hwrite, hi, hpieces]
  rfl

theorem Layout.receives_float {layout : Layout Unit α} {schema : Schema} {piece : Binary64 → Piece}
    (narrow : Binary64 → α)
    (hwrite : ∀ value, (layout.schemaWith (.struct [])).write value = writeFloat schema piece value)
    (hpieces : ∀ x, layout.pieces Codec.unit.pieces (narrow x) = [piece x]) (hshort : ∀ x, layout.Short (narrow x)) :
    layout.Receives := by
  intro value h _
  rw [Accepts, hwrite] at h
  obtain ⟨x, -, hx⟩ := float_accepted h
  refine ⟨narrow x, hshort x, ?_⟩
  rw [hwrite, hx, hpieces]
  rfl

theorem Layout.receives_record {name : String} {fields : Fields Unit names α} (h : fields.Receives) :
    (Layout.record name fields).Receives := by
  intro value haccepts hshort
  obtain ⟨values, rfl, hfields⟩ := Accepts.struct haccepts
  exact h hfields hshort

theorem Layout.receives_tuple {parts : Parts Unit α} (h : parts.Receives) : (Layout.tuple parts).Receives := by
  intro value haccepts hshort
  obtain ⟨values, rfl, hlength, hwrite⟩ := Accepts.tuple haccepts
  rw [Accepts, Layout.schemaWith, hwrite] at haccepts
  rw [Layout.schemaWith, hwrite]
  exact h hlength haccepts hshort

theorem Layout.receives_union {name : String} {variants : Variants Unit tags α}
    {bounded : tags.length ≤ 0x100000000} (h : variants.Receives) :
    (Layout.union name variants bounded).Receives := by
  intro value haccepts hshort
  rw [Accepts, Layout.schemaWith, write_union] at haccepts
  obtain ⟨a, ha, hpieces⟩ := h haccepts hshort
  refine ⟨a, ha, ?_⟩
  rw [Layout.schemaWith, write_union, hpieces, Nat.zero_add]
  rfl

theorem Layout.Receives.items {element : Layout Unit α} (h : element.Receives) {values : List Value}
    (haccepts : ∀ value ∈ values, (element.schemaWith (.struct [])).Accepts value)
    (hshort : ∀ value ∈ values, value.Short) :
    ∃ items : List α, items.length = values.length ∧ (∀ a ∈ items, element.Short a) ∧
      values.flatMap (fun value => ((element.schemaWith (.struct [])).write value).pieces) =
        items.flatMap (element.pieces Codec.unit.pieces) := by
  induction values with
  | nil => exact ⟨[], rfl, by simp, rfl⟩
  | cons value rest ih =>
    rw [List.forall_mem_cons] at haccepts hshort
    obtain ⟨a, ha, hpieces⟩ := h haccepts.1 hshort.1
    obtain ⟨items, hlength, hitems, hrest⟩ := ih haccepts.2 hshort.2
    refine ⟨a :: items, congrArg (· + 1) hlength, List.forall_mem_cons.2 ⟨ha, hitems⟩, ?_⟩
    rw [List.flatMap_cons, List.flatMap_cons, hpieces, hrest]

theorem Layout.receives_vector {element : Layout Unit α} (h : element.Receives) : element.vector.Receives := by
  intro value haccepts hshort
  obtain ⟨values, rfl, hvalues, hpieces⟩ := Accepts.vec haccepts
  obtain ⟨items, hlength, hitems, hall⟩ := h.items hvalues ((Value.shortItems_iff values).1 hshort.2)
  refine ⟨items, ⟨?_, hitems⟩, ?_⟩
  · rw [hlength]
    exact hshort.1
  · rw [Layout.schemaWith, hpieces, Layout.pieces, Piece.seq, Piece.seq, hlength, hall]

/-- What a value offers to the element of a wrapper is a value of the element's layout. -/
theorem Layout.Receives.opt {element : Layout Unit α} (h : element.Receives) {offered : Option Value}
    (haccepts : ∀ inner ∈ offered, (element.schemaWith (.struct [])).Accepts inner)
    (hshort : ∀ inner ∈ offered, inner.Short) :
    ∃ a : Option α, element.optional.Short a ∧
      Piece.opt (fun inner => ((element.schemaWith (.struct [])).write inner).pieces) offered =
        Piece.opt (element.pieces Codec.unit.pieces) a := by
  cases offered with
  | none => exact ⟨none, Layout.within_none, rfl⟩
  | some inner =>
    obtain ⟨a, ha, hpieces⟩ := h (haccepts inner rfl) (hshort inner rfl)
    exact ⟨some a, Layout.within_some ha, congrArg (Piece.mark true :: ·) hpieces⟩

theorem Layout.receives_optional {element : Layout Unit α} (h : element.Receives) : element.optional.Receives := by
  intro value haccepts hshort
  obtain ⟨hinner, hpieces⟩ := Accepts.option haccepts
  obtain ⟨a, ha, hopt⟩ := h.opt hinner fun inner => hshort.present?
  exact ⟨a, ha, hpieces.trans hopt⟩

theorem Layout.receives_nullable {element : Layout Unit α} (h : element.Receives) : element.nullable.Receives := by
  intro value haccepts hshort
  obtain ⟨hinner, hpieces⟩ := Accepts.nullable haccepts
  obtain ⟨a, ha, hopt⟩ := h.opt hinner fun inner => hshort.nonNull?
  refine ⟨Nullable.ofOption a, ?_, ?_⟩
  · rw [Layout.Short, Layout.Within, Nullable.toOption_ofOption]
    exact ha
  · rw [Layout.pieces, Nullable.toOption_ofOption]
    exact hpieces.trans hopt

theorem Layout.receives_retyped {host : Alias α β} {base : Layout Unit α} (h : base.Receives) :
    (Layout.retyped host base).Receives := by
  intro value haccepts hshort
  obtain ⟨a, ha, hpieces⟩ := h haccepts hshort
  refine ⟨host.make a, ?_, ?_⟩
  · rw [Layout.Short, Layout.Within, host.view_make]
    exact ha
  · rw [Layout.pieces, host.view_make]
    exact hpieces

theorem Layout.receives_self : (Layout.self : Layout Unit Unit).Receives := by
  intro value haccepts hshort
  obtain ⟨values, rfl, -⟩ := Accepts.struct haccepts
  exact ⟨(), trivial, rfl⟩

theorem Parts.receives_pair {first : Layout Unit α} {second : Layout Unit β} (hfirst : first.Receives)
    (hsecond : second.Receives) : (Parts.pair first second).Receives := by
  intro values hlength haccepts hshort
  match values, hlength with
  | [x, y], _ =>
    obtain ⟨hx, hrest, hpieces⟩ := components_accepted haccepts
    rw [writeComponents_single] at hrest hpieces
    obtain ⟨a, ha, hxpieces⟩ := hfirst hx hshort.1
    obtain ⟨b, hb, hypieces⟩ := hsecond hrest hshort.2.1
    refine ⟨(a, b), ⟨ha, hb⟩, ?_⟩
    rw [Parts.schemasWith, hpieces, hxpieces, hypieces]
    rfl

theorem Parts.receives_cons {first : Layout Unit α} {rest : Parts Unit β} (hfirst : first.Receives)
    (hrest : rest.Receives) : (Parts.cons first rest).Receives := by
  intro values hlength haccepts hshort
  match values, hlength with
  | x :: others, hlength =>
    obtain ⟨hx, hothers, hpieces⟩ := components_accepted haccepts
    obtain ⟨a, ha, hxpieces⟩ := hfirst hx hshort.1
    obtain ⟨b, hb, hmore⟩ := hrest (Nat.succ.inj hlength) hothers hshort.2
    refine ⟨(a, b), ⟨ha, hb⟩, ?_⟩
    rw [Parts.schemasWith, hpieces, hxpieces, hmore]
    rfl

theorem Fields.receives_nil : (Fields.nil : Fields Unit [] Unit).Receives :=
  fun _ _ _ => ⟨(), trivial, rfl⟩

theorem Fields.receives_cons {name : String} {layout : Layout Unit α} {rest : Fields Unit names β}
    {fresh : name ∉ names} (hlayout : layout.Receives) (hrest : rest.Receives) :
    (Fields.cons name layout rest fresh).Receives := by
  intro values haccepts hshort
  obtain ⟨hfield, hothers, hpieces⟩ := fields_accepted haccepts
  obtain ⟨a, ha, hfirst⟩ := hlayout hfield (hshort.field name)
  obtain ⟨b, hb, hmore⟩ := hrest hothers hshort
  refine ⟨(a, b), ⟨ha, hb⟩, ?_⟩
  rw [Fields.schemasWith, hpieces, hfirst, hmore]
  rfl

theorem Variants.receives_nil : (Variants.nil : Variants Unit [] Empty).Receives := by
  intro start value haccepts hshort
  cases value <;> cases haccepts

/-- A variant that is passed over moves the index on. -/
theorem Variants.Receives.passed {name : String} {entry : Option Schema} {rest : Variants Unit tags β} {start : Nat}
    {value : Value} (h : rest.Receives) (hname : value.variant? ≠ some name)
    (haccepts : (writeUnion (rest.schemasWith (.struct [])) (start + 1) value).error? = none) (hshort : value.Short) :
    ∃ b, rest.Within .short (fun _ => True) b ∧
      (writeUnion ((name, entry) :: rest.schemasWith (.struct [])) start value).pieces =
        .index (start + (rest.indexOf b + 1)) :: rest.payloadPieces Codec.unit.pieces b := by
  obtain ⟨b, hb, hpieces⟩ := h haccepts hshort
  refine ⟨b, hb, ?_⟩
  rw [writeUnion_cons hname, hpieces, Nat.add_assoc, Nat.add_comm 1]

theorem Variants.receives_unit {tag : String} {rest : Variants Unit tags β} {fresh : tag ∉ tags}
    (h : rest.Receives) : (Variants.unit tag rest fresh).Receives := by
  intro start value haccepts hshort
  obtain ⟨-, rfl⟩ | ⟨schema, payload, hentry, -⟩ | ⟨hname, hrest⟩ := union_accepted haccepts
  · refine ⟨.inl (), trivial, ?_⟩
    rw [Variants.schemasWith, writeUnion_unit]
    rfl
  · cases hentry
  · obtain ⟨b, hb, hpieces⟩ := h.passed hname hrest hshort
    exact ⟨.inr b, hb, hpieces⟩

theorem Variants.receives_payload {tag : String} {layout : Layout Unit α} {rest : Variants Unit tags β}
    {fresh : tag ∉ tags} (hlayout : layout.Receives) (h : rest.Receives) :
    (Variants.payload tag layout rest fresh).Receives := by
  intro start value haccepts hshort
  obtain ⟨hentry, -⟩ | ⟨schema, payload, hentry, rfl, hpayload⟩ | ⟨hname, hrest⟩ := union_accepted haccepts
  · cases hentry
  · obtain rfl := Option.some.inj hentry
    obtain ⟨a, ha, hpieces⟩ := hlayout hpayload hshort
    refine ⟨.inl a, ha, ?_⟩
    rw [Variants.schemasWith, writeUnion_tagged, Written.pieces_after, hpieces]
    rfl
  · obtain ⟨b, hb, hpieces⟩ := h.passed hname hrest hshort
    exact ⟨.inr b, hb, hpieces⟩

end

mutual

/-- By induction on the layout, along which its schema is built. -/
theorem Layout.receives {α : Type} : (layout : Layout Unit α) → layout.Receives
  | .bool => Layout.receives_bool
  | .str => Layout.receives_str
  | .u8 => Layout.receives_integer Narrow.u8 (fun _ => rfl) (fun _ => rfl) fun _ => trivial
  | .u16 => Layout.receives_integer Narrow.u16 (fun _ => rfl) (fun _ => rfl) fun _ => trivial
  | .u32 => Layout.receives_integer Narrow.u32 (fun _ => rfl) (fun _ => rfl) fun _ => trivial
  | .i32 => Layout.receives_integer Narrow.i32 (fun _ => rfl) (fun _ => rfl) fun _ => trivial
  | .f32 => Layout.receives_float Binary64.narrow (fun _ => rfl) (fun _ => rfl) fun _ => trivial
  | .f64 => Layout.receives_float id (fun _ => rfl) (fun _ => rfl) fun _ => trivial
  | .enumeration e => Layout.receives_enumeration e
  | .record _ fields => Layout.receives_record fields.receives
  | .tuple parts => Layout.receives_tuple parts.receives
  | .union _ variants _ => Layout.receives_union variants.receives
  | .vector element => Layout.receives_vector element.receives
  | .optional element => Layout.receives_optional element.receives
  | .nullable element => Layout.receives_nullable element.receives
  | .retyped _ base => Layout.receives_retyped base.receives
  | .self => Layout.receives_self

theorem Parts.receives {α : Type} : (parts : Parts Unit α) → parts.Receives
  | .pair first second => Parts.receives_pair first.receives second.receives
  | .cons first rest => Parts.receives_cons first.receives rest.receives

theorem Fields.receives {names : List String} {α : Type} : (fields : Fields Unit names α) → fields.Receives
  | .nil => Fields.receives_nil
  | .cons _ layout rest _ => Fields.receives_cons layout.receives rest.receives

theorem Variants.receives {tags : List String} {α : Type} : (variants : Variants Unit tags α) → variants.Receives
  | .nil => Variants.receives_nil
  | .unit _ rest _ => Variants.receives_unit rest.receives
  | .payload _ layout rest _ => Variants.receives_payload layout.receives rest.receives

end

/-- Bytes that the schema of a layout has encoded, from a value of whatever shape, decode to a value of the layout with
nothing left over, and that value encodes to the same bytes. -/
theorem Layout.decodes_accepted {α : Type} (layout : Layout Unit α) (value : Value) (hshort : value.Short)
    (bs : List UInt8) (hencode : layout.schema.encode value = .ok bs) :
    ∃ a, (∀ leftover, layout.codec.decode leftover bs = .ok a) ∧ layout.codec.encode a = bs := by
  obtain ⟨haccepts, rfl⟩ := (encode_eq_ok_iff _ _ _).1 hencode
  obtain ⟨a, ha, hpieces⟩ := layout.receives haccepts hshort
  have hyields := layout.codec_yields (fun _ hn => hn) a ha
  have hsame : (layout.schema.write value).pieces = layout.codec.pieces a := hpieces
  refine ⟨a, fun leftover => ?_, ?_⟩
  · rw [hsame]
    exact hyields.decode leftover
  · rw [hsame, Codec.encode_eq]

/-- A record of a float that is truncated and reduced, a field that is left out, and a present null that is marked; one
more field is not in the layout at all. -/
theorem Layout.decodes_accepted_coerced :
    let layout : Layout Unit (UInt8 × Option (Option UInt16) × Nullable (Option (Nullable Bool)) × Unit) :=
      .record "Reading" (.cons "level" .u8 (.cons "limit" (.optional (.optional .u16))
        (.cons "flag" (.nullable (.optional (.nullable .bool))) .nil)))
    let value : Value := .struct [("flag", .present .null), ("unit", .str "°C"), ("level", .float ⟨0x4072C80000000000⟩)]
    value.Short ∧ layout.schema.encode value = .ok [44, 0, 1, 1, 0] ∧
      (∀ leftover, layout.codec.decode leftover [44, 0, 1, 1, 0] = .ok (44, none, .value (some .null), ())) ∧
      layout.codec.encode (44, none, .value (some .null), ()) = [44, 0, 1, 1, 0] := by
  intro layout value
  have hshort : value.Short := by
    refine ⟨trivial, ?_, trivial, trivial⟩
    show (Utf8.encode "°C").length < 0x100000000
    decide
  have hencode : layout.schema.encode value = .ok [44, 0, 1, 1, 0] := by decide +kernel
  obtain ⟨a, hdecode, hback⟩ := layout.decodes_accepted value hshort _ hencode
  have ha : layout.codec.decode .ignored [44, 0, 1, 1, 0] = .ok (44, none, .value (some .null), ()) := rfl
  obtain rfl := Except.ok.inj ((hdecode .ignored).symm.trans ha)
  exact ⟨hshort, hencode, hdecode, hback⟩

end WireFormat
