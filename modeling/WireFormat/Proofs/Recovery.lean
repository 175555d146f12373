import WireFormat.Proofs.Chunks
import WireFormat.Proofs.Reading
import WireFormat.Proofs.Wrappers

/-!
# What comes back

What writing a value and reading it again makes of it, on the value alone: integers are reduced into the range of their
leaf, numbers of a float leaf are converted as the writer and the reader do it, fields stand in the order of the schema,
and presence is marked exactly where an optional wraps an optional. Main statement: from the pieces that a value is
written as, the schema yields this value.
-/
namespace WireFormat
open Floating

namespace Schema

/-- The integer that a value offers, reduced into the range of the leaf. -/
def recoveredInteger (reduce : Int → Int) (value : Value) : Value :=
  match integerOf? value with
  | some i => .int (.ofInt (reduce i.toInt))
  | none => value

theorem recoveredInteger_of_some (reduce : Int → Int) {value : Value} {i : Int64} (h : integerOf? value = some i) :
    recoveredInteger reduce value = .int (.ofInt (reduce i.toInt)) := by
  rw [recoveredInteger, h]

/-- The float that a value offers, converted to the precision of the leaf and back. -/
def recoveredFloat (convert : Binary64 → Binary64) (value : Value) : Value :=
  match floatOf? value with
  | some x => .float (convert x)
  | none => value

theorem recoveredFloat_of_some (convert : Binary64 → Binary64) {value : Value} {x : Binary64}
    (h : floatOf? value = some x) : recoveredFloat convert value = .float (convert x) := by
  rw [recoveredFloat, h]

mutual

/-- What comes back of an accepted value; a value that does not fit is left as it is. -/
def recovered : Schema → Value → Value
  | bool, value | str, value | enum _, value => value
  | u8, value => recoveredInteger (· % 0x100) value
  | u16, value => recoveredInteger (· % 0x10000) value
  | u32, value => recoveredInteger (· % 0x100000000) value
  | i32, value => recoveredInteger (Int.bmod · 0x100000000) value
  | f32, value => recoveredFloat (fun x => x.narrow.widen) value
  | f64, value => recoveredFloat id value
  | struct fields, value =>
    match value with
    | .struct values => .struct (recoveredFields fields values)
    | value => value
  | tuple components, value =>
    match value with
    | .tuple values => .tuple (recoveredComponents components values)
    | value => value
  | union variants, value =>
    match value with
    | .tagged tag payload => .tagged tag (recoveredPayload variants tag payload)
    | value => value
  | vec element, value =>
    match value with
    | .vec values => .vec (values.map element.recovered)
    | value => value
  | option element, value =>
    match value.present? with
    | some inner => presented element (element.recovered inner)
    | none => .undefined
  | nullable element, value =>
    match value.nonNull? with
    | some inner => element.recovered inner
    | none => .null

/-- The fields of the schema and no others, with an absence for what is left out. -/
def recoveredFields : List (String × Schema) → List (String × Value) → List (String × Value)
  | [], _ => []
  | (name, schema) :: rest, values => (name, schema.recovered (Value.field values name)) :: recoveredFields rest values

def recoveredComponents : List Schema → List Value → List Value
  | schema :: rest, value :: values => schema.recovered value :: recoveredComponents rest values
  | _, _ => []

def recoveredPayload : List (String × Option Schema) → (tag : String) → Value → Value
  | [], _, payload => payload
  | (name, none) :: rest, tag, payload => if name = tag then payload else recoveredPayload rest tag payload
  | (name, some schema) :: rest, tag, payload =>
    if name = tag then schema.recovered payload else recoveredPayload rest tag payload

end

/-- No string and no sequence grows on the way back. -/
def KeepsShort (schema : Schema) : Prop :=
  ∀ ⦃value : Value⦄, value.Short → (schema.recovered value).Short

theorem short_recoveredInteger (reduce : Int → Int) {value : Value} (h : value.Short) :
    (recoveredInteger reduce value).Short := by
  cases value with
  | int i | float x => trivial
  | _ => exact h

theorem short_recoveredFloat (convert : Binary64 → Binary64) {value : Value} (h : value.Short) :
    (recoveredFloat convert value).Short := by
  cases value with
  | int i | float x => trivial
  | _ => exact h

theorem short_recoveredFields {fields : List (String × Schema)} (h : ∀ part ∈ fields.map Prod.snd, part.KeepsShort)
    {values : List (String × Value)} (hshort : Value.ShortFields values) :
    Value.ShortFields (recoveredFields fields values) := by
  induction fields with
  | nil => trivial
  | cons field rest ih =>
    rw [List.map_cons, List.forall_mem_cons] at h
    exact ⟨h.1 (hshort.field _), ih h.2⟩

theorem short_recoveredComponents {components : List Schema} (h : ∀ part ∈ components, part.KeepsShort)
    {values : List Value} (hshort : Value.ShortItems values) :
    Value.ShortItems (recoveredComponents components values) := by
  induction components generalizing values with
  | nil => trivial
  | cons schema rest ih =>
    cases values with
    | nil => trivial
    | cons value values =>
      rw [List.forall_mem_cons] at h
      exact ⟨h.1 hshort.1, ih h.2 hshort.2⟩

theorem short_recoveredPayload {variants : List (String × Option Schema)}
    (h : ∀ part ∈ variants.filterMap Prod.snd, part.KeepsShort) (tag : String) {payload : Value}
    (hshort : payload.Short) : (recoveredPayload variants tag payload).Short := by
  induction variants with
  | nil => exact hshort
  | cons variant rest ih =>
    obtain ⟨name, _ | schema⟩ := variant
    · rw [recoveredPayload]
      split
      · exact hshort
      · exact ih h
    · rw [recoveredPayload]
      split
      · exact h schema List.mem_cons_self hshort
      · exact ih fun part hpart => h part (List.mem_cons_of_mem _ hpart)

theorem short_presented (element : Schema) {value : Value} (h : value.Short) : (element.presented value).Short := by
  cases element <;> exact h

theorem short_recovered (schema : Schema) : schema.KeepsShort := by
  induction schema using induction_on_parts with
  | step schema ih =>
    intro value hshort
    cases schema with
    | bool | str | enum names => exact hshort
    | u8 | u16 | u32 | i32 => exact short_recoveredInteger _ hshort
    | f32 | f64 => exact short_recoveredFloat _ hshort
    | struct fields =>
      cases value with
      | struct values => exact short_recoveredFields ih hshort
      | _ => exact hshort
    | tuple components =>
      cases value with
      | tuple values => exact short_recoveredComponents ih hshort
      | _ => exact hshort
    | union variants =>
      cases value with
      | tagged tag payload => exact short_recoveredPayload ih tag hshort
      | _ => exact hshort
    | vec element =>
      cases value with
      | vec values =>
        refine ⟨(List.length_map _).symm ▸ hshort.1, ?_⟩
        rw [Value.shortItems_iff, List.forall_mem_map]
        exact fun item hitem => ih element List.mem_cons_self ((Value.shortItems_iff values).1 hshort.2 item hitem)
      | _ => exact hshort
    | option element =>
      rw [recovered]
      cases hoffered : value.present? with
      | none => trivial
      | some inner => exact short_presented _ (ih element List.mem_cons_self (hshort.present? hoffered))
    | nullable element =>
      rw [recovered]
      cases hoffered : value.nonNull? with
      | none => trivial
      | some inner => exact ih element List.mem_cons_self (hshort.nonNull? hoffered)

/-- The variants that the schema itself declares. -/
def variantCount : Schema → Nat
  | enum names => names.length
  | union variants => variants.length
  | _ => 0

/-- Four bytes hold the index of every variant. -/
def Indexed (schema : Schema) : Prop :=
  ∀ node ∈ schema.nodes, node.variantCount ≤ 0x100000000

instance (schema : Schema) : Decidable schema.Indexed :=
  inferInstanceAs (Decidable (∀ node ∈ schema.nodes, node.variantCount ≤ 0x100000000))

theorem Indexed.part {schema part : Schema} (h : schema.Indexed) (hpart : part ∈ schema.parts) : part.Indexed :=
  fun node hnode => h node (mem_nodes_of_mem_parts hpart hnode)

/-- Nothing is cut off where the value is short. -/
def FitsShort (schema : Schema) : Prop :=
  ∀ ⦃value : Value⦄, value.Short → Chunk.AllFit (schema.chunks value)

theorem fits_integer {chunk : Int64 → Chunk} (h : ∀ i, (chunk i).Fits) (value : Value) :
    Chunk.AllFit (chunksOfInteger chunk value) := by
  intro c hc
  obtain ⟨i, -, rfl⟩ := List.mem_map.1 hc
  exact h i

theorem fits_float {chunk : Binary64 → Chunk} (h : ∀ x, (chunk x).Fits) (value : Value) :
    Chunk.AllFit (chunksOfFloat chunk value) := by
  intro c hc
  obtain ⟨x, -, rfl⟩ := List.mem_map.1 hc
  exact h x

theorem fits_enum {names : List String} (hbounded : names.length ≤ 0x100000000) : (Schema.enum names).FitsShort := by
  intro value _
  cases value with
  | str name =>
    intro c hc
    obtain ⟨index, hindex, rfl⟩ := List.mem_map.1 hc
    obtain ⟨hlt, -⟩ := List.idxOf?_eq_some_iff.1 (Option.mem_toList.1 hindex)
    exact Nat.lt_of_lt_of_le hlt hbounded
  | _ => exact Chunk.allFit_nil

theorem fits_fields {fields : List (String × Schema)} (h : ∀ part ∈ fields.map Prod.snd, part.FitsShort)
    {values : List (String × Value)} (hshort : Value.ShortFields values) :
    Chunk.AllFit (chunksOfFields fields values) := by
  induction fields with
  | nil => exact Chunk.allFit_nil
  | cons field rest ih =>
    rw [List.map_cons, List.forall_mem_cons] at h
    exact Chunk.allFit_append_iff.2 ⟨h.1 (hshort.field _), ih h.2⟩

theorem fits_components {components : List Schema} (h : ∀ part ∈ components, part.FitsShort) {values : List Value}
    (hshort : Value.ShortItems values) : Chunk.AllFit (chunksOfComponents components values) := by
  induction components generalizing values with
  | nil => exact Chunk.allFit_nil
  | cons schema rest ih =>
    cases values with
    | nil => exact Chunk.allFit_nil
    | cons value values =>
      rw [List.forall_mem_cons] at h
      exact Chunk.allFit_append_iff.2 ⟨h.1 hshort.1, ih h.2 hshort.2⟩

theorem fits_union {variants : List (String × Option Schema)} (h : ∀ part ∈ variants.filterMap Prod.snd, part.FitsShort)
    {start : Nat} (hbounded : start + variants.length ≤ 0x100000000) {value : Value} (hshort : value.Short) :
    Chunk.AllFit (chunksOfUnion variants start value) := by
  induction variants generalizing start with
  | nil => exact Chunk.allFit_nil
  | cons variant others ih =>
    obtain ⟨name, entry⟩ := variant
    rw [List.length_cons] at hbounded
    have hindex : start < 0x100000000 := by omega
    by_cases hname : value.variant? = some name
    · cases entry with
      | none =>
        rw [chunksOfUnion, if_pos hname]
        exact Chunk.allFit_cons_iff.2 ⟨hindex, Chunk.allFit_nil⟩
      | some schema =>
        cases value with
        | tagged tag payload =>
          obtain rfl := Option.some.inj hname
          rw [chunksOfUnion_tagged]
          exact Chunk.allFit_cons_iff.2 ⟨hindex, h schema List.mem_cons_self hshort⟩
        | unit tag =>
          have hnone : chunksOfUnion ((name, some schema) :: others) start (.unit tag) = [] := if_pos hname
          rw [hnone]
          exact Chunk.allFit_nil
        | _ => cases hname
    · rw [chunksOfUnion_cons hname]
      exact ih (fun part hpart => h part (List.filterMap_subset _ (List.subset_cons_self _ _) hpart)) (by omega)

theorem fitsShort (schema : Schema) (h : schema.Indexed) : schema.FitsShort := by
  induction schema using induction_on_parts with
  | step schema ih =>
    have hparts : ∀ part ∈ schema.parts, part.FitsShort := fun part hpart => ih part hpart (h.part hpart)
    have hhere := h _ (mem_nodes schema)
    intro value hshort
    cases schema with
    | bool =>
      cases value with
      | bool b => exact Chunk.allFit_cons_iff.2 ⟨trivial, Chunk.allFit_nil⟩
      | _ => exact Chunk.allFit_nil
    | str =>
      cases value with
      | str s => exact Chunk.allFit_str_iff.2 hshort
      | _ => exact Chunk.allFit_nil
    | u8 | u16 | u32 | i32 =>
      refine fits_integer (fun i => ?_) value
      trivial
    | f32 | f64 =>
      refine fits_float (fun x => ?_) value
      trivial
    | enum names => exact fits_enum hhere hshort
    | struct fields =>
      cases value with
      | struct values => exact fits_fields hparts hshort
      | _ => exact Chunk.allFit_nil
    | tuple components =>
      cases value with
      | tuple values => exact fits_components hparts hshort
      | _ => exact Chunk.allFit_nil
    | union variants => exact fits_union hparts (Nat.zero_add _ ▸ hhere) hshort
    | vec element =>
      cases value with
      | vec values =>
        refine Chunk.allFit_seq_iff.2 ⟨hshort.1, fun item hitem => ?_⟩
        exact hparts element List.mem_cons_self ((Value.shortItems_iff values).1 hshort.2 item hitem)
      | _ => exact Chunk.allFit_nil
    | option element =>
      exact Chunk.allFit_opt_iff.2 fun inner hinner => hparts element List.mem_cons_self (hshort.present? hinner)
    | nullable element =>
      exact Chunk.allFit_opt_iff.2 fun inner hinner => hparts element List.mem_cons_self (hshort.nonNull? hinner)

/-- What the schema accepts comes back from all of the pieces, if no length and no index is cut off. -/
def Recovers (schema : Schema) : Prop :=
  ∀ ⦃value : Value⦄, schema.Accepts value → Chunk.AllFit (schema.chunks value) →
    schema.read.Yields (schema.write value).pieces (schema.recovered value)

theorem recovers_bool : Schema.bool.Recovers := by
  intro value h hshort
  obtain ⟨b, rfl⟩ := h.bool
  exact (Reader.yields_mark b).map Value.bool

theorem recovers_str : Schema.str.Recovers := by
  intro value h hfit
  obtain ⟨s, rfl⟩ := h.str
  exact (Reader.yields_str (Chunk.allFit_str_iff.1 hfit)).map Value.str

/-- A reader that gives the reduced integer back from its piece. -/
theorem recovers_integer {schema : Schema} {reduce : Int → Int} {piece : Int64 → Piece}
    (hread : ∀ i, schema.read.Yields [piece i] (.int (.ofInt (reduce i.toInt))))
    (hwrite : ∀ value, schema.write value = writeInteger schema piece value)
    (hrecovered : ∀ value, schema.recovered value = recoveredInteger reduce value) : schema.Recovers := by
  intro value h _
  rw [Accepts, hwrite] at h
  obtain ⟨i, hi, hpieces⟩ := integer_accepted h
  rw [hwrite, hpieces, hrecovered, recoveredInteger_of_some _ hi]
  exact hread i

theorem recovers_u8 : Schema.u8.Recovers := by
  refine recovers_integer (fun i => ?_) (fun _ => rfl) fun _ => rfl
  rw [← Narrow.toNat_u8]
  exact (Reader.yields_u8 (Narrow.u8 i)).map fun n => Value.int (.ofInt n.toNat)

theorem recovers_u16 : Schema.u16.Recovers := by
  refine recovers_integer (fun i => ?_) (fun _ => rfl) fun _ => rfl
  rw [← Narrow.toNat_u16]
  exact (Reader.yields_u16 (Narrow.u16 i)).map fun n => Value.int (.ofInt n.toNat)

theorem recovers_u32 : Schema.u32.Recovers := by
  refine recovers_integer (fun i => ?_) (fun _ => rfl) fun _ => rfl
  rw [← Narrow.toNat_u32]
  exact (Reader.yields_u32 (Narrow.u32 i)).map fun n => Value.int (.ofInt n.toNat)

theorem recovers_i32 : Schema.i32.Recovers := by
  refine recovers_integer (fun i => ?_) (fun _ => rfl) fun _ => rfl
  rw [← Narrow.toInt_i32, ← Int32.toInt_toInt64, Int64.ofInt_toInt]
  exact (Reader.yields_i32 (Narrow.i32 i)).map fun n => Value.int n.toInt64

theorem recovers_f32 : Schema.f32.Recovers := by
  intro value h _
  obtain ⟨x, hx, hpieces⟩ := float_accepted (show (writeFloat f32 _ value).error? = none from h)
  rw [recovered, recoveredFloat_of_some _ hx, write, hpieces]
  exact (Reader.yields_f32 x.narrow).map fun y => Value.float y.widen

theorem recovers_f64 : Schema.f64.Recovers := by
  intro value h _
  obtain ⟨x, hx, hpieces⟩ := float_accepted (show (writeFloat f64 _ value).error? = none from h)
  rw [recovered, recoveredFloat_of_some _ hx, write, hpieces]
  exact (Reader.yields_f64 x).map Value.float

theorem recovers_enum (names : List String) : (Schema.enum names).Recovers := by
  intro value h hfit
  obtain ⟨index, hindex, rfl, hfound, hwrite⟩ := h.enum
  have hlt : (Chunk.index index).Fits := hfit _ (by simp [chunks, hfound])
  rw [hwrite]
  refine (Reader.yields_index hlt).bind ?_
  rw [UInt32.toNat_ofNat_of_lt' hlt, List.getElem?_eq_getElem hindex]
  exact Reader.yields_pure _

theorem Recovers.fields {fields : List (String × Schema)} (h : ∀ part ∈ fields.map Prod.snd, part.Recovers)
    {values : List (String × Value)} (haccepts : (writeFields fields values).error? = none)
    (hfit : Chunk.AllFit (chunksOfFields fields values)) :
    (readFields fields).Yields (writeFields fields values).pieces (recoveredFields fields values) := by
  induction fields with
  | nil => exact Reader.yields_pure []
  | cons field rest ih =>
    obtain ⟨name, schema⟩ := field
    rw [List.map_cons, List.forall_mem_cons] at h
    obtain ⟨hfield, hrest, hpieces⟩ := fields_accepted haccepts
    obtain ⟨hfitField, hfitRest⟩ := Chunk.allFit_append_iff.1 hfit
    rw [hpieces]
    exact (h.1 hfield hfitField).bind ((ih h.2 hrest hfitRest).map ((name, _) :: ·))

theorem Recovers.components {components : List Schema} (h : ∀ part ∈ components, part.Recovers) {values : List Value}
    (hlength : values.length = components.length) (haccepts : (writeComponents components values).error? = none)
    (hfit : Chunk.AllFit (chunksOfComponents components values)) :
    (readComponents components).Yields (writeComponents components values).pieces
      (recoveredComponents components values) := by
  induction components generalizing values with
  | nil => exact Reader.yields_pure []
  | cons schema rest ih =>
    match values, hlength with
    | value :: values, hlength =>
      rw [List.forall_mem_cons] at h
      obtain ⟨hfirst, hrest, hpieces⟩ := components_accepted haccepts
      obtain ⟨hfitFirst, hfitRest⟩ := Chunk.allFit_append_iff.1 hfit
      rw [hpieces]
      exact (h.1 hfirst hfitFirst).bind ((ih h.2 (Nat.succ.inj hlength) hrest hfitRest).map (_ :: ·))

theorem recovered_union_tagged (name : String) (schema : Schema) (rest : List (String × Option Schema))
    (payload : Value) : (union ((name, some schema) :: rest)).recovered (.tagged name payload) =
      .tagged name (schema.recovered payload) := by
  rw [recovered, recoveredPayload, if_pos rfl]

/-- A variant of another name is passed over. -/
theorem recovered_union_cons {name : String} {entry : Option Schema} {rest : List (String × Option Schema)}
    {value : Value} (h : value.variant? ≠ some name) :
    (union ((name, entry) :: rest)).recovered value = (union rest).recovered value := by
  cases value with
  | tagged tag payload =>
    have hne : ¬name = tag := fun e => h (congrArg some e.symm)
    cases entry <;> simp only [recovered, recoveredPayload, if_neg hne]
  | _ => rfl

/-- The variant that was written stands as far on as the index says. -/
theorem Recovers.variant {variants : List (String × Option Schema)}
    (h : ∀ part ∈ variants.filterMap Prod.snd, part.Recovers) {start : Nat} {value : Value}
    (haccepts : (writeUnion variants start value).error? = none)
    (hfit : Chunk.AllFit (chunksOfUnion variants start value)) :
    ∃ skip rest, start + skip < 0x100000000 ∧
      (writeUnion variants start value).pieces = .index (start + skip) :: rest ∧
      ∀ index count, (readVariant index count variants skip).Yields rest ((union variants).recovered value) := by
  induction variants generalizing start with
  | nil => cases value <;> cases haccepts
  | cons variant others ih =>
    obtain ⟨name, entry⟩ := variant
    obtain ⟨rfl, rfl⟩ | ⟨schema, payload, rfl, rfl, hpayload⟩ | ⟨hname, hothers⟩ := union_accepted haccepts
    · rw [chunksOfUnion_unit, Chunk.allFit_cons_iff] at hfit
      refine ⟨0, [], hfit.1, ?_, fun _ _ => Reader.yields_pure _⟩
      rw [writeUnion_unit]
      rfl
    · rw [chunksOfUnion_tagged, Chunk.allFit_cons_iff] at hfit
      refine ⟨0, (schema.write payload).pieces, hfit.1, ?_, fun _ _ => ?_⟩
      · rw [writeUnion_tagged]
        rfl
      · rw [recovered_union_tagged]
        exact (h schema List.mem_cons_self hpayload hfit.2).map (Value.tagged name)
    · have hparts : ∀ part ∈ others.filterMap Prod.snd, part.Recovers := fun part hpart =>
        h part (List.filterMap_subset _ (List.subset_cons_self _ _) hpart)
      rw [chunksOfUnion_cons hname] at hfit
      obtain ⟨skip, rest, hskip, hpieces, hread⟩ := ih hparts hothers hfit
      have hindex : start + 1 + skip = start + (skip + 1) := by omega
      rw [hindex] at hskip hpieces
      refine ⟨skip + 1, rest, hskip, ?_, fun index count => ?_⟩
      · rw [writeUnion_cons hname, hpieces]
      · have hnext : readVariant index count ((name, entry) :: others) (skip + 1) =
            readVariant index count others skip := by cases entry <;> rfl
        rw [hnext, recovered_union_cons hname]
        exact hread index count

theorem recovers_union {variants : List (String × Option Schema)}
    (h : ∀ part ∈ variants.filterMap Prod.snd, part.Recovers) : (Schema.union variants).Recovers := by
  intro value haccepts hfit
  rw [Accepts, write_union] at haccepts
  obtain ⟨skip, rest, hlt, hpieces, hread⟩ := Recovers.variant h haccepts hfit
  rw [Nat.zero_add] at hlt hpieces
  rw [write_union, hpieces]
  refine (Reader.yields_index hlt).bind ?_
  rw [UInt32.toNat_ofNat_of_lt' hlt]
  exact hread _ _

theorem recovers_vec {element : Schema} (h : element.Recovers) : (Schema.vec element).Recovers := by
  intro value haccepts hfit
  obtain ⟨values, rfl, hvalues, hpieces⟩ := haccepts.vec
  obtain ⟨hcount, hitems⟩ := Chunk.allFit_seq_iff.1 hfit
  rw [hpieces]
  refine (Reader.yields_seq_map hcount fun item hitem => ?_).map Value.vec
  exact h (hvalues item hitem) (hitems item hitem)

theorem recovers_option {element : Schema} (h : element.Recovers) : (Schema.option element).Recovers := by
  intro value haccepts hfit
  obtain ⟨hinner, hpieces⟩ := haccepts.option
  have hopt : (Reader.opt element.read).Yields _ (value.present?.map element.recovered) :=
    Reader.yields_opt_map fun inner hmem => h (hinner inner hmem) (Chunk.allFit_opt_iff.1 hfit inner hmem)
  rw [hpieces]
  refine hopt.bind_nothing ?_
  rw [recovered]
  cases value.present? <;> exact Reader.yields_pure _

theorem recovers_nullable {element : Schema} (h : element.Recovers) : (Schema.nullable element).Recovers := by
  intro value haccepts hfit
  obtain ⟨hinner, hpieces⟩ := haccepts.nullable
  have hopt : (Reader.opt element.read).Yields _ (value.nonNull?.map element.recovered) :=
    Reader.yields_opt_map fun inner hmem => h (hinner inner hmem) (Chunk.allFit_opt_iff.1 hfit inner hmem)
  rw [hpieces]
  refine hopt.bind_nothing ?_
  rw [recovered]
  cases value.nonNull? <;> exact Reader.yields_pure _

theorem recovers_fitting (schema : Schema) : schema.Recovers := by
  induction schema using induction_on_parts with
  | step schema ih =>
    cases schema with
    | bool => exact recovers_bool
    | str => exact recovers_str
    | u8 => exact recovers_u8
    | u16 => exact recovers_u16
    | u32 => exact recovers_u32
    | i32 => exact recovers_i32
    | f32 => exact recovers_f32
    | f64 => exact recovers_f64
    | enum names => exact recovers_enum names
    | struct fields =>
      intro value haccepts hfit
      obtain ⟨values, rfl, hfields⟩ := haccepts.struct
      exact (Recovers.fields ih hfields hfit).map Value.struct
    | tuple components =>
      intro value haccepts hfit
      obtain ⟨values, rfl, hlength, hwrite⟩ := haccepts.tuple
      rw [Accepts, hwrite] at haccepts
      rw [hwrite]
      exact (Recovers.components ih hlength haccepts hfit).map Value.tuple
    | union variants => exact recovers_union ih
    | vec element => exact recovers_vec (ih element List.mem_cons_self)
    | option element => exact recovers_option (ih element List.mem_cons_self)
    | nullable element => exact recovers_nullable (ih element List.mem_cons_self)

/-- What the schema accepts comes back if all of it is short. -/
theorem recovers (schema : Schema) (h : schema.Indexed) {value : Value} (haccepts : schema.Accepts value)
    (hshort : value.Short) : schema.read.Yields (schema.write value).pieces (schema.recovered value) :=
  schema.recovers_fitting haccepts (schema.fitsShort h hshort)

end Schema

end WireFormat
