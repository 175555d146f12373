import Mathlib.Logic.Relation
import WireFormat.Proofs.FirstFailure

/-!
# Structs are matched by name

A schema looks the values of a struct up by the names of its fields. The order of the entries, entries of other names,
and absences that are spelled out where the field is optional make no difference, at any depth and in any number of
places. Main statement: values that differ in nothing else are written alike to every output, with the same count or the
same error.
-/
namespace WireFormat

namespace Entries

variable {α : Type} {name other : String} {item : α} {front back values others : List (String × α)}

/-- Where no name occurs twice, the order does not change what is found. -/
theorem lookup_perm (hperm : values.Perm others) (hnodup : (names values).Nodup) (name : String) :
    values.lookup name = others.lookup name := by
  have hothers : (names others).Nodup := (hperm.map Prod.fst).nodup_iff.1 hnodup
  cases hfound : values.lookup name with
  | some item => exact (lookup_of_mem hothers (hperm.mem_iff.1 (mem_of_lookup hfound))).symm
  | none =>
    refine (lookup_eq_none fun hmem => ?_).symm
    obtain ⟨entry, hentry, rfl⟩ := List.mem_map.1 hmem
    rw [lookup_of_mem hnodup (hperm.mem_iff.2 hentry)] at hfound
    cases hfound

/-- An entry does not change what is found under another name. -/
theorem lookup_insert_of_ne (h : other ≠ name) :
    (front ++ (name, item) :: back).lookup other = (front ++ back).lookup other := by
  rw [List.lookup_append, List.lookup_append, List.lookup_cons, beq_false_of_ne h]

/-- An entry is found unless there is one of its name in front of it. -/
theorem lookup_insert_self :
    (front ++ (name, item) :: back).lookup name = some ((front.lookup name).getD item) := by
  rw [List.lookup_append, List.lookup_cons_self]
  cases front.lookup name <;> rfl

end Entries

namespace Value

/-- The entries of one struct inside, whether it is written or not, stand in another order. -/
inductive Shuffled : Value → Value → Prop
  | entries {values others : List (String × Value)} (hperm : values.Perm others)
      (hnodup : (Entries.names values).Nodup) : Shuffled (struct values) (struct others)
  | field {front back : List (String × Value)} {name : String} {value other : Value} (h : Shuffled value other) :
      Shuffled (struct (front ++ (name, value) :: back)) (struct (front ++ (name, other) :: back))
  | component {front back : List Value} {value other : Value} (h : Shuffled value other) :
      Shuffled (tuple (front ++ value :: back)) (tuple (front ++ other :: back))
  | element {front back : List Value} {value other : Value} (h : Shuffled value other) :
      Shuffled (vec (front ++ value :: back)) (vec (front ++ other :: back))
  | payload {tag : String} {value other : Value} (h : Shuffled value other) :
      Shuffled (tagged tag value) (tagged tag other)
  | present {value other : Value} (h : Shuffled value other) : Shuffled (present value) (present other)

theorem Shuffled.kind_eq {value other : Value} (h : Shuffled value other) : value.kind = other.kind := by
  cases h <;> rfl

end Value

namespace Schema

/-- One struct inside the value differs in how its entries stand, in an entry that its schema has no field for, or in an
absence that is left out. A field is written by every schema that stands under its name. -/
inductive Edited : Schema → Value → Value → Prop
  | shuffled {schema : Schema} {value other : Value} (h : value.Shuffled other) : Edited schema value other
  | extra {fields : List (String × Schema)} {front back : List (String × Value)} {name : String} {value : Value}
      (h : name ∉ Entries.names fields) :
      Edited (struct fields) (.struct (front ++ back)) (.struct (front ++ (name, value) :: back))
  | absent {fields : List (String × Schema)} {front back : List (String × Value)} {name : String}
      (hoptional : ∀ schema, (name, schema) ∈ fields → schema.tag = .option)
      (hfresh : name ∉ Entries.names (front ++ back)) :
      Edited (struct fields) (.struct (front ++ (name, .undefined) :: back)) (.struct (front ++ back))
  | field {fields : List (String × Schema)} {front back : List (String × Value)} {name : String} {value other : Value}
      (h : ∀ schema, (name, schema) ∈ fields → Edited schema value other) :
      Edited (struct fields) (.struct (front ++ (name, value) :: back)) (.struct (front ++ (name, other) :: back))
  | component {components : List Schema} {schema : Schema} {front back : List Value} {value other : Value}
      (hschema : components[front.length]? = some schema) (h : Edited schema value other) :
      Edited (tuple components) (.tuple (front ++ value :: back)) (.tuple (front ++ other :: back))
  | element {element : Schema} {front back : List Value} {value other : Value} (h : Edited element value other) :
      Edited (vec element) (.vec (front ++ value :: back)) (.vec (front ++ other :: back))
  | payload {variants : List (String × Option Schema)} {tag : String} {schema : Schema} {value other : Value}
      (hschema : variants.lookup tag = some (some schema)) (h : Edited schema value other) :
      Edited (union variants) (.tagged tag value) (.tagged tag other)
  | marked {element : Schema} {value other : Value} (h : Edited element value other) :
      Edited (option element) (.present value) (.present other)
  | optional {element : Schema} {value other : Value} (habsent : value.kind ≠ .undefined)
      (hmarked : value.kind ≠ .some) (h : Edited element value other) : Edited (option element) value other
  | nullable {element : Schema} {value other : Value} (hnull : value.kind ≠ .null) (h : Edited element value other) :
      Edited (nullable element) value other

theorem Edited.kind_eq {schema : Schema} {value other : Value} (h : schema.Edited value other) :
    value.kind = other.kind := by
  induction h with
  | shuffled h => exact h.kind_eq
  | optional _ _ _ ih | nullable _ _ ih => exact ih
  | _ => rfl

section

variable {front back : List (String × Value)} {name : String} {value other : Value} {field : String × Schema}

theorem writeField_congr {values others : List (String × Value)} (h : values.lookup field.1 = others.lookup field.1) :
    writeField values field = writeField others field := by
  rw [writeField, writeField, h]

theorem writeField_insert_of_ne (h : field.1 ≠ name) :
    writeField (front ++ (name, value) :: back) field = writeField (front ++ back) field :=
  writeField_congr (Entries.lookup_insert_of_ne h)

/-- Only the fields of its name see the value of an entry. -/
theorem writeField_replace (h : field.1 = name → field.2.write value = field.2.write other) :
    writeField (front ++ (name, value) :: back) field = writeField (front ++ (name, other) :: back) field := by
  by_cases hname : field.1 = name
  · have hwrite := h hname
    rw [writeField, writeField, hname, Entries.lookup_insert_self, Entries.lookup_insert_self]
    cases front.lookup name with
    | some first => rfl
    | none => exact hwrite
  · rw [writeField_insert_of_ne hname, writeField_insert_of_ne hname]

/-- An optional field is written alike whether its absence is spelled out or not. -/
theorem writeField_absent (hoptional : field.2.tag = .option) (hfresh : field.1 ∉ Entries.names (front ++ back)) :
    writeField (front ++ (field.1, .undefined) :: back) field = writeField (front ++ back) field := by
  have hfront : front.lookup field.1 = none := by
    refine Entries.lookup_eq_none fun hmem => hfresh ?_
    rw [Entries.names, List.map_append]
    exact List.mem_append_left _ hmem
  rw [writeField, writeField, Entries.lookup_insert_self, hfront, Entries.lookup_eq_none hfresh, hoptional]
  rfl

end

section

variable {components : List Schema} {variants : List (String × Option Schema)} {element : Schema} {tag : String}
  {fields : List (String × Schema)} {entries others : List (String × Value)} {front back : List Value}
  {value other : Value}

theorem write_struct_congr (h : ∀ field ∈ fields, writeField entries field = writeField others field) :
    (struct fields).write (.struct entries) = (struct fields).write (.struct others) := by
  show writeFields fields entries = writeFields fields others
  rw [writeFields_eq_inOrder, writeFields_eq_inOrder, List.map_congr_left h]

/-- Only the component at the place of a value sees it. -/
theorem writeComponents_replace
    (h : ∀ schema, components[front.length]? = some schema → schema.write value = schema.write other) :
    writeComponents components (front ++ value :: back) = writeComponents components (front ++ other :: back) := by
  induction front generalizing components with
  | nil =>
    cases components with
    | nil => rfl
    | cons schema rest => rw [List.nil_append, List.nil_append, writeComponents, writeComponents, h schema rfl]
  | cons first front ih =>
    cases components with
    | nil => rfl
    | cons schema rest => rw [List.cons_append, List.cons_append, writeComponents, writeComponents, ih h]

theorem write_tuple_congr
    (h : ∀ schema, components[front.length]? = some schema → schema.write value = schema.write other) :
    (tuple components).write (.tuple (front ++ value :: back)) =
      (tuple components).write (.tuple (front ++ other :: back)) := by
  simp only [write, List.length_append, List.length_cons, writeComponents_replace h]

theorem write_vec_congr (h : element.write value = element.write other) :
    (vec element).write (.vec (front ++ value :: back)) = (vec element).write (.vec (front ++ other :: back)) := by
  simp only [write, List.map_append, List.map_cons, List.length_append, List.length_cons, h]

theorem write_tagged_congr
    (h : ∀ schema, variants.lookup tag = some (some schema) → schema.write value = schema.write other) :
    (union variants).write (.tagged tag value) = (union variants).write (.tagged tag other) := by
  rw [write, write, writeVariant_eq, writeVariant_eq]
  cases hentry : variants.lookup tag with
  | none => rfl
  | some entry =>
    cases entry with
    | none => rfl
    | some schema => exact congrArg (Written.after _) (h schema hentry)

end

/-- No schema sees how the entries of a struct stand, whether it has a place for the struct or not. The induction is on the
schema, since a wrapper passes the whole value on to its element. -/
theorem write_shuffled (schema : Schema) {value other : Value} (h : value.Shuffled other) :
    schema.write value = schema.write other := by
  induction schema using induction_on_parts generalizing value other with
  | step schema ih =>
    cases schema with
    | struct fields =>
      cases h with
      | entries hperm hnodup =>
        exact write_struct_congr fun field _ => writeField_congr (Entries.lookup_perm hperm hnodup _)
      | field h =>
        exact write_struct_congr fun field hfield => writeField_replace fun _ => ih _ (List.mem_map_of_mem hfield) h
      | _ => rfl
    | tuple components =>
      cases h with
      | component h => exact write_tuple_congr fun schema hschema => ih schema (List.mem_of_getElem? hschema) h
      | _ => rfl
    | union variants =>
      cases h with
      | payload h => exact write_tagged_congr fun schema hschema => ih schema (mem_parts_of_lookup hschema) h
      | _ => rfl
    | vec element =>
      cases h with
      | element h => exact write_vec_congr (ih element List.mem_cons_self h)
      | _ => rfl
    | option element =>
      have hbelow := ih element List.mem_cons_self h
      cases h with
      | present h => exact congrArg (Written.after [.mark true]) (ih element List.mem_cons_self h)
      | _ => exact congrArg (Written.after [.mark true]) hbelow
    | nullable element =>
      have hbelow := ih element List.mem_cons_self h
      cases h <;> exact congrArg (Written.after [.mark true]) hbelow
    | _ => cases h <;> rfl

/-- By induction on the place of the edit. At a struct it is enough that every field is written alike on its own. -/
theorem write_edited {schema : Schema} {value other : Value} (h : schema.Edited value other) :
    schema.write value = schema.write other := by
  induction h with
  | shuffled h => exact write_shuffled _ h
  | extra h =>
    refine write_struct_congr fun field hfield => (writeField_insert_of_ne ?_).symm
    rintro rfl
    exact h (List.mem_map_of_mem hfield)
  | @absent fields front back name hoptional hfresh =>
    refine write_struct_congr fun field hfield => ?_
    by_cases hname : field.1 = name
    · subst hname
      exact writeField_absent (hoptional _ hfield) hfresh
    · exact writeField_insert_of_ne hname
  | field _ ih =>
    refine write_struct_congr fun field hfield => writeField_replace ?_
    rintro rfl
    exact ih field.2 hfield
  | component hschema _ ih =>
    refine write_tuple_congr fun schema hother => ?_
    obtain rfl := Option.some.inj (hschema.symm.trans hother)
    exact ih
  | element _ ih => exact write_vec_congr ih
  | payload hschema _ ih =>
    refine write_tagged_congr fun schema hother => ?_
    cases hschema.symm.trans hother
    exact ih
  | marked _ ih => exact congrArg (Written.after [.mark true]) ih
  | optional habsent hmarked h ih =>
    rw [write_option habsent hmarked, write_option (h.kind_eq ▸ habsent) (h.kind_eq ▸ hmarked), ih]
  | nullable hnull h ih => rw [write_nullable hnull, write_nullable (h.kind_eq ▸ hnull), ih]

/-- Any number of edits, forth and back. -/
def SameFields (schema : Schema) : Value → Value → Prop :=
  Relation.EqvGen schema.Edited

theorem write_sameFields {schema : Schema} {value other : Value} (h : schema.SameFields value other) :
    schema.write value = schema.write other := by
  induction h with
  | rel value other h => exact write_edited h
  | refl value => rfl
  | symm value other _ ih => exact ih.symm
  | trans value between other _ _ ihfirst ihsecond => exact ihfirst.trans ihsecond

/-- Values that differ only in the order of entries, in entries that no field is named for and in absences that are
spelled out are written alike: every output is left in the same state, with the same count or the same error. -/
theorem written_alike_by_name (schema : Schema) {value other : Value} (h : schema.SameFields value other) :
    (∀ {τ : Type} [Output τ] (out : τ), schema.writeTo out value = schema.writeTo out other) ∧
      schema.encodedLength value = schema.encodedLength other ∧ schema.encode value = schema.encode other := by
  have hwrite := write_sameFields h
  refine ⟨fun out => ?_, ?_, ?_⟩
  · rw [writeTo, writeTo, hwrite]
  · rw [encodedLength_eq, encodedLength_eq, hwrite]
  · rw [encode_eq, encode_eq, hwrite]

/-- The entries of the payload are swapped, an absence is spelled out and a note is added. The element behind it fails in
either case, after the same bytes. -/
theorem written_alike_by_name_nested :
    let item : Schema := .struct [("id", .u16), ("next", .option .str), ("on", .bool)]
    let schema : Schema := .vec (.nullable (.option (.union [("none", none), ("item", some item)])))
    let swapped : Value := .struct [("on", .bool true), ("id", .int 258)]
    let spelled : Value := .struct [("id", .int 258), ("next", .undefined), ("note", .null), ("on", .bool true)]
    let around (inner : Value) : Value := .vec [.null, .present (.tagged "item" inner), .int 3]
    schema.writeTo (ByteString.mk []) (around swapped) = schema.writeTo (ByteString.mk []) (around spelled) ∧
      (schema.writeTo (ByteString.mk []) (around spelled)).1.bytes =
        [3, 0, 0, 0, 0, 0, 0, 0, 0, 1, 1, 1, 0, 0, 0, 2, 1, 0, 1, 1, 1] ∧
      (schema.writeTo (ByteString.mk []) (around spelled)).2 = .error (.mismatch .union .integer) := by
  intro item schema swapped spelled around
  have hinside {inner outer : Value} (h : item.Edited inner outer) : schema.Edited (around inner) (around outer) :=
    @Edited.element _ [.null] _ _ _ (.nullable Kind.noConfusion (.marked (.payload rfl h)))
  have hswap : item.Edited swapped (.struct [("id", .int 258), ("on", .bool true)]) :=
    .shuffled (.entries (.swap _ _ _) (by decide))
  have hspell : item.Edited (.struct [("id", .int 258), ("next", .undefined), ("on", .bool true)])
      (.struct [("id", .int 258), ("on", .bool true)]) := by
    refine @Edited.absent _ [("id", .int 258)] _ _ (fun field hfield => ?_) (by decide)
    obtain rfl : field = .option .str := by simpa using hfield
    rfl
  have hnote : item.Edited (.struct [("id", .int 258), ("next", .undefined), ("on", .bool true)]) spelled :=
    @Edited.extra _ [("id", .int 258), ("next", .undefined)] _ _ _ (by decide)
  have hsame : schema.SameFields (around swapped) (around spelled) :=
    .trans _ _ _ (.rel _ _ (hinside hswap))
      (.trans _ _ _ (.symm _ _ (.rel _ _ (hinside hspell))) (.rel _ _ (hinside hnote)))
  exact ⟨(written_alike_by_name schema hsame).1 _, by decide +kernel, rfl⟩

end Schema

end WireFormat
