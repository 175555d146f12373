import WireFormat.Proofs.Writing

/-!
# Values that a schema accepts

A schema accepts a value if writing meets no error. It accepts many spellings of one value: other numbers, reordered,
missing and additional fields, present values with and without their mark. Main statements: for each kind of schema, what
the accepted values are and which pieces they are written as.
-/
namespace WireFormat
open Floating

namespace Written

theorem error?_andThen_eq_none_iff (first second : Written) :
    (first.andThen second).error? = none ↔ first.error? = none ∧ second.error? = none := by
  obtain ⟨pieces, error?⟩ := first
  cases error? <;> simp [andThen]

theorem pieces_andThen {first : Written} (second : Written) (h : first.error? = none) :
    (first.andThen second).pieces = first.pieces ++ second.pieces := by
  simp [andThen, h]

theorem error?_all_eq_none_iff (attempts : List Written) :
    (all attempts).error? = none ↔ ∀ attempt ∈ attempts, attempt.error? = none :=
  List.findSome?_eq_none_iff

end Written

namespace Value

mutual

/-- Every string and every sequence inside fits its frame. -/
def Short : Value → Prop
  | str s => (Utf8.encode s).length < 0x100000000
  | vec items => items.length < 0x100000000 ∧ ShortItems items
  | tuple items => ShortItems items
  | struct fields => ShortFields fields
  | tagged _ payload => payload.Short
  | present value => value.Short
  | bool _ | int _ | float _ | unit _ | undefined | null => True

def ShortItems : List Value → Prop
  | [] => True
  | value :: rest => value.Short ∧ ShortItems rest

def ShortFields : List (String × Value) → Prop
  | [] => True
  | (_, value) :: rest => value.Short ∧ ShortFields rest

end

theorem shortItems_iff (items : List Value) : ShortItems items ↔ ∀ value ∈ items, value.Short := by
  induction items with
  | nil => simp [ShortItems]
  | cons value rest ih => simp [ShortItems, ih]

/-- The value of a field; a field that is left out is an absence. -/
def field (values : List (String × Value)) (name : String) : Value :=
  (values.lookup name).getD .undefined

theorem ShortFields.field {values : List (String × Value)} (h : ShortFields values) (name : String) :
    (field values name).Short := by
  induction values with
  | nil => trivial
  | cons entry rest ih =>
    obtain ⟨other, value⟩ := entry
    rw [Value.field, List.lookup_cons]
    split
    · exact h.1
    · exact ih h.2

/-- What a value offers to the element of an optional: nothing if it is an absence, and what is marked without the
mark. -/
def present? : Value → Option Value
  | undefined => none
  | present value => some value
  | value => some value

/-- What a value offers to the element of a nullable. -/
def nonNull? : Value → Option Value
  | null => none
  | value => some value

theorem present?_eq_some {value : Value} (habsent : value.kind ≠ .undefined) (hmarked : value.kind ≠ .some) :
    value.present? = some value := by
  cases value with
  | undefined => exact absurd rfl habsent
  | present value => exact absurd rfl hmarked
  | _ => rfl

theorem nonNull?_eq_some {value : Value} (h : value.kind ≠ .null) : value.nonNull? = some value := by
  cases value with
  | null => exact absurd rfl h
  | _ => rfl

theorem Short.present? {value inner : Value} (h : value.Short) (hinner : inner ∈ value.present?) : inner.Short := by
  cases value <;> cases hinner <;> exact h

theorem Short.nonNull? {value inner : Value} (h : value.Short) (hinner : inner ∈ value.nonNull?) : inner.Short := by
  cases value <;> cases hinner <;> exact h

end Value

namespace Schema

/-- Writing the value meets no error. -/
def Accepts (schema : Schema) (value : Value) : Prop :=
  (schema.write value).error? = none

theorem encode_eq_ok_iff (schema : Schema) (value : Value) (bs : List UInt8) :
    schema.encode value = .ok bs ↔ schema.Accepts value ∧ bytesOf .little (schema.write value).pieces = bs := by
  rw [encode_eq, Accepts]
  cases (schema.write value).error? <;> simp

variable {value : Value} {start : Nat}

theorem Accepts.bool (h : Schema.bool.Accepts value) : ∃ b, value = .bool b := by
  cases value with
  | bool b => exact ⟨b, rfl⟩
  | _ => cases h

theorem Accepts.str (h : Schema.str.Accepts value) : ∃ s, value = .str s := by
  cases value with
  | str s => exact ⟨s, rfl⟩
  | _ => cases h

theorem integer_accepted {schema : Schema} {piece : Int64 → Piece}
    (h : (writeInteger schema piece value).error? = none) :
    ∃ i, integerOf? value = some i ∧ writeInteger schema piece value = .done [piece i] := by
  unfold writeInteger at h ⊢
  cases hi : integerOf? value with
  | none =>
    rw [hi] at h
    cases h
  | some i => exact ⟨i, rfl, rfl⟩

theorem float_accepted {schema : Schema} {piece : Binary64 → Piece}
    (h : (writeFloat schema piece value).error? = none) :
    ∃ x, floatOf? value = some x ∧ writeFloat schema piece value = .done [piece x] := by
  unfold writeFloat at h ⊢
  cases hx : floatOf? value with
  | none =>
    rw [hx] at h
    cases h
  | some x => exact ⟨x, rfl, rfl⟩

theorem Accepts.enum {names : List String} (h : (Schema.enum names).Accepts value) :
    ∃ index, ∃ hindex : index < names.length, value = .str names[index] ∧ names.idxOf? names[index] = some index ∧
      (Schema.enum names).write value = .done [.index index] := by
  cases value with
  | str name =>
    cases hname : names.idxOf? name with
    | none => simp [Accepts, write, hname, Written.refused] at h
    | some index =>
      obtain ⟨hindex, rfl, -⟩ := List.idxOf?_eq_some_iff.1 hname
      exact ⟨index, hindex, rfl, hname, by simp [write, hname]⟩
  | _ => cases h

theorem Accepts.struct {fields : List (String × Schema)} (h : (Schema.struct fields).Accepts value) :
    ∃ values, value = .struct values ∧ (writeFields fields values).error? = none := by
  cases value with
  | struct values => exact ⟨values, rfl, h⟩
  | _ => cases h

/-- A field that is missing and accepted is optional, and is written as an absence. -/
theorem writeFields_cons {name : String} {schema : Schema} {rest : List (String × Schema)}
    {values : List (String × Value)} (h : (writeFields ((name, schema) :: rest) values).error? = none) :
    writeFields ((name, schema) :: rest) values =
      (schema.write (Value.field values name)).andThen (writeFields rest values) := by
  rw [writeFields] at h ⊢
  rw [Value.field]
  cases hlookup : values.lookup name with
  | some value => rfl
  | none =>
    rw [hlookup] at h
    cases schema with
    | option element => rfl
    | _ => cases h

theorem fields_accepted {name : String} {schema : Schema} {rest : List (String × Schema)}
    {values : List (String × Value)} (h : (writeFields ((name, schema) :: rest) values).error? = none) :
    schema.Accepts (Value.field values name) ∧ (writeFields rest values).error? = none ∧
      (writeFields ((name, schema) :: rest) values).pieces =
        (schema.write (Value.field values name)).pieces ++ (writeFields rest values).pieces := by
  rw [writeFields_cons h]
  obtain ⟨hfirst, hrest⟩ := (Written.error?_andThen_eq_none_iff _ _).1 (writeFields_cons h ▸ h)
  exact ⟨hfirst, hrest, Written.pieces_andThen _ hfirst⟩

theorem Accepts.tuple {components : List Schema} (h : (Schema.tuple components).Accepts value) :
    ∃ values, value = .tuple values ∧ values.length = components.length ∧
      (Schema.tuple components).write value = writeComponents components values := by
  cases value with
  | tuple values =>
    by_cases hlength : values.length = components.length
    · exact ⟨values, rfl, hlength, if_pos hlength⟩
    · simp [Accepts, write, hlength, Written.refused] at h
  | _ => cases h

theorem components_accepted {schema : Schema} {rest : List Schema} {values : List Value}
    (h : (writeComponents (schema :: rest) (value :: values)).error? = none) :
    schema.Accepts value ∧ (writeComponents rest values).error? = none ∧
      (writeComponents (schema :: rest) (value :: values)).pieces =
        (schema.write value).pieces ++ (writeComponents rest values).pieces := by
  rw [writeComponents] at h ⊢
  obtain ⟨hfirst, hrest⟩ := (Written.error?_andThen_eq_none_iff _ _).1 h
  exact ⟨hfirst, hrest, Written.pieces_andThen _ hfirst⟩

/-- The first variant has no payload and is the value, or has one that it accepts, or is passed over. -/
theorem union_accepted {name : String} {entry : Option Schema} {rest : List (String × Option Schema)}
    (h : (writeUnion ((name, entry) :: rest) start value).error? = none) :
    (entry = none ∧ value = .unit name) ∨
      (∃ schema payload, entry = some schema ∧ value = .tagged name payload ∧ schema.Accepts payload) ∨
      (value.variant? ≠ some name ∧ (writeUnion rest (start + 1) value).error? = none) := by
  by_cases hname : value.variant? = some name
  · cases value with
    | unit tag =>
      obtain rfl := Option.some.inj hname
      cases entry with
      | none => exact .inl ⟨rfl, rfl⟩
      | some schema => simp [writeUnion, writeVariant, Written.refused] at h
    | tagged tag payload =>
      obtain rfl := Option.some.inj hname
      cases entry with
      | none => simp [writeUnion, writeVariant, Written.refused] at h
      | some schema =>
        rw [writeUnion_tagged] at h
        exact .inr (.inl ⟨schema, payload, rfl, rfl, h⟩)
    | _ => cases hname
  · rw [writeUnion_cons hname] at h
    exact .inr (.inr ⟨hname, h⟩)

theorem Accepts.vec {element : Schema} (h : (Schema.vec element).Accepts value) :
    ∃ values, value = .vec values ∧ (∀ item ∈ values, element.Accepts item) ∧
      ((Schema.vec element).write value).pieces = Piece.seq (fun item => (element.write item).pieces) values := by
  cases value with
  | vec values =>
    refine ⟨values, rfl, ?_, ?_⟩
    · intro item hitem
      have hall : (Written.all (values.map element.write)).error? = none := h
      exact (Written.error?_all_eq_none_iff _).1 hall _ (List.mem_map_of_mem hitem)
    · simp [write, Written.all, Piece.seq, List.flatMap_map]
  | _ => cases h

/-- Writing what a value offers to the element of a wrapper. -/
def writeOpt (element : Schema) : Option Value → Written
  | none => .done [.mark false]
  | some inner => (element.write inner).after [.mark true]

theorem writeOpt_accepted {element : Schema} {offered : Option Value} (h : (writeOpt element offered).error? = none) :
    (∀ inner ∈ offered, element.Accepts inner) ∧
      (writeOpt element offered).pieces = Piece.opt (fun inner => (element.write inner).pieces) offered := by
  cases offered with
  | none => exact ⟨by simp, rfl⟩
  | some inner =>
    refine ⟨?_, rfl⟩
    rintro _ ⟨⟩
    exact h

theorem write_option_eq (element : Schema) (value : Value) :
    (option element).write value = writeOpt element value.present? := by
  cases value <;> rfl

theorem write_nullable_eq (element : Schema) (value : Value) :
    (nullable element).write value = writeOpt element value.nonNull? := by
  cases value <;> rfl

theorem Accepts.option {element : Schema} (h : (Schema.option element).Accepts value) :
    (∀ inner ∈ value.present?, element.Accepts inner) ∧
      ((Schema.option element).write value).pieces =
        Piece.opt (fun inner => (element.write inner).pieces) value.present? := by
  rw [Accepts, write_option_eq] at h
  rw [write_option_eq]
  exact writeOpt_accepted h

theorem Accepts.nullable {element : Schema} (h : (Schema.nullable element).Accepts value) :
    (∀ inner ∈ value.nonNull?, element.Accepts inner) ∧
      ((Schema.nullable element).write value).pieces =
        Piece.opt (fun inner => (element.write inner).pieces) value.nonNull? := by
  rw [Accepts, write_nullable_eq] at h
  rw [write_nullable_eq]
  exact writeOpt_accepted h

end Schema

end WireFormat
