import WireFormat.Schema.Codec
import WireFormat.Proofs.Emission

/-!
# Attempts to write by a schema

How attempts combine, and what it takes for each kind of schema to accept a value. Main statements: a struct whose
values stand under its own field names in order is written as the tuple of its values; a union finds the variant of a
tag at its position; encoding gives the bytes of the pieces if there is no error, and the error otherwise.
-/
namespace WireFormat

namespace Written

@[simp] theorem pieces_done (pieces : List Piece) : (done pieces).pieces = pieces := rfl

@[simp] theorem error?_done (pieces : List Piece) : (done pieces).error? = none := rfl

@[simp] theorem pieces_after (front : List Piece) (attempt : Written) :
    (attempt.after front).pieces = front ++ attempt.pieces := rfl

@[simp] theorem error?_after (front : List Piece) (attempt : Written) :
    (attempt.after front).error? = attempt.error? := rfl

@[simp] theorem after_done (front pieces : List Piece) : (done pieces).after front = done (front ++ pieces) := rfl

@[simp] theorem andThen_done (pieces : List Piece) (second : Written) :
    (done pieces).andThen second = second.after pieces := rfl

@[simp] theorem andThen_nothing (attempt : Written) : attempt.andThen (done []) = attempt := by
  cases attempt with
  | mk pieces error? => cases error? <;> simp [andThen, done, after]

/-- The attempt succeeds and what it writes takes so many bytes. -/
def Takes (attempt : Written) (n : Nat) : Prop :=
  attempt.error? = none ∧ lengthOf attempt.pieces = n

theorem takes_after (front : List Piece) (attempt : Written) (n : Nat) :
    (attempt.after front).Takes (lengthOf front + n) ↔ attempt.Takes n := by
  simp [Takes, lengthOf_append]

theorem takes_andThen_done (first : Written) (pieces : List Piece) (n : Nat) :
    (first.andThen (done pieces)).Takes (n + lengthOf pieces) ↔ first.Takes n := by
  cases first with
  | mk written error? => cases error? <;> simp [andThen, Takes, lengthOf_append]

theorem takes_all_single (attempt : Written) (n : Nat) : (all [attempt]).Takes n ↔ attempt.Takes n := by
  cases attempt with
  | mk written error? => cases error? <;> simp [all, Takes]

theorem all_done {α : Type} {items : List α} {attempt : α → Written} {pieces : α → List Piece}
    (h : ∀ a ∈ items, attempt a = done (pieces a)) : all (items.map attempt) = done (items.flatMap pieces) := by
  induction items with
  | nil => rfl
  | cons a items ih =>
    have hfirst := h a List.mem_cons_self
    have hrest := ih fun c hc => h c (List.mem_cons_of_mem a hc)
    have hpieces := congrArg Written.pieces hrest
    have herror := congrArg Written.error? hrest
    simp only [all, pieces_done, error?_done] at hpieces herror
    simp only [all, List.map_cons, List.flatMap_cons, List.findSome?_cons, hfirst, pieces_done, error?_done, hpieces,
      herror]
    rfl

end Written

/-- The tag of a union value. -/
def Value.variant? : Value → Option String
  | unit tag | tagged tag _ => some tag
  | _ => none

namespace Narrow

/-- Unsigned numbers that were widened come back. -/
theorem u8_ofInt (n : UInt8) : u8 (.ofInt n.toNat) = n := by
  have h := toNat_u8 (.ofInt n.toNat)
  have hn := n.toNat_lt
  rw [Int64.toInt_ofInt_of_le (by omega) (by omega), Int.emod_eq_of_lt (Int.natCast_nonneg _) (by omega)] at h
  exact UInt8.toNat_inj.1 (Int.ofNat_inj.1 h)

theorem u16_ofInt (n : UInt16) : u16 (.ofInt n.toNat) = n := by
  have h := toNat_u16 (.ofInt n.toNat)
  have hn := n.toNat_lt
  rw [Int64.toInt_ofInt_of_le (by omega) (by omega), Int.emod_eq_of_lt (Int.natCast_nonneg _) (by omega)] at h
  exact UInt16.toNat_inj.1 (Int.ofNat_inj.1 h)

theorem u32_ofInt (n : UInt32) : u32 (.ofInt n.toNat) = n := by
  have h := toNat_u32 (.ofInt n.toNat)
  have hn := n.toNat_lt
  rw [Int64.toInt_ofInt_of_le (by omega) (by omega), Int.emod_eq_of_lt (Int.natCast_nonneg _) (by omega)] at h
  exact UInt32.toNat_inj.1 (Int.ofNat_inj.1 h)

theorem i32_toInt64 (n : Int32) : i32 n.toInt64 = n := by
  simp [i32]

end Narrow

theorem Value.kind_of_variant? {value : Value} {tag : String} (h : value.variant? = some tag) :
    value.kind = .union := by
  cases value with
  | unit tag => rfl
  | tagged tag payload => rfl
  | _ => cases h

namespace Schema

theorem presented_eq (element : Schema) (value : Value) :
    element.presented value = if element.tag = .option then .present value else value := by
  cases element <;> rfl

theorem encodedLength_eq (schema : Schema) (value : Value) :
    schema.encodedLength value = match (schema.write value).error? with
      | none => .ok (lengthOf (schema.write value).pieces)
      | some error => .error error := by
  have hcount := emit_discard (Discard.mk) (schema.write value).pieces
  cases herror : (schema.write value).error? with
  | none => simp only [encodedLength, writeTo, herror, hcount]
  | some error => simp only [encodedLength, writeTo, herror]

/-- Encoding gives the bytes of what is written, unless writing fails. -/
theorem encode_eq (schema : Schema) (value : Value) :
    schema.encode value = match (schema.write value).error? with
      | none => .ok (bytesOf .little (schema.write value).pieces)
      | some error => .error error := by
  rw [encode, encodedLength_eq]
  cases herror : (schema.write value).error? with
  | some error => rfl
  | none =>
    have hbytes := Buffer.written_emit_empty .little (lengthOf (schema.write value).pieces) (schema.write value).pieces
    simp only [writeTo, herror, bind, Except.bind, pure, Except.pure, hbytes]

theorem encode_of_done {schema : Schema} {value : Value} {pieces : List Piece} (h : schema.write value = .done pieces) :
    schema.encode value = .ok (bytesOf .little pieces) := by
  rw [encode_eq, h]
  rfl

theorem writeComponents_single (schema : Schema) (value : Value) :
    writeComponents [schema] [value] = schema.write value :=
  Written.andThen_nothing _

/-- Writing one field of a struct; one that is left out is written as an absence if it is optional. -/
def writeField (values : List (String × Value)) : String × Schema → Written
  | (name, schema) =>
    match values.lookup name, schema.tag with
    | some value, _ => schema.write value
    | none, .option => schema.write .undefined
    | none, _ => .refused (.missingField name)

theorem writeFields_eq_andThen (field : String × Schema) (rest : List (String × Schema))
    (values : List (String × Value)) :
    writeFields (field :: rest) values = (writeField values field).andThen (writeFields rest values) := by
  obtain ⟨name, schema⟩ := field
  rw [writeFields, writeField]
  cases values.lookup name with
  | some value => rfl
  | none => cases schema.tag <;> rfl

/-- The values already passed over stand in front and have other names. -/
theorem writeFields_append {fields : List (String × Schema)} {front values : List (String × Value)}
    (hnames : Entries.names values = Entries.names fields) (hnodup : (Entries.names fields).Nodup)
    (hfront : ∀ name ∈ Entries.names fields, name ∉ Entries.names front) :
    writeFields fields (front ++ values) = writeComponents (fields.map Prod.snd) (values.map Prod.snd) := by
  induction fields generalizing front values with
  | nil => rfl
  | cons field fields ih =>
    obtain ⟨name, schema⟩ := field
    cases values with
    | nil => cases hnames
    | cons entry values =>
      obtain ⟨other, value⟩ := entry
      obtain ⟨rfl, hrest⟩ : other = name ∧ Entries.names values = Entries.names fields := by
        simpa [Entries.names] using hnames
      obtain ⟨hfresh, hnodup⟩ : other ∉ Entries.names fields ∧ (Entries.names fields).Nodup :=
        List.nodup_cons.1 hnodup
      have hmissing : front.lookup other = none := Entries.lookup_eq_none (hfront other List.mem_cons_self)
      have hlookup : (front ++ (other, value) :: values).lookup other = some value := by
        rw [List.lookup_append, hmissing, List.lookup_cons_self]
        rfl
      have hpassed : ∀ name ∈ Entries.names fields, name ∉ Entries.names (front ++ [(other, value)]) := by
        intro name hname hmem
        rw [Entries.names, List.map_append, List.mem_append] at hmem
        rcases hmem with hmem | hmem
        · exact hfront name (List.mem_cons_of_mem _ hname) hmem
        · obtain rfl : name = other := by simpa using hmem
          exact hfresh hname
      have ih := ih hrest hnodup hpassed
      rw [List.append_assoc] at ih
      rw [writeFields, hlookup, List.map_cons, List.map_cons, writeComponents, ← ih]
      rfl

/-- Under its own names in order a struct is written as a tuple. -/
theorem writeFields_eq_writeComponents {fields : List (String × Schema)} {values : List (String × Value)}
    (hnames : Entries.names values = Entries.names fields) (hnodup : (Entries.names fields).Nodup) :
    writeFields fields values = writeComponents (fields.map Prod.snd) (values.map Prod.snd) :=
  @writeFields_append fields [] values hnames hnodup (fun _ _ => List.not_mem_nil)

theorem write_u8 (n : UInt8) : u8.write (.int (.ofInt n.toNat)) = .done [.u8 n] := by
  show Written.done [.u8 (Narrow.u8 (.ofInt n.toNat))] = .done [.u8 n]
  rw [Narrow.u8_ofInt]

theorem write_u16 (n : UInt16) : u16.write (.int (.ofInt n.toNat)) = .done [.u16 n] := by
  show Written.done [.u16 (Narrow.u16 (.ofInt n.toNat))] = .done [.u16 n]
  rw [Narrow.u16_ofInt]

theorem write_u32 (n : UInt32) : u32.write (.int (.ofInt n.toNat)) = .done [.u32 n] := by
  show Written.done [.u32 (Narrow.u32 (.ofInt n.toNat))] = .done [.u32 n]
  rw [Narrow.u32_ofInt]

theorem write_i32 (n : Int32) : i32.write (.int n.toInt64) = .done [.i32 n] := by
  show Written.done [.i32 (Narrow.i32 n.toInt64)] = .done [.i32 n]
  rw [Narrow.i32_toInt64]

theorem write_f32 {x : Floating.Binary32} (h : x.widen.narrow = x) : f32.write (.float x.widen) = .done [.f32 x] := by
  show Written.done [.f32 x.widen.narrow] = .done [.f32 x]
  rw [h]

/-- A name stands at one index only. -/
theorem write_enum {names : List String} (hnodup : names.Nodup) {index : Nat} (hindex : index < names.length) :
    (enum names).write (.str names[index]) = .done [.index index] := by
  have hfound : names.idxOf? names[index] = some index := by
    refine List.idxOf?_eq_some_iff.2 ⟨hindex, rfl, ?_⟩
    intro earlier hearlier heq
    have hsame := (List.getElem_inj hnodup).1 heq
    omega
  simp [write, hfound]

/-- Writing a union value where the first of the listed variants has the given index. -/
def writeUnion (variants : List (String × Option Schema)) (index : Nat) : Value → Written
  | .unit tag => writeVariant variants index tag none
  | .tagged tag payload => writeVariant variants index tag (some payload)
  | value => .refused (.mismatch .union value.kind)

theorem write_union (variants : List (String × Option Schema)) (value : Value) :
    (union variants).write value = writeUnion variants 0 value := by
  cases value <;> rfl

/-- A variant of another name is passed over. -/
theorem writeUnion_cons {name : String} {payload : Option Schema} {rest : List (String × Option Schema)} {index : Nat}
    {value : Value} (h : value.variant? ≠ some name) :
    writeUnion ((name, payload) :: rest) index value = writeUnion rest (index + 1) value := by
  cases value with
  | unit tag =>
    have hne : ¬name = tag := fun e => h (congrArg some e.symm)
    cases payload <;> simp only [writeUnion, writeVariant, hne, if_false]
  | tagged tag inner =>
    have hne : ¬name = tag := fun e => h (congrArg some e.symm)
    cases payload <;> simp only [writeUnion, writeVariant, hne, if_false]
  | _ => rfl

theorem writeUnion_unit (tag : String) (rest : List (String × Option Schema)) (index : Nat) :
    writeUnion ((tag, none) :: rest) index (.unit tag) = .done [.index index] := by
  simp only [writeUnion, writeVariant, if_true]

theorem writeUnion_tagged (tag : String) (schema : Schema) (rest : List (String × Option Schema)) (index : Nat)
    (payload : Value) :
    writeUnion ((tag, some schema) :: rest) index (.tagged tag payload) =
      (schema.write payload).after [.index index] := by
  simp only [writeUnion, writeVariant, if_true]

theorem mem_parts_of_lookup {variants : List (String × Option Schema)} {tag : String} {schema : Schema}
    (h : variants.lookup tag = some (some schema)) : schema ∈ (union variants).parts :=
  List.mem_filterMap.2 ⟨_, Entries.mem_of_lookup h, rfl⟩

/-- A variant is looked up by its tag, and written behind the place where it stands. -/
theorem writeVariant_eq (variants : List (String × Option Schema)) (start : Nat) (tag : String) (payload : Option Value) :
    writeVariant variants start tag payload =
      match variants.lookup tag, payload with
      | none, _ => .refused (.unknownVariant .union tag)
      | some none, none => .done [.index (start + (Entries.names variants).idxOf tag)]
      | some none, some _ => .refused (.unexpectedPayload tag)
      | some (some _), none => .refused (.missingPayload tag)
      | some (some schema), some value =>
        (schema.write value).after [.index (start + (Entries.names variants).idxOf tag)] := by
  induction variants generalizing start with
  | nil => rfl
  | cons variant rest ih =>
    obtain ⟨name, entry⟩ := variant
    by_cases hname : name = tag
    · subst hname
      rw [List.lookup_cons_self, Entries.names, List.map_cons, List.idxOf_cons_self]
      cases entry <;> cases payload <;> simp only [writeVariant, if_true, Nat.add_zero]
    · have hlookup : ((name, entry) :: rest).lookup tag = rest.lookup tag := by
        rw [List.lookup_cons, beq_false_of_ne (Ne.symm hname)]
      have hindex : start + (Entries.names ((name, entry) :: rest)).idxOf tag =
          start + 1 + (Entries.names rest).idxOf tag := by
        rw [Entries.names, List.map_cons, List.idxOf_cons, beq_false_of_ne hname, cond_false, Entries.names]
        omega
      have hnext : writeVariant ((name, entry) :: rest) start tag payload = writeVariant rest (start + 1) tag payload := by
        cases entry <;> simp only [writeVariant, hname, if_false]
      rw [hlookup, hindex, hnext, ih]

/-- An optional takes every value for a present one that is not an absence and not marked as present. -/
theorem write_option {element : Schema} {value : Value} (habsent : value.kind ≠ .undefined)
    (hmarked : value.kind ≠ .some) : (option element).write value = (element.write value).after [.mark true] := by
  cases value with
  | undefined => exact absurd rfl habsent
  | present value => exact absurd rfl hmarked
  | _ => rfl

theorem write_option_presented {element : Schema} {value : Value}
    (habsent : element.tag ≠ .option → value.kind ≠ .undefined) (hmarked : element.tag ≠ .option → value.kind ≠ .some) :
    (option element).write (element.presented value) = (element.write value).after [.mark true] := by
  by_cases htag : element.tag = .option
  · rw [presented_eq, if_pos htag]
    rfl
  · rw [presented_eq, if_neg htag]
    exact write_option (habsent htag) (hmarked htag)

theorem write_nullable {element : Schema} {value : Value} (h : value.kind ≠ .null) :
    (nullable element).write value = (element.write value).after [.mark true] := by
  cases value with
  | null => exact absurd rfl h
  | _ => rfl

end Schema

end WireFormat
