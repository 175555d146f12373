import Mathlib
import WireFormat.Proofs.DoubleRounding
import WireFormat.Proofs.Forms

/-!
# Normal forms

What a schema gives back of a value is the form of the value, as far as the numbers at its single precision leaves come
back as they should. An integer there is rounded twice, by way of double precision. Main statement: what was encoded
decodes to its normal form, with nothing left over, exactly if no integer at a single precision leaf strays; and where
no two optionals stand with nullables between them, what was decoded is its own normal form.
-/
namespace WireFormat
open Floating

namespace Value.Number

/-- What a single precision leaf gives back. -/
def throughSingle : Number → Binary64
  | int i => (Binary64.ofInt i.toInt).narrow.widen
  | float x => x.narrow.widen

theorem roundsTwice_throughSingle {number : Number} (h : ∀ x, number = float x → x.isNaN = false) :
    number.RoundsTwice number.throughSingle := by
  cases number with
  | int i =>
    have hdouble := Binary64.isNearest_ofInt i.toInt
    have hnan := hdouble.1.isNaN_eq_false
    exact ⟨_, hdouble, hnan, Binary64.isSingle_narrow hnan⟩
  | float x => exact ⟨x, rfl, h x rfl, Binary64.isSingle_narrow (h x rfl)⟩

/-- Only integers that stray are not rounded to the nearest number. -/
theorem roundsToSingle_throughSingle_iff {number : Number} (h : ∀ x, number = float x → x.isNaN = false) :
    number.RoundsToSingle number.throughSingle ↔ ∀ i, number = int i → ¬Strays i.toInt.natAbs := by
  cases number with
  | float x => exact iff_of_true ⟨h x rfl, Binary64.isSingle_narrow (h x rfl)⟩ fun i => nofun
  | int i =>
    obtain ⟨hsign, hnearest⟩ := Binary64.isNearest_narrow_ofInt i
    constructor
    · rintro hsingle _ ⟨⟩
      obtain ⟨x, hx, -, hwiden⟩ := Binary64.isSingle_iff.1 hsingle
      have hnan := (Binary64.isNearest_narrow (Binary64.isNearest_ofInt i.toInt).1.isNaN_eq_false).1.isNaN_eq_false
      have hsame : (Binary64.ofInt i.toInt).narrow = x := by
        rw [← narrow_widen hnan, ← narrow_widen hx.isNaN_eq_false]
        exact congrArg Binary64.narrow hwiden
      exact hnearest.1 (hsame ▸ hx)
    · intro hnot
      exact Binary64.isSingle_iff.2 ⟨_, hnearest.2 (hnot i rfl), hsign, rfl⟩

end Value.Number

namespace Schema
open Value

mutual

/-- The numbers that a value offers to single precision leaves. -/
def singles : Schema → Value → List Number
  | f32, value => value.number?.toList
  | struct fields, value =>
    match value with
    | .struct values => singlesOfFields fields values
    | _ => []
  | tuple components, value =>
    match value with
    | .tuple values => singlesOfComponents components values
    | _ => []
  | union variants, value => singlesOfUnion variants value
  | vec element, value =>
    match value with
    | .vec values => values.flatMap element.singles
    | _ => []
  | option element, value => value.present?.toList.flatMap element.singles
  | nullable element, value => value.nonNull?.toList.flatMap element.singles
  | bool, _ | str, _ | u8, _ | u16, _ | u32, _ | i32, _ | f64, _ | enum _, _ => []

def singlesOfFields : List (String × Schema) → List (String × Value) → List Number
  | [], _ => []
  | (name, schema) :: rest, values => schema.singles (Value.field values name) ++ singlesOfFields rest values

def singlesOfComponents : List Schema → List Value → List Number
  | schema :: rest, value :: values => schema.singles value ++ singlesOfComponents rest values
  | _, _ => []

def singlesOfUnion : List (String × Option Schema) → Value → List Number
  | [], _ => []
  | (name, none) :: rest, value => if value.variant? = some name then [] else singlesOfUnion rest value
  | (name, some schema) :: rest, value =>
    if value.variant? = some name then
      match value with
      | .tagged _ payload => schema.singles payload
      | _ => []
    else singlesOfUnion rest value

end

theorem singlesOfUnion_cons {name : String} {entry : Option Schema} {rest : List (String × Option Schema)}
    {value : Value} (h : value.variant? ≠ some name) :
    singlesOfUnion ((name, entry) :: rest) value = singlesOfUnion rest value := by
  cases entry <;> exact if_neg h

theorem presented_injective (element : Schema) : Function.Injective element.presented := by
  intro a b h
  rw [presented_eq, presented_eq] at h
  split at h
  · exact Value.present.inj h
  · exact h

/-- A form of what a container holds is a form of the container. -/
theorem contained_iff {α : Type} {image : List α → Value} (himage : Function.Injective image)
    {related : List α → List α → Prop} {values forms : List α} :
    (∃ vs fs, image values = image vs ∧ related vs fs ∧ image forms = image fs) ↔ related values forms := by
  constructor
  · rintro ⟨vs, fs, hvalues, hrelated, hforms⟩
    rwa [himage hvalues, himage hforms]
  · exact fun h => ⟨values, forms, rfl, h, rfl⟩

section Recovered

variable {rounds : Number → Binary64 → Prop}

/-- What comes back is the form of the value if the numbers of single precision leaves come back as `rounds` says. -/
def GivesForm (rounds : Number → Binary64 → Prop) (schema : Schema) : Prop :=
  ∀ ⦃value : Value⦄, schema.Accepts value →
    (schema.FormBy rounds value (schema.recovered value) ↔
      ∀ number ∈ schema.singles value, rounds number number.throughSingle)

theorem number?_of_integer {value : Value} {i : Int64} (h : integerOf? value = some i) :
    ∃ number, value.number? = some number ∧ number.whole = i.toInt := by
  cases value with
  | int j =>
    obtain rfl := Option.some.inj h
    exact ⟨_, rfl, rfl⟩
  | float x =>
    obtain rfl := Option.some.inj h
    exact ⟨_, rfl, x.toInt_toInt64.symm⟩
  | _ => cases h

theorem number?_of_float {value : Value} {x : Binary64} (h : floatOf? value = some x) :
    ∃ number, value.number? = some number ∧ number.RoundsToDouble x ∧ number.throughSingle = x.narrow.widen := by
  cases value with
  | int i =>
    obtain rfl := Option.some.inj h
    exact ⟨_, rfl, Binary64.isNearest_ofInt i.toInt, rfl⟩
  | float y =>
    obtain rfl := Option.some.inj h
    exact ⟨_, rfl, rfl, rfl⟩
  | _ => cases h

/-- An integer leaf without single precision numbers, which gives the reduced integer back. -/
theorem givesForm_integer {schema : Schema} {piece : Int64 → Piece} {reduce : Int → Int} {least : Int} {bits : Nat}
    (hwrite : ∀ value, schema.write value = writeInteger schema piece value)
    (hrecovered : ∀ value, schema.recovered value = recoveredInteger reduce value)
    (hform : ∀ value, schema.FormBy rounds value = NumberForm .int (Number.ReducesTo least bits) value)
    (hsingles : ∀ value, schema.singles value = [])
    (hreduce : ∀ n, -2 ^ 63 ≤ reduce n ∧ reduce n < 2 ^ 63 ∧ least ≤ reduce n ∧ reduce n < least + 2 ^ bits ∧
      reduce n ≡ n [ZMOD 2 ^ bits]) : schema.GivesForm rounds := by
  intro value h
  rw [Accepts, hwrite] at h
  obtain ⟨i, hi, -⟩ := integer_accepted h
  obtain ⟨number, hnumber, hwhole⟩ := number?_of_integer hi
  obtain ⟨hmin, hmax, hlow, hhigh, hmod⟩ := hreduce i.toInt
  have hback : (Int64.ofInt (reduce i.toInt)).toInt = reduce i.toInt := Int64.toInt_ofInt_of_le hmin hmax
  rw [hform, hrecovered, hsingles, recoveredInteger_of_some _ hi]
  refine iff_of_true ⟨number, _, hnumber, ?_, rfl⟩ (List.forall_mem_nil _)
  rw [Number.ReducesTo, hback, hwhole]
  exact ⟨hlow, hhigh, hmod⟩

theorem givesForm_f32 : Schema.f32.GivesForm rounds := by
  intro value h
  obtain ⟨x, hx, -⟩ := float_accepted (show (writeFloat f32 _ value).error? = none from h)
  obtain ⟨number, hnumber, -, hthrough⟩ := number?_of_float hx
  have hrecovered : f32.recovered value = .float x.narrow.widen := recoveredFloat_of_some _ hx
  simp [hrecovered, FormBy, NumberForm, singles, hnumber, hthrough]

theorem givesForm_f64 : Schema.f64.GivesForm rounds := by
  intro value h
  obtain ⟨x, hx, -⟩ := float_accepted (show (writeFloat f64 _ value).error? = none from h)
  obtain ⟨number, hnumber, hdouble, -⟩ := number?_of_float hx
  have hrecovered : f64.recovered value = .float x := recoveredFloat_of_some id hx
  rw [hrecovered]
  exact iff_of_true ⟨number, x, hnumber, hdouble, rfl⟩ (List.forall_mem_nil _)

theorem GivesForm.fields {fields : List (String × Schema)} (h : ∀ part ∈ fields.map Prod.snd, part.GivesForm rounds)
    {values : List (String × Value)} (haccepts : (writeFields fields values).error? = none) :
    FormByFields rounds fields values (recoveredFields fields values) ↔
      ∀ number ∈ singlesOfFields fields values, rounds number number.throughSingle := by
  induction fields with
  | nil => exact iff_of_true trivial (List.forall_mem_nil _)
  | cons field rest ih =>
    rw [List.map_cons, List.forall_mem_cons] at h
    obtain ⟨hfield, hrest, -⟩ := fields_accepted haccepts
    rw [recoveredFields, FormByFields, singlesOfFields, List.forall_mem_append, h.1 hfield, ih h.2 hrest]
    exact and_iff_right rfl

theorem GivesForm.components {components : List Schema} (h : ∀ part ∈ components, part.GivesForm rounds)
    {values : List Value} (hlength : values.length = components.length)
    (haccepts : (writeComponents components values).error? = none) :
    FormByComponents rounds components values (recoveredComponents components values) ↔
      ∀ number ∈ singlesOfComponents components values, rounds number number.throughSingle := by
  induction components generalizing values with
  | nil =>
    obtain rfl := List.length_eq_zero_iff.1 hlength
    exact iff_of_true trivial (List.forall_mem_nil _)
  | cons schema rest ih =>
    match values, hlength with
    | value :: values, hlength =>
      rw [List.forall_mem_cons] at h
      obtain ⟨hfirst, hrest, -⟩ := components_accepted haccepts
      rw [recoveredComponents, FormByComponents, singlesOfComponents, List.forall_mem_append, h.1 hfirst,
        ih h.2 (Nat.succ.inj hlength) hrest]

theorem GivesForm.union {variants : List (String × Option Schema)}
    (h : ∀ part ∈ variants.filterMap Prod.snd, part.GivesForm rounds) {start : Nat} {value : Value}
    (haccepts : (writeUnion variants start value).error? = none) :
    FormByUnion rounds variants value ((Schema.union variants).recovered value) ↔
      ∀ number ∈ singlesOfUnion variants value, rounds number number.throughSingle := by
  induction variants generalizing start with
  | nil => cases value <;> cases haccepts
  | cons variant others ih =>
    obtain ⟨name, entry⟩ := variant
    obtain ⟨rfl, rfl⟩ | ⟨schema, payload, rfl, rfl, hpayload⟩ | ⟨hname, hothers⟩ := union_accepted haccepts
    · have hnone : singlesOfUnion ((name, none) :: others) (.unit name) = [] := if_pos rfl
      rw [formByUnion_unit, hnone]
      exact iff_of_true rfl (List.forall_mem_nil _)
    · have hhere : singlesOfUnion ((name, some schema) :: others) (.tagged name payload) = schema.singles payload :=
        if_pos rfl
      rw [formByUnion_tagged, hhere, recovered_union_tagged, ← h schema List.mem_cons_self hpayload]
      constructor
      · rintro ⟨_, hform, ⟨⟩⟩
        exact hform
      · exact fun hform => ⟨_, hform, rfl⟩
    · have hparts : ∀ part ∈ others.filterMap Prod.snd, part.GivesForm rounds := fun part hpart =>
        h part (List.filterMap_subset _ (List.subset_cons_self _ _) hpart)
      rw [recovered_union_cons hname, formByUnion_cons hname, singlesOfUnion_cons hname]
      exact ih hparts hothers

theorem givesForm_vec {element : Schema} (h : element.GivesForm rounds) : (Schema.vec element).GivesForm rounds := by
  intro value haccepts
  obtain ⟨values, rfl, hvalues, -⟩ := haccepts.vec
  have hitems : List.Forall₂ (element.FormBy rounds) values (values.map element.recovered) ↔
      ∀ number ∈ values.flatMap element.singles, rounds number number.throughSingle := by
    rw [List.forall₂_map_right_iff, List.forall₂_same]
    simp only [List.mem_flatMap, forall_exists_index, and_imp]
    constructor
    · intro hforms number item hitem
      exact (h (hvalues item hitem)).1 (hforms item hitem) number
    · intro hnumbers item hitem
      exact (h (hvalues item hitem)).2 fun number => hnumbers number item hitem
  rw [singles, ← hitems]
  exact contained_iff fun _ _ => Value.vec.inj

theorem givesForm_option {element : Schema} (h : element.GivesForm rounds) :
    (Schema.option element).GivesForm rounds := by
  intro value haccepts
  obtain ⟨hinner, -⟩ := haccepts.option
  rw [recovered, singles]
  cases hoffered : value.present? with
  | none => exact iff_of_true ((formBy_option_of_none hoffered).2 rfl) (List.forall_mem_nil _)
  | some inner =>
    rw [formBy_option_of_some hoffered, Option.toList_some, List.flatMap_singleton, ← h (hinner inner hoffered)]
    constructor
    · rintro ⟨content, hcontent, hsame⟩
      rwa [element.presented_injective hsame]
    · exact fun hform => ⟨_, hform, rfl⟩

theorem givesForm_nullable {element : Schema} (h : element.GivesForm rounds) :
    (Schema.nullable element).GivesForm rounds := by
  intro value haccepts
  obtain ⟨hinner, -⟩ := haccepts.nullable
  rw [recovered, singles]
  cases hoffered : value.nonNull? with
  | none => exact iff_of_true ((formBy_nullable_of_none hoffered).2 rfl) (List.forall_mem_nil _)
  | some inner =>
    rw [formBy_nullable_of_some hoffered, Option.toList_some, List.flatMap_singleton]
    exact h (hinner inner hoffered)

theorem unsigned_reduced {bound : Int} {bits : Nat} (hbound : bound = 2 ^ bits) (hbits : bits ≤ 32) (n : Int) :
    -2 ^ 63 ≤ n % bound ∧ n % bound < 2 ^ 63 ∧ 0 ≤ n % bound ∧ n % bound < 0 + 2 ^ bits ∧
      n % bound ≡ n [ZMOD 2 ^ bits] := by
  subst hbound
  have hpos : (0 : Int) < 2 ^ bits := by positivity
  have hle : (2 : Int) ^ bits ≤ 2 ^ 32 := pow_le_pow_right₀ one_le_two hbits
  have hlow := Int.emod_nonneg n hpos.ne'
  have hhigh := Int.emod_lt_of_pos n hpos
  exact ⟨by omega, by omega, hlow, by omega, Int.mod_modEq n _⟩

theorem givesForm (schema : Schema) : schema.GivesForm rounds := by
  induction schema using induction_on_parts with
  | step schema ih =>
    cases schema with
    | bool =>
      intro value h
      obtain ⟨b, rfl⟩ := h.bool
      exact iff_of_true ⟨b, rfl, rfl⟩ (List.forall_mem_nil _)
    | str =>
      intro value h
      obtain ⟨s, rfl⟩ := h.str
      exact iff_of_true ⟨s, rfl, rfl⟩ (List.forall_mem_nil _)
    | u8 | u16 | u32 =>
      refine givesForm_integer (fun _ => rfl) (fun _ => rfl) (fun _ => rfl) (fun _ => rfl) (unsigned_reduced ?_ ?_)
      · norm_num
      · decide
    | i32 =>
      refine givesForm_integer (fun _ => rfl) (fun _ => rfl) (fun _ => rfl) (fun _ => rfl) fun n => ?_
      have hlow := @Int.le_bmod n 0x100000000 (by decide)
      have hhigh := @Int.bmod_lt n 0x100000000 (by decide)
      exact ⟨by omega, by omega, by omega, by omega, Int.bmod_emod⟩
    | f32 => exact givesForm_f32
    | f64 => exact givesForm_f64
    | enum names =>
      intro value h
      obtain ⟨index, hindex, rfl, -⟩ := h.enum
      exact iff_of_true ⟨_, List.getElem_mem hindex, rfl, rfl⟩ (List.forall_mem_nil _)
    | struct fields =>
      intro value h
      obtain ⟨values, rfl, hfields⟩ := h.struct
      rw [singles, ← GivesForm.fields ih hfields]
      exact contained_iff fun _ _ => Value.struct.inj
    | tuple components =>
      intro value h
      obtain ⟨values, rfl, hlength, hwrite⟩ := h.tuple
      rw [Accepts, hwrite] at h
      have hparts : ∀ part ∈ components, part.GivesForm rounds := ih
      rw [singles, ← GivesForm.components hparts hlength h]
      exact contained_iff fun _ _ => Value.tuple.inj
    | union variants =>
      intro value h
      rw [Accepts, write_union] at h
      exact GivesForm.union ih h
    | vec element => exact givesForm_vec (ih element List.mem_cons_self)
    | option element => exact givesForm_option (ih element List.mem_cons_self)
    | nullable element => exact givesForm_nullable (ih element List.mem_cons_self)

end Recovered

/-- What was encoded decodes, from all of the bytes, to a form of the value in which the integers of single precision
leaves are rounded twice. This is the one normal form of the value exactly if none of these integers strays. Where no
optional stands above an optional with nullables between them, what was decoded is the one normal form of itself: it is
accepted as it is, and decodes to itself. -/
theorem decodes_to_normal_form_iff (schema : Schema) (hindexed : schema.Indexed) (value : Value) (hshort : value.Short)
    (hnumbers : ∀ x, .float x ∈ schema.singles value → x.isNaN = false) (bs : List UInt8)
    (hencode : schema.encode value = .ok bs) :
    ∃ form, (∃ after, schema.read (Buffer.ofBytes .little bs) = (.ok form, after) ∧ after.cursor = bs.length) ∧
      (∀ leftover, schema.decode leftover bs = .ok form) ∧
      schema.FormBy Number.RoundsTwice value form ∧
      ((∀ other, schema.NormalForm value other ↔ other = form) ↔
        ∀ i, .int i ∈ schema.singles value → ¬Strays i.toInt.natAbs) ∧
      (schema.Keyed → schema.Clear → (∀ other, schema.NormalForm form other ↔ other = form) ∧
        ∃ bs', schema.encode form = .ok bs' ∧ ∀ leftover, schema.decode leftover bs' = .ok form) := by
  obtain ⟨haccepts, rfl⟩ := (encode_eq_ok_iff _ _ _).1 hencode
  have hyields := schema.recovers hindexed haccepts hshort
  have hread := hyields.read_ofBytes .little
  have htwice : schema.FormBy Number.RoundsTwice value (schema.recovered value) :=
    (schema.givesForm haccepts).2 fun number hnumber =>
      Number.roundsTwice_throughSingle fun x hx => hnumbers x (hx ▸ hnumber)
  refine ⟨schema.recovered value, ⟨_, hread, ?_⟩, hyields.decode, htwice, ?_, fun hkeyed hclear => ?_⟩
  · show 0 + lengthOf (schema.write value).pieces = _
    rw [length_bytesOf, Nat.zero_add]
  · rw [only_normalForm_iff, NormalForm, schema.givesForm haccepts]
    have honce : ∀ number ∈ schema.singles value, (number.RoundsToSingle number.throughSingle ↔ _) :=
      fun number hnumber => Number.roundsToSingle_throughSingle_iff fun x hx => hnumbers x (hx ▸ hnumber)
    constructor
    · exact fun hall i hi => (honce _ hi).1 (hall _ hi) i rfl
    · exact fun hnone number hnumber => (honce _ hnumber).2 fun i hi => hnone i (hi ▸ hnumber)
  · have hstable := schema.readsStable hkeyed hclear hread
    have hagain := schema.recovers hindexed hstable.accepted (schema.short_recovered hshort)
    rw [hstable.fixed] at hagain
    have hform : schema.NormalForm (schema.recovered value) (schema.recovered value) := by
      refine schema.formsAgain hkeyed hclear ?_ htwice
      rintro number w ⟨d, -, -, hsingle⟩
      exact ⟨hsingle.1, hsingle.self⟩
    exact ⟨only_normalForm_iff.2 hform, _, (encode_eq_ok_iff _ _ _).2 ⟨hstable.accepted, rfl⟩, hagain.decode⟩

/-- Fields out of order, one too many and one left out, numbers out of range, an integer between two single precision
numbers, and marks where none are needed. -/
theorem decodes_to_normal_form_coerced :
    let schema : Schema := .struct [("level", .u8), ("offset", .i32), ("ratio", .f32), ("gain", .f32),
      ("limit", .option (.option .u16)), ("flag", .option (.option .bool)), ("name", .nullable (.option .str)),
      ("state", .union [("off", none), ("on", some .u16)]), ("samples", .vec .u16)]
    let value : Value := .struct [("unit", .str "m"), ("samples", .vec [.int (-1), .float ⟨0x4004000000000000⟩]),
      ("ratio", .float ⟨0x3FB999999999999A⟩), ("offset", .int 4294967295), ("level", .float ⟨0xBFF8000000000000⟩),
      ("gain", .int 16777217), ("flag", .present .undefined), ("state", .tagged "on" (.int 65537)),
      ("name", .present (.str "é"))]
    let bs : List UInt8 := [255, 255, 255, 255, 255, 0xCD, 0xCC, 0xCC, 0x3D, 0, 0, 0x80, 0x4B, 0, 1, 0,
      1, 1, 2, 0, 0, 0, 0, 0, 0, 0, 0xC3, 0xA9, 1, 0, 0, 0, 1, 0, 2, 0, 0, 0, 0, 0, 0, 0, 255, 255, 2, 0]
    let form : Value := .struct [("level", .int 255), ("offset", .int (-1)), ("ratio", .float ⟨0x3FB99999A0000000⟩),
      ("gain", .float ⟨0x4170000000000000⟩), ("limit", .undefined), ("flag", .present .undefined), ("name", .str "é"),
      ("state", .tagged "on" (.int 1)), ("samples", .vec [.int 65535, .int 2])]
    schema.Indexed ∧ value.Short ∧ (∀ x, .float x ∈ schema.singles value → x.isNaN = false) ∧
      schema.encode value = .ok bs ∧ (∀ i, .int i ∈ schema.singles value → ¬Strays i.toInt.natAbs) ∧
      schema.Keyed ∧ schema.Clear ∧ (∀ leftover, schema.decode leftover bs = .ok form) ∧
      schema.NormalForm value form ∧ schema.NormalForm form form ∧
      ∃ bs', schema.encode form = .ok bs' ∧ ∀ leftover, schema.decode leftover bs' = .ok form := by
  intro schema value bs form
  have hindexed : schema.Indexed := by decide
  have hshort : value.Short := by
    simp +decide [value, Value.Short, Value.ShortFields, Value.ShortItems]
  have hsingles : schema.singles value = [.float ⟨0x3FB999999999999A⟩, .int 16777217] := rfl
  have hnumbers : ∀ x, .float x ∈ schema.singles value → x.isNaN = false := by
    rw [hsingles]
    simp +decide
  have hstray : ∀ i, .int i ∈ schema.singles value → ¬Strays i.toInt.natAbs := by
    rw [hsingles]
    simp +decide [Strays]
  have hencode : schema.encode value = .ok bs := by decide +kernel
  have hkeyed : schema.Keyed := by simp [schema, Keyed, KeyedFields, KeyedVariants]
  have hclear : schema.Clear := by decide
  obtain ⟨same, -, hdecode, -, hnormal, hstable⟩ :=
    schema.decodes_to_normal_form_iff hindexed value hshort hnumbers bs hencode
  have hsame : same = form := by
    obtain ⟨haccepts, hbytes⟩ := (encode_eq_ok_iff _ _ _).1 hencode
    have hread := (schema.recovers hindexed haccepts hshort).decode .ignored
    rw [hbytes] at hread
    exact Except.ok.inj ((hdecode .ignored).symm.trans hread)
  subst hsame
  obtain ⟨hself, hagain⟩ := hstable hkeyed hclear
  exact ⟨hindexed, hshort, hnumbers, hencode, hstray, hkeyed, hclear, hdecode, (hnormal.2 hstray _).2 rfl,
    (hself _).2 rfl, hagain⟩

/-- A unit above the middle between `2 ^ 53` and the next single precision number, this one is the normal form, but
`2 ^ 53` is decoded. -/
theorem decodes_beside_normal_form :
    f32.encode (.int 9007199791611905) = .ok [0x00, 0x00, 0x00, 0x5A] ∧
      (∀ leftover, f32.decode leftover [0x00, 0x00, 0x00, 0x5A] = .ok (.float ⟨0x4340000000000000⟩)) ∧
      f32.NormalForm (.int 9007199791611905) (.float ⟨0x4340000020000000⟩) ∧
      ¬f32.NormalForm (.int 9007199791611905) (.float ⟨0x4340000000000000⟩) := by
  have hencode : f32.encode (.int 9007199791611905) = .ok [0x00, 0x00, 0x00, 0x5A] := by decide +kernel
  have hrecovered : f32.recovered (.int 9007199791611905) = .float ⟨0x4340000000000000⟩ :=
    congrArg Value.float (by decide +kernel)
  have hform : f32.NormalForm (.int 9007199791611905) (.float ⟨0x4340000020000000⟩) := by
    refine ⟨_, _, rfl, Binary64.isSingle_iff.2 ⟨⟨0x5A000001⟩, ?_, by decide, by decide +kernel⟩, rfl⟩
    exact_mod_cast (Binary32.isNearest_above_middle_iff (by decide)).2 (by decide)
  refine ⟨hencode, ?_, hform, fun hother => ?_⟩
  · obtain ⟨haccepts, hbytes⟩ := (encode_eq_ok_iff _ _ _).1 hencode
    have hyields := f32.recovers (by decide) haccepts trivial
    rw [← hbytes, ← hrecovered]
    exact hyields.decode
  · have hsame := f32.formBy_unique Number.roundsToSingle_unique hform hother
    exact absurd (Value.float.inj hsame) (by decide)

end Schema

end WireFormat
