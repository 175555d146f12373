import Mathlib
import WireFormat.Proofs.Conversions
import WireFormat.Proofs.Stability
import WireFormat.Proofs.Truncation

/-!
# The form of a value

What a value means to a schema, by the numbers themselves: an integer leaf holds the whole part of the number, reduced
into the range of the leaf, and a float leaf the nearest number that it can hold. A struct has the fields of the schema
in its order, and presence is marked exactly where an optional wraps an optional. Main statements: a value has one form
at most; and where no two optionals stand with nullables between them, a form is its own form.
-/
namespace WireFormat
open Floating

namespace Value

/-- What a value offers to a number leaf. -/
inductive Number where
  | int (i : Int64)
  | float (x : Binary64)

def number? : Value → Option Number
  | int i => some (.int i)
  | float x => some (.float x)
  | _ => none

namespace Number

/-- Fractions are cut off, and what is beyond 64 bits becomes the bound on its side. -/
def whole : Number → Int
  | int i => i.toInt
  | float x => x.saturated

/-- `k` is the whole part modulo `2 ^ bits`, taken from the range that begins with `least`. -/
def ReducesTo (least : Int) (bits : Nat) (number : Number) (k : Int64) : Prop :=
  least ≤ k.toInt ∧ k.toInt < least + 2 ^ bits ∧ k.toInt ≡ number.whole [ZMOD 2 ^ bits]

/-- `w` is the nearest double precision number, with the sign of the number. A float is its own, also as a NaN. -/
def RoundsToDouble : Number → Binary64 → Prop
  | int i, w => w.IsNearest i.toInt ∧ w.negative = decide (i.toInt < 0)
  | float x, w => w = x

/-- `w` is the nearest single precision number, with the sign of the number. A NaN has none. -/
def RoundsToSingle : Number → Binary64 → Prop
  | int i, w => w.IsSingle i.toInt (decide (i.toInt < 0))
  | float x, w => x.isNaN = false ∧ w.IsSingle x.number x.negative

/-- `w` is the single precision number nearest to the nearest double precision number. -/
def RoundsTwice (number : Number) (w : Binary64) : Prop :=
  ∃ d, number.RoundsToDouble d ∧ (float d).RoundsToSingle w

theorem reducesTo_unique (least : Int) (bits : Nat) : Relator.RightUnique (ReducesTo least bits) := by
  rintro number k k' ⟨hlow, hhigh, hmod⟩ ⟨hlow', hhigh', hmod'⟩
  have hsame : k.toInt - least ≡ k'.toInt - least [ZMOD 2 ^ bits] := (hmod.trans hmod'.symm).sub_right least
  rw [Int.ModEq, Int.emod_eq_of_lt (by omega) (by omega), Int.emod_eq_of_lt (by omega) (by omega)] at hsame
  exact Int64.toInt_inj.1 (by omega)

theorem roundsToDouble_unique : Relator.RightUnique RoundsToDouble := by
  rintro (i | x) w w' h h'
  · exact h'.1.unique h.1 (h'.2.symm ▸ signOf_intCast _) (h.2.trans h'.2.symm)
  · exact h.trans h'.symm

theorem roundsToSingle_unique : Relator.RightUnique RoundsToSingle := by
  rintro (i | x) w w' h h'
  · exact h.unique (signOf_intCast _) h'
  · exact h.2.unique (signOf_signed _ _ _) h'.2

end Number

/-- The form holds what the number of the value turns into. -/
def NumberForm {α : Type} (image : α → Value) (turns : Number → α → Prop) (value form : Value) : Prop :=
  ∃ number a, value.number? = some number ∧ turns number a ∧ form = image a

end Value

namespace Schema
open Value

section FormBy

variable (rounds : Number → Binary64 → Prop)

mutual

/-- The form that a value has for the schema, where single precision leaves hold what `rounds` says. -/
def FormBy : Schema → Value → Value → Prop
  | bool, value, form => ∃ b, value = .bool b ∧ form = .bool b
  | str, value, form => ∃ s, value = .str s ∧ form = .str s
  | u8, value, form => NumberForm .int (Number.ReducesTo 0 8) value form
  | u16, value, form => NumberForm .int (Number.ReducesTo 0 16) value form
  | u32, value, form => NumberForm .int (Number.ReducesTo 0 32) value form
  | i32, value, form => NumberForm .int (Number.ReducesTo (-2 ^ 31) 32) value form
  | f32, value, form => NumberForm .float rounds value form
  | f64, value, form => NumberForm .float Number.RoundsToDouble value form
  | enum names, value, form => ∃ name ∈ names, value = .str name ∧ form = .str name
  | struct fields, value, form =>
    ∃ values forms, value = .struct values ∧ FormByFields fields values forms ∧ form = .struct forms
  | tuple components, value, form =>
    ∃ values forms, value = .tuple values ∧ FormByComponents components values forms ∧ form = .tuple forms
  | union variants, value, form => FormByUnion variants value form
  | vec element, value, form =>
    ∃ values forms, value = .vec values ∧ List.Forall₂ element.FormBy values forms ∧ form = .vec forms
  | option element, value, form =>
    match value.present? with
    | none => form = .undefined
    | some inner => ∃ content, element.FormBy inner content ∧
        form = if element.tag = .option then .present content else content
  | nullable element, value, form =>
    match value.nonNull? with
    | none => form = .null
    | some inner => element.FormBy inner form

/-- The fields of the schema in their order and no others; a field that is left out counts as an absence. -/
def FormByFields : List (String × Schema) → List (String × Value) → List (String × Value) → Prop
  | [], _, [] => True
  | (name, schema) :: rest, values, (key, form) :: forms =>
    key = name ∧ schema.FormBy (Value.field values name) form ∧ FormByFields rest values forms
  | _, _, _ => False

def FormByComponents : List Schema → List Value → List Value → Prop
  | [], [], [] => True
  | schema :: rest, value :: values, form :: forms => schema.FormBy value form ∧ FormByComponents rest values forms
  | _, _, _ => False

/-- The first variant of the name counts. -/
def FormByUnion : List (String × Option Schema) → Value → Value → Prop
  | [], _, _ => False
  | (name, none) :: rest, value, form =>
    if value.variant? = some name then value = .unit name ∧ form = .unit name else FormByUnion rest value form
  | (name, some schema) :: rest, value, form =>
    if value.variant? = some name then
      ∃ payload content, value = .tagged name payload ∧ schema.FormBy payload content ∧ form = .tagged name content
    else FormByUnion rest value form

end

end FormBy

/-- The form where single precision leaves hold the nearest numbers. -/
def NormalForm (schema : Schema) : Value → Value → Prop :=
  schema.FormBy Number.RoundsToSingle

variable {rounds : Number → Binary64 → Prop}

theorem formByUnion_unit (name : String) (rest : List (String × Option Schema)) (form : Value) :
    FormByUnion rounds ((name, none) :: rest) (.unit name) form ↔ form = .unit name := by
  rw [FormByUnion, if_pos (show (Value.unit name).variant? = some name from rfl)]
  exact and_iff_right rfl

theorem formByUnion_tagged (name : String) (schema : Schema) (rest : List (String × Option Schema))
    (payload form : Value) :
    FormByUnion rounds ((name, some schema) :: rest) (.tagged name payload) form ↔
      ∃ content, schema.FormBy rounds payload content ∧ form = .tagged name content := by
  rw [FormByUnion, if_pos (show (Value.tagged name payload).variant? = some name from rfl)]
  constructor
  · rintro ⟨_, content, ⟨⟩, hcontent, rfl⟩
    exact ⟨content, hcontent, rfl⟩
  · rintro ⟨content, hcontent, rfl⟩
    exact ⟨payload, content, rfl, hcontent, rfl⟩

/-- A variant of another name is passed over. -/
theorem formByUnion_cons {name : String} {entry : Option Schema} {rest : List (String × Option Schema)}
    {value form : Value} (h : value.variant? ≠ some name) :
    FormByUnion rounds ((name, entry) :: rest) value form ↔ FormByUnion rounds rest value form := by
  cases entry <;> rw [FormByUnion, if_neg h]

/-- The first variant is the value's, without a payload or with one, or is passed over. -/
theorem formByUnion_cases {name : String} {entry : Option Schema} {rest : List (String × Option Schema)}
    {value form : Value} (h : FormByUnion rounds ((name, entry) :: rest) value form) :
    (entry = none ∧ value = .unit name ∧ form = .unit name) ∨
      (∃ schema payload content, entry = some schema ∧ value = .tagged name payload ∧
        schema.FormBy rounds payload content ∧ form = .tagged name content) ∨
      (value.variant? ≠ some name ∧ FormByUnion rounds rest value form) := by
  by_cases hname : value.variant? = some name
  · cases entry with
    | none =>
      rw [FormByUnion, if_pos hname] at h
      exact .inl ⟨rfl, h⟩
    | some schema =>
      rw [FormByUnion, if_pos hname] at h
      obtain ⟨payload, content, hvalue, hcontent, hform⟩ := h
      exact .inr (.inl ⟨schema, payload, content, rfl, hvalue, hcontent, hform⟩)
  · exact .inr (.inr ⟨hname, (formByUnion_cons hname).1 h⟩)

theorem formBy_option_of_none {element : Schema} {value form : Value} (h : value.present? = none) :
    (option element).FormBy rounds value form ↔ form = .undefined := by
  rw [FormBy, h]

theorem formBy_option_of_some {element : Schema} {value inner form : Value} (h : value.present? = some inner) :
    (option element).FormBy rounds value form ↔
      ∃ content, element.FormBy rounds inner content ∧ form = element.presented content := by
  rw [FormBy, h]
  simp only [presented_eq]

theorem formBy_nullable_of_none {element : Schema} {value form : Value} (h : value.nonNull? = none) :
    (nullable element).FormBy rounds value form ↔ form = .null := by
  rw [FormBy, h]

theorem formBy_nullable_of_some {element : Schema} {value inner form : Value} (h : value.nonNull? = some inner) :
    (nullable element).FormBy rounds value form ↔ element.FormBy rounds inner form := by
  rw [FormBy, h]

theorem numberForm_unique {α : Type} {image : α → Value} {turns : Number → α → Prop} (h : Relator.RightUnique turns) :
    Relator.RightUnique (NumberForm image turns) := by
  rintro value _ _ ⟨number, a, hnumber, ha, rfl⟩ ⟨number', b, hnumber', hb, rfl⟩
  obtain rfl := Option.some.inj (hnumber.symm.trans hnumber')
  rw [h ha hb]

theorem formByFields_unique {fields : List (String × Schema)}
    (h : ∀ part ∈ fields.map Prod.snd, Relator.RightUnique (part.FormBy rounds)) :
    Relator.RightUnique (FormByFields rounds fields) := by
  intro values forms others hforms hothers
  induction fields generalizing forms others with
  | nil =>
    match forms, others, hforms, hothers with
    | [], [], _, _ => rfl
  | cons field rest ih =>
    rw [List.map_cons, List.forall_mem_cons] at h
    match forms, others, hforms, hothers with
    | (_, form) :: forms, (_, other) :: others, ⟨rfl, hform, hforms⟩, ⟨rfl, hother, hothers⟩ =>
      rw [h.1 hform hother, ih h.2 hforms hothers]

theorem formByComponents_unique {components : List Schema}
    (h : ∀ part ∈ components, Relator.RightUnique (part.FormBy rounds)) :
    Relator.RightUnique (FormByComponents rounds components) := by
  intro values forms others hforms hothers
  induction components generalizing values forms others with
  | nil =>
    match values, forms, others, hforms, hothers with
    | [], [], [], _, _ => rfl
  | cons schema rest ih =>
    rw [List.forall_mem_cons] at h
    match values, forms, others, hforms, hothers with
    | value :: values, form :: forms, other :: others, ⟨hform, hforms⟩, ⟨hother, hothers⟩ =>
      rw [h.1 hform hother, ih h.2 hforms hothers]

theorem formByUnion_unique {variants : List (String × Option Schema)}
    (h : ∀ part ∈ variants.filterMap Prod.snd, Relator.RightUnique (part.FormBy rounds)) :
    Relator.RightUnique (FormByUnion rounds variants) := by
  intro value form other hform hother
  induction variants with
  | nil => cases hform
  | cons variant rest ih =>
    obtain ⟨name, entry⟩ := variant
    obtain ⟨rfl, rfl, rfl⟩ | ⟨schema, payload, content, rfl, rfl, hcontent, rfl⟩ | ⟨hname, hform⟩ :=
      formByUnion_cases hform
    · exact ((formByUnion_unit _ _ _).1 hother).symm
    · obtain ⟨content', hcontent', rfl⟩ := (formByUnion_tagged _ _ _ _ _).1 hother
      rw [h schema List.mem_cons_self hcontent hcontent']
    · have hparts : ∀ part ∈ rest.filterMap Prod.snd, Relator.RightUnique (part.FormBy rounds) := fun part hpart =>
        h part (List.filterMap_subset _ (List.subset_cons_self _ _) hpart)
      exact ih hparts hform ((formByUnion_cons hname).1 hother)

/-- A value has no two forms if no number is rounded to two. -/
theorem formBy_unique (schema : Schema) (hrounds : Relator.RightUnique rounds) :
    Relator.RightUnique (schema.FormBy rounds) := by
  induction schema using induction_on_parts with
  | step schema ih =>
    intro value form other hform hother
    cases schema with
    | bool | str =>
      obtain ⟨_, rfl, rfl⟩ := hform
      obtain ⟨_, ⟨⟩, rfl⟩ := hother
      rfl
    | u8 | u16 | u32 | i32 => exact numberForm_unique (Number.reducesTo_unique _ _) hform hother
    | f32 => exact numberForm_unique hrounds hform hother
    | f64 => exact numberForm_unique Number.roundsToDouble_unique hform hother
    | enum names =>
      obtain ⟨_, -, rfl, rfl⟩ := hform
      obtain ⟨_, -, ⟨⟩, rfl⟩ := hother
      rfl
    | struct fields =>
      obtain ⟨_, _, rfl, hforms, rfl⟩ := hform
      obtain ⟨_, _, ⟨⟩, hothers, rfl⟩ := hother
      rw [formByFields_unique ih hforms hothers]
    | tuple components =>
      obtain ⟨_, _, rfl, hforms, rfl⟩ := hform
      obtain ⟨_, _, ⟨⟩, hothers, rfl⟩ := hother
      have hparts : ∀ part ∈ components, Relator.RightUnique (part.FormBy rounds) := ih
      rw [formByComponents_unique hparts hforms hothers]
    | union variants => exact formByUnion_unique ih hform hother
    | vec element =>
      obtain ⟨_, _, rfl, hforms, rfl⟩ := hform
      obtain ⟨_, _, ⟨⟩, hothers, rfl⟩ := hother
      rw [(ih element List.mem_cons_self).forall₂ hforms hothers]
    | option element =>
      cases hoffered : value.present? with
      | none =>
        rw [formBy_option_of_none hoffered] at hform hother
        exact hform.trans hother.symm
      | some inner =>
        rw [formBy_option_of_some hoffered] at hform hother
        obtain ⟨a, ha, rfl⟩ := hform
        obtain ⟨b, hb, rfl⟩ := hother
        rw [ih element List.mem_cons_self ha hb]
    | nullable element =>
      cases hoffered : value.nonNull? with
      | none =>
        rw [formBy_nullable_of_none hoffered] at hform hother
        exact hform.trans hother.symm
      | some inner =>
        rw [formBy_nullable_of_some hoffered] at hform hother
        exact ih element List.mem_cons_self hform hother

/-- No other form stands beside a normal form. -/
theorem only_normalForm_iff {schema : Schema} {value form : Value} :
    (∀ other, schema.NormalForm value other ↔ other = form) ↔ schema.NormalForm value form := by
  constructor
  · exact fun h => (h form).2 rfl
  · intro h other
    constructor
    · exact fun hother => schema.formBy_unique Number.roundsToSingle_unique hother h
    · rintro rfl
      exact h

/-- The form of a variant is the variant of the same name. -/
theorem variant?_formByUnion {variants : List (String × Option Schema)} {value form : Value}
    (h : FormByUnion rounds variants value form) : ∃ tag, value.variant? = some tag ∧ form.variant? = some tag := by
  induction variants with
  | nil => cases h
  | cons variant rest ih =>
    obtain ⟨-, rfl, rfl⟩ | ⟨_, _, _, -, rfl, -, rfl⟩ | ⟨-, hrest⟩ := formByUnion_cases h
    · exact ⟨_, rfl, rfl⟩
    · exact ⟨_, rfl, rfl⟩
    · exact ih hrest

/-- A form is of a kind that the schema shows. -/
theorem formBy_shows (schema : Schema) {value form : Value} (h : schema.FormBy rounds value form) :
    schema.Shows form.kind := by
  match schema with
  | option element =>
    cases hoffered : value.present? with
    | none =>
      obtain rfl := (formBy_option_of_none hoffered).1 h
      exact .inl rfl
    | some inner =>
      obtain ⟨content, hcontent, rfl⟩ := (formBy_option_of_some hoffered).1 h
      exact shows_presented (element.formBy_shows hcontent)
  | nullable element =>
    cases hoffered : value.nonNull? with
    | none =>
      obtain rfl := (formBy_nullable_of_none hoffered).1 h
      exact .inl rfl
    | some inner => exact .inr (element.formBy_shows ((formBy_nullable_of_some hoffered).1 h))
  | union variants =>
    obtain ⟨tag, -, hform⟩ := variant?_formByUnion h
    rw [Value.kind_of_variant? hform]
    exact ⟨Kind.noConfusion, Kind.noConfusion, Kind.noConfusion⟩
  | bool | str =>
    obtain ⟨_, -, rfl⟩ := h
    exact ⟨Kind.noConfusion, Kind.noConfusion, Kind.noConfusion⟩
  | enum _ =>
    obtain ⟨_, _, -, rfl⟩ := h
    exact ⟨Kind.noConfusion, Kind.noConfusion, Kind.noConfusion⟩
  | u8 | u16 | u32 | i32 | f32 | f64 | struct _ | tuple _ | vec _ =>
    obtain ⟨_, _, -, -, rfl⟩ := h
    exact ⟨Kind.noConfusion, Kind.noConfusion, Kind.noConfusion⟩

section Again

variable {rounds' : Number → Binary64 → Prop}

/-- The form of a value is a form of itself, by a rounding that keeps what the first one gives. -/
def FormsAgain (rounds rounds' : Number → Binary64 → Prop) (schema : Schema) : Prop :=
  ∀ ⦃value form : Value⦄, schema.FormBy rounds value form → schema.FormBy rounds' form form

theorem FormsAgain.fields {fields : List (String × Schema)}
    (h : ∀ part ∈ fields.map Prod.snd, part.FormsAgain rounds rounds') {values forms : List (String × Value)}
    (hforms : FormByFields rounds fields values forms) :
    Entries.names forms = Entries.names fields ∧ ∀ all : List (String × Value),
      (∀ entry ∈ forms, all.lookup entry.1 = some entry.2) → FormByFields rounds' fields all forms := by
  induction fields generalizing forms with
  | nil =>
    match forms, hforms with
    | [], _ => exact ⟨rfl, fun _ _ => trivial⟩
  | cons field rest ih =>
    rw [List.map_cons, List.forall_mem_cons] at h
    match forms, hforms with
    | (_, form) :: forms, ⟨rfl, hform, hforms⟩ =>
      obtain ⟨hnames, hagain⟩ := ih h.2 hforms
      refine ⟨congrArg (field.1 :: ·) hnames, fun all hall => ?_⟩
      rw [List.forall_mem_cons] at hall
      refine ⟨rfl, ?_, hagain all hall.2⟩
      rw [Value.field, hall.1]
      exact h.1 hform

theorem FormsAgain.components {components : List Schema} (h : ∀ part ∈ components, part.FormsAgain rounds rounds')
    {values forms : List Value} (hforms : FormByComponents rounds components values forms) :
    FormByComponents rounds' components forms forms := by
  induction components generalizing values forms with
  | nil =>
    match values, forms, hforms with
    | [], [], _ => trivial
  | cons schema rest ih =>
    rw [List.forall_mem_cons] at h
    match values, forms, hforms with
    | value :: values, form :: forms, ⟨hform, hforms⟩ => exact ⟨h.1 hform, ih h.2 hforms⟩

theorem FormsAgain.union {variants : List (String × Option Schema)}
    (h : ∀ part ∈ variants.filterMap Prod.snd, part.FormsAgain rounds rounds') {value form : Value}
    (hform : FormByUnion rounds variants value form) : FormByUnion rounds' variants form form := by
  induction variants with
  | nil => cases hform
  | cons variant rest ih =>
    obtain ⟨name, entry⟩ := variant
    obtain ⟨rfl, rfl, rfl⟩ | ⟨schema, payload, content, rfl, rfl, hcontent, rfl⟩ | ⟨hname, hrest⟩ :=
      formByUnion_cases hform
    · exact (formByUnion_unit _ _ _).2 rfl
    · exact (formByUnion_tagged _ _ _ _ _).2 ⟨content, h schema List.mem_cons_self hcontent, rfl⟩
    · obtain ⟨tag, hvalue, htag⟩ := variant?_formByUnion hrest
      have hparts : ∀ part ∈ rest.filterMap Prod.snd, part.FormsAgain rounds rounds' := fun part hpart =>
        h part (List.filterMap_subset _ (List.subset_cons_self _ _) hpart)
      exact (formByUnion_cons (htag.trans hvalue.symm ▸ hname)).2 (ih hparts hrest)

/-- Of the forms of what is present, only an absence is taken for an absence, which it then is. -/
theorem formsAgain_option {element : Schema} (hclear : (Schema.option element).Clear)
    (h : element.FormsAgain rounds rounds') : (Schema.option element).FormsAgain rounds rounds' := by
  intro value form hform
  cases hoffered : value.present? with
  | none =>
    obtain rfl := (formBy_option_of_none hoffered).1 hform
    rfl
  | some inner =>
    obtain ⟨content, hcontent, rfl⟩ := (formBy_option_of_some hoffered).1 hform
    by_cases htag : element.tag = .option
    · have hpresent : element.presented content = .present content := by rw [presented_eq, if_pos htag]
      rw [hpresent, formBy_option_of_some rfl]
      exact ⟨content, h hcontent, hpresent.symm⟩
    have hbare : element.presented content = content := by rw [presented_eq, if_neg htag]
    rw [hbare]
    by_cases habsent : content.kind = .undefined
    · cases content with
      | undefined => rfl
      | _ => cases habsent
    · have hmarked := hclear.not_marked htag (element.formBy_shows hcontent)
      rw [formBy_option_of_some (Value.present?_eq_some habsent hmarked)]
      exact ⟨content, h hcontent, hbare.symm⟩

theorem formsAgain_nullable {element : Schema} (h : element.FormsAgain rounds rounds') :
    (Schema.nullable element).FormsAgain rounds rounds' := by
  intro value form hform
  cases hoffered : value.nonNull? with
  | none =>
    obtain rfl := (formBy_nullable_of_none hoffered).1 hform
    rfl
  | some inner =>
    have hcontent := (formBy_nullable_of_some hoffered).1 hform
    by_cases hnull : form.kind = .null
    · cases form with
      | null => rfl
      | _ => cases hnull
    · exact (formBy_nullable_of_some (Value.nonNull?_eq_some hnull)).2 (h hcontent)

theorem formsAgain (schema : Schema) (hkeyed : schema.Keyed) (hclear : schema.Clear)
    (hrounds : ∀ number w, rounds number w → rounds' (.float w) w) : schema.FormsAgain rounds rounds' := by
  induction schema using induction_on_parts with
  | step schema ih =>
    have hparts : ∀ part ∈ schema.parts, part.FormsAgain rounds rounds' := fun part hpart =>
      ih part hpart (hkeyed.part hpart) (hclear.part hpart)
    intro value form hform
    cases schema with
    | bool | str =>
      obtain ⟨_, -, rfl⟩ := hform
      exact ⟨_, rfl, rfl⟩
    | u8 | u16 | u32 | i32 =>
      obtain ⟨_, k, -, ⟨hlow, hhigh, -⟩, rfl⟩ := hform
      exact ⟨_, k, rfl, ⟨hlow, hhigh, rfl⟩, rfl⟩
    | f32 =>
      obtain ⟨_, _, -, hw, rfl⟩ := hform
      exact ⟨_, _, rfl, hrounds _ _ hw, rfl⟩
    | f64 =>
      obtain ⟨_, w, -, -, rfl⟩ := hform
      exact ⟨_, w, rfl, rfl, rfl⟩
    | enum names =>
      obtain ⟨name, hname, -, rfl⟩ := hform
      exact ⟨name, hname, rfl, rfl⟩
    | struct fields =>
      obtain ⟨values, forms, -, hforms, rfl⟩ := hform
      obtain ⟨hnames, hagain⟩ := FormsAgain.fields hparts hforms
      refine ⟨forms, forms, rfl, ?_, rfl⟩
      exact hagain forms fun _ hentry => Entries.lookup_of_mem (hnames ▸ hkeyed.1) hentry
    | tuple components =>
      obtain ⟨values, forms, -, hforms, rfl⟩ := hform
      exact ⟨forms, forms, rfl, FormsAgain.components hparts hforms, rfl⟩
    | union variants => exact FormsAgain.union hparts hform
    | vec element =>
      obtain ⟨values, forms, -, hforms, rfl⟩ := hform
      refine ⟨forms, forms, rfl, ?_, rfl⟩
      induction hforms with
      | nil => exact .nil
      | cons hitem _ ih => exact .cons (hparts element List.mem_cons_self hitem) ih
    | option element => exact formsAgain_option hclear (hparts element List.mem_cons_self) hform
    | nullable element => exact formsAgain_nullable (hparts element List.mem_cons_self) hform

end Again

end Schema

end WireFormat
