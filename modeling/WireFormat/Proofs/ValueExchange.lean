import WireFormat.Value.Exchange

/-!
# Values come back from their documents

An export loses the floats that are not finite, for which null stands in the document, and nothing else. Main statement:
importing the document of a value gives the value if all floats inside it are finite, and fails otherwise. So a value of
finite floats shares its document with no other value.
-/
namespace WireFormat.Value
open Floating

mutual

/-- The floats inside a value, at every depth. -/
def floats : Value → List Binary64
  | float x => [x]
  | tuple items | vec items => floatsOfItems items
  | struct fields => floatsOfFields fields
  | tagged _ payload => payload.floats
  | present value => value.floats
  | bool _ | str _ | int _ | unit _ | undefined | null => []

def floatsOfItems : List Value → List Binary64
  | [] => []
  | value :: rest => value.floats ++ floatsOfItems rest

def floatsOfFields : List (String × Value) → List Binary64
  | [] => []
  | (_, value) :: rest => value.floats ++ floatsOfFields rest

end

/-- Null is no value, so it can stand for the payload that a union value does not have. -/
theorem toDocument_ne_null (value : Value) : value.toDocument ≠ .null := by
  cases value <;> simp [toDocument]

theorem integerOfDocument?_toInt (i : Int64) : integerOfDocument? (.int i.toInt) = some (.int i) := by
  have hlow := i.le_toInt
  have hhigh := i.toInt_lt
  simp only [integerOfDocument?]
  rw [if_pos ⟨hlow, hhigh⟩, Int64.ofInt_toInt]

theorem floatOfDocument?_ofFloat (x : Binary64) :
    floatOfDocument? (.ofFloat x) = if x.isFinite then some (float x) else none := by
  cases hx : x.isFinite <;> simp [Document.ofFloat, floatOfDocument?, hx]

theorem unionOf?_unit (tag : String) :
    unionOf? (.object [("tag", .str tag), ("val", .null)]) = some (unit tag) := by
  simp [unionOf?, payloadIn?]

theorem unionOf?_tagged (tag : String) {document : Document} (h : document ≠ .null) :
    unionOf? (.object [("tag", .str tag), ("val", document)]) = (ofDocument? document).map (tagged tag) := by
  have hpayload : payloadIn? [("tag", .str tag), ("val", document)] = (ofDocument? document).map some := by
    cases document with
    | null => exact absurd rfl h
    | _ => simp [payloadIn?]
  rw [unionOf?, hpayload]
  cases ofDocument? document <;> simp

/-- What comes back where it depends on floats: the whole of it or nothing. -/
def unlessLost {α : Type} (floats : List Binary64) (a : α) : Option α :=
  if floats.all Binary64.isFinite then some a else none

theorem map_unlessLost {α β : Type} (floats : List Binary64) (a : α) (f : α → β) :
    (unlessLost floats a).map f = unlessLost floats (f a) := by
  unfold unlessLost
  split <;> rfl

theorem bind_unlessLost {α β γ : Type} (xs ys : List Binary64) (a : α) (b : β) (f : α → β → γ) :
    ((unlessLost xs a).bind fun a => (unlessLost ys b).bind fun b => some (f a b)) =
      unlessLost (xs ++ ys) (f a b) := by
  unfold unlessLost
  cases hx : xs.all Binary64.isFinite <;> cases hy : ys.all Binary64.isFinite <;> simp [hx, hy]

mutual

/-- By induction on the value; a document that cannot be imported spoils all that it is a part of. -/
theorem ofDocument?_eq_unlessLost : (value : Value) →
    ofDocument? value.toDocument = unlessLost value.floats value
  | bool b => by simp [toDocument, ofDocument?, boolOfDocument?, floats, unlessLost]
  | str s => by simp [toDocument, ofDocument?, strOfDocument?, floats, unlessLost]
  | int i => by simp [toDocument, ofDocument?, integerOfDocument?_toInt, floats, unlessLost]
  | float x => by simp [toDocument, ofDocument?, floatOfDocument?_ofFloat, floats, unlessLost]
  | tuple items => by
    simp only [toDocument, ofDocument?, itemsOf?, itemsOfDocuments?_eq_unlessLost items, map_unlessLost, floats]
  | struct fields => by
    simp only [toDocument, ofDocument?, fieldsOf?, fieldsOfDocuments?_eq_unlessLost fields, map_unlessLost, floats]
  | unit tag => by simp [toDocument, ofDocument?, unionOf?_unit, floats, unlessLost]
  | tagged tag payload => by
    simp only [toDocument, ofDocument?, unionOf?_tagged tag payload.toDocument_ne_null,
      ofDocument?_eq_unlessLost payload, map_unlessLost, floats]
  | vec items => by
    simp only [toDocument, ofDocument?, itemsOf?, itemsOfDocuments?_eq_unlessLost items, map_unlessLost, floats]
  | present value => by
    simp only [toDocument, ofDocument?, ofDocument?_eq_unlessLost value, map_unlessLost, floats]
  | undefined => rfl
  | null => rfl

theorem itemsOfDocuments?_eq_unlessLost : (items : List Value) →
    itemsOfDocuments? (documentsOfItems items) = unlessLost (floatsOfItems items) items
  | [] => rfl
  | value :: rest => by
    rw [documentsOfItems, itemsOfDocuments?, ofDocument?_eq_unlessLost value, itemsOfDocuments?_eq_unlessLost rest]
    exact bind_unlessLost _ _ value rest (· :: ·)

theorem fieldsOfDocuments?_eq_unlessLost : (fields : List (String × Value)) →
    fieldsOfDocuments? (documentsOfFields fields) = unlessLost (floatsOfFields fields) fields
  | [] => rfl
  | (name, value) :: rest => by
    rw [documentsOfFields, fieldsOfDocuments?, ofDocument?_eq_unlessLost value, fieldsOfDocuments?_eq_unlessLost rest]
    exact bind_unlessLost _ _ value rest fun value rest => (name, value) :: rest

end

theorem unlessLost_eq {α : Type} (floats : List Binary64) (a : α) :
    unlessLost floats a = if ∀ x ∈ floats, x.isFinite = true then some a else none := by
  simp only [unlessLost, List.all_eq_true]

/-- Importing what was exported gives the value back, to the bit and in the same order, if no float inside it is
infinite or a NaN. Otherwise it fails. -/
theorem imported_iff_finite (value : Value) :
    ofDocument? value.toDocument = if ∀ x ∈ value.floats, x.isFinite = true then some value else none := by
  rw [ofDocument?_eq_unlessLost, unlessLost_eq]

example : ofDocument? (tagged "t" null).toDocument = some (tagged "t" null) := rfl
example : ofDocument? (tagged "t" (float ⟨0x7FF0000000000000⟩)).toDocument = none := rfl

end WireFormat.Value
