import WireFormat.Proofs.Acceptance
import WireFormat.Proofs.Tape

/-!
# What a failed write leaves behind

A node of a schema may object to a value by itself, before it looks at any component; otherwise it puts down its heading
and then tries the components in wire order. Structs and tuples stop at the first that fails, and sequences go on. Main
statement: a write that fails has left nothing behind if the node objects, and otherwise fails with the error of the first
component that fails, behind the heading, all that the components before it come to, and what that component put down.
-/
namespace WireFormat

namespace Written

def bytes (order : ByteOrder) (attempt : Written) : List UInt8 :=
  bytesOf order attempt.pieces

/-- The attempts one after the other, up to the first that fails. -/
def inOrder (attempts : List Written) : Written :=
  attempts.foldr andThen (done [])

theorem error?_andThen (first second : Written) :
    (first.andThen second).error? = first.error?.or second.error? := by
  obtain ⟨pieces, error?⟩ := first
  cases error? <;> rfl

theorem error?_inOrder (attempts : List Written) : (inOrder attempts).error? = attempts.findSome? error? := by
  induction attempts with
  | nil => rfl
  | cons attempt rest ih =>
    have hcons : (inOrder (attempt :: rest)).error? = attempt.error?.or (inOrder rest).error? := error?_andThen _ _
    rw [hcons, ih, List.findSome?_cons]
    cases attempt.error? <;> rfl

/-- Nothing is put down behind an attempt that fails. -/
theorem pieces_inOrder {before after : List Written} {offender : Written} {error : WriteError}
    (hbefore : ∀ attempt ∈ before, attempt.error? = none) (hoffender : offender.error? = some error) :
    (inOrder (before ++ offender :: after)).pieces = before.flatMap pieces ++ offender.pieces := by
  induction before with
  | nil =>
    have hstop : inOrder (offender :: after) = offender.andThen (inOrder after) := rfl
    rw [List.nil_append, hstop, andThen, hoffender]
    rfl
  | cons attempt before ih =>
    rw [List.forall_mem_cons] at hbefore
    have hnext : inOrder (attempt :: (before ++ offender :: after)) =
        attempt.andThen (inOrder (before ++ offender :: after)) := rfl
    rw [List.cons_append, hnext, pieces_andThen _ hbefore.1, ih hbefore.2, List.flatMap_cons, List.append_assoc]

theorem bytes_flatMap (order : ByteOrder) (attempts : List Written) :
    bytesOf order (attempts.flatMap pieces) = attempts.flatMap (bytes order) := by
  induction attempts with
  | nil => rfl
  | cons attempt rest ih => rw [List.flatMap_cons, List.flatMap_cons, bytesOf_append, ih, bytes]

end Written

/-- Whether a node takes values of a kind. A wrapper leaves that to what it wraps. -/
def Tag.takes : Tag → Kind → Bool
  | bool, kind => kind == .bool
  | str, kind | enum, kind => kind == .string
  | u8, kind | u16, kind | u32, kind | i32, kind | f32, kind | f64, kind => kind == .integer || kind == .float
  | struct, kind => kind == .struct
  | tuple, kind => kind == .tuple
  | union, kind => kind == .union
  | vec, kind => kind == .vec
  | option, _ | nullable, _ => true

namespace Schema

/-- What the node has against the value by itself, whatever its components come to. -/
def objection? (schema : Schema) (value : Value) : Option WriteError :=
  if schema.tag.takes value.kind then
    match schema, value with
    | enum names, .str name => if name ∈ names then none else some (.unknownVariant .enum name)
    | tuple components, .tuple values =>
      if values.length = components.length then none else some (.arity components.length values.length)
    | union variants, .unit tag =>
      match variants.lookup tag with
      | none => some (.unknownVariant .union tag)
      | some none => none
      | some (some _) => some (.missingPayload tag)
    | union variants, .tagged tag _ =>
      match variants.lookup tag with
      | none => some (.unknownVariant .union tag)
      | some none => some (.unexpectedPayload tag)
      | some (some _) => none
    | _, _ => none
  else some (schema.mismatch value)

/-- What is put down in front of the components: the count of a sequence, the mark of a wrapper, the index of a variant. -/
def heading : Schema → Value → List Piece
  | vec _, .vec values => [.frame values.length]
  | option _, value => [.mark value.present?.isSome]
  | nullable _, value => [.mark value.nonNull?.isSome]
  | union variants, .unit tag | union variants, .tagged tag _ => [.index ((Entries.names variants).idxOf tag)]
  | _, _ => []

/-- The components of the value, each written on its own, in wire order. -/
def attempts : Schema → Value → List Written
  | struct fields, .struct values => fields.map (writeField values)
  | tuple components, .tuple values => List.zipWith write components values
  | vec element, .vec values => values.map element.write
  | option element, value => value.present?.toList.map element.write
  | nullable element, value => value.nonNull?.toList.map element.write
  | union variants, .tagged tag payload =>
    match variants.lookup tag with
    | some (some schema) => [schema.write payload]
    | _ => []
  | _, _ => []

theorem writeFields_eq_inOrder (fields : List (String × Schema)) (values : List (String × Value)) :
    writeFields fields values = Written.inOrder (fields.map (writeField values)) := by
  induction fields with
  | nil => rfl
  | cons field rest ih =>
    rw [writeFields_eq_andThen, ih]
    rfl

theorem writeComponents_eq_inOrder (components : List Schema) (values : List Value) :
    writeComponents components values = Written.inOrder (List.zipWith write components values) := by
  induction components generalizing values with
  | nil => rfl
  | cons schema rest ih =>
    cases values with
    | nil => rfl
    | cons value values =>
      rw [writeComponents, ih]
      rfl

theorem write_of_not_takes {schema : Schema} {value : Value} (h : schema.tag.takes value.kind = false) :
    schema.write value = .refused (schema.mismatch value) := by
  cases schema with
  | bool =>
    cases value with
    | bool b => cases h
    | _ => rfl
  | str | enum names =>
    cases value with
    | str s => cases h
    | _ => rfl
  | u8 | u16 | u32 | i32 | f32 | f64 =>
    cases value with
    | int i | float x => cases h
    | _ => rfl
  | struct fields =>
    cases value with
    | struct values => cases h
    | _ => rfl
  | tuple components =>
    cases value with
    | tuple values => cases h
    | _ => rfl
  | union variants =>
    cases value with
    | unit tag | tagged tag payload => cases h
    | _ => rfl
  | vec element =>
    cases value with
    | vec values => cases h
    | _ => rfl
  | option element | nullable element => cases h

/-- Nothing is put down in spite of an objection. -/
theorem write_of_objection {schema : Schema} {value : Value} {error : WriteError}
    (h : schema.objection? value = some error) : schema.write value = .refused error := by
  unfold objection? at h
  split at h
  · split at h
    · rename_i names name _
      split at h
      · cases h
      · obtain rfl := Option.some.inj h
        have hnone : names.idxOf? name = none := List.idxOf?_eq_none_iff.2 ‹_›
        simp only [write, hnone]
    · split at h
      · cases h
      · obtain rfl := Option.some.inj h
        exact if_neg ‹_›
    · rename_i variants tag _
      rw [write, writeVariant_eq]
      cases hentry : variants.lookup tag with
      | none => simp_all
      | some entry => cases entry <;> simp_all
    · rename_i variants tag payload _
      rw [write, writeVariant_eq]
      cases hentry : variants.lookup tag with
      | none => simp_all
      | some entry => cases entry <;> simp_all
    · cases h
  · obtain rfl := Option.some.inj h
    exact write_of_not_takes (eq_false_of_ne_true ‹_›)

/-- How the attempts at the components come together. -/
def compose (schema : Schema) (attempts : List Written) : Written :=
  if schema.tag = .vec then Written.all attempts else Written.inOrder attempts

theorem objection?_of_takes {schema : Schema} {value : Value} (h : schema.tag.takes value.kind = false) :
    schema.objection? value = some (schema.mismatch value) :=
  if_neg (ne_true_of_eq_false h)

/-- A wrapper has one component at most, and so has a union. -/
theorem length_attempts_le {schema : Schema} (h : schema.tag = .option ∨ schema.tag = .nullable ∨ schema.tag = .union)
    (value : Value) : (schema.attempts value).length ≤ 1 := by
  cases schema with
  | option element =>
    rw [attempts]
    cases value.present? <;> simp
  | nullable element =>
    rw [attempts]
    cases value.nonNull? <;> simp
  | union variants =>
    cases value with
    | tagged tag payload =>
      rw [attempts]
      split <;> simp
    | _ => exact Nat.zero_le 1
  | _ => simp [tag] at h

theorem compose_single (schema : Schema) (attempt : Written) (h : schema.tag ≠ .vec) :
    schema.compose [attempt] = attempt := by
  rw [compose, if_neg h]
  exact Written.andThen_nothing attempt

/-- What a node writes that does not object and fails all the same. -/
theorem write_of_no_objection {schema : Schema} {value : Value} (h : schema.objection? value = none)
    (herror : (schema.write value).error? ≠ none) :
    schema.write value = (schema.compose (schema.attempts value)).after (schema.heading value) := by
  cases htakes : schema.tag.takes value.kind with
  | false =>
    rw [objection?_of_takes htakes] at h
    cases h
  | true =>
    cases schema with
    | bool =>
      cases value with
      | bool b => exact absurd rfl herror
      | _ => cases htakes
    | str =>
      cases value with
      | str s => exact absurd rfl herror
      | _ => cases htakes
    | u8 | u16 | u32 | i32 | f32 | f64 =>
      cases value with
      | int i | float x => exact absurd rfl herror
      | _ => cases htakes
    | enum names =>
      cases value with
      | str name =>
        cases hname : names.idxOf? name with
        | some index => simp [write, hname] at herror
        | none => simp [objection?, htakes, List.idxOf?_eq_none_iff.1 hname] at h
      | _ => cases htakes
    | struct fields =>
      cases value with
      | struct values => exact writeFields_eq_inOrder fields values
      | _ => cases htakes
    | tuple components =>
      cases value with
      | tuple values =>
        by_cases hlength : values.length = components.length
        · exact (if_pos hlength).trans (writeComponents_eq_inOrder components values)
        · simp [objection?, htakes, hlength] at h
      | _ => cases htakes
    | union variants =>
      cases value with
      | unit tag =>
        rw [write, writeVariant_eq] at herror
        cases hentry : variants.lookup tag with
        | none => simp [objection?, htakes, hentry] at h
        | some entry =>
          cases entry with
          | none => simp [hentry] at herror
          | some schema => simp [objection?, htakes, hentry] at h
      | tagged tag payload =>
        rw [write, writeVariant_eq]
        cases hentry : variants.lookup tag with
        | none => simp [objection?, htakes, hentry] at h
        | some entry =>
          cases entry with
          | none => simp [objection?, htakes, hentry] at h
          | some schema =>
            simp only [attempts, heading, hentry, Nat.zero_add]
            rw [compose_single _ _ Tag.noConfusion]
      | _ => cases htakes
    | vec element =>
      cases value with
      | vec values => rfl
      | _ => cases htakes
    | option element =>
      rw [write_option_eq, attempts, heading]
      cases value.present? with
      | none => rfl
      | some inner =>
        rw [Option.toList_some, List.map_singleton, compose_single _ _ Tag.noConfusion]
        rfl
    | nullable element =>
      rw [write_nullable_eq, attempts, heading]
      cases value.nonNull? with
      | none => rfl
      | some inner =>
        rw [Option.toList_some, List.map_singleton, compose_single _ _ Tag.noConfusion]
        rfl

/-- Up to the first component that fails everything is written; behind it only a sequence goes on. -/
theorem compose_failed (schema : Schema) {attempts : List Written} {error : WriteError}
    (h : (schema.compose attempts).error? = some error) :
    ∃ before offender after, attempts = before ++ offender :: after ∧ (∀ attempt ∈ before, attempt.error? = none) ∧
      offender.error? = some error ∧
      (schema.compose attempts).pieces = before.flatMap Written.pieces ++ offender.pieces ++
        if schema.tag = .vec then after.flatMap Written.pieces else [] := by
  have hfirst : attempts.findSome? Written.error? = some error := by
    rw [← h, compose]
    split
    · rfl
    · exact (Written.error?_inOrder attempts).symm
  obtain ⟨before, offender, after, rfl, hoffender, hbefore⟩ := List.findSome?_eq_some_iff.1 hfirst
  refine ⟨before, offender, after, rfl, hbefore, hoffender, ?_⟩
  by_cases htag : schema.tag = .vec
  · rw [compose, if_pos htag, if_pos htag, Written.all, List.flatMap_append, List.flatMap_cons, List.append_assoc]
  · rw [compose, if_neg htag, if_neg htag, Written.pieces_inOrder hbefore hoffender, List.append_nil]

/-- Wherever the value is written, the error arises, and exactly the given bytes are left behind. -/
structure FailsAfter (schema : Schema) (value : Value) (error : WriteError) (bytes : ByteOrder → List UInt8) : Prop where
  discard : ∀ out : Discard, schema.writeTo out value = (out, .error error)
  byteString : ∀ out : ByteString, schema.writeTo out value = (⟨out.bytes ++ bytes .little⟩, .error error)
  buffer : ∀ b : Buffer, b.cursor ≤ b.capacity →
    (schema.writeTo b value).2 = .error error ∧ b.Wrote (bytes b.order) (schema.writeTo b value).1

theorem failsAfter_of_error {schema : Schema} {value : Value} {error : WriteError}
    (h : (schema.write value).error? = some error) :
    schema.FailsAfter value error fun order => (schema.write value).bytes order where
  discard out := by simp only [writeTo, h]
  byteString out := by simp only [writeTo, h, emit_byteString, Written.bytes]
  buffer b hcursor := by
    simp only [writeTo, h]
    exact ⟨trivial, (Buffer.wrote_emit hcursor _).1⟩

theorem write_error_of_encodedLength {schema : Schema} {value : Value} {error : WriteError}
    (h : schema.encodedLength value = .error error) : (schema.write value).error? = some error := by
  rw [encodedLength_eq] at h
  cases herror : (schema.write value).error? with
  | none => simp [herror] at h
  | some other => simp_all

/-- A node that objects by itself has left nothing behind. Otherwise the error is that of the first component that fails on
its own, and what is left behind is the heading of the node, all of the components in front, what the failing component
leaves behind on its own, and in a sequence what the components after it come to. Wrappers and unions have no other
component. -/
theorem first_failure_decides (schema : Schema) (value : Value) (error : WriteError)
    (h : schema.encodedLength value = .error error) :
    (schema.objection? value = some error ∧ schema.FailsAfter value error fun _ => []) ∨
    (schema.objection? value = none ∧ ∃ before offender after,
      schema.attempts value = before ++ offender :: after ∧ (∀ attempt ∈ before, attempt.error? = none) ∧
      offender.error? = some error ∧
      (schema.tag = .option ∨ schema.tag = .nullable ∨ schema.tag = .union → before = [] ∧ after = []) ∧
      schema.FailsAfter value error fun order =>
        bytesOf order (schema.heading value) ++ before.flatMap (Written.bytes order) ++ offender.bytes order ++
          if schema.tag = .vec then after.flatMap (Written.bytes order) else []) := by
  have herror := write_error_of_encodedLength h
  have hfails := failsAfter_of_error herror
  cases hobjection : schema.objection? value with
  | some other =>
    rw [write_of_objection hobjection] at herror hfails
    obtain rfl := Option.some.inj herror
    exact .inl ⟨rfl, hfails⟩
  | none =>
    have hwrite := write_of_no_objection hobjection (by simp [herror])
    rw [hwrite] at herror
    obtain ⟨before, offender, after, hattempts, hbefore, hoffender, hpieces⟩ := schema.compose_failed herror
    have hsingle (htag : schema.tag = .option ∨ schema.tag = .nullable ∨ schema.tag = .union) :
        before = [] ∧ after = [] := by
      have hlength := length_attempts_le htag value
      rw [hattempts, List.length_append, List.length_cons] at hlength
      exact ⟨List.eq_nil_of_length_eq_zero (by omega), List.eq_nil_of_length_eq_zero (by omega)⟩
    refine .inr ⟨rfl, before, offender, after, hattempts, hbefore, hoffender, hsingle, ?_⟩
    have hbytes : (fun order => (schema.write value).bytes order) = fun order =>
        bytesOf order (schema.heading value) ++ before.flatMap (Written.bytes order) ++ offender.bytes order ++
          if schema.tag = .vec then after.flatMap (Written.bytes order) else [] := by
      funext order
      rw [hwrite, Written.bytes, Written.pieces_after, hpieces]
      split
      · simp only [bytesOf_append, Written.bytes_flatMap, List.append_assoc]
        rfl
      · simp only [bytesOf_append, Written.bytes_flatMap, List.append_assoc, List.append_nil]
        rfl
    exact hbytes ▸ hfails

/-- In a tuple the sequence fails first, at the second of its elements, behind which the third is written all the same; the
text that follows is not written, and its error does not arise. -/
theorem first_failure_decides_nested :
    let inner : Schema := .vec (.option (.struct [("id", .u16), ("on", .bool)]))
    let schema : Schema := .tuple [.u8, inner, .str]
    let items : Value := .vec [.undefined, .struct [("id", .int 258)], .struct [("on", .bool true), ("id", .int 1)]]
    let value : Value := .tuple [.int 7, items, .int 0]
    schema.encodedLength value = .error (.missingField "on") ∧
      schema.FailsAfter value (.missingField "on") fun order =>
        [7] ++ order.bytes 8 3 ++ [0] ++ ([1] ++ order.bytes 2 258) ++ ([1] ++ order.bytes 2 1 ++ [1]) := by
  intro inner schema items value
  have hlength : schema.encodedLength value = .error (.missingField "on") := rfl
  refine ⟨hlength, ?_⟩
  rcases first_failure_decides schema value _ hlength with
    ⟨hobjection, -⟩ | ⟨-, before, offender, after, hattempts, hbefore, hoffender, -, hfails⟩
  · cases hobjection
  · have hthree : [u8.write (.int 7), inner.write items, str.write (.int 0)] = before ++ offender :: after := hattempts
    match before with
    | [] =>
      cases hthree
      cases hoffender
    | [first] =>
      cases hthree
      have hbytes := funext fun order : ByteOrder =>
        show bytesOf order [] ++ [u8.write (.int 7)].flatMap (Written.bytes order) ++ (inner.write items).bytes order ++ [] =
          [7] ++ order.bytes 8 3 ++ [0] ++ ([1] ++ order.bytes 2 258) ++ ([1] ++ order.bytes 2 1 ++ [1]) by
            cases order <;> rfl
      exact hbytes ▸ hfails
    | first :: second :: rest =>
      have hsecond := hbefore second (List.mem_cons_of_mem _ List.mem_cons_self)
      obtain ⟨-, htail⟩ := List.cons.inj hthree
      obtain ⟨hhead, -⟩ := List.cons.inj htail
      rw [← hhead] at hsecond
      cases hsecond

end Schema

end WireFormat
