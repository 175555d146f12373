import WireFormat.Proofs.Acceptance
import WireFormat.Proofs.Levels
import WireFormat.Proofs.Retracing

/-!
# Whatever is read can be written

Between optionals and nullables the reader's marks and the writer's fall out of step: an optional takes the mark of
another one for its own, and an absence or a null may be written above the wrapper that it was read by. What carries the
proof is that a schema writes a value that it has read whichever of its outer marks are gone. Main statement: what was
read is accepted, and is written in no more bytes than it was read from.
-/
namespace WireFormat

namespace Value

/-- The second value is the first one without some of its outer marks. -/
inductive Unmarks : Value → Value → Prop
  | refl (value : Value) : Unmarks value value
  | strip {value inner : Value} (h : Unmarks value inner) : Unmarks (present value) inner

theorem Unmarks.trans {value inner innermost : Value} (h : value.Unmarks inner) (hinner : inner.Unmarks innermost) :
    value.Unmarks innermost := by
  induction h with
  | refl => exact hinner
  | strip _ ih => exact .strip (ih hinner)

theorem Unmarks.eq_of_kind {value inner : Value} (h : value.Unmarks inner) (hkind : value.kind ≠ .some) :
    inner = value := by
  cases h with
  | refl => rfl
  | strip _ => exact absurd rfl hkind

/-- What a value offers to an optional is the value without a mark, or with one mark less. -/
theorem unmarks_present? {value offered : Value} (h : offered ∈ value.present?) : value.Unmarks offered := by
  cases value with
  | present inner =>
    cases h
    exact .strip (.refl _)
  | undefined => cases h
  | _ =>
    cases h
    exact .refl _

theorem eq_of_mem_nonNull? {value offered : Value} (h : offered ∈ value.nonNull?) : value = offered := by
  cases value <;> cases h <;> rfl

end Value

namespace Written

variable {first second : Written} {pieces : List Piece} {b between after : Buffer}

/-- The attempt succeeds, and what it writes fits between the two cursors. -/
structure Fits (attempt : Written) (b after : Buffer) : Prop where
  accepted : attempt.error? = none
  length_le : b.cursor + lengthOf attempt.pieces ≤ after.cursor

theorem fits_done (h : b.cursor + lengthOf pieces ≤ after.cursor) : (done pieces).Fits b after :=
  ⟨rfl, h⟩

theorem Fits.cursor_le (h : first.Fits b after) : b.cursor ≤ after.cursor :=
  Nat.le_trans (Nat.le_add_right _ _) h.length_le

theorem Fits.andThen (hfirst : first.Fits b between) (hsecond : second.Fits between after) :
    (first.andThen second).Fits b after where
  accepted := (error?_andThen_eq_none_iff _ _).2 ⟨hfirst.accepted, hsecond.accepted⟩
  length_le := by
    have hle := hfirst.length_le
    have hle' := hsecond.length_le
    rw [pieces_andThen _ hfirst.accepted, lengthOf_append]
    omega

theorem Fits.behind (h : second.Fits between after) (hfront : b.cursor + lengthOf pieces ≤ between.cursor) :
    (second.after pieces).Fits b after :=
  (fits_done hfront).andThen h

theorem Fits.all_cons {rest : List Written} (hfirst : first.Fits b between) (hrest : (all rest).Fits between after) :
    (all (first :: rest)).Fits b after := by
  have hall : all (first :: rest) = first.andThen (all rest) := by
    obtain ⟨pieces, error?⟩ := first
    obtain rfl : error? = none := hfirst.accepted
    rfl
  rw [hall]
  exact hfirst.andThen hrest

end Written

namespace Reader

variable {α β : Type} {reader : Reader α} {b after : Buffer}

/-- A reader that succeeds has moved the cursor by `n`. -/
def Skips (reader : Reader α) (n : Nat) : Prop :=
  ∀ ⦃b after : Buffer⦄ ⦃a : α⦄, reader b = (.ok a, after) → after = b.skip n

theorem skips_number (width : Nat) : (number width).Skips width :=
  fun _ _ _ h => (number_eq_ok h).2

theorem Skips.map {n : Nat} (h : reader.Skips n) (f : α → β) : (reader >>= fun a => pure (f a)).Skips n := by
  intro b after c hread
  obtain ⟨a, between, hreader, hpure⟩ := exists_of_bind_ok hread
  obtain ⟨-, rfl⟩ := pure_ok hpure
  exact h hreader

theorem skips_u8 : u8.Skips 1 :=
  (skips_number 1).map UInt8.ofNat

theorem skips_u32 : u32.Skips 4 :=
  (skips_number 4).map UInt32.ofNat

theorem length_of_take {n : Nat} {bs : List UInt8} (h : take n b = (.ok bs, after)) : bs.length ≤ n := by
  simp only [take, Buffer.take] at h
  split at h
  · cases h
    exact List.length_take_le _ _
  · cases h

/-- A string is read from a frame and from at least as many bytes as it has. -/
theorem str_ok {s : String} (h : str b = (.ok s, after)) : b.cursor + lengthOf (Piece.str s) ≤ after.cursor := by
  obtain ⟨length, between, hframe, hnext⟩ := exists_of_bind_ok h
  obtain ⟨bs, between', htake, hdecoded⟩ := exists_of_bind_ok hnext
  cases hdecode : Utf8.decode bs with
  | error fault =>
    simp only [hdecode] at hdecoded
    cases hdecoded
  | ok text =>
    simp only [hdecode] at hdecoded
    obtain ⟨rfl, rfl⟩ := pure_ok hdecoded
    obtain rfl := Utf8.encode_of_decode hdecode
    have hlength := length_of_take htake
    obtain ⟨-, rfl⟩ := frame_eq_ok hframe
    obtain ⟨-, rfl⟩ := take_eq_ok htake
    simp only [Piece.str, lengthOf, Piece.length, Piece.frame, Buffer.skip]
    omega

end Reader

namespace Schema

/-- Whatever the schema reads, it writes in no more bytes, with its outer marks or without. -/
def WritesBack (schema : Schema) : Prop :=
  ∀ ⦃b after : Buffer⦄ ⦃value : Value⦄, schema.read b = (.ok value, after) →
    ∀ ⦃inner : Value⦄, value.Unmarks inner → (schema.write inner).Fits b after

theorem WritesBack.fits {schema : Schema} (h : schema.WritesBack) {b after : Buffer} {value : Value}
    (hread : schema.read b = (.ok value, after)) : (schema.write value).Fits b after :=
  h hread (.refl value)

/-- Only wrappers read values with marks. -/
theorem writesBack_of_bare {schema : Schema} (hbare : ¬schema.Shows .some)
    (h : ∀ ⦃b after : Buffer⦄ ⦃value : Value⦄, schema.read b = (.ok value, after) →
      (schema.write value).Fits b after) : schema.WritesBack := by
  intro b after value hread inner hinner
  have hkind : value.kind ≠ .some := fun hsome => hbare (hsome ▸ schema.read_shows hread)
  rw [hinner.eq_of_kind hkind]
  exact h hread

/-- What is read as one scalar is written as one scalar of the same width. -/
theorem writesBack_of_scalar {α : Type} {schema : Schema} {reader : Reader α} {image : α → Value} {width : Nat}
    (hbare : ¬schema.Shows .some) (hread : schema.read = reader >>= fun a => pure (image a))
    (hskips : reader.Skips width) (hwrite : ∀ a, (schema.write (image a)).Takes width) : schema.WritesBack := by
  refine writesBack_of_bare hbare fun b after value hvalue => ?_
  rw [hread] at hvalue
  obtain ⟨a, between, hreader, hpure⟩ := Reader.exists_of_bind_ok hvalue
  obtain ⟨rfl, rfl⟩ := Reader.pure_ok hpure
  obtain rfl := hskips hreader
  obtain ⟨haccepted, hlength⟩ := hwrite a
  exact ⟨haccepted, Nat.le_of_eq (congrArg (b.cursor + ·) hlength)⟩

theorem writesBack_str : Schema.str.WritesBack := by
  refine writesBack_of_bare (fun h => h.2.1 rfl) fun b after value hread => ?_
  obtain ⟨s, between, hstr, hpure⟩ := Reader.exists_of_bind_ok hread
  obtain ⟨rfl, rfl⟩ := Reader.pure_ok hpure
  exact Written.fits_done (Reader.str_ok hstr)

/-- A repeated name is written as its first index, in as many bytes. -/
theorem writesBack_enum (names : List String) : (Schema.enum names).WritesBack := by
  refine writesBack_of_bare (fun h => h.2.1 rfl) fun b after value hread => ?_
  obtain ⟨index, hindex, hu32, rfl⟩ := read_enum_ok hread
  obtain rfl := Reader.skips_u32 hu32
  cases hfound : names.idxOf? names[index.toNat] with
  | none => exact absurd (List.getElem_mem hindex) (List.idxOf?_eq_none_iff.1 hfound)
  | some first =>
    simp only [write, hfound]
    exact Written.fits_done (Nat.le_refl _)

/-- Fields are read like components. -/
theorem readComponents_of_readFields {fields : List (String × Schema)} {b after : Buffer}
    {values : List (String × Value)} (h : readFields fields b = (.ok values, after)) :
    readComponents (fields.map Prod.snd) b = (.ok (values.map Prod.snd), after) := by
  induction fields generalizing b values with
  | nil =>
    obtain ⟨rfl, rfl⟩ := Reader.pure_ok h
    rfl
  | cons field rest ih =>
    obtain ⟨name, schema⟩ := field
    obtain ⟨value, between, hvalue, hnext⟩ := Reader.exists_of_bind_ok h
    obtain ⟨others, between', hothers, hpure⟩ := Reader.exists_of_bind_ok hnext
    obtain ⟨rfl, rfl⟩ := Reader.pure_ok hpure
    exact (Reader.bind_ok hvalue).trans ((Reader.bind_ok (ih hothers)).trans rfl)

theorem WritesBack.components {components : List Schema} (h : ∀ part ∈ components, part.WritesBack) {b after : Buffer}
    {values : List Value} (hread : readComponents components b = (.ok values, after)) :
    (writeComponents components values).Fits b after := by
  induction components generalizing b values with
  | nil =>
    obtain ⟨rfl, rfl⟩ := Reader.pure_ok hread
    exact Written.fits_done (Nat.le_refl _)
  | cons schema rest ih =>
    rw [List.forall_mem_cons] at h
    obtain ⟨value, between, hvalue, hnext⟩ := Reader.exists_of_bind_ok hread
    obtain ⟨others, between', hothers, hpure⟩ := Reader.exists_of_bind_ok hnext
    obtain ⟨rfl, rfl⟩ := Reader.pure_ok hpure
    rw [writeComponents]
    exact (h.1.fits hvalue).andThen (ih h.2 hothers)

theorem writesBack_struct {fields : List (String × Schema)} (hnodup : (Entries.names fields).Nodup)
    (h : ∀ part ∈ fields.map Prod.snd, part.WritesBack) : (Schema.struct fields).WritesBack := by
  refine writesBack_of_bare (fun h => h.2.1 rfl) fun b after value hread => ?_
  obtain ⟨values, between, hvalues, hpure⟩ := Reader.exists_of_bind_ok hread
  obtain ⟨rfl, rfl⟩ := Reader.pure_ok hpure
  rw [write, writeFields_eq_writeComponents (names_readFields hvalues) hnodup]
  exact WritesBack.components h (readComponents_of_readFields hvalues)

theorem writesBack_tuple {components : List Schema} (h : ∀ part ∈ components, part.WritesBack) :
    (Schema.tuple components).WritesBack := by
  refine writesBack_of_bare (fun h => h.2.1 rfl) fun b after value hread => ?_
  obtain ⟨values, between, hvalues, hpure⟩ := Reader.exists_of_bind_ok hread
  obtain ⟨rfl, rfl⟩ := Reader.pure_ok hpure
  have hwrite : (Schema.tuple components).write (.tuple values) = writeComponents components values :=
    if_pos (length_readComponents hvalues)
  rw [hwrite]
  exact WritesBack.components h hvalues

/-- The variant that was read is found again by its tag, and its index takes four bytes wherever it stands. -/
theorem writesBack_union {variants : List (String × Option Schema)} (hnodup : (Entries.names variants).Nodup)
    (h : ∀ part ∈ (union variants).parts, part.WritesBack) : (Schema.union variants).WritesBack := by
  refine writesBack_of_bare (fun h => h.2.1 rfl) fun b after value hread => ?_
  obtain ⟨index, between, hu32, hvariant⟩ := Reader.exists_of_bind_ok hread
  obtain rfl := Reader.skips_u32 hu32
  obtain ⟨tag, ⟨hmem, rfl, rfl⟩ | ⟨schema, payload, hmem, rfl, hpayload⟩⟩ := readVariant_ok hvariant
  · have hlookup : variants.lookup tag = some none := Entries.lookup_of_mem hnodup hmem
    simp only [write, writeVariant_eq, hlookup]
    exact Written.fits_done (Nat.le_refl _)
  · have hlookup : variants.lookup tag = some (some schema) := Entries.lookup_of_mem hnodup hmem
    simp only [write, writeVariant_eq, hlookup]
    exact ((h schema (mem_parts_of_lookup hlookup)).fits hpayload).behind (Nat.le_refl _)

theorem WritesBack.times {element : Schema} (h : element.WritesBack) {n : Nat} {b after : Buffer} {values : List Value}
    (hread : Reader.times element.read n b = (.ok values, after)) :
    (Written.all (values.map element.write)).Fits b after := by
  induction n generalizing b values with
  | zero =>
    obtain ⟨rfl, rfl⟩ := Reader.pure_ok hread
    exact Written.fits_done (Nat.le_refl _)
  | succ n ih =>
    obtain ⟨value, between, hvalue, hnext⟩ := Reader.exists_of_bind_ok hread
    obtain ⟨others, between', hothers, hpure⟩ := Reader.exists_of_bind_ok hnext
    obtain ⟨rfl, rfl⟩ := Reader.pure_ok hpure
    exact (h.fits hvalue).all_cons (ih hothers)

theorem writesBack_vec {element : Schema} (h : element.WritesBack) : (Schema.vec element).WritesBack := by
  refine writesBack_of_bare (fun h => h.2.1 rfl) fun b after value hread => ?_
  obtain ⟨values, between, hseq, hpure⟩ := Reader.exists_of_bind_ok hread
  obtain ⟨rfl, rfl⟩ := Reader.pure_ok hpure
  obtain ⟨count, between', hframe, htimes⟩ := Reader.exists_of_bind_ok hseq
  obtain ⟨-, rfl⟩ := Reader.frame_eq_ok hframe
  exact (WritesBack.times h htimes).behind (Nat.le_refl _)

/-- Where a wrapper has read a value, it finds room for whatever part of it is offered to the element. -/
theorem WritesBack.fits_writeOpt {element : Schema} (h : element.WritesBack) {b between after : Buffer} {value : Value}
    (hmark : b.cursor + 1 ≤ between.cursor) (hread : element.read between = (.ok value, after))
    {offered : Option Value} (hoffered : ∀ inner ∈ offered, value.Unmarks inner) :
    (writeOpt element offered).Fits b after := by
  cases offered with
  | none => exact Written.fits_done (Nat.le_trans hmark (h.fits hread).cursor_le)
  | some inner => exact (h hread (hoffered inner rfl)).behind hmark

/-- Writing an optional takes one mark away. If reading has added it, what is left is the value of the element;
otherwise it is a mark of the element. -/
theorem unmarks_of_presented {element : Schema} {value inner offered : Value}
    (h : (element.presented value).Unmarks inner) (hoffered : offered ∈ inner.present?) : value.Unmarks offered := by
  rw [presented_eq] at h
  split at h
  · cases h with
    | refl =>
      cases hoffered
      exact .refl _
    | strip h => exact h.trans (Value.unmarks_present? hoffered)
  · exact h.trans (Value.unmarks_present? hoffered)

theorem writesBack_option {element : Schema} (h : element.WritesBack) : (Schema.option element).WritesBack := by
  intro b after value hread inner hinner
  obtain ⟨found, between, hopt, hnext⟩ := Reader.exists_of_bind_ok hread
  obtain ⟨c, between', hu8, ⟨-, a, rfl, ha⟩ | ⟨-, rfl, rfl⟩⟩ := Reader.opt_ok hopt
  · obtain ⟨rfl, rfl⟩ := Reader.pure_ok hnext
    obtain rfl := Reader.skips_u8 hu8
    -- What is offered to the element may be nothing, where the element itself had read an absence.
    rw [write_option_eq]
    exact h.fits_writeOpt (Nat.le_refl _) ha fun offered hoffered => unmarks_of_presented hinner hoffered
  · obtain ⟨rfl, rfl⟩ := Reader.pure_ok hnext
    obtain rfl := Reader.skips_u8 hu8
    rw [hinner.eq_of_kind Kind.noConfusion]
    exact Written.fits_done (Nat.le_refl _)

theorem writesBack_nullable {element : Schema} (h : element.WritesBack) : (Schema.nullable element).WritesBack := by
  intro b after value hread inner hinner
  obtain ⟨found, between, hopt, hpure⟩ := Reader.exists_of_bind_ok hread
  obtain ⟨rfl, rfl⟩ := Reader.pure_ok hpure
  obtain ⟨c, between', hu8, ⟨-, a, rfl, ha⟩ | ⟨-, rfl, rfl⟩⟩ := Reader.opt_ok hopt
  · obtain rfl := Reader.skips_u8 hu8
    rw [write_nullable_eq]
    refine h.fits_writeOpt (Nat.le_refl _) ha fun offered hoffered => ?_
    rw [← Value.eq_of_mem_nonNull? hoffered]
    exact hinner
  · obtain rfl := Reader.skips_u8 hu8
    rw [hinner.eq_of_kind Kind.noConfusion]
    exact Written.fits_done (Nat.le_refl _)

/-- By induction on the schema. -/
theorem writesBack (schema : Schema) (hkeyed : schema.Keyed) : schema.WritesBack := by
  induction schema using induction_on_parts with
  | step schema ih =>
    have hparts : ∀ part ∈ schema.parts, part.WritesBack := fun part hpart => ih part hpart (hkeyed.part hpart)
    cases schema with
    | bool =>
      exact writesBack_of_scalar (fun h => h.2.1 rfl) rfl (Reader.skips_u8.map (· == 1)) fun _ => ⟨rfl, rfl⟩
    | u8 => exact writesBack_of_scalar (fun h => h.2.1 rfl) rfl Reader.skips_u8 fun _ => ⟨rfl, rfl⟩
    | u16 =>
      exact writesBack_of_scalar (fun h => h.2.1 rfl) rfl ((Reader.skips_number 2).map UInt16.ofNat) fun _ =>
        ⟨rfl, rfl⟩
    | u32 => exact writesBack_of_scalar (fun h => h.2.1 rfl) rfl Reader.skips_u32 fun _ => ⟨rfl, rfl⟩
    | i32 =>
      exact writesBack_of_scalar (fun h => h.2.1 rfl) rfl (Reader.skips_u32.map UInt32.toInt32) fun _ =>
        ⟨rfl, rfl⟩
    | f32 =>
      exact writesBack_of_scalar (fun h => h.2.1 rfl) rfl (Reader.skips_u32.map Floating.Binary32.mk) fun _ =>
        ⟨rfl, rfl⟩
    | f64 =>
      exact writesBack_of_scalar (fun h => h.2.1 rfl) rfl
        ((Reader.skips_number 8).map fun n => Floating.Binary64.mk (.ofNat n)) fun _ => ⟨rfl, rfl⟩
    | str => exact writesBack_str
    | enum names => exact writesBack_enum names
    | struct fields => exact writesBack_struct hkeyed.1 hparts
    | tuple components => exact writesBack_tuple hparts
    | union variants => exact writesBack_union hkeyed.1 hparts
    | vec element => exact writesBack_vec (hparts element List.mem_cons_self)
    | option element => exact writesBack_option (hparts element List.mem_cons_self)
    | nullable element => exact writesBack_nullable (hparts element List.mem_cons_self)

/-- Whatever a schema reads, from whichever place in whichever bytes, it encodes in no more bytes than it has read. -/
theorem encode_of_read (schema : Schema) (hkeyed : schema.Keyed) {b after : Buffer} {value : Value}
    (hread : schema.read b = (.ok value, after)) :
    ∃ bs, schema.encode value = .ok bs ∧ b.cursor + bs.length ≤ after.cursor := by
  obtain ⟨haccepts, hlength⟩ := (schema.writesBack hkeyed).fits hread
  refine ⟨_, (encode_eq_ok_iff _ _ _).2 ⟨haccepts, rfl⟩, ?_⟩
  rw [length_bytesOf]
  exact hlength

/-- The second of two equal names is read and the first is written; the absence is read below three wrappers and is
written as the absence of the second. -/
theorem encode_of_read_wrappers :
    let schema : Schema := .struct [("kind", .enum ["a", "a"]), ("level", .option (.nullable (.option (.option .u8))))]
    let b := Buffer.ofBytes .little [1, 0, 0, 0, 1, 1, 1, 0, 9]
    let value : Value := .struct [("kind", .str "a"), ("level", .present .undefined)]
    schema.Keyed ∧ schema.read b = (.ok value, b.skip 8) ∧
      schema.encode value = .ok [0, 0, 0, 0, 1, 1, 0] ∧
      ∃ bs, schema.encode value = .ok bs ∧ b.cursor + bs.length ≤ (b.skip 8).cursor := by
  intro schema b value
  have hkeyed : schema.Keyed := by simp [schema, Keyed, KeyedFields]
  have hread : schema.read b = (.ok value, b.skip 8) := rfl
  exact ⟨hkeyed, hread, by decide +kernel, schema.encode_of_read hkeyed hread⟩

end Schema

end WireFormat
