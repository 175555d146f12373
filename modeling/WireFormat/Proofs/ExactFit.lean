import WireFormat.Proofs.Acceptance
import WireFormat.Proofs.Descriptors
import WireFormat.Proofs.Tape

/-!
# Buffers that fit exactly

A buffer that is as large as an encoding would still grow if room were asked for that is not needed. Main statements: every
request for room in an encoding is backed by the bytes that follow it; so a buffer of the counted size grants every
request that writing makes of it, and cursor, mark and capacity end at that size.
-/
namespace WireFormat

/-- Behind every request for room come at least as many bytes. -/
def Backed : List Piece → Prop
  | [] => True
  | .room n :: rest => n ≤ lengthOf rest ∧ Backed rest
  | .mark _ :: rest | .number _ _ :: rest | .run _ :: rest => Backed rest

theorem backed_cons_iff {piece : Piece} (h : piece.announces = false) (rest : List Piece) :
    Backed (piece :: rest) ↔ Backed rest := by
  cases piece with
  | room n => cases h
  | mark b | number width value | run bs => exact Iff.rfl

namespace Backed

variable {xs ys : List Piece}

theorem nil : Backed [] :=
  trivial

theorem single {piece : Piece} (h : piece.announces = false) : Backed [piece] :=
  (backed_cons_iff h []).2 nil

theorem append (hxs : Backed xs) (hys : Backed ys) : Backed (xs ++ ys) := by
  induction xs with
  | nil => exact hys
  | cons piece xs ih =>
    cases hpiece : piece.announces with
    | true =>
      obtain ⟨n, rfl⟩ := Piece.exists_of_announces hpiece
      obtain ⟨hroom, hrest⟩ := hxs
      have hlength : n ≤ lengthOf (xs ++ ys) := by
        rw [lengthOf_append]
        exact Nat.le_add_right_of_le hroom
      exact ⟨hlength, ih hrest⟩
    | false => exact (backed_cons_iff hpiece _).2 (ih ((backed_cons_iff hpiece _).1 hxs))

theorem cons {piece : Piece} (h : piece.announces = false) (hxs : Backed xs) : Backed (piece :: xs) :=
  (single h).append hxs

/-- The room for a string is that of its frame and its bytes. -/
theorem str (s : String) : Backed (Piece.str s) := by
  refine ⟨?_, trivial⟩
  simp only [lengthOf, Piece.frame, Piece.length]
  omega

theorem flatMap {α : Type} {pieces : α → List Piece} {items : List α} (h : ∀ a ∈ items, Backed (pieces a)) :
    Backed (items.flatMap pieces) := by
  induction items with
  | nil => exact nil
  | cons a items ih =>
    rw [List.flatMap_cons]
    exact (h a List.mem_cons_self).append (ih fun b hb => h b (List.mem_cons_of_mem _ hb))

theorem seq {α : Type} {pieces : α → List Piece} {items : List α} (h : ∀ a ∈ items, Backed (pieces a)) :
    Backed (Piece.seq pieces items) :=
  (flatMap h).cons rfl

theorem opt {α : Type} {pieces : α → List Piece} {value : Option α} (h : ∀ a ∈ value, Backed (pieces a)) :
    Backed (Piece.opt pieces value) := by
  cases value with
  | none => exact single rfl
  | some a => exact (h a rfl).cons rfl

end Backed

section

variable {Self : Type} {self : Self → List Piece}

mutual

/-- By induction on the layout, one case a constructor. -/
theorem Layout.backed {α : Type} (hself : ∀ inner, Backed (self inner)) :
    (layout : Layout Self α) → (value : α) → Backed (layout.pieces self value)
  | .str, s => .str s
  | .record _ fields, value => fields.backed hself value
  | .tuple parts, value => parts.backed hself value
  | .union _ variants _, value => (variants.backed hself value).cons rfl
  | .vector element, _ => .seq fun a _ => element.backed hself a
  | .optional element, _ | .nullable element, _ => .opt fun a _ => element.backed hself a
  | .retyped host base, value => base.backed hself (host.view value)
  | .self, value => hself value
  | .bool, _ | .u8, _ | .u16, _ | .u32, _ | .i32, _ | .f32, _ | .f64, _ | .enumeration _, _ => .single rfl

theorem Parts.backed {α : Type} (hself : ∀ inner, Backed (self inner)) :
    (parts : Parts Self α) → (value : α) → Backed (parts.pieces self value)
  | .pair first rest, (a, b) | .cons first rest, (a, b) => (first.backed hself a).append (rest.backed hself b)

theorem Fields.backed {names : List String} {α : Type} (hself : ∀ inner, Backed (self inner)) :
    (fields : Fields Self names α) → (value : α) → Backed (fields.pieces self value)
  | .nil, _ => .nil
  | .cons _ layout rest _, (a, b) => (layout.backed hself a).append (rest.backed hself b)

theorem Variants.backed {tags : List String} {α : Type} (hself : ∀ inner, Backed (self inner)) :
    (variants : Variants Self tags α) → (value : α) → Backed (variants.payloadPieces self value)
  | .unit _ _ _, .inl _ => .nil
  | .unit _ rest _, .inr b => rest.backed hself b
  | .payload _ layout _ _, .inl a => layout.backed hself a
  | .payload _ _ rest _, .inr b => rest.backed hself b

end

end

theorem Recursive.backed_within {α : Type} (layout : Recursive α) (levels : Nat) (value : α) :
    Backed (layout.piecesWithin levels value) := by
  induction levels generalizing value with
  | zero => exact .nil
  | succ levels ih => exact layout.body.backed ih value

theorem Descriptor.backed {α : Type} (d : Descriptor α) (value : α) : Backed (d.codec.pieces value) := by
  induction d with
  | unit => exact .nil
  | layout self body ih => exact body.backed ih value
  | recursive whole => exact whole.backed_within _ value

namespace Written

variable {first second : Written}

theorem backed_after {front : List Piece} (hfront : Backed front) (h : Backed first.pieces) :
    Backed (first.after front).pieces :=
  hfront.append h

theorem backed_andThen (hfirst : Backed first.pieces) (hsecond : Backed second.pieces) :
    Backed (first.andThen second).pieces := by
  unfold andThen
  split
  · exact backed_after hfirst hsecond
  · exact hfirst

end Written

namespace Schema

/-- Requests are backed in whatever is written, errors or not. -/
def WritesBacked (schema : Schema) : Prop :=
  ∀ value, Backed (schema.write value).pieces

theorem backed_writeInteger (schema : Schema) {piece : Int64 → Piece} (h : ∀ i, (piece i).announces = false)
    (value : Value) : Backed (writeInteger schema piece value).pieces := by
  unfold writeInteger
  split
  · exact .single (h _)
  · exact .nil

theorem backed_writeFloat (schema : Schema) {piece : Floating.Binary64 → Piece} (h : ∀ x, (piece x).announces = false)
    (value : Value) : Backed (writeFloat schema piece value).pieces := by
  unfold writeFloat
  split
  · exact .single (h _)
  · exact .nil

theorem backed_writeFields {fields : List (String × Schema)} (h : ∀ part ∈ fields.map Prod.snd, part.WritesBacked)
    (values : List (String × Value)) : Backed (writeFields fields values).pieces := by
  induction fields with
  | nil => exact .nil
  | cons field rest ih =>
    rw [List.map_cons, List.forall_mem_cons] at h
    rw [writeFields]
    split
    · exact Written.backed_andThen (h.1 _) (ih h.2)
    · exact Written.backed_andThen (h.1 _) (ih h.2)
    · exact .nil

theorem backed_writeComponents {components : List Schema} (h : ∀ part ∈ components, part.WritesBacked)
    (values : List Value) : Backed (writeComponents components values).pieces := by
  induction components generalizing values with
  | nil => exact .nil
  | cons schema rest ih =>
    cases values with
    | nil => exact .nil
    | cons value values =>
      rw [List.forall_mem_cons] at h
      exact Written.backed_andThen (h.1 value) (ih h.2 values)

theorem backed_writeUnion {variants : List (String × Option Schema)}
    (h : ∀ part ∈ (union variants).parts, part.WritesBacked) (start : Nat) (value : Value) :
    Backed (writeUnion variants start value).pieces := by
  cases value with
  | unit tag =>
    rw [writeUnion, writeVariant_eq]
    cases variants.lookup tag with
    | none => exact .nil
    | some entry =>
      cases entry with
      | none => exact .single rfl
      | some schema => exact .nil
  | tagged tag payload =>
    rw [writeUnion, writeVariant_eq]
    cases hentry : variants.lookup tag with
    | none => exact .nil
    | some entry =>
      cases entry with
      | none => exact .nil
      | some schema => exact Written.backed_after (.single rfl) (h schema (mem_parts_of_lookup hentry) payload)
  | _ => exact .nil

theorem backed_writeOpt {element : Schema} (h : element.WritesBacked) (offered : Option Value) :
    Backed (writeOpt element offered).pieces := by
  cases offered with
  | none => exact .single rfl
  | some inner => exact Written.backed_after (.single rfl) (h inner)

theorem backed_write (schema : Schema) : schema.WritesBacked := by
  induction schema using induction_on_parts with
  | step schema ih =>
    intro value
    cases schema with
    | bool =>
      cases value with
      | bool b => exact .single rfl
      | _ => exact .nil
    | str =>
      cases value with
      | str s => exact .str s
      | _ => exact .nil
    | u8 | u16 | u32 | i32 => exact backed_writeInteger _ (fun _ => rfl) value
    | f32 | f64 => exact backed_writeFloat _ (fun _ => rfl) value
    | enum names =>
      cases value with
      | str name =>
        rw [write]
        split
        · exact .single rfl
        · exact .nil
      | _ => exact .nil
    | struct fields =>
      cases value with
      | struct values => exact backed_writeFields ih values
      | _ => exact .nil
    | tuple components =>
      cases value with
      | tuple values =>
        rw [write]
        split
        · exact backed_writeComponents ih values
        · exact .nil
      | _ => exact .nil
    | union variants =>
      rw [write_union]
      exact backed_writeUnion ih 0 value
    | vec element =>
      cases value with
      | vec values =>
        refine Written.backed_after (.single rfl) ?_
        rw [Written.all, List.flatMap_map]
        exact .flatMap fun item _ => ih element List.mem_cons_self item
      | _ => exact .nil
    | option element =>
      rw [write_option_eq]
      exact backed_writeOpt (ih element List.mem_cons_self) _
    | nullable element =>
      rw [write_nullable_eq]
      exact backed_writeOpt (ih element List.mem_cons_self) _

end Schema

/-- How many bytes an output was asked for, and how many were free behind its cursor then. -/
structure Request where
  asked : Nat
  free : Nat
deriving DecidableEq, Repr

/-- A buffer with an account of the requests made of it: for room ahead, and for the bytes of every push. -/
structure Watched where
  buffer : Buffer
  requests : List Request
deriving DecidableEq, Repr

namespace Buffer

def free (b : Buffer) : Nat :=
  b.capacity - b.cursor

theorem reserve_of_free {b : Buffer} {n : Nat} (h : n ≤ b.free) : b.reserve n = b :=
  if_pos h

theorem capacity_push_of_free {b : Buffer} {bs : List UInt8} (hcursor : b.cursor ≤ b.capacity)
    (h : bs.length ≤ b.free) : (b.push bs).capacity = b.capacity := by
  rw [capacity_push hcursor, reserve_of_free h]

def watch (b : Buffer) : Watched :=
  ⟨b, []⟩

end Buffer

namespace Watched

def note (w : Watched) (n : Nat) (after : Buffer) : Watched :=
  ⟨after, w.requests ++ [⟨n, w.buffer.free⟩]⟩

instance : Output Watched where
  order w := w.buffer.order
  makeRoom w n := w.note n (w.buffer.reserve n)
  push w bs := (w.note bs.length (w.buffer.push bs), bs.length)

/-- Watching a buffer changes nothing about it. -/
theorem buffer_emit (w : Watched) (pieces : List Piece) : (emit w pieces).1.buffer = (emit w.buffer pieces).1 := by
  have hsame : Output.Simulates fun (w : Watched) (b : Buffer) => w.buffer = b := by
    constructor
    · rintro w _ rfl
      rfl
    · rintro w _ n rfl
      rfl
    · rintro w _ bs rfl
      rfl
  exact hsame.emit rfl pieces

/-- No request was for more than there was. -/
def Granted (w : Watched) : Prop :=
  ∀ request ∈ w.requests, request.asked ≤ request.free

theorem Granted.note {w : Watched} (h : w.Granted) {n : Nat} (hfree : n ≤ w.buffer.free) (after : Buffer) :
    (w.note n after).Granted := by
  intro request hrequest
  rcases List.mem_append.1 hrequest with hmem | hmem
  · exact h request hmem
  · obtain rfl := List.mem_singleton.1 hmem
    exact hfree

/-- By induction on the pieces: what is still to come fits behind the cursor, and every request is backed by it. -/
theorem Granted.emit {w : Watched} (h : w.Granted) {pieces : List Piece} (hbacked : Backed pieces)
    (hcursor : w.buffer.cursor ≤ w.buffer.capacity) (hroom : lengthOf pieces ≤ w.buffer.free) :
    (emit w pieces).1.Granted ∧ (emit w pieces).1.buffer.capacity = w.buffer.capacity := by
  induction pieces generalizing w with
  | nil => exact ⟨h, rfl⟩
  | cons piece pieces ih =>
    cases hpiece : piece.announces with
    | true =>
      obtain ⟨n, rfl⟩ := Piece.exists_of_announces hpiece
      have hrest : lengthOf pieces ≤ w.buffer.free := by
        rw [lengthOf] at hroom
        exact Nat.le_of_add_left_le hroom
      have hfree : n ≤ w.buffer.free := Nat.le_trans hbacked.1 hrest
      have hsame : w.buffer.reserve n = w.buffer := Buffer.reserve_of_free hfree
      have hemit : WireFormat.emit w (.room n :: pieces) = WireFormat.emit (w.note n w.buffer) pieces := by
        rw [WireFormat.emit]
        simp only [Output.makeRoom, hsame]
      rw [hemit]
      exact ih (h.note hfree w.buffer) hbacked.2 hcursor hrest
    | false =>
      have hlength : (piece.bytes w.buffer.order).length = piece.length := Piece.length_bytes _ _
      have hwrote := Buffer.wrote_push hcursor (piece.bytes w.buffer.order)
      rw [lengthOf] at hroom
      have hfree : (piece.bytes w.buffer.order).length ≤ w.buffer.free := by omega
      have hcapacity := Buffer.capacity_push_of_free hcursor hfree
      have hrest : lengthOf pieces ≤ (w.buffer.push (piece.bytes w.buffer.order)).free := by
        rw [Buffer.free, hcapacity, hwrote.cursor_eq]
        rw [Buffer.free] at hroom
        omega
      obtain ⟨hgranted, heq⟩ := ih (h.note hfree (w.buffer.push (piece.bytes w.buffer.order)))
        ((backed_cons_iff hpiece _).1 hbacked) hwrote.cursor_le hrest
      rw [emit_cons w hpiece]
      exact ⟨hgranted, heq.trans hcapacity⟩

end Watched

/-- Writing to an empty buffer of the given size gives the result, asks for nothing that is not free, and uses the buffer
up to its last byte. -/
structure FillsExactly {ρ : Type} (write : {τ : Type} → [Output τ] → τ → τ × ρ) (order : ByteOrder) (size : Nat)
    (result : ρ) : Prop where
  result_eq : (write (Buffer.empty order size)).2 = result
  watched : (write (Buffer.empty order size).watch).1.buffer = (write (Buffer.empty order size)).1
  granted : ∀ request ∈ (write (Buffer.empty order size).watch).1.requests, request.asked ≤ request.free
  cursor_eq : (write (Buffer.empty order size)).1.cursor = size
  filled_eq : (write (Buffer.empty order size)).1.filled = size
  capacity_eq : (write (Buffer.empty order size)).1.capacity = size

/-- Any result that is made from the count alone. -/
theorem Backed.fillsExactly {ρ : Type} {pieces : List Piece} (h : Backed pieces) (order : ByteOrder) (result : Nat → ρ) :
    FillsExactly (fun out => ((emit out pieces).1, result (emit out pieces).2)) order (lengthOf pieces)
      (result (lengthOf pieces)) := by
  let b := Buffer.empty order (lengthOf pieces)
  have hcapacity : b.capacity = lengthOf pieces := List.length_replicate
  obtain ⟨hgranted, hsize⟩ := Watched.Granted.emit (w := b.watch) (fun _ hmem => nomatch hmem) h (Nat.zero_le _)
    (Nat.le_of_eq hcapacity.symm)
  have hsame : (emit b.watch pieces).1.buffer = (emit b pieces).1 := Watched.buffer_emit _ _
  have hwrote := (Buffer.wrote_emit (show b.cursor ≤ b.capacity from Nat.zero_le _) pieces).1
  have hcursor : (emit b pieces).1.cursor = lengthOf pieces := by
    rw [hwrote.cursor_eq, length_bytesOf]
    exact Nat.zero_add _
  have hbounds := (b.tape_emit (Buffer.inBounds_empty _ _) pieces).1
  have hfilled : (emit b pieces).1.filled = lengthOf pieces := by
    rw [← Buffer.length_written hbounds.filled_le, Buffer.written_emit_empty, length_bytesOf]
  refine ⟨congrArg result (b.count_emit pieces), hsame, hgranted, hcursor, hfilled, ?_⟩
  rw [← hsame, hsize]
  exact hcapacity

/-- Encodings are written into buffers of the counted size: no request goes beyond what is free, so the buffer never grows,
and the writing that follows the counting of a value does not fail. -/
theorem encoded_in_place :
    (∀ {α : Type} (d : Descriptor α) (value : α),
      (∀ order, FillsExactly (d.codec.writeTo · value) order (d.codec.encodedLength value) (d.codec.encodedLength value)) ∧
      (d.codec.encode value).length = d.codec.encodedLength value) ∧
    ∀ (schema : Schema) (value : Value) (size : Nat), schema.encodedLength value = .ok size →
      (∀ order, FillsExactly (schema.writeTo · value) order size (.ok size)) ∧
      ∃ bs, schema.encode value = .ok bs ∧ bs.length = size := by
  refine ⟨fun d value => ?_, fun schema value size hsize => ?_⟩
  · have hlength : d.codec.encodedLength value = lengthOf (d.codec.pieces value) := emit_discard _ _
    have hencode : d.codec.encode value = bytesOf .little (d.codec.pieces value) := Buffer.written_emit_empty _ _ _
    rw [hlength, hencode, length_bytesOf]
    exact ⟨fun order => (d.backed value).fillsExactly order id, rfl⟩
  · rw [Schema.encodedLength_eq] at hsize
    cases herror : (schema.write value).error? with
    | some error => simp [herror] at hsize
    | none =>
      simp only [herror, Except.ok.injEq] at hsize
      subst hsize
      refine ⟨fun order => ?_, _, (Schema.encode_eq_ok_iff _ _ _).2 ⟨herror, rfl⟩, length_bytesOf _ _⟩
      simp only [Schema.writeTo, herror]
      exact (schema.backed_write value).fillsExactly order Except.ok

/-- Strings come last, where a request for more than their own bytes would make the buffer grow. -/
theorem encoded_in_place_strings :
    let d : Descriptor (UInt16 × List String) := .layout .unit (.tuple (.pair .u16 (.vector .str)))
    let schema : Schema := .struct [("id", .u8), ("name", .option .str)]
    let value : Value := .struct [("name", .str "é"), ("id", .int 7)]
    d.codec.encodedLength (7, ["é", ""]) = 28 ∧
      (d.codec.writeTo (Buffer.empty .little 28).watch (7, ["é", ""])).1.requests =
        [⟨2, 28⟩, ⟨8, 26⟩, ⟨10, 18⟩, ⟨8, 18⟩, ⟨2, 10⟩, ⟨8, 8⟩, ⟨8, 8⟩, ⟨0, 0⟩] ∧
      (d.codec.writeTo (Buffer.empty .little 28) (7, ["é", ""])).1.capacity = 28 ∧
      schema.encodedLength value = .ok 12 ∧
      (schema.writeTo (Buffer.empty .big 12).watch value).1.requests = [⟨1, 12⟩, ⟨1, 11⟩, ⟨10, 10⟩, ⟨8, 10⟩, ⟨2, 2⟩] ∧
      (schema.writeTo (Buffer.empty .big 12) value).1.capacity = 12 ∧
      ∃ bs, schema.encode value = .ok bs ∧ bs.length = 12 := by
  intro d schema value
  have hlength : d.codec.encodedLength (7, ["é", ""]) = 28 := rfl
  have hsize : schema.encodedLength value = .ok 12 := rfl
  have hfills := (encoded_in_place.1 d (7, ["é", ""])).1 .little
  obtain ⟨hschema, hencode⟩ := encoded_in_place.2 schema value 12 hsize
  exact ⟨hlength, rfl, hfills.capacity_eq, hsize, rfl, (hschema .big).capacity_eq, hencode⟩

end WireFormat
