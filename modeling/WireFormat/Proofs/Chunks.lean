import WireFormat.Proofs.Acceptance
import WireFormat.Proofs.Descriptors

/-!
# Encodings in chunks

The wire format once more, as what comes after what, before any byte order is chosen: single bytes, numeric scalars of two,
four or eight bytes, frames, indices and texts. Main statement: what a schema accepts, and every value of a descriptor, is
written as the bytes of its chunks, one after the other, and the byte order decides on nothing but the order of the bytes
inside the numeric ones.
-/
namespace WireFormat
open Floating

inductive Chunk where
  | byte (b : UInt8)
  | two (n : UInt16)
  | four (n : UInt32)
  | eight (n : UInt64)
  /-- The length of a text or the count of a sequence, in eight bytes. -/
  | frame (length : Nat)
  /-- Which variant of an enumeration or union it is, in four bytes. -/
  | index (n : Nat)
  | text (s : String)
deriving DecidableEq, Repr

namespace Chunk

def numeric : Chunk → Bool
  | two _ | four _ | eight _ | frame _ | index _ => true
  | byte _ | text _ => false

/-- The bytes in the little order. Of a length the low 32 bits are kept. -/
def little : Chunk → List UInt8
  | byte b => [b]
  | two n => digits 2 n.toNat
  | four n => digits 4 n.toNat
  | eight n => digits 8 n.toNat
  | frame length => digits 8 (length % 0x100000000)
  | index n => digits 4 n
  | text s => Utf8.encode s

/-- The bytes in the big order. -/
def mirrored (chunk : Chunk) : List UInt8 :=
  if chunk.numeric then chunk.little.reverse else chunk.little

def bytes : ByteOrder → Chunk → List UInt8
  | .little, chunk => chunk.little
  | .big, chunk => chunk.mirrored

/-- A length and an index are written in full if four bytes hold them. -/
def Fits : Chunk → Prop
  | frame n | index n => n < 0x100000000
  | byte _ | two _ | four _ | eight _ | text _ => True

instance decidableFits : (chunk : Chunk) → Decidable chunk.Fits
  | frame n | index n => inferInstanceAs (Decidable (n < 0x100000000))
  | byte _ | two _ | four _ | eight _ | text _ => isTrue trivial

/-- The digits above the fourth are those of what the low 32 bits leave over. -/
theorem drop_little_frame (n : Nat) : (frame n).little.drop 4 = [0, 0, 0, 0] := by
  have hover : n % 0x100000000 / 256 / 256 / 256 / 256 = 0 := by omega
  simp only [little, digits, List.drop_succ_cons, List.drop_zero, hover]
  rfl

theorem take_mirrored_frame (n : Nat) : (frame n).mirrored.take 4 = [0, 0, 0, 0] := by
  have hlength : (frame n).little.length = 8 := length_digits 8 _
  have hdrop := drop_little_frame n
  rw [mirrored, numeric, if_pos rfl, List.take_reverse, hlength, hdrop]
  rfl

def str (s : String) : List Chunk :=
  [frame (Utf8.encode s).length, text s]

def seq {α : Type} (element : α → List Chunk) (items : List α) : List Chunk :=
  frame items.length :: items.flatMap element

def opt {α : Type} (element : α → List Chunk) : Option α → List Chunk
  | none => [byte 0]
  | some a => byte 1 :: element a

/-- No length and no index is cut off. -/
def AllFit (chunks : List Chunk) : Prop :=
  ∀ chunk ∈ chunks, chunk.Fits

instance (chunks : List Chunk) : Decidable (AllFit chunks) :=
  inferInstanceAs (Decidable (∀ chunk ∈ chunks, chunk.Fits))

theorem allFit_nil : AllFit [] :=
  fun _ h => nomatch h

theorem allFit_cons_iff {chunk : Chunk} {chunks : List Chunk} :
    AllFit (chunk :: chunks) ↔ chunk.Fits ∧ AllFit chunks :=
  List.forall_mem_cons

theorem allFit_append_iff {xs ys : List Chunk} : AllFit (xs ++ ys) ↔ AllFit xs ∧ AllFit ys :=
  List.forall_mem_append

theorem allFit_str_iff {s : String} : AllFit (str s) ↔ (Utf8.encode s).length < 0x100000000 := by
  simp [AllFit, str, Fits]

theorem allFit_seq_iff {α : Type} {element : α → List Chunk} {items : List α} :
    AllFit (seq element items) ↔ items.length < 0x100000000 ∧ ∀ a ∈ items, AllFit (element a) := by
  rw [seq, allFit_cons_iff]
  refine and_congr Iff.rfl ?_
  simp only [AllFit, List.mem_flatMap]
  constructor
  · exact fun h a ha chunk hchunk => h chunk ⟨a, ha, hchunk⟩
  · exact fun h chunk ⟨a, ha, hchunk⟩ => h a ha chunk hchunk

theorem allFit_opt_iff {α : Type} {element : α → List Chunk} {value : Option α} :
    AllFit (opt element value) ↔ ∀ a ∈ value, AllFit (element a) := by
  cases value <;> simp [AllFit, opt, Fits]

end Chunk

/-- In either byte order the pieces have the bytes of the chunks. -/
def Renders (pieces : List Piece) (chunks : List Chunk) : Prop :=
  ∀ order, bytesOf order pieces = chunks.flatMap (Chunk.bytes order)

namespace Renders

variable {pieces : List Piece} {chunks : List Chunk}

theorem nil : Renders [] [] :=
  fun _ => rfl

theorem append {pieces' : List Piece} {chunks' : List Chunk} (h : Renders pieces chunks) (h' : Renders pieces' chunks') :
    Renders (pieces ++ pieces') (chunks ++ chunks') := by
  intro order
  rw [bytesOf_append, h order, h' order, List.flatMap_append]

theorem single {piece : Piece} {chunk : Chunk} (h : ∀ order, piece.bytes order = chunk.bytes order) :
    Renders [piece] [chunk] := by
  intro order
  rw [bytesOf, List.flatMap_singleton, List.flatMap_singleton, h order]

theorem cons {piece : Piece} {chunk : Chunk} (h : Renders [piece] [chunk]) (h' : Renders pieces chunks) :
    Renders (piece :: pieces) (chunk :: chunks) :=
  h.append h'

theorem mark (b : Bool) : Renders [.mark b] [.byte (if b then 1 else 0)] :=
  single fun order => by cases order <;> rfl

theorem u8 (n : UInt8) : Renders [.u8 n] [.byte n] := by
  refine single fun order => ?_
  have hdigits : digits 1 n.toNat = [n] := by rw [digits, UInt8.ofNat_toNat, digits]
  cases order <;> simp [Piece.u8, Piece.bytes, ByteOrder.bytes, ByteOrder.arrange, hdigits] <;> rfl

theorem u16 (n : UInt16) : Renders [.u16 n] [.two n] :=
  single fun order => by cases order <;> rfl

theorem u32 (n : UInt32) : Renders [.u32 n] [.four n] :=
  single fun order => by cases order <;> rfl

theorem f64 (x : Binary64) : Renders [.f64 x] [.eight x.bits] :=
  single fun order => by cases order <;> rfl

theorem frame (n : Nat) : Renders [.frame n] [.frame n] :=
  single fun order => by cases order <;> rfl

theorem index (n : Nat) : Renders [.index n] [.index n] :=
  single fun order => by cases order <;> rfl

theorem str (s : String) : Renders (Piece.str s) (Chunk.str s) := by
  have htext : Renders [.run (Utf8.encode s)] [.text s] := single fun order => by cases order <;> rfl
  exact (frame _).cons htext

theorem flatMap {α : Type} {piecesOf : α → List Piece} {chunksOf : α → List Chunk} {items : List α}
    (h : ∀ a ∈ items, Renders (piecesOf a) (chunksOf a)) :
    Renders (items.flatMap piecesOf) (items.flatMap chunksOf) := by
  induction items with
  | nil => exact nil
  | cons a items ih =>
    rw [List.flatMap_cons, List.flatMap_cons]
    exact (h a List.mem_cons_self).append (ih fun b hb => h b (List.mem_cons_of_mem _ hb))

theorem seq {α : Type} {piecesOf : α → List Piece} {chunksOf : α → List Chunk} {items : List α}
    (h : ∀ a ∈ items, Renders (piecesOf a) (chunksOf a)) :
    Renders (Piece.seq piecesOf items) (Chunk.seq chunksOf items) :=
  (frame items.length).cons (flatMap h)

theorem opt {α : Type} {piecesOf : α → List Piece} {chunksOf : α → List Chunk} {value : Option α}
    (h : ∀ a ∈ value, Renders (piecesOf a) (chunksOf a)) :
    Renders (Piece.opt piecesOf value) (Chunk.opt chunksOf value) := by
  cases value with
  | none => exact mark false
  | some a => exact (mark true).cons (h a rfl)

end Renders

variable {Self : Type}

mutual

def Layout.chunks {α : Type} (self : Self → List Chunk) : Layout Self α → α → List Chunk
  | .bool, b => [.byte (if b then 1 else 0)]
  | .str, s => Chunk.str s
  | .u8, n => [.byte n]
  | .u16, n => [.two n]
  | .u32, n => [.four n]
  | .i32, n => [.four n.toUInt32]
  | .f32, x => [.four x.bits]
  | .f64, x => [.eight x.bits]
  | .enumeration _, variant => [.index variant.val]
  | .record _ fields, value => fields.chunks self value
  | .tuple parts, value => parts.chunks self value
  | .union _ variants _, value => .index (variants.indexOf value) :: variants.payloadChunks self value
  | .vector element, items => Chunk.seq (element.chunks self) items
  | .optional element, value => Chunk.opt (element.chunks self) value
  | .nullable element, value => Chunk.opt (element.chunks self) value.toOption
  | .retyped host base, value => base.chunks self (host.view value)
  | .self, value => self value

def Parts.chunks {α : Type} (self : Self → List Chunk) : Parts Self α → α → List Chunk
  | .pair first second, (a, b) => first.chunks self a ++ second.chunks self b
  | .cons first rest, (a, b) => first.chunks self a ++ rest.chunks self b

def Fields.chunks {names : List String} {α : Type} (self : Self → List Chunk) :
    Fields Self names α → α → List Chunk
  | .nil, _ => []
  | .cons _ layout rest _, (a, b) => layout.chunks self a ++ rest.chunks self b

def Variants.payloadChunks {tags : List String} {α : Type} (self : Self → List Chunk) :
    Variants Self tags α → α → List Chunk
  | .unit _ _ _, .inl _ => []
  | .unit _ rest _, .inr b => rest.payloadChunks self b
  | .payload _ layout _ _, .inl a => layout.chunks self a
  | .payload _ _ rest _, .inr b => rest.payloadChunks self b

end

namespace Recursive

variable {α : Type}

def chunksWithin (layout : Recursive α) : (levels : Nat) → α → List Chunk
  | 0, _ => []
  | levels + 1, value => layout.body.chunks (layout.chunksWithin levels) value

/-- No value contains more levels than its rank. -/
def chunks (layout : Recursive α) (value : α) : List Chunk :=
  layout.chunksWithin (layout.rank value + 1) value

end Recursive

def Descriptor.chunks {α : Type} : Descriptor α → α → List Chunk
  | unit, _ => []
  | layout self body, value => body.chunks self.chunks value
  | recursive whole, value => whole.chunks value

section

variable {pieces : Self → List Piece} {chunks : Self → List Chunk}

mutual

/-- By induction on the layout, one case a constructor. -/
theorem Layout.renders {α : Type} (hself : ∀ inner, Renders (pieces inner) (chunks inner)) :
    (layout : Layout Self α) → (value : α) → Renders (layout.pieces pieces value) (layout.chunks chunks value)
  | .bool, b => .mark b
  | .str, s => .str s
  | .u8, n => .u8 n
  | .u16, n => .u16 n
  | .u32, n => .u32 n
  | .i32, n => .u32 n.toUInt32
  | .f32, x => .u32 x.bits
  | .f64, x => .f64 x
  | .enumeration _, variant => .index variant.val
  | .record _ fields, value => fields.renders hself value
  | .tuple parts, value => parts.renders hself value
  | .union _ variants _, value => (Renders.index _).cons (variants.renders hself value)
  | .vector element, _ => .seq fun a _ => element.renders hself a
  | .optional element, _ => .opt fun a _ => element.renders hself a
  | .nullable element, _ => .opt fun a _ => element.renders hself a
  | .retyped host base, value => base.renders hself (host.view value)
  | .self, value => hself value

theorem Parts.renders {α : Type} (hself : ∀ inner, Renders (pieces inner) (chunks inner)) :
    (parts : Parts Self α) → (value : α) → Renders (parts.pieces pieces value) (parts.chunks chunks value)
  | .pair first rest, (a, b) | .cons first rest, (a, b) => (first.renders hself a).append (rest.renders hself b)

theorem Fields.renders {names : List String} {α : Type} (hself : ∀ inner, Renders (pieces inner) (chunks inner)) :
    (fields : Fields Self names α) → (value : α) → Renders (fields.pieces pieces value) (fields.chunks chunks value)
  | .nil, _ => .nil
  | .cons _ layout rest _, (a, b) => (layout.renders hself a).append (rest.renders hself b)

theorem Variants.renders {tags : List String} {α : Type} (hself : ∀ inner, Renders (pieces inner) (chunks inner)) :
    (variants : Variants Self tags α) → (value : α) →
      Renders (variants.payloadPieces pieces value) (variants.payloadChunks chunks value)
  | .unit _ _ _, .inl _ => .nil
  | .unit _ rest _, .inr b => rest.renders hself b
  | .payload _ layout _ _, .inl a => layout.renders hself a
  | .payload _ _ rest _, .inr b => rest.renders hself b

end

end

theorem Recursive.renders_within {α : Type} (layout : Recursive α) (levels : Nat) (value : α) :
    Renders (layout.piecesWithin levels value) (layout.chunksWithin levels value) := by
  induction levels generalizing value with
  | zero => exact .nil
  | succ levels ih => exact layout.body.renders ih value

theorem Descriptor.renders {α : Type} (d : Descriptor α) (value : α) :
    Renders (d.codec.pieces value) (d.chunks value) := by
  induction d with
  | unit => exact .nil
  | layout self body ih => exact body.renders ih value
  | recursive whole => exact whole.renders_within _ value

namespace Schema

def chunksOfInteger (chunk : Int64 → Chunk) (value : Value) : List Chunk :=
  (integerOf? value).toList.map chunk

def chunksOfFloat (chunk : Binary64 → Chunk) (value : Value) : List Chunk :=
  (floatOf? value).toList.map chunk

mutual

/-- The chunks of an accepted value; where a value does not fit there are none. -/
def chunks : Schema → Value → List Chunk
  | bool, value =>
    match value with
    | .bool b => [.byte (if b then 1 else 0)]
    | _ => []
  | str, value =>
    match value with
    | .str s => Chunk.str s
    | _ => []
  | u8, value => chunksOfInteger (fun i => .byte (Narrow.u8 i)) value
  | u16, value => chunksOfInteger (fun i => .two (Narrow.u16 i)) value
  | u32, value => chunksOfInteger (fun i => .four (Narrow.u32 i)) value
  | i32, value => chunksOfInteger (fun i => .four (Narrow.i32 i).toUInt32) value
  | f32, value => chunksOfFloat (fun x => .four x.narrow.bits) value
  | f64, value => chunksOfFloat (fun x => .eight x.bits) value
  | enum names, value =>
    match value with
    | .str name => (names.idxOf? name).toList.map .index
    | _ => []
  | struct fields, value =>
    match value with
    | .struct values => chunksOfFields fields values
    | _ => []
  | tuple components, value =>
    match value with
    | .tuple values => chunksOfComponents components values
    | _ => []
  | union variants, value => chunksOfUnion variants 0 value
  | vec element, value =>
    match value with
    | .vec values => Chunk.seq element.chunks values
    | _ => []
  | option element, value => Chunk.opt element.chunks value.present?
  | nullable element, value => Chunk.opt element.chunks value.nonNull?

/-- The fields of the schema in its order, whatever the order of the value. -/
def chunksOfFields : List (String × Schema) → List (String × Value) → List Chunk
  | [], _ => []
  | (name, schema) :: rest, values => schema.chunks (Value.field values name) ++ chunksOfFields rest values

def chunksOfComponents : List Schema → List Value → List Chunk
  | schema :: rest, value :: values => schema.chunks value ++ chunksOfComponents rest values
  | _, _ => []

/-- The first of the variants has the given index. -/
def chunksOfUnion : List (String × Option Schema) → (index : Nat) → Value → List Chunk
  | [], _, _ => []
  | (name, none) :: rest, index, value =>
    if value.variant? = some name then [.index index] else chunksOfUnion rest (index + 1) value
  | (name, some schema) :: rest, index, value =>
    if value.variant? = some name then
      match value with
      | .tagged _ payload => .index index :: schema.chunks payload
      | _ => []
    else chunksOfUnion rest (index + 1) value

end

theorem chunksOfUnion_cons {name : String} {entry : Option Schema} {rest : List (String × Option Schema)} {index : Nat}
    {value : Value} (h : value.variant? ≠ some name) :
    chunksOfUnion ((name, entry) :: rest) index value = chunksOfUnion rest (index + 1) value := by
  cases entry <;> exact if_neg h

theorem chunksOfUnion_unit (tag : String) (rest : List (String × Option Schema)) (index : Nat) :
    chunksOfUnion ((tag, none) :: rest) index (.unit tag) = [.index index] := by
  simp only [chunksOfUnion, Value.variant?, if_true]

theorem chunksOfUnion_tagged (tag : String) (schema : Schema) (rest : List (String × Option Schema)) (index : Nat)
    (payload : Value) :
    chunksOfUnion ((tag, some schema) :: rest) index (.tagged tag payload) = .index index :: schema.chunks payload := by
  simp only [chunksOfUnion, Value.variant?, if_true]

/-- What is written of an accepted value. -/
def RendersAccepted (schema : Schema) : Prop :=
  ∀ ⦃value : Value⦄, schema.Accepts value → Renders (schema.write value).pieces (schema.chunks value)

theorem renders_integer {schema : Schema} {piece : Int64 → Piece} {chunk : Int64 → Chunk} {value : Value}
    (h : ∀ i, Renders [piece i] [chunk i]) (haccepts : (writeInteger schema piece value).error? = none) :
    Renders (writeInteger schema piece value).pieces (chunksOfInteger chunk value) := by
  obtain ⟨i, hi, hwrite⟩ := integer_accepted haccepts
  rw [hwrite, chunksOfInteger, hi]
  exact h i

theorem renders_float {schema : Schema} {piece : Binary64 → Piece} {chunk : Binary64 → Chunk} {value : Value}
    (h : ∀ x, Renders [piece x] [chunk x]) (haccepts : (writeFloat schema piece value).error? = none) :
    Renders (writeFloat schema piece value).pieces (chunksOfFloat chunk value) := by
  obtain ⟨x, hx, hwrite⟩ := float_accepted haccepts
  rw [hwrite, chunksOfFloat, hx]
  exact h x

theorem renders_enum (names : List String) : (enum names).RendersAccepted := by
  intro value haccepts
  obtain ⟨index, hindex, rfl, hfound, hwrite⟩ := haccepts.enum
  rw [hwrite, chunks, hfound]
  exact .index index

theorem renders_fields {fields : List (String × Schema)} (h : ∀ part ∈ fields.map Prod.snd, part.RendersAccepted)
    {values : List (String × Value)} (haccepts : (writeFields fields values).error? = none) :
    Renders (writeFields fields values).pieces (chunksOfFields fields values) := by
  induction fields with
  | nil => exact .nil
  | cons field rest ih =>
    obtain ⟨name, schema⟩ := field
    rw [List.map_cons, List.forall_mem_cons] at h
    obtain ⟨hfield, hrest, hpieces⟩ := fields_accepted haccepts
    rw [hpieces]
    exact (h.1 hfield).append (ih h.2 hrest)

theorem renders_components {components : List Schema} (h : ∀ part ∈ components, part.RendersAccepted)
    {values : List Value} (haccepts : (writeComponents components values).error? = none) :
    Renders (writeComponents components values).pieces (chunksOfComponents components values) := by
  induction components generalizing values with
  | nil => exact .nil
  | cons schema rest ih =>
    cases values with
    | nil => exact .nil
    | cons value values =>
      rw [List.forall_mem_cons] at h
      obtain ⟨hfirst, hrest, hpieces⟩ := components_accepted haccepts
      rw [hpieces]
      exact (h.1 hfirst).append (ih h.2 hrest)

theorem renders_union {variants : List (String × Option Schema)}
    (h : ∀ part ∈ variants.filterMap Prod.snd, part.RendersAccepted) {start : Nat} {value : Value}
    (haccepts : (writeUnion variants start value).error? = none) :
    Renders (writeUnion variants start value).pieces (chunksOfUnion variants start value) := by
  induction variants generalizing start with
  | nil => cases value <;> cases haccepts
  | cons variant others ih =>
    obtain ⟨name, entry⟩ := variant
    obtain ⟨rfl, rfl⟩ | ⟨schema, payload, rfl, rfl, hpayload⟩ | ⟨hname, hothers⟩ := union_accepted haccepts
    · rw [writeUnion_unit, chunksOfUnion_unit]
      exact .index start
    · rw [writeUnion_tagged, chunksOfUnion_tagged]
      exact (Renders.index start).cons (h schema List.mem_cons_self hpayload)
    · rw [writeUnion_cons hname, chunksOfUnion_cons hname]
      exact ih (fun part hpart => h part (List.filterMap_subset _ (List.subset_cons_self _ _) hpart)) hothers

/-- By induction on the schema, from what each kind of schema accepts. -/
theorem renders (schema : Schema) : schema.RendersAccepted := by
  induction schema using induction_on_parts with
  | step schema ih =>
    intro value haccepts
    cases schema with
    | bool =>
      obtain ⟨b, rfl⟩ := haccepts.bool
      exact .mark b
    | str =>
      obtain ⟨s, rfl⟩ := haccepts.str
      exact .str s
    | u8 => exact renders_integer (fun i => .u8 _) haccepts
    | u16 => exact renders_integer (fun i => .u16 _) haccepts
    | u32 => exact renders_integer (fun i => .u32 _) haccepts
    | i32 => exact renders_integer (fun i => .u32 _) haccepts
    | f32 => exact renders_float (fun x => .u32 _) haccepts
    | f64 => exact renders_float (fun x => .f64 x) haccepts
    | enum names => exact renders_enum names haccepts
    | struct fields =>
      obtain ⟨values, rfl, hfields⟩ := haccepts.struct
      exact renders_fields ih hfields
    | tuple components =>
      obtain ⟨values, rfl, hlength, hwrite⟩ := haccepts.tuple
      rw [Accepts, hwrite] at haccepts
      rw [hwrite]
      exact renders_components ih haccepts
    | union variants =>
      rw [Accepts, write_union] at haccepts
      rw [write_union]
      exact renders_union ih haccepts
    | vec element =>
      obtain ⟨values, rfl, hvalues, hpieces⟩ := haccepts.vec
      rw [hpieces]
      exact .seq fun item hitem => ih element List.mem_cons_self (hvalues item hitem)
    | option element =>
      obtain ⟨hinner, hpieces⟩ := haccepts.option
      rw [hpieces]
      exact .opt fun inner hmem => ih element List.mem_cons_self (hinner inner hmem)
    | nullable element =>
      obtain ⟨hinner, hpieces⟩ := haccepts.nullable
      rw [hpieces]
      exact .opt fun inner hmem => ih element List.mem_cons_self (hinner inner hmem)

end Schema

end WireFormat
