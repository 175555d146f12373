import Mathlib
import WireFormat.Layout.Codec
import WireFormat.Proofs.Reading

/-!
# Values come back from a layout

For every layout, the reader yields from the pieces of a value that value, as long as its strings and sequences are
short enough for their frames. Main statement: whatever a buffer holds and wherever its cursor stands, values written
there one after the other are read back in the same order, by exactly the bytes that writing has counted.
-/
namespace WireFormat
open Floating

/-- What is asked of a value: of the byte length of every string and the count of every sequence in it, and of every
single precision number. -/
structure Limits where
  length : Nat → Prop
  single : Binary32 → Prop

namespace Limits

/-- Lengths fit into 32 bits. -/
def short : Limits :=
  ⟨fun n => n < 2 ^ 32, fun _ => True⟩

/-- Lengths fit into 32 bits, and no single precision number is a NaN. -/
def plain : Limits :=
  ⟨fun n => n < 2 ^ 32, fun x => x.isNaN = false⟩

end Limits

variable {Self : Type}

mutual

/-- All parts of a value of the layout are within the limits. -/
def Layout.Within {α : Type} (limits : Limits) (self : Self → Prop) : Layout Self α → α → Prop
  | .str, s => limits.length (Utf8.encode s).length
  | .f32, x => limits.single x
  | .record _ fields, value => fields.Within limits self value
  | .tuple parts, value => parts.Within limits self value
  | .union _ variants _, value => variants.Within limits self value
  | .vector element, items => limits.length items.length ∧ ∀ a ∈ items, element.Within limits self a
  | .optional element, value => ∀ a ∈ value, element.Within limits self a
  | .nullable element, value => ∀ a ∈ value.toOption, element.Within limits self a
  | .retyped host base, value => base.Within limits self (host.view value)
  | .self, value => self value
  | .bool, _ | .u8, _ | .u16, _ | .u32, _ | .i32, _ | .f64, _ | .enumeration _, _ => True

def Parts.Within {α : Type} (limits : Limits) (self : Self → Prop) : Parts Self α → α → Prop
  | .pair first second, (a, b) => first.Within limits self a ∧ second.Within limits self b
  | .cons first rest, (a, b) => first.Within limits self a ∧ rest.Within limits self b

def Fields.Within {names : List String} {α : Type} (limits : Limits) (self : Self → Prop) :
    Fields Self names α → α → Prop
  | .nil, _ => True
  | .cons _ layout rest _, (a, b) => layout.Within limits self a ∧ rest.Within limits self b

def Variants.Within {tags : List String} {α : Type} (limits : Limits) (self : Self → Prop) :
    Variants Self tags α → α → Prop
  | .unit _ _ _, .inl _ => True
  | .unit _ rest _, .inr b => rest.Within limits self b
  | .payload _ layout _ _, .inl a => layout.Within limits self a
  | .payload _ _ rest _, .inr b => rest.Within limits self b

end

theorem Layout.within_none {α : Type} {limits : Limits} {ok : Self → Prop} {element : Layout Self α} :
    element.optional.Within limits ok none := by
  rintro _ ⟨⟩

theorem Layout.within_some {α : Type} {limits : Limits} {ok : Self → Prop} {element : Layout Self α} {a : α}
    (h : element.Within limits ok a) : element.optional.Within limits ok (some a) := by
  rintro _ ⟨⟩
  exact h

theorem Layout.within_null {α : Type} {limits : Limits} {ok : Self → Prop} {element : Layout Self α} :
    element.nullable.Within limits ok .null := by
  rintro _ ⟨⟩

theorem Layout.within_value {α : Type} {limits : Limits} {ok : Self → Prop} {element : Layout Self α} {a : α}
    (h : element.Within limits ok a) : element.nullable.Within limits ok (.value a) := by
  rintro _ ⟨⟩
  exact h

theorem Variants.indexOf_lt {tags : List String} {α : Type} (variants : Variants Self tags α) (value : α) :
    variants.indexOf value < tags.length := by
  cases variants with
  | nil => exact value.elim
  | unit tag rest fresh =>
    rcases value with _ | b
    · exact Nat.succ_pos _
    · exact Nat.succ_lt_succ (rest.indexOf_lt b)
  | payload tag layout rest fresh =>
    rcases value with a | b
    · exact Nat.succ_pos _
    · exact Nat.succ_lt_succ (rest.indexOf_lt b)

section

variable {limits : Limits} {ok : Self → Prop} {self : Codec Self}

mutual

/-- By induction on the layout; `self` is given with the same property. -/
theorem Layout.yields {α : Type} (hlimits : ∀ n, limits.length n → n < 2 ^ 32)
    (hself : ∀ inner, ok inner → self.read.Yields (self.pieces inner) inner) :
    (layout : Layout Self α) → (value : α) → layout.Within limits ok value →
      (layout.read self.read).Yields (layout.pieces self.pieces value) value
  | .bool, value, _ => Reader.yields_mark value
  | .str, _, h => Reader.yields_str (hlimits _ h)
  | .u8, value, _ => Reader.yields_u8 value
  | .u16, value, _ => Reader.yields_u16 value
  | .u32, value, _ => Reader.yields_u32 value
  | .i32, value, _ => Reader.yields_i32 value
  | .f32, value, _ => Reader.yields_f32 value
  | .f64, value, _ => Reader.yields_f64 value
  | .enumeration e, value, _ => by
    have hlt : value.val < 0x100000000 := Nat.lt_of_lt_of_le value.isLt e.bounded
    refine (Reader.yields_index hlt).bind ?_
    rw [UInt32.toNat_ofNat_of_lt' hlt, e.ofIndex?_val]
    exact Reader.yields_pure value
  | .record _ fields, value, h => fields.yields hlimits hself value h
  | .tuple parts, value, h => parts.yields hlimits hself value h
  | .union _ variants bounded, value, h => by
    have hlt : variants.indexOf value < 0x100000000 := Nat.lt_of_lt_of_le (variants.indexOf_lt value) bounded
    refine (Reader.yields_index hlt).bind ?_
    rw [UInt32.toNat_ofNat_of_lt' hlt]
    exact variants.yields hlimits hself _ value h
  | .vector element, items, h => by
    refine Reader.yields_seq (hlimits _ h.1) ?_
    intro a ha
    exact element.yields hlimits hself a (h.2 a ha)
  | .optional element, value, h => by
    refine Reader.yields_opt ?_
    intro a ha
    exact element.yields hlimits hself a (h a ha)
  | .nullable element, value, h => by
    have hopt : (Reader.opt (element.read self.read)).Yields _ value.toOption :=
      Reader.yields_opt fun a ha => element.yields hlimits hself a (h a ha)
    have hmap := hopt.map Nullable.ofOption
    rwa [Nullable.ofOption_toOption] at hmap
  | .retyped host base, value, h => by
    have hmap := (base.yields hlimits hself (host.view value) h).map host.make
    rwa [host.make_view] at hmap
  | .self, value, h => hself value h

theorem Parts.yields {α : Type} (hlimits : ∀ n, limits.length n → n < 2 ^ 32)
    (hself : ∀ inner, ok inner → self.read.Yields (self.pieces inner) inner) :
    (parts : Parts Self α) → (value : α) → parts.Within limits ok value →
      (parts.read self.read).Yields (parts.pieces self.pieces value) value
  | .pair first second, (a, b), h => by
    have hb := second.yields hlimits hself b h.2
    exact (first.yields hlimits hself a h.1).bind (hb.map (a, ·))
  | .cons first rest, (a, b), h => by
    have hb := rest.yields hlimits hself b h.2
    exact (first.yields hlimits hself a h.1).bind (hb.map (a, ·))

theorem Fields.yields {names : List String} {α : Type} (hlimits : ∀ n, limits.length n → n < 2 ^ 32)
    (hself : ∀ inner, ok inner → self.read.Yields (self.pieces inner) inner) :
    (fields : Fields Self names α) → (value : α) → fields.Within limits ok value →
      (fields.read self.read).Yields (fields.pieces self.pieces value) value
  | .nil, _, _ => Reader.yields_pure ()
  | .cons _ layout rest _, (a, b), h => by
    have hb := rest.yields hlimits hself b h.2
    exact (layout.yields hlimits hself a h.1).bind (hb.map (a, ·))

theorem Variants.yields {tags : List String} {α : Type} (hlimits : ∀ n, limits.length n → n < 2 ^ 32)
    (hself : ∀ inner, ok inner → self.read.Yields (self.pieces inner) inner) (beyond : ReadError) :
    (variants : Variants Self tags α) → (value : α) → variants.Within limits ok value →
      (variants.read self.read beyond (variants.indexOf value)).Yields (variants.payloadPieces self.pieces value) value
  | .unit _ _ _, .inl _, _ => Reader.yields_pure (Sum.inl ())
  | .unit _ rest _, .inr b, h => (rest.yields hlimits hself beyond b h).map Sum.inr
  | .payload _ layout _ _, .inl a, h => (layout.yields hlimits hself a h).map Sum.inl
  | .payload _ _ rest _, .inr b, h => (rest.yields hlimits hself beyond b h).map Sum.inr

end

end

theorem Codec.encodedLength_eq {α : Type} (codec : Codec α) (value : α) :
    codec.encodedLength value = lengthOf (codec.pieces value) :=
  emit_discard _ _

theorem Codec.encode_eq {α : Type} (codec : Codec α) (value : α) :
    codec.encode value = bytesOf .little (codec.pieces value) :=
  Buffer.written_emit_empty _ _ _

/-- Every string and every sequence in the value fits its frame. -/
def Layout.Short {α : Type} (layout : Layout Unit α) (value : α) : Prop :=
  layout.Within .short (fun _ => True) value

theorem Layout.codec_yields {α : Type} {limits : Limits} (hlimits : ∀ n, limits.length n → n < 2 ^ 32)
    (layout : Layout Unit α) (value : α) (h : layout.Within limits (fun _ => True) value) :
    layout.codec.read.Yields (layout.codec.pieces value) value :=
  layout.yields hlimits (fun inner _ => Reader.yields_pure inner) value h

/-- A value together with the layout that it is laid out by. -/
structure Packet where
  {Host : Type}
  layout : Layout Unit Host
  value : Host

namespace Packet

def pieces (packet : Packet) : List Piece :=
  packet.layout.codec.pieces packet.value

def encodedLength (packet : Packet) : Nat :=
  packet.layout.codec.encodedLength packet.value

def Short (packet : Packet) : Prop :=
  packet.layout.Short packet.value

/-- Writes packets one after the other and adds up the counts. -/
def writeAll {τ : Type} [Output τ] : τ → List Packet → τ × Nat
  | out, [] => (out, 0)
  | out, packet :: rest =>
    let (out, count) := packet.layout.codec.writeTo out packet.value
    let (out, more) := writeAll out rest
    (out, count + more)

/-- The layouts of the packets read their values one after the other, and `after` is what the last one leaves. -/
def ReadBack : List Packet → (b after : Buffer) → Prop
  | [], b, after => b = after
  | packet :: rest, b, after =>
    ∃ between, packet.layout.codec.read b = (.ok packet.value, between) ∧ ReadBack rest between after

theorem wrote_writeAll {b : Buffer} (h : b.cursor ≤ b.capacity) (packets : List Packet) :
    b.Wrote (bytesOf b.order (packets.flatMap pieces)) (writeAll b packets).1 ∧
      (writeAll b packets).2 = (packets.map encodedLength).sum := by
  induction packets generalizing b with
  | nil => exact ⟨Buffer.Wrote.refl h, rfl⟩
  | cons packet rest ih =>
    obtain ⟨hfirst, hcount⟩ := Buffer.wrote_emit h packet.pieces
    obtain ⟨hrest, hmore⟩ := ih hfirst.cursor_le
    rw [hfirst.order_eq] at hrest
    have hlength : packet.encodedLength = lengthOf packet.pieces := Codec.encodedLength_eq _ _
    refine ⟨?_, ?_⟩
    · rw [List.flatMap_cons, bytesOf_append]
      exact hfirst.trans hrest
    · rw [List.map_cons, List.sum_cons, hlength, ← hcount, ← hmore]
      rfl

theorem lengthOf_flatMap_pieces (packets : List Packet) :
    lengthOf (packets.flatMap pieces) = (packets.map encodedLength).sum := by
  induction packets with
  | nil => rfl
  | cons packet rest ih =>
    have hlength : packet.encodedLength = lengthOf packet.pieces := Codec.encodedLength_eq _ _
    rw [List.flatMap_cons, lengthOf_append, ih, List.map_cons, List.sum_cons, hlength]

theorem readBack_of_prefix {packets : List Packet} {b : Buffer} (hshort : ∀ packet ∈ packets, packet.Short)
    (h : bytesOf b.order (packets.flatMap pieces) <+: b.unread) :
    ReadBack packets b (b.skip (lengthOf (packets.flatMap pieces))) := by
  induction packets generalizing b with
  | nil => rfl
  | cons packet rest ih =>
    have hvalue := packet.layout.codec_yields (fun _ hn => hn) packet.value (hshort packet List.mem_cons_self)
    rw [List.flatMap_cons] at h
    have hfirst := hvalue b (Buffer.prefix_left h)
    have hrest : ReadBack rest (b.skip (lengthOf packet.pieces)) _ :=
      ih (fun other hother => hshort other (List.mem_cons_of_mem _ hother)) (Buffer.prefix_right h)
    refine ⟨_, hfirst, ?_⟩
    rw [List.flatMap_cons, lengthOf_append, ← Buffer.skip_skip]
    exact hrest

end Packet

/-- Writing values in front of, over and beyond whatever a buffer holds, and reading them back from where the cursor
was, is the identity, and the count that writing returns is the number of bytes that reading consumes. -/
theorem Layout.round_trip (b : Buffer) (inside : b.cursor ≤ b.capacity) :
    (∀ {α : Type} (layout : Layout Unit α) (value : α), layout.Short value →
      ∃ after n back, layout.codec.writeTo b value = (after, n) ∧ n = layout.codec.encodedLength value ∧
        after.moveTo b.cursor = .ok back ∧
          layout.codec.read back = (.ok value, { back with cursor := b.cursor + n })) ∧
    (∀ packets : List Packet, (∀ packet ∈ packets, packet.Short) →
      ∃ after n back, Packet.writeAll b packets = (after, n) ∧ n = (packets.map Packet.encodedLength).sum ∧
        after.moveTo b.cursor = .ok back ∧ Packet.ReadBack packets back { back with cursor := b.cursor + n }) ∧
    (∀ {α : Type} (layout : Layout Unit α) (value : α) (leftover : Leftover), layout.Short value →
      layout.codec.decode leftover (layout.codec.encode value) = .ok value) := by
  refine ⟨?_, ?_, ?_⟩
  · intro α layout value hshort
    obtain ⟨hwrote, hcount⟩ := Buffer.wrote_emit inside (layout.codec.pieces value)
    obtain ⟨back, hmove, hcursor, hnext⟩ := hwrote.moved_back inside
    have hread := layout.codec_yields (fun _ hn => hn) value hshort back hnext
    refine ⟨_, _, back, rfl, ?_, hmove, ?_⟩
    · rw [Codec.encodedLength_eq]
      exact hcount
    · rw [hread, ← hcount, ← hcursor]
      rfl
  · intro packets hshort
    obtain ⟨hwrote, hcount⟩ := Packet.wrote_writeAll inside packets
    obtain ⟨back, hmove, hcursor, hnext⟩ := hwrote.moved_back inside
    have hread := Packet.readBack_of_prefix hshort hnext
    refine ⟨_, _, back, rfl, hcount, hmove, ?_⟩
    rw [hcount, ← Packet.lengthOf_flatMap_pieces, ← hcursor]
    exact hread
  · intro α layout value leftover hshort
    rw [Codec.encode_eq]
    exact (layout.codec_yields (fun _ hn => hn) value hshort).decode leftover

/-- A text and two numbers, and then an optional, written over the last byte of a buffer and beyond it. -/
theorem Layout.round_trip_at_last_byte :
    let b : Buffer := ⟨[1, 2, 3], 2, 3, .big⟩
    let layout : Layout Unit (String × List UInt16) := .tuple (.pair .str (.vector .u16))
    let packets : List Packet := [⟨layout, ("é", [1, 513])⟩, ⟨.optional .bool, some true⟩]
    b.cursor ≤ b.capacity ∧ (∀ packet ∈ packets, packet.Short) ∧
      (∃ after back, layout.codec.writeTo b ("é", [1, 513]) = (after, 22) ∧ after.moveTo 2 = .ok back ∧
        layout.codec.read back = (.ok ("é", [1, 513]), { back with cursor := 24 })) ∧
      (∃ after back, Packet.writeAll b packets = (after, 24) ∧ after.moveTo 2 = .ok back ∧
        Packet.ReadBack packets back { back with cursor := 26 }) ∧
      layout.codec.decode .rejected (layout.codec.encode ("é", [1, 513])) = .ok ("é", [1, 513]) := by
  intro b layout packets
  have inside : b.cursor ≤ b.capacity := by decide
  have hshort : layout.Short ("é", [1, 513]) := by
    refine ⟨?_, ?_, fun _ _ => trivial⟩
    · show (Utf8.encode "é").length < 2 ^ 32
      decide
    · show 2 < 2 ^ 32
      decide
  have hpackets : ∀ packet ∈ packets, packet.Short := by
    intro packet hpacket
    rcases List.mem_pair.1 hpacket with rfl | rfl
    · exact hshort
    · exact fun _ _ => trivial
  obtain ⟨hone, hall, hdecode⟩ := Layout.round_trip b inside
  refine ⟨inside, hpackets, ?_, ?_, hdecode layout _ .rejected hshort⟩
  · obtain ⟨after, n, back, hwrite, hn, hmove, hread⟩ := hone layout ("é", [1, 513]) hshort
    obtain rfl : n = 22 := hn.trans (by decide)
    exact ⟨after, back, hwrite, hmove, hread⟩
  · obtain ⟨after, n, back, hwrite, hn, hmove, hread⟩ := hall packets hpackets
    obtain rfl : n = 24 := hn.trans (by decide)
    exact ⟨after, back, hwrite, hmove, hread⟩

end WireFormat
