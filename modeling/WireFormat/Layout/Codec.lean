import WireFormat.Layout.Basic
import WireFormat.Output
import WireFormat.Reader

/-!
# Reading and writing by a layout

A layout cannot fail to write. Reading and writing take the reader and the writer of `self` as arguments. A layout that
does not refer back has `Unit` there, which takes no bytes.
-/
namespace WireFormat

/-- A reader and a writer for one type. -/
structure Codec (α : Type) where
  read : Reader α
  pieces : α → List Piece

namespace Codec

variable {α : Type}

def unit : Codec Unit :=
  ⟨return (), fun _ => []⟩

def writeTo {τ : Type} [Output τ] (codec : Codec α) (out : τ) (value : α) : τ × Nat :=
  emit out (codec.pieces value)

/-- The exact size of the encoding of a value. -/
def encodedLength (codec : Codec α) (value : α) : Nat :=
  (codec.writeTo (Discard.mk) value).2

/-- Encodes a value into a buffer of exactly its size. -/
def encode (codec : Codec α) (value : α) : List UInt8 :=
  (codec.writeTo (Buffer.empty .little (codec.encodedLength value)) value).1.written

def decode (codec : Codec α) (leftover : Leftover) (bs : List UInt8) : Except ReadError α :=
  codec.read.decode leftover bs

end Codec

variable {Self : Type}

mutual

def Layout.read {α : Type} (self : Reader Self) : Layout Self α → Reader α
  | .bool => Reader.mark
  | .str => Reader.str
  | .u8 => Reader.u8
  | .u16 => Reader.u16
  | .u32 => Reader.u32
  | .i32 => Reader.i32
  | .f32 => Reader.f32
  | .f64 => Reader.f64
  | .enumeration e => do
    let index ← Reader.u32
    match e.ofIndex? index.toNat with
    | some variant => return variant
    | none => Reader.fail (.badDiscriminant e.name index.toNat e.names.length)
  | .record _ fields => fields.read self
  | .tuple parts => parts.read self
  | .union name variants _ => do
    let index ← Reader.u32
    variants.read self (.badDiscriminant name index.toNat variants.tags.length) index.toNat
  | .vector element => Reader.seq (element.read self)
  | .optional element => Reader.opt (element.read self)
  | .nullable element => do
    let value ← Reader.opt (element.read self)
    return Nullable.ofOption value
  | .retyped host base => do
    let value ← base.read self
    return host.make value
  | .self => self

def Parts.read {α : Type} (self : Reader Self) : Parts Self α → Reader α
  | .pair first second => do
    let a ← first.read self
    let b ← second.read self
    return (a, b)
  | .cons first rest => do
    let a ← first.read self
    let b ← rest.read self
    return (a, b)

def Fields.read {names : List String} {α : Type} (self : Reader Self) : Fields Self names α → Reader α
  | .nil => return ()
  | .cons _ layout rest _ => do
    let a ← layout.read self
    let b ← rest.read self
    return (a, b)

/-- Reads the payload of the variant that stands `skip` places on; beyond the last one the given error arises. -/
def Variants.read {tags : List String} {α : Type} (self : Reader Self) (beyond : ReadError) :
    Variants Self tags α → (skip : Nat) → Reader α
  | .nil, _ => Reader.fail beyond
  | .unit _ _ _, 0 => return .inl ()
  | .unit _ rest _, skip + 1 => do
    let b ← rest.read self beyond skip
    return .inr b
  | .payload _ layout _ _, 0 => do
    let a ← layout.read self
    return .inl a
  | .payload _ _ rest _, skip + 1 => do
    let b ← rest.read self beyond skip
    return .inr b

end

mutual

def Layout.pieces {α : Type} (self : Self → List Piece) : Layout Self α → α → List Piece
  | .bool, b => [.mark b]
  | .str, s => Piece.str s
  | .u8, n => [.u8 n]
  | .u16, n => [.u16 n]
  | .u32, n => [.u32 n]
  | .i32, n => [.i32 n]
  | .f32, x => [.f32 x]
  | .f64, x => [.f64 x]
  | .enumeration _, variant => [.index variant.val]
  | .record _ fields, value => fields.pieces self value
  | .tuple parts, value => parts.pieces self value
  | .union _ variants _, value => .index (variants.indexOf value) :: variants.payloadPieces self value
  | .vector element, items => Piece.seq (element.pieces self) items
  | .optional element, value => Piece.opt (element.pieces self) value
  | .nullable element, value => Piece.opt (element.pieces self) value.toOption
  | .retyped host base, value => base.pieces self (host.view value)
  | .self, value => self value

def Parts.pieces {α : Type} (self : Self → List Piece) : Parts Self α → α → List Piece
  | .pair first second, (a, b) => first.pieces self a ++ second.pieces self b
  | .cons first rest, (a, b) => first.pieces self a ++ rest.pieces self b

def Fields.pieces {names : List String} {α : Type} (self : Self → List Piece) : Fields Self names α → α → List Piece
  | .nil, _ => []
  | .cons _ layout rest _, (a, b) => layout.pieces self a ++ rest.pieces self b

def Variants.payloadPieces {tags : List String} {α : Type} (self : Self → List Piece) : Variants Self tags α → α → List Piece
  | .unit _ _ _, .inl _ => []
  | .unit _ rest _, .inr b => rest.payloadPieces self b
  | .payload _ layout _ _, .inl a => layout.pieces self a
  | .payload _ _ rest _, .inr b => rest.payloadPieces self b

end

def Layout.codecWith {α : Type} (self : Codec Self) (layout : Layout Self α) : Codec α :=
  ⟨layout.read self.read, layout.pieces self.pieces⟩

/-- The codec of a layout that does not refer back. -/
def Layout.codec {α : Type} (layout : Layout Unit α) : Codec α :=
  layout.codecWith Codec.unit

end WireFormat
