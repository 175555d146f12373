import WireFormat.ByteOrder
import WireFormat.Floating.Binary
import WireFormat.Utf8

/-!
# Pieces of an encoding

An encoding is a list of pieces: marks of one byte, numeric scalars, whose bytes stand in the byte order of the place they
are written to, and runs of bytes, which stand as they are. A request for room has no bytes; it announces how many are
about to follow. Main statement: the size of an encoding does not depend on the byte order.
-/
namespace WireFormat

inductive Piece where
  /-- Announces that `n` more bytes follow. -/
  | room (n : Nat)
  /-- One byte, 1 for true and 0 for false. -/
  | mark (b : Bool)
  /-- A numeric scalar of the given width in bytes; higher digits of the value are dropped. -/
  | number (width value : Nat)
  | run (bs : List UInt8)
deriving DecidableEq, Repr

namespace Piece

def bytes (order : ByteOrder) : Piece → List UInt8
  | room _ => []
  | mark b => [if b then 1 else 0]
  | number width value => order.bytes width value
  | run bs => bs

def length : Piece → Nat
  | room _ => 0
  | mark _ => 1
  | number width _ => width
  | run bs => bs.length

@[simp] theorem length_bytes (order : ByteOrder) (piece : Piece) : (piece.bytes order).length = piece.length := by
  cases piece <;> simp [bytes, length]

def u8 (n : UInt8) : Piece := number 1 n.toNat

def u16 (n : UInt16) : Piece := number 2 n.toNat

def u32 (n : UInt32) : Piece := number 4 n.toNat

def i32 (n : Int32) : Piece := u32 n.toUInt32

def f32 (x : Floating.Binary32) : Piece := u32 x.bits

def f64 (x : Floating.Binary64) : Piece := number 8 x.bits.toNat

/-- A length or element count. The frame is eight bytes wide and holds the low 32 bits of the number. -/
def frame (n : Nat) : Piece := number 8 (n % 0x100000000)

/-- The index of an enumeration or union variant. -/
def index (n : Nat) : Piece := number 4 n

/-- A string is its length in bytes and its UTF-8 bytes, announced together. -/
def str (s : String) : List Piece :=
  let bs := Utf8.encode s
  [room (8 + bs.length), frame bs.length, run bs]

/-- A sequence is its element count and its elements. -/
def seq {α : Type} (element : α → List Piece) (items : List α) : List Piece :=
  frame items.length :: items.flatMap element

/-- An optional value is a mark, and the value if it is there. -/
def opt {α : Type} (element : α → List Piece) : Option α → List Piece
  | none => [mark false]
  | some a => mark true :: element a

end Piece

/-- The bytes of an encoding. -/
def bytesOf (order : ByteOrder) (pieces : List Piece) : List UInt8 :=
  pieces.flatMap (Piece.bytes order)

/-- The size of an encoding, which no byte order changes. -/
def lengthOf : List Piece → Nat
  | [] => 0
  | piece :: pieces => piece.length + lengthOf pieces

theorem length_bytesOf (order : ByteOrder) (pieces : List Piece) :
    (bytesOf order pieces).length = lengthOf pieces := by
  induction pieces with
  | nil => rfl
  | cons piece pieces ih => simp_all [bytesOf, lengthOf]

end WireFormat
