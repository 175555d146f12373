import WireFormat.Buffer
import WireFormat.Floating.Binary

/-!
# Readers

A reader consumes bytes from a buffer at its cursor and yields a value or an error. Everything it consumes goes through
`Buffer.take`, so a reader moves the cursor and touches nothing else. A failed reader leaves the cursor where it stopped.
-/
namespace WireFormat
open Floating

def Reader (α : Type) : Type :=
  Buffer → Except ReadError α × Buffer

namespace Reader

instance : Monad Reader where
  pure a := fun b => (.ok a, b)
  bind reader next := fun b =>
    match reader b with
    | (.ok a, b) => next a b
    | (.error e, b) => (.error e, b)

def fail {α : Type} (e : ReadError) : Reader α :=
  fun b => (.error e, b)

def take (n : Nat) : Reader (List UInt8) :=
  fun b => b.take n

/-- A numeric scalar of the given width, in the byte order of the buffer. -/
def number (width : Nat) : Reader Nat := fun b =>
  match b.take width with
  | (.ok bs, rest) => (.ok (b.order.number bs), rest)
  | (.error e, rest) => (.error e, rest)

def u8 : Reader UInt8 := do
  let n ← number 1
  return .ofNat n

def u16 : Reader UInt16 := do
  let n ← number 2
  return .ofNat n

def u32 : Reader UInt32 := do
  let n ← number 4
  return .ofNat n

def i32 : Reader Int32 := do
  let n ← u32
  return n.toInt32

def f32 : Reader Binary32 := do
  let n ← u32
  return ⟨n⟩

def f64 : Reader Binary64 := do
  let n ← number 8
  return ⟨.ofNat n⟩

/-- The byte 1 is true and every other byte is false. -/
def mark : Reader Bool := do
  let n ← u8
  return n == 1

/-- A length or element count, which must fit in 32 bits. -/
def frame : Reader Nat := do
  let n ← number 8
  if n < 0x100000000 then return n else fail (.wideLength n)

/-- The bytes of a string are consumed whether or not they are UTF-8. -/
def str : Reader String := do
  let length ← frame
  let bs ← take length
  match Utf8.decode bs with
  | .ok s => return s
  | .error fault => fail (.invalidUtf8 fault)

/-- Exactly `n` values, one after the other. -/
def times {α : Type} (element : Reader α) : (n : Nat) → Reader (List α)
  | 0 => return []
  | n + 1 => do
    let a ← element
    let rest ← times element n
    return a :: rest

def seq {α : Type} (element : Reader α) : Reader (List α) := do
  let count ← frame
  times element count

/-- A true mark announces a value. -/
def opt {α : Type} (element : Reader α) : Reader (Option α) := do
  let present ← mark
  if present then
    let a ← element
    return some a
  else return none

/-- Reads one value from the start of little-endian bytes. -/
def decode {α : Type} (reader : Reader α) (leftover : Leftover) (bs : List UInt8) : Except ReadError α :=
  match reader (.ofBytes .little bs) with
  | (.ok a, b) => (b.finish leftover).map fun () => a
  | (.error e, _) => .error e

end Reader

end WireFormat
