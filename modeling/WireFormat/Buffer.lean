import WireFormat.ReadError

/-!
# Buffers

A buffer is a storage region with a cursor and a valid mark. Pushes overwrite the storage at the cursor and reads consume
it from there, but only below the mark, which is the furthest offset that a push has reached. Storage beyond the mark is
kept, so a push after the mark makes what lies between valid again. Growth at least doubles the storage and fills with
zeros. In every reachable state cursor and mark lie within the storage. Messages call a buffer a sink.
-/
namespace WireFormat

structure Buffer where
  storage : List UInt8
  cursor : Nat
  filled : Nat
  order : ByteOrder
deriving DecidableEq, Repr

/-- A cursor position beyond the storage. -/
structure OutOfStorage where
  position : Nat
  capacity : Nat
deriving DecidableEq, Repr

def OutOfStorage.message (error : OutOfStorage) : String :=
  s!"cannot move cursor to {error.position} in sink of capacity {error.capacity}"

/-- What becomes of bytes that are left over after a top-level value. -/
inductive Leftover where
  | ignored
  | rejected
deriving DecidableEq, Repr

namespace Buffer

def empty (order : ByteOrder) (capacity : Nat) : Buffer :=
  ⟨List.replicate capacity 0, 0, 0, order⟩

/-- A buffer for reading the given bytes, positioned at their start. -/
def ofBytes (order : ByteOrder) (bs : List UInt8) : Buffer :=
  ⟨bs, 0, bs.length, order⟩

def capacity (b : Buffer) : Nat :=
  b.storage.length

/-- The number of valid bytes after the cursor. -/
def remaining (b : Buffer) : Nat :=
  b.filled - b.cursor

/-- The valid bytes. -/
def written (b : Buffer) : List UInt8 :=
  b.storage.take b.filled

/-- The valid bytes after the cursor. -/
def unread (b : Buffer) : List UInt8 :=
  b.written.drop b.cursor

def moveTo (b : Buffer) (position : Nat) : Except OutOfStorage Buffer :=
  if position ≤ b.capacity then .ok { b with cursor := position } else .error ⟨position, b.capacity⟩

def rewind (b : Buffer) : Buffer :=
  { b with cursor := 0 }

/-- Discards what was written and keeps the storage. -/
def reset (b : Buffer) : Buffer :=
  { b with cursor := 0, filled := 0 }

/-- Makes sure that `n` bytes of storage are free after the cursor. -/
def reserve (b : Buffer) (n : Nat) : Buffer :=
  if n ≤ b.capacity - b.cursor then b
  else
    let capacity := max (2 * b.capacity) (b.capacity + n)
    { b with storage := b.storage ++ List.replicate (capacity - b.capacity) 0 }

/-- Overwrites the storage at the cursor and moves past it. -/
def push (b : Buffer) (bs : List UInt8) : Buffer :=
  let b := b.reserve bs.length
  let past := b.cursor + bs.length
  { b with
    storage := b.storage.take b.cursor ++ bs ++ b.storage.drop past
    cursor := past
    filled := max b.filled past }

/-- Consumes the next `n` valid bytes; a failed take changes nothing. -/
def take (b : Buffer) (n : Nat) : Except ReadError (List UInt8) × Buffer :=
  if b.cursor + n ≤ b.filled then
    (.ok ((b.storage.drop b.cursor).take n), { b with cursor := b.cursor + n })
  else (.error (.unexpectedEnd b.cursor n b.remaining), b)

def finish (leftover : Leftover) (b : Buffer) : Except ReadError Unit :=
  match leftover with
  | .ignored => .ok ()
  | .rejected => if b.remaining = 0 then .ok () else .error (.trailing b.remaining)

/-- Cursor and mark lie within the storage. -/
structure InBounds (b : Buffer) : Prop where
  cursor_le : b.cursor ≤ b.capacity
  filled_le : b.filled ≤ b.capacity

theorem inBounds_empty (order : ByteOrder) (capacity : Nat) : (empty order capacity).InBounds :=
  ⟨Nat.zero_le _, Nat.zero_le _⟩

theorem inBounds_ofBytes (order : ByteOrder) (bs : List UInt8) : (ofBytes order bs).InBounds :=
  ⟨Nat.zero_le _, Nat.le_refl _⟩

theorem InBounds.reserve {b : Buffer} (h : b.InBounds) (n : Nat) :
    (b.reserve n).InBounds ∧ n ≤ (b.reserve n).capacity - (b.reserve n).cursor := by
  obtain ⟨hc, hf⟩ := h
  unfold Buffer.reserve
  split
  · exact ⟨⟨hc, hf⟩, ‹_›⟩
  · simp only [capacity] at *
    refine ⟨⟨?_, ?_⟩, ?_⟩ <;> simp only [capacity, List.length_append, List.length_replicate] <;> omega

end Buffer

end WireFormat
