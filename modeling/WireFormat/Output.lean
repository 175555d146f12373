import WireFormat.Buffer
import WireFormat.Piece

/-!
# Places to write to

Encodings are written to a buffer at its cursor, to the end of a growing byte string, or to an output that discards them.
The last two are little-endian and ignore requests for room. Every push reports how many bytes it took. Main statement:
what the discarding output reports is the size of the encoding.
-/
namespace WireFormat

class Output (τ : Type) where
  order : τ → ByteOrder
  /-- Makes sure that `n` more bytes can be pushed without growing. -/
  makeRoom : τ → Nat → τ
  push : τ → List UInt8 → τ × Nat

/-- A byte string that grows at its end. -/
structure ByteString where
  bytes : List UInt8
deriving DecidableEq, Repr

/-- Takes bytes and keeps none, for the sake of the reported counts. -/
structure Discard where
deriving DecidableEq, Repr

instance : Output Buffer where
  order := Buffer.order
  makeRoom := Buffer.reserve
  push b bs := (b.push bs, bs.length)

instance : Output ByteString where
  order _ := .little
  makeRoom out _ := out
  push out bs := (⟨out.bytes ++ bs⟩, bs.length)

instance : Output Discard where
  order _ := .little
  makeRoom out _ := out
  push out bs := (out, bs.length)

/-- Writes pieces one after the other and adds up the counts. -/
def emit {τ : Type} [Output τ] : τ → List Piece → τ × Nat
  | out, [] => (out, 0)
  | out, .room n :: rest => emit (Output.makeRoom out n) rest
  | out, piece :: rest =>
    let (out, count) := Output.push out (piece.bytes (Output.order out))
    let (out, more) := emit out rest
    (out, count + more)

theorem emit_discard (out : Discard) (pieces : List Piece) : (emit out pieces).2 = lengthOf pieces := by
  induction pieces with
  | nil => rfl
  | cons piece pieces ih =>
    cases piece <;> simp_all [emit, lengthOf, Output.push, Output.makeRoom, Piece.length, Piece.bytes]

end WireFormat
