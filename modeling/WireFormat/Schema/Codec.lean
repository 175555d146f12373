import WireFormat.Output
import WireFormat.Schema.Read
import WireFormat.Schema.Write

/-!
# Encoding and decoding by a schema
-/
namespace WireFormat.Schema

/-- Writes a value to an output. What was written before an error stays written. -/
def writeTo {τ : Type} [Output τ] (schema : Schema) (out : τ) (value : Value) : τ × Except WriteError Nat :=
  let attempt := schema.write value
  let (out, count) := emit out attempt.pieces
  match attempt.error? with
  | none => (out, .ok count)
  | some error => (out, .error error)

/-- The exact size of the encoding of a value. -/
def encodedLength (schema : Schema) (value : Value) : Except WriteError Nat :=
  (schema.writeTo (Discard.mk) value).2

/-- Encodes a value into a buffer of exactly its size. Nothing is allocated unless the value fits the schema. -/
def encode (schema : Schema) (value : Value) : Except WriteError (List UInt8) := do
  let length ← schema.encodedLength value
  let (buffer, result) := schema.writeTo (Buffer.empty .little length) value
  let _ ← result
  return buffer.written

def decode (schema : Schema) (leftover : Leftover) (bs : List UInt8) : Except ReadError Value :=
  schema.read.decode leftover bs

end WireFormat.Schema
