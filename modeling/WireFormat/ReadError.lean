import WireFormat.ByteOrder
import WireFormat.Hex
import WireFormat.Utf8

/-!
# Why a read fails

Each error is fatal for the read that meets it.
-/
namespace WireFormat

inductive ReadError where
  /-- An enumeration or union index at or beyond the `count` declared variants. -/
  | badDiscriminant (typeName : String) (index count : Nat)
  /-- More bytes were asked for at `offset` than the `available` valid ones. -/
  | unexpectedEnd (offset requested available : Nat)
  /-- A length frame above 32 bits. -/
  | wideLength (value : Nat)
  | invalidUtf8 (fault : Utf8.Fault)
  /-- Bytes left over after a complete value. -/
  | trailing (residual : Nat)
deriving DecidableEq, Repr

def ReadError.message : ReadError → String
  | badDiscriminant typeName index count =>
    s!"invalid discriminant {index} for `{typeName}` ({count} variants declared)"
  | unexpectedEnd offset requested available =>
    let remains := if available = 0 then "sink has been fully consumed" else s!"only {available} bytes remaining"
    s!"cannot read {requested} bytes at offset {offset}: {remains}"
  | wideLength value =>
    let digits := Hex.ofBytes (ByteOrder.big.bytes 8 value)
    s!"length frame 0x{digits} exceeds 32 bits"
  | invalidUtf8 fault =>
    let reason := fault.message
    s!"string payload is not valid UTF-8: {reason}"
  | trailing residual => s!"{residual} bytes left over after decoding value"

end WireFormat
