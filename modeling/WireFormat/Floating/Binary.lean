import WireFormat.Floating.Format

/-!
# Single and double precision numbers

Numbers are kept as their bit patterns, so that every NaN is itself. Comparison as numbers, the conversions between the
two precisions, and those from and to integers are spelled out on the patterns.
-/
namespace WireFormat.Floating

structure Binary32 where
  bits : UInt32
deriving DecidableEq, Repr

structure Binary64 where
  bits : UInt64
deriving DecidableEq, Repr

def Binary64.ofParts (negative : Bool) (magnitude : Nat) : Binary64 :=
  ⟨UInt64.ofNat ((if negative then 0x8000000000000000 else 0) + magnitude)⟩

namespace Binary32

def negative (x : Binary32) : Bool :=
  0x80000000 ≤ x.bits.toNat

def magnitude (x : Binary32) : Nat :=
  x.bits.toNat % 0x80000000

def ofParts (negative : Bool) (magnitude : Nat) : Binary32 :=
  ⟨UInt32.ofNat ((if negative then 0x80000000 else 0) + magnitude)⟩

def isNaN (x : Binary32) : Bool :=
  Format.single.infinity < x.magnitude

def widen (x : Binary32) : Binary64 :=
  .ofParts x.negative (Format.convert .single .double x.magnitude)

end Binary32

namespace Binary64

def negative (x : Binary64) : Bool :=
  0x8000000000000000 ≤ x.bits.toNat

def magnitude (x : Binary64) : Nat :=
  x.bits.toNat % 0x8000000000000000

def isNaN (x : Binary64) : Bool :=
  Format.double.infinity < x.magnitude

def isFinite (x : Binary64) : Bool :=
  x.magnitude < Format.double.infinity

/-- Equality as numbers: a NaN differs from everything, and the two zeros are equal. -/
def sameNumber (x y : Binary64) : Bool :=
  !x.isNaN && !y.isNaN && (x.bits == y.bits || (x.magnitude == 0 && y.magnitude == 0))

def narrow (x : Binary64) : Binary32 :=
  .ofParts x.negative (Format.convert .double .single x.magnitude)

def ofInt (i : Int) : Binary64 :=
  .ofParts (i < 0) (Format.double.round i.natAbs 0)

/-- The integer part, toward zero. Infinity counts as the number that its pattern would denote, which is beyond every
fixed-width integer; a NaN counts as zero. -/
def truncate (x : Binary64) : Int :=
  if x.isNaN then 0
  else
    let m := Format.double.significand x.magnitude
    let e := Format.double.exponent x.magnitude
    let whole : Nat := if 0 ≤ e then m <<< e.toNat else m >>> (-e).toNat
    if x.negative then -whole else whole

/-- Truncates toward zero and clamps to the range. -/
def toInt64 (x : Binary64) : Int64 :=
  Int64.ofInt (max (-0x8000000000000000) (min 0x7FFFFFFFFFFFFFFF x.truncate))

end Binary64

example : Binary64.ofInt 9007199254740993 = ⟨0x4340000000000000⟩ := by decide +kernel
example : Binary64.narrow ⟨0x47EFFFFFF0000000⟩ = ⟨0x7F800000⟩ := by decide +kernel
example : Binary64.narrow ⟨0x36A0000000000001⟩ = ⟨0x00000001⟩ := by decide +kernel
example : Binary32.widen ⟨0x00000001⟩ = ⟨0x36A0000000000000⟩ := by decide +kernel
example : Binary64.toInt64 ⟨0xFFF0000000000000⟩ = Int64.minValue := by decide +kernel
example : Binary64.toInt64 ⟨0xC004000000000000⟩ = -2 := by decide +kernel

end WireFormat.Floating
