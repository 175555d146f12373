/-!
# Floating formats

A binary floating format is fixed by the widths of its fraction and exponent fields. A *magnitude* is a pattern without
its sign bit: the patterns below `infinity` denote `significand * 2 ^ exponent` and are ordered as the numbers are, and
those above it are the NaNs. `round` gives the magnitude nearest to a number `m * 2 ^ e`, ties to the even pattern, with
overflow to infinity and gradual underflow.
-/
namespace WireFormat.Floating

structure Format where
  fractionBits : Nat
  exponentBits : Nat
deriving DecidableEq, Repr

/-- The quotient nearest to `n / d`, of two equally near ones the even one. -/
def nearestEven (n d : Nat) : Nat :=
  let q := n / d
  let r := n % d
  if 2 * r < d then q
  else if d < 2 * r then q + 1
  else q + q % 2

namespace Format

def single : Format := ⟨23, 8⟩

def double : Format := ⟨52, 11⟩

/-- The weight of the leading one of a normal number, and the number of subnormal magnitudes. -/
def leading (f : Format) : Nat :=
  1 <<< f.fractionBits

/-- The exponent of the least positive number of the format. -/
def leastExponent (f : Format) : Int :=
  2 - ((1 <<< (f.exponentBits - 1) : Nat) : Int) - f.fractionBits

def infinity (f : Format) : Nat :=
  ((1 <<< f.exponentBits) - 1) <<< f.fractionBits

/-- The leading one is not stored, and subnormal magnitudes have none. -/
def significand (f : Format) (magnitude : Nat) : Nat :=
  let fraction := magnitude % f.leading
  if magnitude < f.leading then fraction else f.leading + fraction

/-- Subnormal magnitudes share the exponent of the least normal ones. -/
def exponent (f : Format) (magnitude : Nat) : Int :=
  f.leastExponent + (((magnitude >>> f.fractionBits) - 1 : Nat) : Int)

/-- The spacing of the format's numbers around `m * 2 ^ e`, as an exponent of two. -/
def spacing (f : Format) (m : Nat) (e : Int) : Int :=
  max (m.log2 + e - f.fractionBits) f.leastExponent

def round (f : Format) (m : Nat) (e : Int) : Nat :=
  if m = 0 then 0
  else
    let unit := f.spacing m e
    let units := if e ≤ unit then nearestEven m (1 <<< (unit - e).toNat) else m <<< (e - unit).toNat
    min (((unit - f.leastExponent).toNat <<< f.fractionBits) + units) f.infinity

/-- A NaN keeps the high bits of its payload and becomes quiet; infinity stays infinity; numbers are rounded. -/
def convert (source target : Format) (magnitude : Nat) : Nat :=
  if source.infinity < magnitude then
    let payload := (magnitude % source.leading) <<< target.fractionBits >>> source.fractionBits
    target.infinity + (payload ||| (target.leading / 2))
  else if magnitude = source.infinity then target.infinity
  else target.round (source.significand magnitude) (source.exponent magnitude)

end Format

example : Format.single.infinity = 0x7F800000 := rfl
example : Format.double.infinity = 0x7FF0000000000000 := rfl
example : Format.double.leastExponent = -1074 := rfl

end WireFormat.Floating
