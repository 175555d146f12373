import Mathlib
import WireFormat.Proofs.Conversions

/-!
# Numbers in integer leaves

A number that is written to an integer leaf loses its fraction, is clamped to 64 bits and keeps the low bits of what is
left, as the integer would that it becomes. Main statement: for every pattern and every integer leaf, the bytes are
those of that integer in two's complement, and a number that is an integer already is written as that integer.
-/
namespace WireFormat.Floating

/-- The integer part of a number, toward zero. -/
def wholePart (y : ℚ) : Int :=
  if y < 0 then ⌈y⌉ else ⌊y⌋

theorem wholePart_of_nonneg {y : ℚ} (h : 0 ≤ y) : wholePart y = ⌊y⌋ :=
  if_neg (not_lt.2 h)

theorem wholePart_neg (y : ℚ) : wholePart (-y) = -wholePart y := by
  rcases lt_trichotomy y 0 with h | rfl | h
  · rw [wholePart_of_nonneg (neg_nonneg.2 h.le), wholePart, if_pos h, Int.floor_neg]
  · simp [wholePart]
  · rw [wholePart_of_nonneg h.le, wholePart, if_pos (neg_neg_of_pos h), Int.ceil_neg]

theorem wholePart_intCast (i : Int) : wholePart i = i := by
  simp [wholePart]

namespace Binary64

/-- The integer between `-2 ^ 63` and `2 ^ 63 - 1` that a number becomes. A NaN becomes zero, and an infinity the
bound on its side. -/
def saturated (x : Binary64) : Int :=
  if x.isNaN then 0
  else if x.isFinite then max (-2 ^ 63) (min (2 ^ 63 - 1) (wholePart x.number))
  else if x.negative then -2 ^ 63
  else 2 ^ 63 - 1

/-- Shifting the significand by the exponent leaves the integer part. -/
theorem floor_number (f : Format) (magnitude : Nat) :
    ⌊f.number magnitude⌋ =
      (if 0 ≤ f.exponent magnitude then f.significand magnitude <<< (f.exponent magnitude).toNat
        else f.significand magnitude >>> (-f.exponent magnitude).toNat : Nat) := by
  rw [Format.number_eq]
  generalize f.significand magnitude = m
  generalize f.exponent magnitude = e
  split_ifs with h
  · obtain ⟨k, rfl⟩ := Int.eq_ofNat_of_zero_le h
    rw [Int.toNat_natCast, Nat.shiftLeft_eq, zpow_natCast]
    exact_mod_cast Int.floor_natCast (m * 2 ^ k)
  · obtain ⟨k, hk⟩ := Int.eq_ofNat_of_zero_le (show 0 ≤ -e by omega)
    obtain rfl : e = -k := by omega
    rw [hk, Int.toNat_natCast, Nat.shiftRight_eq_div_pow, zpow_neg, zpow_natCast, ← div_eq_mul_inv]
    exact_mod_cast Rat.floor_natCast_div_natCast m (2 ^ k)

theorem truncate_eq {x : Binary64} (h : x.isNaN = false) : x.truncate = wholePart x.number := by
  have hfloor := floor_number .double x.magnitude
  have hnonneg := Format.double.number_nonneg x.magnitude
  rw [truncate, if_neg (by simp [h]), number, Format.signed]
  split_ifs with hnegative
  · rw [wholePart_neg, wholePart_of_nonneg hnonneg, hfloor]
  · rw [wholePart_of_nonneg hnonneg, hfloor]

theorem truncate_of_infinite {x : Binary64} (hnan : x.isNaN = false) (hinf : x.isFinite = false) :
    if x.negative then x.truncate ≤ -2 ^ 63 else 2 ^ 63 ≤ x.truncate := by
  have hmagnitude : x.magnitude = Format.double.infinity :=
    le_antisymm (magnitude_le_infinity hnan) (not_lt.1 (of_decide_eq_false hinf))
  have hbeyond : 2 ^ 63 ≤ wholePart (Format.double.number Format.double.infinity) := by
    rw [wholePart_of_nonneg (Format.number_nonneg _ _), Format.number_infinity _ (by decide), Int.le_floor,
      Int.cast_pow, ← zpow_natCast]
    exact zpow_le_zpow_right₀ one_le_two (by decide)
  rw [truncate_eq hnan, number, hmagnitude, Format.signed]
  split_ifs
  · rw [wholePart_neg]
    exact neg_le_neg hbeyond
  · exact hbeyond

theorem toInt_toInt64 (x : Binary64) : x.toInt64.toInt = x.saturated := by
  have hclamped : x.toInt64.toInt = max (-2 ^ 63) (min (2 ^ 63 - 1) x.truncate) := by
    rw [toInt64, Int64.toInt_ofInt_of_le]
    · rfl
    · exact le_max_left _ _
    · omega
  rw [hclamped, saturated]
  split_ifs with hnan hfinite hnegative
  · rw [truncate, if_pos hnan]
    rfl
  · rw [truncate_eq (by simpa using hnan)]
  · have hbeyond := truncate_of_infinite (by simpa using hnan) (by simpa using hfinite)
    rw [if_pos hnegative] at hbeyond
    omega
  · have hbeyond := truncate_of_infinite (by simpa using hnan) (by simpa using hfinite)
    rw [if_neg hnegative] at hbeyond
    omega

/-- An integer of 64 bits that is a number becomes itself. -/
theorem saturated_of_number {x : Binary64} (hfinite : x.isFinite) {k : Int64} (h : x.number = k.toInt) :
    x.saturated = k.toInt := by
  have hnan : x.isNaN = false := by
    have hlt : x.magnitude < Format.double.infinity := of_decide_eq_true hfinite
    simpa [isNaN] using hlt.le
  have hlow := k.le_toInt
  have hhigh := k.toInt_lt
  rw [saturated, if_neg (by simp [hnan]), if_pos hfinite, h, wholePart_intCast]
  omega

end Binary64

end WireFormat.Floating

namespace WireFormat

namespace Narrow

theorem toNat_toUInt32 (n : Int32) : (n.toUInt32.toNat : Int) = n.toInt % 0x100000000 := by
  have h : n.toInt = Int.bmod n.toUInt32.toNat 0x100000000 := BitVec.toInt_eq_toNat_bmod n.toBitVec
  have hn := n.toUInt32.toNat_lt
  rw [h, Int.bmod_def]
  split <;> omega

theorem toNat_i32 (i : Int64) : ((i32 i).toUInt32.toNat : Int) = i.toInt % 0x100000000 := by
  rw [toNat_toUInt32, toInt_i32]
  exact Int.bmod_emod

end Narrow

namespace Schema
open Floating

/-- The width in bytes of an integer leaf. -/
def integerWidth? : Schema → Option Nat
  | u8 => some 1
  | u16 => some 2
  | u32 | i32 => some 4
  | _ => none

/-- The bytes of an integer in two's complement, its higher digits dropped. -/
def twosComplement (order : ByteOrder) (width : Nat) (i : Int) : List UInt8 :=
  order.bytes width (BitVec.ofInt (8 * width) i).toNat

theorem toNat_ofInt_eq {width n : Nat} {i : Int} (h : (n : Int) = i % (2 ^ width : Nat)) :
    n = (BitVec.ofInt width i).toNat := by
  rw [BitVec.toNat_ofInt, ← h, Int.toNat_natCast]

/-- An integer leaf holds the low bytes of the integer that it is given. -/
theorem write_int {schema : Schema} {width : Nat} (h : schema.integerWidth? = some width) (i : Int64) :
    ∃ pieces, schema.write (.int i) = .done pieces ∧
      ∀ order, bytesOf order pieces = twosComplement order width i.toInt := by
  have hpiece : ∀ (n : Nat) order, (n : Int) = i.toInt % (2 ^ (8 * width) : Nat) →
      bytesOf order [.number width n] = twosComplement order width i.toInt := by
    intro n order hn
    rw [twosComplement, ← toNat_ofInt_eq hn]
    exact List.append_nil _
  cases schema with
  | u8 =>
    obtain rfl := Option.some.inj h
    exact ⟨_, rfl, fun order => hpiece _ order (Narrow.toNat_u8 i)⟩
  | u16 =>
    obtain rfl := Option.some.inj h
    exact ⟨_, rfl, fun order => hpiece _ order (Narrow.toNat_u16 i)⟩
  | u32 =>
    obtain rfl := Option.some.inj h
    exact ⟨_, rfl, fun order => hpiece _ order (Narrow.toNat_u32 i)⟩
  | i32 =>
    obtain rfl := Option.some.inj h
    exact ⟨_, rfl, fun order => hpiece _ order (Narrow.toNat_i32 i)⟩
  | _ => cases h

/-- An integer leaf does not tell a number from the integer that it becomes. -/
theorem write_float_eq {schema : Schema} {width : Nat} (h : schema.integerWidth? = some width) {x : Binary64}
    {k : Int64} (hk : k.toInt = x.saturated) : schema.write (.float x) = schema.write (.int k) := by
  obtain rfl : k = x.toInt64 := Int64.toInt_inj.1 (hk.trans x.toInt_toInt64.symm)
  cases schema with
  | u8 | u16 | u32 | i32 => rfl
  | _ => cases h

/-- A number in an integer leaf is cut off toward zero, then clamped to 64 bits, then reduced to the bytes of the leaf.
It is written like the integer that it becomes, and like itself if it is an integer of 64 bits. -/
theorem float_in_integer_leaf {schema : Schema} {width : Nat} (h : schema.integerWidth? = some width) (x : Binary64) :
    (∃ k : Int64, k.toInt = x.saturated ∧ schema.write (.float x) = schema.write (.int k)) ∧
      (∃ pieces, schema.write (.float x) = .done pieces ∧
        ∀ order, bytesOf order pieces = twosComplement order width x.saturated) ∧
      ∀ k : Int64, x.isFinite → x.number = k.toInt → schema.write (.float x) = schema.write (.int k) := by
  have hwrite := write_float_eq h x.toInt_toInt64
  refine ⟨⟨x.toInt64, x.toInt_toInt64, hwrite⟩, ?_, ?_⟩
  · rw [hwrite, ← x.toInt_toInt64]
    exact write_int h x.toInt64
  · intro k hfinite hk
    exact write_float_eq h (Binary64.saturated_of_number hfinite hk).symm

/-- The number next to -7.9 is written as -7 is, and `2 ^ 53` as itself. -/
theorem float_in_integer_leaf_negative :
    u16.integerWidth? = some 2 ∧
      (∃ pieces, u16.write (.float ⟨0xC01F99999999999A⟩) = .done pieces ∧
        ∀ order, bytesOf order pieces = twosComplement order 2 (-7)) ∧
      u16.write (.float ⟨0x4340000000000000⟩) = u16.write (.int 9007199254740992) := by
  have hsaturated : Binary64.saturated ⟨0xC01F99999999999A⟩ = -7 := by
    rw [← Binary64.toInt_toInt64]
    decide +kernel
  have hnumber : Format.double.number 0x4340000000000000 = 9007199254740992 := by
    norm_num [Format.number, Format.double, Format.bias]
  have hwhole : Binary64.number ⟨0x4340000000000000⟩ = (9007199254740992 : Int64).toInt := by
    rw [show (9007199254740992 : Int64).toInt = 9007199254740992 by decide]
    exact_mod_cast hnumber
  have hwidth : u16.integerWidth? = some 2 := rfl
  obtain ⟨-, hbytes, -⟩ := float_in_integer_leaf hwidth ⟨0xC01F99999999999A⟩
  obtain ⟨-, -, hsame⟩ := float_in_integer_leaf hwidth ⟨0x4340000000000000⟩
  rw [hsaturated] at hbytes
  exact ⟨hwidth, hbytes, hsame _ (by decide) hwhole⟩

end Schema

end WireFormat
