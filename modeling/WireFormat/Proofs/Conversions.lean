import Mathlib
import WireFormat.Proofs.Nearest
import WireFormat.Proofs.Reading
import WireFormat.Proofs.Writing

/-!
# Conversions between numbers

What the patterns of the two precisions denote, and what the conversions do to it: an integer becomes the nearest double
precision number, narrowing goes to the nearest single precision number, and widening changes nothing. Main statement:
single precision leaves keep every number that they hold and round every number that they are given, with overflow
beyond the greatest number and underflow below the least one.
-/
namespace WireFormat.Floating

namespace Format

/-- Shifting a significand against its exponent changes no number. -/
theorem number_of_shifted {f : Format} {magnitude m k : Nat} {e : Int}
    (hsignificand : f.significand magnitude = m * 2 ^ k) (hexponent : f.exponent magnitude = e - k) :
    f.number magnitude = m * 2 ^ e := by
  rw [number_eq, hsignificand, hexponent, zpow_sub₀ two_ne_zero, zpow_natCast]
  push_cast
  field_simp

/-- A number that the format has keeps its value. -/
theorem number_round_exact {f : Format} {m : Nat} {e : Int} (hm : m ≠ 0) (hlog : m.log2 ≤ f.fractionBits)
    (hleast : f.leastExponent ≤ m.log2 + e - f.fractionBits)
    (hmost : (m.log2 + e - f.fractionBits - f.leastExponent).toNat * 2 ^ f.fractionBits + 2 * 2 ^ f.fractionBits ≤
      f.infinity) :
    f.round m e < f.infinity ∧ f.number (f.round m e) = m * 2 ^ e := by
  obtain ⟨hfinite, hsignificand, hexponent⟩ := f.round_exact hm hlog hleast hmost
  exact ⟨hfinite, number_of_shifted hsignificand hexponent⟩

/-- Conversion goes to the nearest number, and infinity to infinity. -/
theorem nears_convert {source target : Format} (hf : 0 < target.fractionBits)
    (hinf : target.number target.infinity ≤ source.number source.infinity) {magnitude : Nat}
    (h : magnitude ≤ source.infinity) :
    target.Nears (source.number magnitude) (convert source target magnitude) := by
  rcases h.eq_or_lt with rfl | hlt
  · rw [convert_infinity]
    exact nears_infinity hinf
  · rw [convert_of_lt _ _ hlt, number_eq]
    exact round_nears hf _ _

/-- From the middle between the greatest finite number and `2 ^ 128` on, a number overflows. -/
theorem Nears.overflow_iff {y : ℚ} {magnitude : Nat} (h : single.Nears y magnitude) :
    magnitude = single.infinity ↔ 2 ^ 128 - 2 ^ 103 ≤ y := by
  have hmiddle : single.middle 0x7F7FFFFF = 2 ^ 128 - 2 ^ 103 := by
    norm_num [middle, number, single, bias]
  have hle : magnitude ≤ 0x7F800000 := h.le_infinity
  have hcut := h.lt_iff (show 0x7F7FFFFF < single.infinity by decide)
  rw [hmiddle] at hcut
  calc magnitude = 0x7F800000 ↔ 0x7F7FFFFF < magnitude := by omega
    _ ↔ 2 ^ 128 - 2 ^ 103 < y ∨ 2 ^ 128 - 2 ^ 103 = y := by simpa using hcut
    _ ↔ 2 ^ 128 - 2 ^ 103 ≤ y := le_iff_lt_or_eq.symm

/-- Up to half of the least positive number, a number underflows to zero. -/
theorem Nears.underflow_iff {y : ℚ} {magnitude : Nat} (h : single.Nears y magnitude) :
    magnitude = 0 ↔ y ≤ 2 ^ (-150 : ℤ) := by
  have hmiddle : single.middle 0 = 2 ^ (-150 : ℤ) := by
    norm_num [middle, number, single, bias]
  have hcut := h.lt_iff (show 0 < single.infinity by decide)
  rw [hmiddle] at hcut
  calc magnitude = 0 ↔ ¬0 < magnitude := by omega
    _ ↔ ¬2 ^ (-150 : ℤ) < y := by simpa using not_congr hcut
    _ ↔ y ≤ 2 ^ (-150 : ℤ) := not_lt

/-- Every finite single precision number is a double precision number. -/
theorem number_convert_single_double {magnitude : Nat} (h : magnitude < single.infinity) :
    convert single double magnitude < double.infinity ∧
      double.number (convert single double magnitude) = single.number magnitude := by
  obtain ⟨hfinite, k, hsignificand, hexponent⟩ := convert_single_double_of_lt h
  rw [number_eq single]
  exact ⟨hfinite, number_of_shifted hsignificand hexponent⟩

end Format

theorem signOf_signed (f : Format) (negative : Bool) (magnitude : Nat) :
    SignOf (f.signed negative magnitude) negative := by
  have h := f.number_nonneg magnitude
  cases negative
  · exact h
  · exact neg_nonpos.2 h

theorem signOf_intCast (i : Int) : SignOf (i : ℚ) (decide (i < 0)) := by
  rcases lt_or_ge i 0 with h | h
  · rw [SignOf, if_pos (decide_eq_true h)]
    exact_mod_cast h.le
  · rw [SignOf, if_neg (by simpa using h)]
    exact_mod_cast h

theorem abs_intCast (i : Int) : |(i : ℚ)| = i.natAbs := by
  rw [Nat.cast_natAbs, Int.cast_abs]

namespace Binary32

def number (x : Binary32) : ℚ :=
  Format.single.signed x.negative x.magnitude

def isFinite (x : Binary32) : Bool :=
  x.magnitude < Format.single.infinity

/-- No single precision number is nearer to `y`; ties go to the even pattern. -/
def IsNearest (x : Binary32) (y : ℚ) : Prop :=
  Format.single.Nearest y x.negative x.magnitude

theorem isNearest_iff {x : Binary32} {y : ℚ} (h : SignOf y x.negative) :
    x.IsNearest y ↔ Format.single.Nears |y| x.magnitude :=
  h.nearest_iff x.magnitude

theorem IsNearest.isNaN_eq_false {x : Binary32} {y : ℚ} (h : x.IsNearest y) : x.isNaN = false := by
  simpa [isNaN] using h.le_infinity

theorem ext_parts {x y : Binary32} (hnegative : x.negative = y.negative) (hmagnitude : x.magnitude = y.magnitude) :
    x = y := by
  rw [← x.ofParts_negative_magnitude, hnegative, hmagnitude, y.ofParts_negative_magnitude]

end Binary32

namespace Binary64

/-- Infinity counts as `2 ^ 1024`, which is beyond all numbers of a lower precision. -/
def number (x : Binary64) : ℚ :=
  Format.double.signed x.negative x.magnitude

/-- No double precision number is nearer to `y`; ties go to the even pattern. -/
def IsNearest (x : Binary64) (y : ℚ) : Prop :=
  Format.double.Nearest y x.negative x.magnitude

theorem IsNearest.isNaN_eq_false {x : Binary64} {y : ℚ} (h : x.IsNearest y) : x.isNaN = false := by
  simpa [isNaN] using h.le_infinity

theorem magnitude_le_infinity {x : Binary64} (h : x.isNaN = false) : x.magnitude ≤ Format.double.infinity := by
  simpa [isNaN] using h

theorem abs_number (x : Binary64) : |x.number| = Format.double.number x.magnitude :=
  Format.abs_signed _ _

/-- An integer becomes the nearest double precision number. -/
theorem ofInt_nears (i : Int) :
    Format.double.Nears i.natAbs (ofInt i).magnitude ∧ (ofInt i).negative = decide (i < 0) := by
  have hnears := Format.round_nears (f := .double) (by decide) i.natAbs 0
  have hlt : Format.double.round i.natAbs 0 < 0x8000000000000000 := hnears.le_infinity.trans_lt (by decide)
  refine ⟨?_, negative_ofParts _ hlt⟩
  rw [ofInt, magnitude_ofParts _ hlt]
  simpa using hnears

/-- Narrowing keeps the sign and goes to the nearest single precision number. -/
theorem isNearest_narrow {x : Binary64} (h : x.isNaN = false) :
    x.narrow.IsNearest x.number ∧ x.narrow.negative = x.negative := by
  have hinf : Format.single.number Format.single.infinity ≤ Format.double.number Format.double.infinity := by
    rw [Format.number_infinity _ (by decide), Format.number_infinity _ (by decide)]
    exact zpow_le_zpow_right₀ one_le_two (by decide)
  have hnears := Format.nears_convert (by decide) hinf (magnitude_le_infinity h)
  have hlt : Format.convert .double .single x.magnitude < 0x80000000 := hnears.le_infinity.trans_lt (by decide)
  have hnegative : x.narrow.negative = x.negative := Binary32.negative_ofParts _ hlt
  refine ⟨?_, hnegative⟩
  rw [Binary32.isNearest_iff (hnegative ▸ signOf_signed _ _ _), narrow, Binary32.magnitude_ofParts _ hlt, abs_number]
  exact hnears

/-- The double precision number is the single precision one: both are infinite with one sign, or both are one number. -/
structure Represents (w : Binary64) (x : Binary32) : Prop where
  negative : w.negative = x.negative
  isFinite : w.isFinite = x.isFinite
  number : x.isFinite → w.number = x.number

end Binary64

/-- Widening changes no number. -/
theorem Binary32.represents_widen {x : Binary32} (h : x.isNaN = false) : x.widen.Represents x := by
  have hlt := Format.convert_single_double_lt x.magnitude
  have hnegative : x.widen.negative = x.negative := Binary64.negative_ofParts _ hlt
  have hmagnitude : x.widen.magnitude = Format.convert .single .double x.magnitude := Binary64.magnitude_ofParts _ hlt
  have hle : x.magnitude ≤ Format.single.infinity := by simpa [isNaN] using h
  constructor
  · exact hnegative
  · rw [Binary64.isFinite, isFinite, hmagnitude]
    rcases hle.eq_or_lt with hinf | hfinite
    · rw [hinf, Format.convert_infinity]
      simp
    · simp [hfinite, (Format.number_convert_single_double hfinite).1]
  · intro hfinite
    have hnumber := (Format.number_convert_single_double (of_decide_eq_true hfinite)).2
    rw [Binary64.number, hnegative, hmagnitude, Format.signed, hnumber]
    rfl

namespace Binary64

theorem ext_parts {x y : Binary64} (hnegative : x.negative = y.negative) (hmagnitude : x.magnitude = y.magnitude) :
    x = y := by
  have hbits : x.bits.toNat = y.bits.toNat := by
    rw [negative, negative, decide_eq_decide] at hnegative
    rw [magnitude, magnitude] at hmagnitude
    have hx := x.bits.toNat_lt
    have hy := y.bits.toNat_lt
    omega
  cases x
  cases y
  exact congrArg mk (UInt64.toNat_inj.1 hbits)

/-- Of the numbers with the sign of `y`, no two are nearest. -/
theorem IsNearest.unique {x x' : Binary64} {y : ℚ} (hx : x.IsNearest y) (hx' : x'.IsNearest y)
    (hy : SignOf y x.negative) (hsame : x'.negative = x.negative) : x' = x := by
  rw [IsNearest, hy.nearest_iff] at hx
  rw [IsNearest, hsame, hy.nearest_iff] at hx'
  exact ext_parts hsame (hx'.unique hx)

/-- The double precision number nearest to `y` that single precision has, of the sign `negative`. -/
def IsSingle (w : Binary64) (y : ℚ) (negative : Bool) : Prop :=
  w.isNaN = false ∧ ∃ x : Binary32, x.IsNearest y ∧ x.negative = negative ∧ w.Represents x

/-- A single precision number is represented by no other number than the one it is widened to. -/
theorem Represents.eq_widen {w : Binary64} {x : Binary32} (h : w.Represents x) (hw : w.isNaN = false)
    (hx : x.isNaN = false) : w = x.widen := by
  have hwide := Binary32.represents_widen hx
  refine ext_parts (h.negative.trans hwide.negative.symm) ?_
  cases hfinite : x.isFinite with
  | true =>
    have hsame : w.number = x.widen.number := (h.number hfinite).trans (hwide.number hfinite).symm
    have habs := congrArg abs hsame
    rw [abs_number, abs_number] at habs
    exact Format.double.number_strictMono.injective habs
  | false =>
    have hinfinite : ∀ {z : Binary64}, z.isNaN = false → z.isFinite = false → z.magnitude = Format.double.infinity :=
      fun hnan hfinite => le_antisymm (magnitude_le_infinity hnan) (not_lt.1 (of_decide_eq_false hfinite))
    rw [hinfinite hw (h.isFinite.trans hfinite),
      hinfinite ((isNaN_widen x).trans hx) (hwide.isFinite.trans hfinite)]

theorem isSingle_iff {w : Binary64} {y : ℚ} {negative : Bool} :
    w.IsSingle y negative ↔ ∃ x : Binary32, x.IsNearest y ∧ x.negative = negative ∧ w = x.widen := by
  constructor
  · rintro ⟨hw, x, hnearest, hsign, hrepresents⟩
    exact ⟨x, hnearest, hsign, hrepresents.eq_widen hw hnearest.isNaN_eq_false⟩
  · rintro ⟨x, hnearest, hsign, rfl⟩
    have hx := hnearest.isNaN_eq_false
    exact ⟨(isNaN_widen x).trans hx, x, hnearest, hsign, x.represents_widen hx⟩

theorem IsSingle.unique {w w' : Binary64} {y : ℚ} {negative : Bool} (hy : SignOf y negative)
    (h : w.IsSingle y negative) (h' : w'.IsSingle y negative) : w = w' := by
  obtain ⟨x, hx, hsign, rfl⟩ := isSingle_iff.1 h
  obtain ⟨x', hx', hsign', rfl⟩ := isSingle_iff.1 h'
  rw [Binary32.isNearest_iff (hsign.symm ▸ hy)] at hx
  rw [Binary32.isNearest_iff (hsign'.symm ▸ hy)] at hx'
  rw [Binary32.ext_parts (hsign.trans hsign'.symm) (hx.unique hx')]

/-- Narrowing and widening again gives the nearest number that single precision has. -/
theorem isSingle_narrow {x : Binary64} (h : x.isNaN = false) : x.narrow.widen.IsSingle x.number x.negative := by
  obtain ⟨hnearest, hsign⟩ := isNearest_narrow h
  exact isSingle_iff.2 ⟨x.narrow, hnearest, hsign, rfl⟩

/-- What single precision has is nearest to itself. -/
theorem IsSingle.self {w : Binary64} {y : ℚ} {negative : Bool} (h : w.IsSingle y negative) :
    w.IsSingle w.number w.negative := by
  obtain ⟨x, hnearest, -, rfl⟩ := isSingle_iff.1 h
  have hx := hnearest.isNaN_eq_false
  have hagain := isSingle_narrow ((isNaN_widen x).trans hx)
  rwa [narrow_widen hx] at hagain

end Binary64

end WireFormat.Floating

namespace WireFormat.Schema
open Floating

/-- A single precision pattern is read as the number that it is and written back as it was. A double precision number is
written as the one single precision number nearest to it with its sign: as infinity from the middle between the greatest
number and the next power of two on, and as zero up to half of the least positive number. -/
theorem f32_exact_and_nearest :
    (∀ (b : Buffer) (bs : List UInt8) (x : Binary32), bs.length = 4 → bs <+: b.unread →
      x = ⟨.ofNat (b.order.number bs)⟩ → x.isNaN = false →
        ∃ w, f32.read b = (.ok (.float w), b.skip 4) ∧ w.Represents x ∧
          ∃ pieces, f32.write (.float w) = .done pieces ∧ bytesOf b.order pieces = bs) ∧
    ∀ w : Binary64, w.isNaN = false →
      ∃ x, f32.write (.float w) = .done [.f32 x] ∧
        (∀ y : Binary32, y = x ↔ y.negative = w.negative ∧ y.IsNearest w.number) ∧
        (x.magnitude = Format.single.infinity ↔ 2 ^ 128 - 2 ^ 103 ≤ |w.number|) ∧
        (x.magnitude = 0 ↔ |w.number| ≤ 2 ^ (-150 : ℤ)) := by
  constructor
  · intro b bs x hlength hnext hx hnan
    have hbits : x.bits.toNat = b.order.number bs := by
      have hlt := b.order.number_lt bs
      rw [hlength] at hlt
      rw [hx]
      exact UInt32.toNat_ofNat_of_lt' hlt
    have hbytes : bytesOf b.order [.f32 x] = bs := by
      have hnumber := b.order.bytes_number bs
      rw [hlength, ← hbits] at hnumber
      exact (List.append_nil _).trans hnumber
    have hread := (Reader.yields_f32 x).map (fun y => Value.float y.widen) b (hbytes.symm ▸ hnext)
    exact ⟨x.widen, hread, x.represents_widen hnan, [.f32 x], write_f32 (narrow_widen hnan), hbytes⟩
  · intro w hnan
    obtain ⟨hnearest, hnegative⟩ := Binary64.isNearest_narrow hnan
    have hsign : ∀ y : Binary32, y.negative = w.negative → SignOf w.number y.negative := by
      intro y hy
      rw [hy]
      exact signOf_signed _ _ _
    have hnears := (Binary32.isNearest_iff (hsign _ hnegative)).1 hnearest
    refine ⟨w.narrow, rfl, ?_, hnears.overflow_iff, hnears.underflow_iff⟩
    intro y
    constructor
    · rintro rfl
      exact ⟨hnegative, hnearest⟩
    · rintro ⟨hy, hother⟩
      have hmagnitude := ((Binary32.isNearest_iff (hsign y hy)).1 hother).unique hnears
      exact Binary32.ext_parts (hy.trans hnegative.symm) hmagnitude

/-- The negative number next to zero comes back, and the middle behind the greatest number overflows. -/
theorem f32_exact_and_nearest_extremes :
    (∃ w, f32.read (.ofBytes .little [0x01, 0x00, 0x00, 0x80]) =
        (.ok (.float w), (Buffer.ofBytes .little [0x01, 0x00, 0x00, 0x80]).skip 4) ∧
      w.Represents ⟨0x80000001⟩ ∧
      ∃ pieces, f32.write (.float w) = .done pieces ∧ bytesOf .little pieces = [0x01, 0x00, 0x00, 0x80]) ∧
    ∃ x, f32.write (.float ⟨0x47EFFFFFF0000000⟩) = .done [.f32 x] ∧ x.magnitude = Format.single.infinity := by
  constructor
  · exact f32_exact_and_nearest.1 (.ofBytes .little _) _ _ rfl List.prefix_rfl (by decide) (by decide)
  · obtain ⟨x, hwrite, -, hoverflow, -⟩ := f32_exact_and_nearest.2 ⟨0x47EFFFFFF0000000⟩ (by decide)
    have hmagnitude : Binary64.magnitude ⟨0x47EFFFFFF0000000⟩ = 0x47EFFFFFF0000000 := by decide
    have hnumber : Format.double.number 0x47EFFFFFF0000000 = 2 ^ 128 - 2 ^ 103 := by
      norm_num [Format.number, Format.double, Format.bias]
    rw [Binary64.abs_number, hmagnitude, hnumber] at hoverflow
    exact ⟨x, hwrite, hoverflow.2 le_rfl⟩

end WireFormat.Schema
