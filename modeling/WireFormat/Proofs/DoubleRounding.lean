import Mathlib
import WireFormat.Proofs.Conversions

/-!
# Integers in single precision

An integer is written to a single precision leaf by way of double precision, so it is rounded twice. The second rounding
makes a difference only if the first one has put the number on the middle of two single precision numbers. Main
statement: the number that is written is the nearest one except for the integers that `Strays` describes, such as
`2 ^ 53 + 2 ^ 29 + 1`.
-/
namespace WireFormat.Floating

/-- One rounding to `2 ^ 29` units of `2 * v` passes a whole number where the middle behind it is passed, or reached if
the number is odd. -/
theorem lt_nearestEven_once_iff (q n : Nat) {v : Nat} (hv : 0 < v) :
    q < nearestEven n (2 ^ 29 * (2 * v)) ↔
      if q % 2 = 1 then (2 * q + 1) * (2 ^ 29 * v) ≤ n else (2 * q + 1) * (2 ^ 29 * v) < n := by
  have hmiddle : (2 * q + 1) * (2 ^ 29 * (2 * v)) = 2 * ((2 * q + 1) * (2 ^ 29 * v)) := by ring
  rw [lt_nearestEven_iff _ _ (by omega), hmiddle]
  split_ifs <;> omega

/-- With a first rounding to units of `2 * v`, everything within half a unit of the middle counts as the middle. -/
theorem lt_nearestEven_twice_iff (q n : Nat) {v : Nat} (hv : 0 < v) :
    q < nearestEven (nearestEven n (2 * v)) (2 ^ 29) ↔
      if q % 2 = 1 then (2 * q + 1) * (2 ^ 29 * v) ≤ n + v else (2 * q + 1) * (2 ^ 29 * v) + v < n := by
  -- The middle is an even number of units, so a tie of the first rounding goes to it from either side.
  have hpassed : (2 * q + 1) * 2 ^ 28 < nearestEven n (2 * v) ↔ (2 * q + 1) * (2 ^ 29 * v) + v < n := by
    have hunits : (2 * ((2 * q + 1) * 2 ^ 28) + 1) * (2 * v) = 2 * ((2 * q + 1) * (2 ^ 29 * v) + v) := by ring
    rw [lt_nearestEven_iff _ _ (by omega), hunits]
    omega
  have hreached : (2 * q + 1) * 2 ^ 28 ≤ nearestEven n (2 * v) ↔ (2 * q + 1) * (2 ^ 29 * v) ≤ n + v := by
    obtain ⟨below, hbelow⟩ : ∃ below, (2 * q + 1) * 2 ^ 28 = below + 1 := ⟨(2 * q + 1) * 2 ^ 28 - 1, by omega⟩
    have hunits : (2 * below + 1) * (2 * v) + 2 * v = 2 * ((2 * q + 1) * (2 ^ 29 * v)) := by
      calc (2 * below + 1) * (2 * v) + 2 * v = 2 * ((below + 1) * (2 * v)) := by ring
        _ = 2 * ((2 * q + 1) * (2 ^ 29 * v)) := by rw [← hbelow]; ring
    rw [hbelow, Nat.succ_le_iff, lt_nearestEven_iff _ _ (by omega)]
    omega
  rw [lt_nearestEven_iff _ _ (by decide), ← hpassed, ← hreached]
  split_ifs <;> omega

/-- The two ways differ where the first rounding ends on a middle of the second: a little above a middle whose lower
neighbour is even, and a little below one whose upper neighbour is even. -/
theorem nearestEven_twice_eq_iff (n : Nat) {v : Nat} (hv : 0 < v) :
    nearestEven (nearestEven n (2 * v)) (2 ^ 29) = nearestEven n (2 ^ 29 * (2 * v)) ↔
      ¬∃ k, (4 * k + 1) * (2 ^ 29 * v) < n ∧ n ≤ (4 * k + 1) * (2 ^ 29 * v) + v ∨
        (4 * k + 3) * (2 ^ 29 * v) ≤ n + v ∧ n < (4 * k + 3) * (2 ^ 29 * v) := by
  have hlower : ∀ k, 2 * (2 * k) + 1 = 4 * k + 1 := fun k => by ring
  have hupper : ∀ k, 2 * (2 * k + 1) + 1 = 4 * k + 3 := fun k => by ring
  constructor
  · rintro heq ⟨k, h | h⟩
    · have hsame := lt_nearestEven_twice_iff (2 * k) n hv
      rw [heq, lt_nearestEven_once_iff _ _ hv, if_neg (by omega), if_neg (by omega), hlower] at hsame
      omega
    · have hsame := lt_nearestEven_twice_iff (2 * k + 1) n hv
      rw [heq, lt_nearestEven_once_iff _ _ hv, if_pos (by omega), if_pos (by omega), hupper] at hsame
      omega
  · intro hnone
    apply eq_of_forall_lt_iff
    intro q
    rw [lt_nearestEven_twice_iff q n hv, lt_nearestEven_once_iff q n hv]
    rcases Nat.even_or_odd' q with ⟨k, rfl | rfl⟩
    · rw [if_neg (by omega), if_neg (by omega), hlower]
      have hk := mt (Exists.intro k) hnone
      omega
    · rw [if_pos (by omega), if_pos (by omega), hupper]
      have hk := mt (Exists.intro k) hnone
      omega

/-- Rounding to 53 binary digits and then to 24 of them leads astray next to the middle of two neighbours of 24 digits:
no farther from it than half of the last of 53 digits, on the side of the odd neighbour. -/
def Strays (n : Nat) : Prop :=
  53 ≤ n.log2 ∧ ∃ k,
    (4 * k + 1) * 2 ^ (n.log2 - 24) < n ∧ n ≤ (4 * k + 1) * 2 ^ (n.log2 - 24) + 2 ^ (n.log2 - 53) ∨
      (4 * k + 3) * 2 ^ (n.log2 - 24) ≤ n + 2 ^ (n.log2 - 53) ∧ n < (4 * k + 3) * 2 ^ (n.log2 - 24)

example : Strays (2 ^ 53 + 2 ^ 29 + 1) := ⟨by decide +kernel, 2 ^ 22, .inl (by decide +kernel)⟩

namespace Format

variable {f : Format} {n : Nat}

/-- A whole number with `k` binary digits too many is rounded to units of `2 ^ k`. -/
theorem nears_natCast (hf : 0 < f.fractionBits) {k field : Nat} (hfield : f.leastExponent + field = k)
    (hlow : 2 ^ f.fractionBits * 2 ^ k ≤ n) (hhigh : n ≤ 2 * 2 ^ f.fractionBits * 2 ^ k)
    (hmost : field * 2 ^ f.fractionBits + 2 * 2 ^ f.fractionBits ≤ f.infinity) :
    f.Nears n (field * 2 ^ f.fractionBits + nearestEven n (2 ^ k)) := by
  have hunits := nears_units field hf (Nat.two_pow_pos k) (.inr hlow) hhigh
  have hvalue : (n : ℚ) / (2 ^ k : Nat) * 2 ^ (k : Int) = n := by
    push_cast
    rw [zpow_natCast]
    field_simp
  have hle := nearestEven_le (Nat.two_pow_pos k) hhigh
  rwa [hfield, hvalue, min_eq_left (by omega)] at hunits

/-- A whole number of at most 53 binary digits is a double precision number. -/
theorem number_double_small {wide : Nat} (hlog : n.log2 < 53) (h : double.Nears n wide) : double.number wide = n := by
  obtain ⟨same, hle, hnumber⟩ : ∃ same ≤ double.infinity, double.number same = n := by
    by_cases hn : n = 0
    · refine ⟨0, Nat.zero_le _, ?_⟩
      rw [number_zero, hn, Nat.cast_zero]
    · have hround := number_round_exact (f := double) (e := 0) hn
      simp only [show double.fractionBits = 52 from rfl, show double.leastExponent = -1074 from rfl,
        show double.infinity = 2047 * 2 ^ 52 from rfl] at hround ⊢
      obtain ⟨hfinite, hnumber⟩ := hround (by omega) (by omega) (by omega)
      exact ⟨_, hfinite.le, by simpa using hnumber⟩
  have hself := nears_number hle
  rw [hnumber] at hself
  rw [h.unique hself, hnumber]

/-- Of 54 to 64 binary digits the first 53 are kept, rounded by those behind them. -/
theorem number_double_large {k wide : Nat} (hk : k ≤ 10) (hlow : 2 ^ 52 * 2 ^ (k + 1) ≤ n)
    (hhigh : n ≤ 2 ^ 53 * 2 ^ (k + 1)) (h : double.Nears n wide) :
    double.number wide = (nearestEven n (2 ^ (k + 1)) * 2 ^ (k + 1) : Nat) := by
  have hexponent : double.leastExponent + (k + 1075 : Nat) = (k + 1 : Nat) := by
    show (-1074 : Int) + (k + 1075 : Nat) = (k + 1 : Nat)
    omega
  have hmost : (k + 1075) * 2 ^ 52 + 2 * 2 ^ 52 ≤ double.infinity := by
    show (k + 1075) * 2 ^ 52 + 2 * 2 ^ 52 ≤ 2047 * 2 ^ 52
    omega
  have hnears := nears_natCast (by decide) hexponent hlow hhigh hmost
  have hunits : double.number ((k + 1075) * 2 ^ 52 + nearestEven n (2 ^ (k + 1))) = _ :=
    double.number_units (.inr (le_nearestEven (Nat.two_pow_pos _) hlow)) (nearestEven_le (Nat.two_pow_pos _) hhigh)
  rw [hexponent, zpow_natCast] at hunits
  rw [h.unique hnears]
  exact_mod_cast hunits

/-- Of as many binary digits single precision keeps the first 24. -/
theorem nears_single_large {k : Nat} (hk : k ≤ 10) (hlow : 2 ^ 52 * 2 ^ (k + 1) ≤ n)
    (hhigh : n ≤ 2 ^ 53 * 2 ^ (k + 1)) :
    single.Nears n ((k + 179) * 2 ^ 23 + nearestEven n (2 ^ 29 * 2 ^ (k + 1))) := by
  have hcoarse : 2 ^ 29 * 2 ^ (k + 1) = 2 ^ (k + 30) := by ring
  rw [hcoarse]
  apply nears_natCast (f := single) (by decide)
  · show (-149 : Int) + (k + 179 : Nat) = (k + 30 : Nat)
    omega
  · show 2 ^ 23 * 2 ^ (k + 30) ≤ n
    omega
  · show n ≤ 2 * 2 ^ 23 * 2 ^ (k + 30)
    omega
  · show (k + 179) * 2 ^ 23 + 2 * 2 ^ 23 ≤ 255 * 2 ^ 23
    omega

/-- The single precision number nearest to the double precision number nearest to a whole number of 64 binary digits is
nearest to the whole number itself, unless that strays. -/
theorem nears_through_double_iff {wide narrow : Nat} (hn : n < 2 ^ 64) (hwide : double.Nears n wide)
    (hnarrow : single.Nears (double.number wide) narrow) : single.Nears n narrow ↔ ¬Strays n := by
  rcases Nat.lt_or_ge n.log2 53 with hlog | hlog
  · rw [number_double_small hlog hwide] at hnarrow
    exact iff_of_true hnarrow fun h => Nat.not_le.2 hlog h.1
  obtain ⟨k, hk⟩ := Nat.exists_eq_add_of_le hlog
  have hnz : n ≠ 0 := by
    rintro rfl
    rw [Nat.log2_zero] at hlog
    omega
  have hk10 : k ≤ 10 := by
    have h := (Nat.log2_lt hnz).2 hn
    omega
  have hlow : 2 ^ 52 * 2 ^ (k + 1) ≤ n := by
    rw [← Nat.pow_add, show 52 + (k + 1) = n.log2 by omega]
    exact Nat.log2_self_le hnz
  have hhigh : n ≤ 2 ^ 53 * 2 ^ (k + 1) := by
    rw [← Nat.pow_add, show 53 + (k + 1) = n.log2 + 1 by omega]
    exact Nat.lt_log2_self.le
  have hpos : 0 < 2 ^ (k + 1) := Nat.two_pow_pos _
  rw [number_double_large hk10 hlow hhigh hwide] at hnarrow
  have htwice := nears_single_large hk10 (Nat.mul_le_mul_right _ (le_nearestEven hpos hlow))
    (Nat.mul_le_mul_right _ (nearestEven_le hpos hhigh))
  have honce := nears_single_large hk10 hlow hhigh
  rw [nearestEven_mul_right _ _ hpos] at htwice
  have hstrays : Strays n ↔ _ := and_iff_right hlog
  rw [hnarrow.unique htwice, hstrays, hk, Nat.add_sub_cancel_left, show 53 + k - 24 = 29 + k by omega,
    Nat.pow_add 2 29 k, ← nearestEven_twice_eq_iff n (Nat.two_pow_pos k), ← Nat.pow_succ']
  constructor
  · intro h
    exact Nat.add_left_cancel (h.unique honce)
  · intro h
    rw [h]
    exact honce

end Format

end WireFormat.Floating

namespace WireFormat.Floating

/-- An integer becomes the double precision number nearest to it, with its sign. -/
theorem Binary64.isNearest_ofInt (i : Int) : (ofInt i).IsNearest i ∧ (ofInt i).negative = decide (i < 0) := by
  obtain ⟨hnears, hnegative⟩ := ofInt_nears i
  refine ⟨?_, hnegative⟩
  rw [IsNearest, hnegative, (signOf_intCast _).nearest_iff, abs_intCast]
  exact hnears

/-- By way of double precision an integer of 64 bits becomes the single precision number nearest to it, with its sign,
unless it strays. -/
theorem Binary64.isNearest_narrow_ofInt (i : Int64) :
    (ofInt i.toInt).narrow.negative = decide (i.toInt < 0) ∧
      ((ofInt i.toInt).narrow.IsNearest i.toInt ↔ ¬Strays i.toInt.natAbs) := by
  obtain ⟨hwide, hnegative⟩ := ofInt_nears i.toInt
  obtain ⟨hx, hsame⟩ := isNearest_narrow (isNearest_ofInt i.toInt).1.isNaN_eq_false
  refine ⟨hsame.trans hnegative, ?_⟩
  have hn : i.toInt.natAbs < 2 ^ 64 := by
    have hlow := i.le_toInt
    have hhigh := i.toInt_lt
    omega
  have hnarrow := (Binary32.isNearest_iff (hsame.symm ▸ signOf_signed _ _ _)).1 hx
  rw [abs_number] at hnarrow
  rw [Binary32.isNearest_iff ((hsame.trans hnegative).symm ▸ signOf_intCast _), abs_intCast]
  exact Format.nears_through_double_iff hn hwide hnarrow

/-- A unit above the middle between `2 ^ 53` and the next single precision number, that one is nearest. -/
theorem Binary32.isNearest_above_middle_iff {x : Binary32} (hx : x.negative = false) :
    x.IsNearest 9007199791611905 ↔ x.magnitude = 0x5A000001 := by
  have hnears : Format.single.Nears |9007199791611905| 0x5A000001 := by
    have hlow : Format.single.number 0x5A000000 = 2 ^ 53 := by norm_num [Format.number, Format.single, Format.bias]
    have hhigh : Format.single.number 0x5A000001 = 2 ^ 53 + 2 ^ 30 := by
      norm_num [Format.number, Format.single, Format.bias]
    apply Format.nears_of_between (show 0x5A000000 < Format.single.infinity by decide)
    · norm_num [hlow]
    · norm_num [hhigh]
    · right
      norm_num [Format.middle, hlow, hhigh]
  have hsign : SignOf 9007199791611905 x.negative := by
    rw [hx]
    norm_num [SignOf]
  rw [isNearest_iff hsign]
  constructor
  · exact fun h => h.unique hnears
  · rintro h
    rwa [h]

end WireFormat.Floating

namespace WireFormat.Schema
open Floating

/-- An integer is written as the single precision number nearest to the double precision number nearest to it, and this
is what is read back. No single precision number is nearer to the integer itself, unless that strays. -/
theorem f32_integer_nearest_iff (i : Int64) :
    ∃ (d : Binary64) (x : Binary32), d.IsNearest i.toInt ∧ x.IsNearest d.number ∧ x.negative = decide (i.toInt < 0) ∧
      f32.write (.int i) = .done [.f32 x] ∧ f32.read.Yields [.f32 x] (.float x.widen) ∧ x.widen.Represents x ∧
      (x.IsNearest i.toInt ↔ ¬Strays i.toInt.natAbs) := by
  obtain ⟨hd, -⟩ := Binary64.isNearest_ofInt i.toInt
  obtain ⟨hx, -⟩ := Binary64.isNearest_narrow hd.isNaN_eq_false
  obtain ⟨hnegative, hnearest⟩ := Binary64.isNearest_narrow_ofInt i
  have hread := (Reader.yields_f32 (Binary64.ofInt i.toInt).narrow).map fun y => Value.float y.widen
  exact ⟨_, _, hd, hx, hnegative, rfl, hread, Binary32.represents_widen hx.isNaN_eq_false, hnearest⟩

/-- A unit above the middle between `2 ^ 53` and the next single precision number, `2 ^ 53` is written. -/
theorem f32_integer_astray :
    f32.write (.int 9007199791611905) = .done [.f32 ⟨0x5A000000⟩] ∧
      Binary32.IsNearest ⟨0x5A000001⟩ 9007199791611905 ∧ ¬Binary32.IsNearest ⟨0x5A000000⟩ 9007199791611905 := by
  have hwritten : (Binary64.ofInt 9007199791611905).narrow = ⟨0x5A000000⟩ := by decide +kernel
  refine ⟨congrArg (fun x => Written.done [.f32 x]) hwritten, ?_, ?_⟩
  · exact (Binary32.isNearest_above_middle_iff (by decide)).2 (by decide)
  · exact fun h => absurd ((Binary32.isNearest_above_middle_iff (by decide)).1 h) (by decide)

end WireFormat.Schema
