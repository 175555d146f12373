import Mathlib
import WireFormat.Floating.Binary

/-!
# Rounding of numbers that a format has

Rounding depends only on the number `m * 2 ^ e` and gives every number of the format back. A single precision number is
a double precision number, so narrowing undoes widening; only the NaNs are left out, whose quiet bit is set on the way.
-/
namespace WireFormat.Floating

theorem nearestEven_mul_self (q : Nat) {d : Nat} (hd : 0 < d) : nearestEven (q * d) d = q := by
  simp [nearestEven, hd]

theorem nearestEven_mul_right (n d : Nat) {k : Nat} (hk : 0 < k) : nearestEven (n * k) (d * k) = nearestEven n d := by
  have hdiv : n * k / (d * k) = n / d := Nat.mul_div_mul_right n d hk
  have hmod : n * k % (d * k) = n % d * k := Nat.mul_mod_mul_right k n d
  have hlt : 2 * (n % d * k) < d * k ↔ 2 * (n % d) < d := by
    rw [← Nat.mul_assoc]
    exact Nat.mul_lt_mul_right hk
  have hgt : d * k < 2 * (n % d * k) ↔ d < 2 * (n % d) := by
    rw [← Nat.mul_assoc]
    exact Nat.mul_lt_mul_right hk
  simp only [nearestEven, hdiv, hmod, hlt, hgt]

theorem log2_mul_two_pow {m : Nat} (hm : m ≠ 0) (k : Nat) : (m * 2 ^ k).log2 = m.log2 + k := by
  have hlo := Nat.log2_self_le hm
  have hhi := Nat.lt_log2_self (n := m)
  have hk : 0 < 2 ^ k := Nat.two_pow_pos k
  refine (Nat.log2_eq_iff (Nat.mul_ne_zero hm hk.ne')).2 ⟨?_, ?_⟩
  · rw [Nat.pow_add]
    exact Nat.mul_le_mul_right _ hlo
  · rw [Nat.add_right_comm, Nat.pow_add]
    exact Nat.mul_lt_mul_of_pos_right hhi hk

namespace Format

variable (f : Format)

theorem leading_eq : f.leading = 2 ^ f.fractionBits := by
  simp [leading, Nat.shiftLeft_eq]

theorem spacing_mul_two_pow {m : Nat} (hm : m ≠ 0) (e : Int) (k : Nat) :
    f.spacing (m * 2 ^ k) (e - k) = f.spacing m e := by
  have h : ((m.log2 + k : Nat) : Int) + (e - k) - f.fractionBits = m.log2 + e - f.fractionBits := by omega
  simp only [spacing, log2_mul_two_pow hm, h]

/-- The number of units of spacing that are nearest to a number. -/
def unitsOf (m : Nat) (e unit : Int) : Nat :=
  if e ≤ unit then nearestEven m (1 <<< (unit - e).toNat) else m <<< (e - unit).toNat

theorem round_of_ne_zero {m : Nat} (hm : m ≠ 0) (e : Int) :
    f.round m e =
      min ((f.spacing m e - f.leastExponent).toNat * 2 ^ f.fractionBits + unitsOf m e (f.spacing m e)) f.infinity := by
  simp [round, hm, unitsOf, Nat.shiftLeft_eq]

theorem unitsOf_self (m : Nat) (e : Int) : unitsOf m e e = m := by
  have h := nearestEven_mul_self m Nat.one_pos
  simpa [unitsOf] using h

theorem unitsOf_mul_two_pow (m : Nat) (e unit : Int) (k : Nat) :
    unitsOf (m * 2 ^ k) (e - k) unit = unitsOf m e unit := by
  have hk : 0 < 2 ^ k := Nat.two_pow_pos k
  unfold unitsOf
  simp only [Nat.shiftLeft_eq, Nat.one_mul]
  by_cases h : e ≤ unit
  · have hs : (unit - (e - k)).toNat = (unit - e).toNat + k := by omega
    rw [if_pos h, if_pos (by omega), hs, Nat.pow_add, nearestEven_mul_right _ _ hk]
  · rw [if_neg h]
    by_cases h' : e - k ≤ unit
    · have hs : 2 ^ k = 2 ^ (e - unit).toNat * 2 ^ (unit - (e - k)).toNat := by
        rw [← Nat.pow_add]
        congr 1
        omega
      rw [if_pos h', hs, ← Nat.mul_assoc, nearestEven_mul_self _ (Nat.two_pow_pos _)]
    · have hs : (e - unit).toNat = k + (e - k - unit).toNat := by omega
      rw [if_neg h', hs, Nat.pow_add, Nat.mul_assoc]

/-- Rounding depends on the number alone and not on how it is written. -/
theorem round_mul_two_pow (m : Nat) (e : Int) (k : Nat) : f.round (m * 2 ^ k) (e - k) = f.round m e := by
  by_cases hm : m = 0
  · simp [round, hm]
  · have hk : m * 2 ^ k ≠ 0 := Nat.mul_ne_zero hm (Nat.two_pow_pos k).ne'
    rw [f.round_of_ne_zero hk, f.round_of_ne_zero hm, f.spacing_mul_two_pow hm, unitsOf_mul_two_pow]

theorem significand_of_lt {magnitude : Nat} (h : magnitude < 2 ^ f.fractionBits) :
    f.significand magnitude = magnitude := by
  simp [significand, leading_eq, h, Nat.mod_eq_of_lt h]

theorem significand_of_le {magnitude : Nat} (h : 2 ^ f.fractionBits ≤ magnitude) :
    f.significand magnitude = 2 ^ f.fractionBits + magnitude % 2 ^ f.fractionBits := by
  simp [significand, leading_eq, Nat.not_lt.2 h]

theorem exponent_eq (magnitude : Nat) :
    f.exponent magnitude = f.leastExponent + ((magnitude / 2 ^ f.fractionBits - 1 : Nat) : Int) := by
  simp [exponent, Nat.shiftRight_eq_div_pow]

theorem log2_of_normal {s k : Nat} (hlo : 2 ^ k ≤ s) (hhi : s < 2 ^ (k + 1)) : s.log2 = k :=
  (Nat.log2_eq_iff (by have := Nat.two_pow_pos k; omega)).2 ⟨hlo, hhi⟩

/-- A number of the format is rounded to itself. -/
theorem round_significand {magnitude : Nat} (h : magnitude ≤ f.infinity) :
    f.round (f.significand magnitude) (f.exponent magnitude) = magnitude := by
  have hp : 0 < 2 ^ f.fractionBits := Nat.two_pow_pos _
  by_cases hn : magnitude < 2 ^ f.fractionBits
  · have he : f.exponent magnitude = f.leastExponent := by
      rw [exponent_eq, Nat.div_eq_of_lt hn]
      simp
    rw [f.significand_of_lt hn, he]
    by_cases hz : magnitude = 0
    · simp [round, hz]
    · have hlog : magnitude.log2 < f.fractionBits := (Nat.log2_lt hz).2 hn
      have hs : f.spacing magnitude f.leastExponent = f.leastExponent := by
        unfold spacing
        omega
      rw [f.round_of_ne_zero hz, hs, unitsOf_self]
      simpa using h
  · have hle : 2 ^ f.fractionBits ≤ magnitude := Nat.not_lt.1 hn
    have hmod : magnitude % 2 ^ f.fractionBits < 2 ^ f.fractionBits := Nat.mod_lt _ hp
    have hq : 0 < magnitude / 2 ^ f.fractionBits := Nat.div_pos hle hp
    have hdm := Nat.div_add_mod magnitude (2 ^ f.fractionBits)
    have hlog : (f.significand magnitude).log2 = f.fractionBits := by
      rw [f.significand_of_le hle]
      exact log2_of_normal (by omega) (by rw [Nat.pow_succ]; omega)
    have hs : f.spacing (f.significand magnitude) (f.exponent magnitude) = f.exponent magnitude := by
      unfold spacing
      rw [hlog, exponent_eq]
      omega
    have hne : f.significand magnitude ≠ 0 := by
      rw [f.significand_of_le hle]
      omega
    have ht : (f.exponent magnitude - f.leastExponent).toNat = magnitude / 2 ^ f.fractionBits - 1 := by
      rw [exponent_eq]
      omega
    have hsum : (magnitude / 2 ^ f.fractionBits - 1) * 2 ^ f.fractionBits +
        (2 ^ f.fractionBits + magnitude % 2 ^ f.fractionBits) = magnitude := by
      rw [← Nat.add_assoc, ← Nat.succ_mul, Nat.succ_eq_add_one, Nat.sub_add_cancel hq, Nat.mul_comm]
      exact hdm
    rw [f.round_of_ne_zero hne, hs, unitsOf_self, ht, f.significand_of_le hle, hsum]
    exact Nat.min_eq_left h

/-- A number whose leading one and last digit are within the format is kept exactly, with its significand shifted to the
full width. -/
theorem round_exact {m : Nat} {e : Int} (hm : m ≠ 0) (hlog : m.log2 ≤ f.fractionBits)
    (hleast : f.leastExponent ≤ m.log2 + e - f.fractionBits)
    (hmost : (m.log2 + e - f.fractionBits - f.leastExponent).toNat * 2 ^ f.fractionBits + 2 * 2 ^ f.fractionBits ≤
      f.infinity) :
    f.round m e < f.infinity ∧
      f.significand (f.round m e) = m * 2 ^ (f.fractionBits - m.log2) ∧
      f.exponent (f.round m e) = e - (f.fractionBits - m.log2 : Nat) := by
  have hs : f.spacing m e = m.log2 + e - f.fractionBits := by
    unfold spacing
    omega
  have hu : unitsOf m e (f.spacing m e) = m * 2 ^ (f.fractionBits - m.log2) := by
    have h := unitsOf_mul_two_pow m e (f.spacing m e) (f.fractionBits - m.log2)
    have he : e - (f.fractionBits - m.log2 : Nat) = f.spacing m e := by omega
    rw [← h, he, unitsOf_self]
  have hlo : 2 ^ f.fractionBits ≤ m * 2 ^ (f.fractionBits - m.log2) := by
    calc 2 ^ f.fractionBits = 2 ^ m.log2 * 2 ^ (f.fractionBits - m.log2) := by rw [← Nat.pow_add]; congr 1; omega
      _ ≤ m * 2 ^ (f.fractionBits - m.log2) := Nat.mul_le_mul_right _ (Nat.log2_self_le hm)
  have hhi : m * 2 ^ (f.fractionBits - m.log2) < 2 * 2 ^ f.fractionBits := by
    calc m * 2 ^ (f.fractionBits - m.log2) < 2 ^ (m.log2 + 1) * 2 ^ (f.fractionBits - m.log2) :=
          Nat.mul_lt_mul_of_pos_right Nat.lt_log2_self (Nat.two_pow_pos _)
      _ = 2 * 2 ^ f.fractionBits := by rw [← Nat.pow_add, ← Nat.pow_succ']; congr 1; omega
  have hp : 0 < 2 ^ f.fractionBits := Nat.two_pow_pos _
  rw [f.round_of_ne_zero hm, hu, hs]
  generalize hK : (m.log2 + e - f.fractionBits - f.leastExponent).toNat = K at hmost
  generalize hU : m * 2 ^ (f.fractionBits - m.log2) = U at hlo hhi
  rw [Nat.min_eq_left (by omega)]
  have hU' : K * 2 ^ f.fractionBits + U = (K + 1) * 2 ^ f.fractionBits + (U - 2 ^ f.fractionBits) := by
    rw [Nat.add_mul]
    omega
  have hdiv : (K * 2 ^ f.fractionBits + U) / 2 ^ f.fractionBits = K + 1 := by
    rw [hU', Nat.add_comm, Nat.add_mul_div_right _ _ hp, Nat.div_eq_of_lt (by omega)]
    omega
  have hmod : (K * 2 ^ f.fractionBits + U) % 2 ^ f.fractionBits = U - 2 ^ f.fractionBits := by
    rw [hU', Nat.mul_add_mod_self_right, Nat.mod_eq_of_lt (by omega)]
  refine ⟨by omega, ?_, ?_⟩
  · rw [f.significand_of_le (by omega), hmod]
    omega
  · rw [exponent_eq, hdiv]
    omega

theorem significand_lt (magnitude : Nat) : f.significand magnitude < 2 * 2 ^ f.fractionBits := by
  have hp : 0 < 2 ^ f.fractionBits := Nat.two_pow_pos _
  by_cases hn : magnitude < 2 ^ f.fractionBits
  · rw [f.significand_of_lt hn]
    omega
  · rw [f.significand_of_le (Nat.not_lt.1 hn)]
    have := Nat.mod_lt magnitude hp
    omega

theorem convert_of_lt (source target : Format) {magnitude : Nat} (h : magnitude < source.infinity) :
    convert source target magnitude = target.round (source.significand magnitude) (source.exponent magnitude) := by
  rw [convert, if_neg (by omega), if_neg (by omega)]

theorem convert_infinity (source target : Format) : convert source target source.infinity = target.infinity := by
  simp [convert]

/-- A finite single precision number is a double precision one, with its significand shifted to the greater width. -/
theorem convert_single_double_of_lt {magnitude : Nat} (h : magnitude < single.infinity) :
    convert single double magnitude < double.infinity ∧
      ∃ k : Nat, double.significand (convert single double magnitude) = single.significand magnitude * 2 ^ k ∧
        double.exponent (convert single double magnitude) = single.exponent magnitude - k := by
  have hsig := single.significand_lt magnitude
  have hexp := single.exponent_eq magnitude
  have hback := single.round_significand h.le
  rw [convert_of_lt single double h]
  simp only [show single.fractionBits = 23 from rfl, show single.leastExponent = -149 from rfl,
    show single.infinity = 255 * 2 ^ 23 from rfl] at hsig hexp h
  by_cases hs : single.significand magnitude = 0
  · have hzero : magnitude = 0 := by
      rw [hs] at hback
      exact hback.symm
    subst hzero
    refine ⟨by decide, 925, ?_, rfl⟩
    rw [hs, Nat.zero_mul]
    rfl
  · have hlog : (single.significand magnitude).log2 < 24 := (Nat.log2_lt hs).2 (by omega)
    have hexact := double.round_exact (m := single.significand magnitude) (e := single.exponent magnitude) hs
    simp only [show double.fractionBits = 52 from rfl, show double.leastExponent = -1074 from rfl,
      show double.infinity = 2047 * 2 ^ 52 from rfl] at hexact ⊢
    obtain ⟨hfinite, hsignificand, hexponent⟩ := hexact (by omega) (by omega) (by omega)
    exact ⟨hfinite, _, hsignificand, hexponent⟩

/-- A single precision magnitude is a double precision one. -/
theorem convert_single_double {magnitude : Nat} (h : magnitude ≤ single.infinity) :
    convert single double magnitude ≤ double.infinity ∧
      convert double single (convert single double magnitude) = magnitude := by
  rcases Nat.eq_or_lt_of_le h with rfl | hlt
  · rw [convert_infinity, convert_infinity]
    exact ⟨le_rfl, rfl⟩
  · obtain ⟨hfinite, k, hsignificand, hexponent⟩ := convert_single_double_of_lt hlt
    refine ⟨hfinite.le, ?_⟩
    rw [convert_of_lt double single hfinite, hsignificand, hexponent, single.round_mul_two_pow]
    exact single.round_significand h

/-- A NaN is widened by moving its payload up, with the quiet bit set. -/
theorem convert_single_double_of_nan {magnitude : Nat} (h : single.infinity < magnitude) :
    convert single double magnitude = double.infinity + (magnitude % 2 ^ 23 ||| 2 ^ 22) <<< 29 := by
  have hpayload : (magnitude % single.leading) <<< 52 >>> 23 = (magnitude % 2 ^ 23) <<< 29 := by
    rw [leading_eq, Nat.shiftLeft_eq, Nat.shiftLeft_eq, Nat.shiftRight_eq_div_pow]
    change magnitude % 2 ^ 23 * 2 ^ 52 / 2 ^ 23 = _
    omega
  have hquiet : double.leading / 2 = 2 ^ 22 <<< 29 := rfl
  have hc : convert single double magnitude =
      double.infinity + ((magnitude % single.leading) <<< 52 >>> 23 ||| double.leading / 2) := by
    rw [convert, if_pos h]
    rfl
  rw [hc, hpayload, hquiet, Nat.shiftLeft_or_distrib]

/-- A NaN stays a NaN, within the bits of the target. -/
theorem convert_single_double_nan {magnitude : Nat} (h : single.infinity < magnitude) :
    double.infinity < convert single double magnitude ∧
      convert single double magnitude < 0x8000000000000000 := by
  have hlt : magnitude % 2 ^ 23 ||| 2 ^ 22 < 2 ^ 23 := Nat.or_lt_two_pow (Nat.mod_lt _ (by decide)) (by decide)
  have hle : 2 ^ 22 ≤ magnitude % 2 ^ 23 ||| 2 ^ 22 := Nat.right_le_or
  have hinf : double.infinity = 2047 * 2 ^ 52 := rfl
  rw [convert_single_double_of_nan h, Nat.shiftLeft_eq]
  omega

theorem convert_single_double_lt (magnitude : Nat) : convert single double magnitude < 0x8000000000000000 := by
  have hinf : double.infinity = 2047 * 2 ^ 52 := rfl
  rcases Nat.lt_or_ge single.infinity magnitude with h | h
  · exact (convert_single_double_nan h).2
  · have := (convert_single_double h).1
    omega

end Format

theorem Binary32.ofParts_negative_magnitude (x : Binary32) : ofParts x.negative x.magnitude = x := by
  have hx := x.bits.toNat_lt
  have hsum : (if x.negative then 0x80000000 else 0) + x.magnitude = x.bits.toNat := by
    simp only [negative, magnitude, decide_eq_true_eq]
    split <;> omega
  rw [ofParts, hsum]
  simp

theorem Binary64.toNat_bits_ofParts (n : Bool) {m : Nat} (h : m < 0x8000000000000000) :
    (ofParts n m).bits.toNat = (if n then 0x8000000000000000 else 0) + m := by
  rw [ofParts, UInt64.toNat_ofNat']
  split <;> omega

theorem Binary64.negative_ofParts (n : Bool) {m : Nat} (h : m < 0x8000000000000000) : (ofParts n m).negative = n := by
  rw [negative, toNat_bits_ofParts n h]
  cases n <;> simp [h]

theorem Binary64.magnitude_ofParts (n : Bool) {m : Nat} (h : m < 0x8000000000000000) : (ofParts n m).magnitude = m := by
  rw [magnitude, toNat_bits_ofParts n h]
  cases n <;> simp [Nat.mod_eq_of_lt h]

theorem isNaN_widen (x : Binary32) : x.widen.isNaN = x.isNaN := by
  have hlt := Format.convert_single_double_lt x.magnitude
  rw [Binary32.widen, Binary64.isNaN, Binary64.magnitude_ofParts _ hlt, Binary32.isNaN, decide_eq_decide]
  constructor
  · intro h
    by_contra hx
    have := (Format.convert_single_double (Nat.not_lt.1 hx)).1
    omega
  · intro h
    exact (Format.convert_single_double_nan h).1

/-- Narrowing undoes widening, with zeros of both signs, subnormals and infinities included. -/
theorem narrow_widen {x : Binary32} (h : x.isNaN = false) : x.widen.narrow = x := by
  have hlt := Format.convert_single_double_lt x.magnitude
  have hx : x.magnitude ≤ Format.single.infinity := by simpa [Binary32.isNaN] using h
  rw [Binary32.widen, Binary64.narrow, Binary64.negative_ofParts _ hlt, Binary64.magnitude_ofParts _ hlt,
    (Format.convert_single_double hx).2, Binary32.ofParts_negative_magnitude]

namespace Format

theorem convert_double_single_of_nan {payload : Nat} (hpos : 0 < payload) (hlt : payload < 2 ^ 23) :
    convert double single (double.infinity + payload <<< 29) = single.infinity + (payload ||| 2 ^ 22) := by
  have hshift : payload <<< 29 = payload * 2 ^ 29 := Nat.shiftLeft_eq _ _
  have hinf : double.infinity = 2047 * 2 ^ 52 := rfl
  have hpayload : ((double.infinity + payload <<< 29) % double.leading) <<< 23 >>> 52 = payload := by
    rw [leading_eq, Nat.shiftLeft_eq, Nat.shiftRight_eq_div_pow, hshift, hinf]
    change (2047 * 2 ^ 52 + payload * 2 ^ 29) % 2 ^ 52 * 2 ^ 23 / 2 ^ 52 = payload
    omega
  have hquiet : single.leading / 2 = 2 ^ 22 := rfl
  have hc : convert double single (double.infinity + payload <<< 29) = single.infinity +
      (((double.infinity + payload <<< 29) % double.leading) <<< 23 >>> 52 ||| single.leading / 2) := by
    rw [convert, if_pos (by omega)]
    rfl
  rw [hc, hpayload, hquiet]

end Format

theorem Binary32.toNat_bits_ofParts (n : Bool) {m : Nat} (h : m < 0x80000000) :
    (ofParts n m).bits.toNat = (if n then 0x80000000 else 0) + m := by
  rw [ofParts, UInt32.toNat_ofNat']
  split <;> omega

theorem Binary32.negative_ofParts (n : Bool) {m : Nat} (h : m < 0x80000000) : (ofParts n m).negative = n := by
  rw [negative, toNat_bits_ofParts n h]
  cases n <;> simp [h]

theorem Binary32.magnitude_ofParts (n : Bool) {m : Nat} (h : m < 0x80000000) : (ofParts n m).magnitude = m := by
  rw [magnitude, toNat_bits_ofParts n h]
  cases n <;> simp [Nat.mod_eq_of_lt h]

/-- A NaN that is quiet already comes back as well, so whatever was widened once is not changed by narrowing it. -/
theorem widen_narrow_widen (x : Binary32) : x.widen.narrow.widen = x.widen := by
  by_cases hx : x.isNaN = false
  · rw [narrow_widen hx]
  have hnan : Format.single.infinity < x.magnitude := by simpa [Binary32.isNaN] using hx
  have hlt := Format.convert_single_double_lt x.magnitude
  have hwide := Format.convert_single_double_of_nan hnan
  have hpayload : x.magnitude % 2 ^ 23 ||| 2 ^ 22 < 2 ^ 23 :=
    Nat.or_lt_two_pow (Nat.mod_lt _ (by decide)) (by decide)
  have hquiet : 2 ^ 22 ≤ x.magnitude % 2 ^ 23 ||| 2 ^ 22 := Nat.right_le_or
  have hinf : Format.single.infinity = 255 * 2 ^ 23 := rfl
  have hnarrow : x.widen.narrow =
      .ofParts x.negative (Format.single.infinity + (x.magnitude % 2 ^ 23 ||| 2 ^ 22)) := by
    rw [Binary32.widen, Binary64.narrow, Binary64.negative_ofParts _ hlt, Binary64.magnitude_ofParts _ hlt, hwide,
      Format.convert_double_single_of_nan (by omega) hpayload, Nat.or_assoc, Nat.or_self]
  have hback : (Format.single.infinity + (x.magnitude % 2 ^ 23 ||| 2 ^ 22)) % 2 ^ 23 =
      x.magnitude % 2 ^ 23 ||| 2 ^ 22 := by omega
  rw [hnarrow, Binary32.widen, Binary32.negative_ofParts _ (by omega), Binary32.magnitude_ofParts _ (by omega),
    Format.convert_single_double_of_nan (by omega), hback, Nat.or_assoc, Nat.or_self, Binary32.widen, hwide]

end WireFormat.Floating
