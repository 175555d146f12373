import Mathlib
import WireFormat.Proofs.Rounding

/-!
# The number nearest to a rational

A magnitude is a number by its exponent field and its fraction. Infinity counts as the power of two that would come
after the greatest finite number, so overflow is decided as everything else is, by the middle between two neighbours.
Main statements: greater magnitudes are greater numbers; `round` gives the magnitude nearest to a rational, the even one
of two that are equally near; no second one is nearest.
-/
namespace WireFormat.Floating

/-- Below the middle of two whole numbers the lower one is taken, above it the upper one, and on it the even one. -/
theorem nearestEven_cases (n d : Nat) :
    nearestEven n d = n / d ∧ (2 * n < (2 * (n / d) + 1) * d ∨ 2 * n = (2 * (n / d) + 1) * d ∧ n / d % 2 = 0) ∨
      nearestEven n d = n / d + 1 ∧
        ((2 * (n / d) + 1) * d < 2 * n ∨ 2 * n = (2 * (n / d) + 1) * d ∧ n / d % 2 = 1) := by
  have hsplit : n = n / d * d + n % d := (Nat.div_add_mod' n d).symm
  have hmiddle : (2 * (n / d) + 1) * d = 2 * (n / d * d) + d := by ring
  simp only [nearestEven]
  split_ifs <;> omega

/-- A whole number is passed where the middle behind it is passed, or reached and the number is odd. -/
theorem lt_nearestEven_iff (q n : Nat) {d : Nat} (hd : 0 < d) :
    q < nearestEven n d ↔ (2 * q + 1) * d < 2 * n ∨ (2 * q + 1) * d = 2 * n ∧ q % 2 = 1 := by
  have hle : n / d * d ≤ n := Nat.div_mul_le_self n d
  have hlt : n < (n / d + 1) * d := (Nat.div_lt_iff_lt_mul hd).1 (Nat.lt_succ_self _)
  have hcases := nearestEven_cases n d
  generalize n / d = p at *
  rcases lt_trichotomy q p with h | rfl | h
  · have hbelow : (q + 1) * d ≤ p * d := Nat.mul_le_mul_right d h
    have hmiddle : (2 * q + 1) * d + d = 2 * ((q + 1) * d) := by ring
    omega
  · omega
  · have habove : (p + 1) * d ≤ q * d := Nat.mul_le_mul_right d h
    have hmiddle : (2 * q + 1) * d = 2 * (q * d) + d := by ring
    omega

/-- Rounding does not pass a whole number on either side. -/
theorem nearestEven_le {n d bound : Nat} (hd : 0 < d) (h : n ≤ bound * d) : nearestEven n d ≤ bound := by
  have hnot : ¬bound < nearestEven n d := by
    have hmiddle : (2 * bound + 1) * d = 2 * (bound * d) + d := by ring
    rw [lt_nearestEven_iff _ _ hd]
    omega
  exact Nat.not_lt.1 hnot

theorem le_nearestEven {n d bound : Nat} (hd : 0 < d) (h : bound * d ≤ n) : bound ≤ nearestEven n d := by
  have hle : bound ≤ n / d := (Nat.le_div_iff_mul_le hd).2 h
  have hcases := nearestEven_cases n d
  omega

/-- A sign that `y` may have; zero may have both. -/
def SignOf (y : ℚ) (negative : Bool) : Prop :=
  if negative then y ≤ 0 else 0 ≤ y

namespace Format

variable (f : Format)

/-- What is subtracted from the exponent field. -/
def bias : Int :=
  2 ^ (f.exponentBits - 1) - 1

/-- The number of a magnitude, by its exponent field and its fraction. Infinity stands for the power of two that would
come after the greatest finite number. -/
def number (magnitude : Nat) : ℚ :=
  let field := magnitude / 2 ^ f.fractionBits
  let fraction : ℚ := (magnitude % 2 ^ f.fractionBits : Nat) / 2 ^ f.fractionBits
  if field = 0 then fraction * 2 ^ (1 - f.bias) else (1 + fraction) * 2 ^ (field - f.bias)

theorem leastExponent_eq : f.leastExponent = 1 - f.bias - f.fractionBits := by
  simp only [leastExponent, bias, Nat.one_shiftLeft]
  push_cast
  ring

theorem number_eq (magnitude : Nat) :
    f.number magnitude = f.significand magnitude * 2 ^ f.exponent magnitude := by
  have hp : (2 : ℚ) ^ f.fractionBits ≠ 0 := by positivity
  have hscale : ∀ e : Int, (2 : ℚ) ^ e = 2 ^ f.fractionBits * 2 ^ (e - f.fractionBits) := by
    intro e
    rw [zpow_sub₀ two_ne_zero, zpow_natCast]
    field_simp
  rw [exponent_eq, leastExponent_eq]
  rcases Nat.lt_or_ge magnitude (2 ^ f.fractionBits) with h | h
  · rw [number, Nat.div_eq_of_lt h, Nat.mod_eq_of_lt h, if_pos rfl, f.significand_of_lt h, hscale]
    field_simp
    simp
  · have hfield : 0 < magnitude / 2 ^ f.fractionBits := Nat.div_pos h (Nat.two_pow_pos _)
    have he : 1 - f.bias - f.fractionBits + ((magnitude / 2 ^ f.fractionBits - 1 : Nat) : Int) =
        (magnitude / 2 ^ f.fractionBits : Nat) - f.bias - f.fractionBits := by
      omega
    rw [number, if_neg hfield.ne', f.significand_of_le h, he, hscale]
    push_cast
    field_simp

theorem number_zero : f.number 0 = 0 := by
  simp [number]

theorem number_infinity (hbits : 0 < f.exponentBits) : f.number f.infinity = 2 ^ (f.bias + 1) := by
  obtain ⟨width, hwidth⟩ := Nat.exists_eq_add_of_lt hbits
  rw [Nat.zero_add] at hwidth
  have hinfinity : f.infinity = (2 ^ (width + 1) - 1) * 2 ^ f.fractionBits := by
    rw [infinity, Nat.one_shiftLeft, Nat.shiftLeft_eq, hwidth]
  have hfield : f.infinity / 2 ^ f.fractionBits = 2 ^ (width + 1) - 1 := by
    rw [hinfinity, Nat.mul_div_cancel _ (Nat.two_pow_pos _)]
  have hfraction : f.infinity % 2 ^ f.fractionBits = 0 := by
    rw [hinfinity, Nat.mul_mod_left]
  have hpos : 1 < 2 ^ (width + 1) := Nat.one_lt_two_pow (Nat.succ_ne_zero width)
  have hexponent : ((2 ^ (width + 1) - 1 : Nat) : Int) - f.bias = f.bias + 1 := by
    rw [bias, hwidth, Nat.add_sub_cancel, Nat.cast_sub hpos.le]
    push_cast
    ring
  rw [number, hfield, hfraction, if_neg (by omega), hexponent]
  simp

/-- Units of the spacing that belongs to a field count on from the magnitude of that field, up to the first of the next
field. -/
theorem number_units {field units : Nat} (hnormal : field = 0 ∨ 2 ^ f.fractionBits ≤ units)
    (hunits : units ≤ 2 * 2 ^ f.fractionBits) :
    f.number (field * 2 ^ f.fractionBits + units) = units * 2 ^ (f.leastExponent + field) := by
  have hp : 0 < 2 ^ f.fractionBits := Nat.two_pow_pos _
  rw [number_eq, exponent_eq]
  rcases Nat.lt_or_ge units (2 ^ f.fractionBits) with hlt | hge
  · obtain rfl : field = 0 := hnormal.resolve_right (Nat.not_le.2 hlt)
    rw [Nat.zero_mul, Nat.zero_add, f.significand_of_lt hlt, Nat.div_eq_of_lt hlt]
  · obtain ⟨rest, rfl⟩ := Nat.exists_eq_add_of_le hge
    have hle : 2 ^ f.fractionBits ≤ field * 2 ^ f.fractionBits + (2 ^ f.fractionBits + rest) := by omega
    have hsplit :
        field * 2 ^ f.fractionBits + (2 ^ f.fractionBits + rest) = rest + (field + 1) * 2 ^ f.fractionBits := by
      ring
    rw [f.significand_of_le hle, hsplit, Nat.add_mul_div_right _ _ hp, Nat.add_mul_mod_self_right]
    rcases Nat.lt_or_ge rest (2 ^ f.fractionBits) with hr | hr
    · rw [Nat.div_eq_of_lt hr, Nat.mod_eq_of_lt hr, Nat.zero_add, Nat.add_sub_cancel]
    · obtain rfl : rest = 2 ^ f.fractionBits := by omega
      have he : f.leastExponent + ((1 + (field + 1) - 1 : Nat) : Int) = f.leastExponent + field + 1 := by omega
      rw [Nat.div_self hp, Nat.mod_self, he, zpow_add_one₀ two_ne_zero]
      push_cast
      ring

theorem magnitude_eq (magnitude : Nat) :
    (magnitude / 2 ^ f.fractionBits - 1) * 2 ^ f.fractionBits + f.significand magnitude = magnitude := by
  have hp : 0 < 2 ^ f.fractionBits := Nat.two_pow_pos _
  rcases Nat.lt_or_ge magnitude (2 ^ f.fractionBits) with h | h
  · rw [Nat.div_eq_of_lt h, f.significand_of_lt h]
    simp
  · have hfield : 0 < magnitude / 2 ^ f.fractionBits := Nat.div_pos h hp
    rw [f.significand_of_le h, ← Nat.add_assoc, ← Nat.succ_mul, Nat.succ_eq_add_one, Nat.sub_add_cancel hfield]
    exact Nat.div_add_mod' magnitude _

theorem le_significand {magnitude : Nat} (h : 2 ^ f.fractionBits ≤ magnitude) :
    2 ^ f.fractionBits ≤ f.significand magnitude := by
  rw [f.significand_of_le h]
  exact Nat.le_add_right _ _

/-- The next number is one unit of the exponent on. -/
theorem number_succ (magnitude : Nat) :
    f.number (magnitude + 1) = f.number magnitude + 2 ^ f.exponent magnitude := by
  have hlt := f.significand_lt magnitude
  have hnormal : magnitude / 2 ^ f.fractionBits - 1 = 0 ∨ 2 ^ f.fractionBits ≤ f.significand magnitude + 1 := by
    rcases Nat.lt_or_ge magnitude (2 ^ f.fractionBits) with h | h
    · left
      rw [Nat.div_eq_of_lt h]
    · right
      exact (f.le_significand h).trans (Nat.le_succ _)
  have hnext := f.number_units hnormal (by omega)
  rw [← Nat.add_assoc, magnitude_eq] at hnext
  rw [hnext, number_eq, exponent_eq]
  push_cast
  ring

theorem number_strictMono : StrictMono f.number := by
  apply strictMono_nat_of_lt_succ
  intro magnitude
  have hunit : (0 : ℚ) < 2 ^ f.exponent magnitude := by positivity
  rw [number_succ]
  linarith

theorem number_nonneg (magnitude : Nat) : 0 ≤ f.number magnitude := by
  rw [number_eq]
  positivity

/-- Of the magnitudes up to infinity this one is nearest to `y`, and it is even if another one is as near. -/
structure Nears (y : ℚ) (magnitude : Nat) : Prop where
  le_infinity : magnitude ≤ f.infinity
  nearest : ∀ other ≤ f.infinity, |y - f.number magnitude| ≤ |y - f.number other|
  even : ∀ other ≤ f.infinity, other ≠ magnitude → |y - f.number other| = |y - f.number magnitude| → magnitude % 2 = 0

/-- The middle between a number and the next one. -/
def middle (magnitude : Nat) : ℚ :=
  (f.number magnitude + f.number (magnitude + 1)) / 2

variable {f} {y : ℚ}

theorem distance_of_le {low other : Nat} (h : f.number low ≤ y) (hother : other ≤ low) :
    |y - f.number other| = y - f.number other := by
  have hmono := f.number_strictMono.monotone hother
  exact abs_of_nonneg (by linarith)

theorem distance_of_ge {high other : Nat} (h : y ≤ f.number high) (hother : high ≤ other) :
    |y - f.number other| = f.number other - y := by
  have hmono := f.number_strictMono.monotone hother
  rw [abs_sub_comm]
  exact abs_of_nonneg (by linarith)

/-- Of two neighbours around `y`, the nearer one is nearest among all magnitudes. -/
theorem nears_of_between {low magnitude : Nat} (hinf : low < f.infinity) (hlow : f.number low ≤ y)
    (hhigh : y ≤ f.number (low + 1))
    (h : magnitude = low ∧ (y < f.middle low ∨ y = f.middle low ∧ low % 2 = 0) ∨
      magnitude = low + 1 ∧ (f.middle low < y ∨ y = f.middle low ∧ low % 2 = 1)) :
    f.Nears y magnitude := by
  have hdown := distance_of_le hlow le_rfl
  have hup := distance_of_ge hhigh le_rfl
  have hle : |y - f.number magnitude| ≤ y - f.number low ∧ |y - f.number magnitude| ≤ f.number (low + 1) - y := by
    unfold middle at h
    rcases h with ⟨rfl, h⟩ | ⟨rfl, h⟩
    · rw [hdown]
      constructor
      · exact le_rfl
      · rcases h with h | ⟨h, -⟩ <;> linarith
    · rw [hup]
      constructor
      · rcases h with h | ⟨h, -⟩ <;> linarith
      · exact le_rfl
  constructor
  · omega
  · intro other _
    rcases Nat.lt_or_ge low other with ho | ho
    · have hmono := f.number_strictMono.monotone ho
      rw [distance_of_ge hhigh ho]
      linarith
    · have hmono := f.number_strictMono.monotone ho
      rw [distance_of_le hlow ho]
      linarith
  · intro other _ hne heq
    rcases Nat.lt_or_ge low other with ho | ho
    · rw [distance_of_ge hhigh ho] at heq
      obtain rfl : other = low + 1 := le_antisymm (f.number_strictMono.le_iff_le.1 (by linarith)) ho
      rcases h with ⟨rfl, h | h⟩ | ⟨rfl, -⟩
      · unfold middle at h
        rw [hdown] at heq
        linarith
      · exact h.2
      · exact absurd rfl hne
    · rw [distance_of_le hlow ho] at heq
      obtain rfl : other = low := le_antisymm ho (f.number_strictMono.le_iff_le.1 (by linarith))
      rcases h with ⟨rfl, -⟩ | ⟨rfl, h | h⟩
      · exact absurd rfl hne
      · unfold middle at h
        rw [hup] at heq
        linarith
      · omega

/-- From infinity on, infinity is nearest. -/
theorem nears_infinity (h : f.number f.infinity ≤ y) : f.Nears y f.infinity := by
  have hself := distance_of_le h le_rfl
  constructor
  · exact le_rfl
  · intro other ho
    have hmono := f.number_strictMono.monotone ho
    rw [hself, distance_of_le h ho]
    linarith
  · intro other ho hne heq
    have hlt := f.number_strictMono (lt_of_le_of_ne ho hne)
    rw [hself, distance_of_le h ho] at heq
    linarith

theorem nearer_above_iff {a b : ℚ} (h : a < b) : |y - b| ≤ |y - a| ↔ a + b ≤ 2 * y := by
  rw [← sq_le_sq]
  constructor <;> intro hle <;> nlinarith

theorem nearer_below_iff {a b : ℚ} (h : a < b) : |y - a| ≤ |y - b| ↔ 2 * y ≤ a + b := by
  rw [← sq_le_sq]
  constructor <;> intro hle <;> nlinarith

/-- A nearest magnitude beyond a number lies beyond the middle behind it, or on the middle if the number is odd. -/
theorem Nears.middle_le {magnitude low : Nat} (h : f.Nears y magnitude) (hlt : low < magnitude) :
    f.middle low < y ∨ f.middle low = y ∧ low % 2 = 1 := by
  have hinf : low ≤ f.infinity := hlt.le.trans h.le_infinity
  have hmono := f.number_strictMono.monotone hlt
  have hsum := (nearer_above_iff (f.number_strictMono hlt)).1 (h.nearest low hinf)
  unfold middle
  rcases lt_or_ge ((f.number low + f.number (low + 1)) / 2) y with hmid | hmid
  · exact .inl hmid
  · right
    obtain rfl : magnitude = low + 1 := le_antisymm (f.number_strictMono.le_iff_le.1 (by linarith)) hlt
    have hback := (nearer_below_iff (f.number_strictMono hlt)).2 (show 2 * y ≤ _ by linarith)
    have heven := h.even low hinf (Nat.ne_of_lt hlt) (le_antisymm hback (h.nearest low hinf))
    exact ⟨by linarith, by omega⟩

theorem Nears.le_middle {magnitude low : Nat} (h : f.Nears y magnitude) (hle : magnitude ≤ low)
    (hlow : low < f.infinity) : y < f.middle low ∨ y = f.middle low ∧ low % 2 = 0 := by
  have hlt : magnitude < low + 1 := Nat.lt_succ_of_le hle
  have hmono := f.number_strictMono.monotone hle
  have hsum := (nearer_below_iff (f.number_strictMono hlt)).1 (h.nearest (low + 1) hlow)
  unfold middle
  rcases lt_or_ge y ((f.number low + f.number (low + 1)) / 2) with hmid | hmid
  · exact .inl hmid
  · right
    obtain rfl : magnitude = low := le_antisymm hle (f.number_strictMono.le_iff_le.1 (by linarith))
    have hback := (nearer_above_iff (f.number_strictMono hlt)).2 (show _ ≤ 2 * y by linarith)
    have heven := h.even (magnitude + 1) hlow (Nat.ne_of_gt hlt) (le_antisymm hback (h.nearest (magnitude + 1) hlow))
    exact ⟨by linarith, heven⟩

/-- The middle between two neighbours decides on which side of it the nearest magnitude lies. -/
theorem Nears.lt_iff {magnitude low : Nat} (h : f.Nears y magnitude) (hlow : low < f.infinity) :
    low < magnitude ↔ f.middle low < y ∨ f.middle low = y ∧ low % 2 = 1 := by
  constructor
  · exact h.middle_le
  · intro hside
    by_contra hge
    rcases h.le_middle (Nat.not_lt.1 hge) hlow with hbelow | ⟨hmid, heven⟩
    · rcases hside with habove | ⟨hmid, -⟩ <;> linarith
    · rcases hside with habove | ⟨-, hodd⟩
      · linarith
      · omega

/-- No two magnitudes are nearest. -/
theorem Nears.unique {magnitude other : Nat} (h : f.Nears y magnitude) (hother : f.Nears y other) :
    magnitude = other := by
  have hnot : ∀ {m n : Nat}, f.Nears y m → f.Nears y n → ¬m < n := by
    intro m n hm hn hlt
    have hinf := hlt.trans_le hn.le_infinity
    exact Nat.lt_irrefl m ((hm.lt_iff hinf).2 ((hn.lt_iff hinf).1 hlt))
  exact Nat.le_antisymm (Nat.not_lt.1 (hnot hother h)) (Nat.not_lt.1 (hnot h hother))

/-- A number is nearest to itself. -/
theorem nears_number {magnitude : Nat} (h : magnitude ≤ f.infinity) : f.Nears (f.number magnitude) magnitude := by
  constructor
  · exact h
  · intro other _
    rw [sub_self, abs_zero]
    exact abs_nonneg _
  · intro other _ hne heq
    rw [sub_self, abs_zero, abs_eq_zero, sub_eq_zero] at heq
    exact absurd (f.number_strictMono.injective heq).symm hne

theorem nears_min (magnitude : Nat) : f.Nears (f.number magnitude) (min magnitude f.infinity) := by
  rcases le_total magnitude f.infinity with h | h
  · rw [min_eq_left h]
    exact nears_number h
  · rw [min_eq_right h]
    exact nears_infinity (f.number_strictMono.monotone h)

/-- The units of a number are a quotient that is rounded to a whole number. -/
theorem unitsOf_eq_nearestEven (m : Nat) (e unit : Int) :
    ∃ n d : Nat, 0 < d ∧ unitsOf m e unit = nearestEven n d ∧ (m : ℚ) * 2 ^ e = n / d * 2 ^ unit := by
  rcases le_total e unit with h | h
  · obtain ⟨k, rfl⟩ := Int.exists_add_of_le h
    refine ⟨m, 2 ^ k, Nat.two_pow_pos k, ?_, ?_⟩
    · rw [unitsOf, if_pos h, Nat.one_shiftLeft]
      simp
    · rw [zpow_add₀ two_ne_zero, zpow_natCast]
      push_cast
      field_simp
  · obtain ⟨k, rfl⟩ := Int.exists_add_of_le h
    refine ⟨m * 2 ^ k, 1, Nat.one_pos, ?_, ?_⟩
    · have hshift := unitsOf_mul_two_pow m (unit + k) unit k
      have hwhole := nearestEven_mul_self (m * 2 ^ k) Nat.one_pos
      rw [add_sub_cancel_right, unitsOf_self] at hshift
      rw [Nat.mul_one] at hwhole
      rw [← hshift, hwhole]
    · rw [zpow_add₀ two_ne_zero, zpow_natCast]
      push_cast
      ring

/-- The spacing is as wide as the leading one of the number asks for, and never narrower than between the least
numbers. -/
theorem spacing_bounds (f : Format) {m : Nat} (hm : m ≠ 0) (e : Int) :
    (m : ℚ) * 2 ^ e < 2 * 2 ^ f.fractionBits * 2 ^ f.spacing m e ∧
      f.leastExponent ≤ f.spacing m e ∧
      (f.spacing m e = f.leastExponent ∨ 2 ^ f.fractionBits * 2 ^ f.spacing m e ≤ (m : ℚ) * 2 ^ e) := by
  have hlow : (2 : ℚ) ^ m.log2 ≤ m := by exact_mod_cast Nat.log2_self_le hm
  have hhigh : (m : ℚ) < 2 * 2 ^ m.log2 := by
    have h := Nat.lt_log2_self (n := m)
    rw [Nat.pow_succ'] at h
    exact_mod_cast h
  have he : (0 : ℚ) < 2 ^ e := by positivity
  have hscale : ∀ (p : Nat) (j : Int), (2 : ℚ) ^ p * 2 ^ j = 2 ^ (p + j : Int) := by
    intro p j
    rw [zpow_add₀ two_ne_zero, zpow_natCast]
  refine ⟨?_, le_max_right _ _, ?_⟩
  · have hwide : (m.log2 + e : Int) ≤ f.fractionBits + f.spacing m e := by
      unfold spacing
      omega
    calc (m : ℚ) * 2 ^ e < 2 * 2 ^ m.log2 * 2 ^ e := by gcongr
      _ = 2 * 2 ^ (m.log2 + e : Int) := by rw [mul_assoc, hscale]
      _ ≤ 2 * 2 ^ (f.fractionBits + f.spacing m e : Int) := by
        gcongr
        norm_num
      _ = 2 * 2 ^ f.fractionBits * 2 ^ f.spacing m e := by rw [mul_assoc, hscale]
  · rcases max_choice ((m.log2 : Int) + e - f.fractionBits) f.leastExponent with h | h
    · right
      rw [hscale, spacing, h, add_sub_cancel, ← hscale]
      gcongr
    · exact .inl h

/-- So many halves of a `d`-th of the unit of a field, a scale on which a quotient by `d` and the middles between whole
units are compared as whole numbers. -/
def halves (f : Format) (field d count : Nat) : ℚ :=
  count / (2 * d) * 2 ^ (f.leastExponent + field)

theorem halves_strictMono {d : Nat} (hd : 0 < d) (field : Nat) : StrictMono (f.halves field d) := by
  intro a b hab
  have hdq : (0 : ℚ) < d := by exact_mod_cast hd
  have habq : (a : ℚ) < b := by exact_mod_cast hab
  unfold halves
  gcongr

variable {field units d : Nat}

theorem halves_quotient (hd : 0 < d) (n : Nat) :
    (n : ℚ) / d * 2 ^ (f.leastExponent + field) = f.halves field d (2 * n) := by
  have hdq : (d : ℚ) ≠ 0 := by exact_mod_cast hd.ne'
  unfold halves
  push_cast
  field_simp

theorem number_eq_halves (hd : 0 < d) (hnormal : field = 0 ∨ 2 ^ f.fractionBits ≤ units)
    (hunits : units ≤ 2 * 2 ^ f.fractionBits) :
    f.number (field * 2 ^ f.fractionBits + units) = f.halves field d (2 * (units * d)) := by
  rw [f.number_units hnormal hunits, ← halves_quotient hd]
  have hdq : (d : ℚ) ≠ 0 := by exact_mod_cast hd.ne'
  push_cast
  field_simp

theorem middle_eq_halves (hd : 0 < d) (hnormal : field = 0 ∨ 2 ^ f.fractionBits ≤ units)
    (hunits : units < 2 * 2 ^ f.fractionBits) :
    f.middle (field * 2 ^ f.fractionBits + units) = f.halves field d ((2 * units + 1) * d) := by
  have hnext : field = 0 ∨ 2 ^ f.fractionBits ≤ units + 1 := hnormal.imp_right fun h => h.trans (Nat.le_add_right _ 1)
  rw [middle, Nat.add_assoc, number_eq_halves hd hnormal hunits.le, number_eq_halves hd hnext hunits]
  unfold halves
  push_cast
  ring

/-- A quotient of units is rounded by rounding the quotient. -/
theorem nears_units (field : Nat) (hf : 0 < f.fractionBits) {n : Nat} (hd : 0 < d)
    (hnormal : field = 0 ∨ 2 ^ f.fractionBits * d ≤ n) (hunits : n ≤ 2 * 2 ^ f.fractionBits * d) :
    f.Nears (n / d * 2 ^ (f.leastExponent + field))
      (min (field * 2 ^ f.fractionBits + nearestEven n d) f.infinity) := by
  have hmono := f.halves_strictMono hd field
  rw [halves_quotient hd]
  rcases hunits.eq_or_lt with rfl | hunits
  · rw [nearestEven_mul_self _ hd, ← number_eq_halves hd (.inr (Nat.le_mul_of_pos_left _ two_pos)) le_rfl]
    exact nears_min _
  replace hnormal : field = 0 ∨ 2 ^ f.fractionBits ≤ n / d := by rwa [Nat.le_div_iff_mul_le hd]
  replace hunits : n / d < 2 * 2 ^ f.fractionBits := by rwa [Nat.div_lt_iff_lt_mul hd]
  have hlow := number_eq_halves hd hnormal hunits.le
  have hnext : field = 0 ∨ 2 ^ f.fractionBits ≤ n / d + 1 := hnormal.imp_right fun h => h.trans (Nat.le_add_right _ 1)
  have hhigh := number_eq_halves hd hnext hunits
  have hmiddle := middle_eq_halves hd hnormal hunits
  have heven : 2 ∣ 2 ^ f.fractionBits := dvd_pow_self 2 hf.ne'
  have hparity : (field * 2 ^ f.fractionBits + n / d) % 2 = n / d % 2 := by
    rw [Nat.add_mod, Nat.mod_eq_zero_of_dvd (heven.mul_left field), Nat.zero_add, Nat.mod_mod]
  have hle : n / d * d ≤ n := Nat.div_mul_le_self n d
  have hlt : n < (n / d + 1) * d := (Nat.div_lt_iff_lt_mul hd).1 (Nat.lt_succ_self _)
  have hcases := nearestEven_cases n d
  rcases Nat.lt_or_ge (field * 2 ^ f.fractionBits + n / d) f.infinity with hinf | hinf
  · rw [Nat.min_eq_left (by omega)]
    apply nears_of_between hinf
    · rw [hlow, hmono.le_iff_le]
      omega
    · rw [Nat.add_assoc, hhigh, hmono.le_iff_le]
      omega
    · rw [hmiddle, hmono.lt_iff_lt, hmono.lt_iff_lt, hmono.injective.eq_iff, hparity]
      omega
  · rw [Nat.min_eq_right (by omega)]
    apply nears_infinity
    apply (f.number_strictMono.monotone hinf).trans
    rw [hlow, hmono.le_iff_le]
    omega

/-- Rounding gives the nearest magnitude. -/
theorem round_nears (hf : 0 < f.fractionBits) (m : Nat) (e : Int) : f.Nears (m * 2 ^ e) (f.round m e) := by
  by_cases hm : m = 0
  · subst hm
    have hzero := nears_number (Nat.zero_le f.infinity)
    rw [number_zero] at hzero
    simpa [round] using hzero
  obtain ⟨hhigh, hleast, hlow⟩ := f.spacing_bounds hm e
  obtain ⟨n, d, hd, hunits, hvalue⟩ := unitsOf_eq_nearestEven m e (f.spacing m e)
  obtain ⟨field, hfield⟩ := Int.exists_add_of_le hleast
  have hdq : (0 : ℚ) < d := by exact_mod_cast hd
  have hunit : (0 : ℚ) < 2 ^ (f.leastExponent + field) := by positivity
  have hround : f.round m e = min (field * 2 ^ f.fractionBits + nearestEven n d) f.infinity := by
    rw [f.round_of_ne_zero hm, hunits, hfield, add_sub_cancel_left, Int.toNat_natCast]
  rw [hvalue, hfield] at hhigh hlow
  rw [hvalue, hfield, hround]
  apply nears_units field hf hd
  · rcases hlow with h | h
    · left
      omega
    · right
      rw [mul_le_mul_iff_of_pos_right hunit, le_div_iff₀ hdq] at h
      exact_mod_cast h
  · rw [mul_lt_mul_iff_of_pos_right hunit, div_lt_iff₀ hdq] at hhigh
    exact_mod_cast hhigh.le

variable (f) in
/-- The number of a magnitude with a sign. -/
def signed (negative : Bool) (magnitude : Nat) : ℚ :=
  if negative then -f.number magnitude else f.number magnitude

theorem abs_signed (negative : Bool) (magnitude : Nat) : |f.signed negative magnitude| = f.number magnitude := by
  cases negative
  · exact abs_of_nonneg (f.number_nonneg magnitude)
  · exact (abs_neg _).trans (abs_of_nonneg (f.number_nonneg magnitude))

variable (f) in
/-- No number of the format is nearer to `y` than this one, and its magnitude is even if another one is as near. -/
structure Nearest (y : ℚ) (negative : Bool) (magnitude : Nat) : Prop where
  le_infinity : magnitude ≤ f.infinity
  nearest : ∀ sign, ∀ other ≤ f.infinity, |y - f.signed negative magnitude| ≤ |y - f.signed sign other|
  even : ∀ sign, ∀ other ≤ f.infinity, other ≠ magnitude →
    |y - f.signed sign other| = |y - f.signed negative magnitude| → magnitude % 2 = 0

theorem distance_le (y : ℚ) (sign : Bool) (magnitude : Nat) :
    |(|y| - f.number magnitude)| ≤ |y - f.signed sign magnitude| := by
  rw [← abs_signed sign magnitude]
  exact abs_abs_sub_abs_le _ _

end Format

namespace SignOf

variable {f : Format} {y : ℚ} {negative : Bool}

theorem distance_eq (h : SignOf y negative) (magnitude : Nat) :
    |y - f.signed negative magnitude| = |(|y| - f.number magnitude)| := by
  cases negative
  · rw [abs_of_nonneg (a := y) h]
    rfl
  · rw [abs_of_nonpos (a := y) h, ← abs_neg, Format.signed, if_pos rfl]
    congr 1
    ring

/-- Among the numbers of both signs the nearest one has the sign of `y` and the magnitude nearest to its absolute
value. -/
theorem nearest_iff (h : SignOf y negative) (magnitude : Nat) :
    f.Nearest y negative magnitude ↔ f.Nears |y| magnitude := by
  have hself := h.distance_eq (f := f)
  constructor
  · intro hnearest
    constructor
    · exact hnearest.le_infinity
    · intro other ho
      rw [← hself, ← hself]
      exact hnearest.nearest negative other ho
    · intro other ho hne heq
      rw [← hself, ← hself] at heq
      exact hnearest.even negative other ho hne heq
  · intro hnears
    constructor
    · exact hnears.le_infinity
    · intro sign other ho
      rw [hself]
      exact (hnears.nearest other ho).trans (Format.distance_le y sign other)
    · intro sign other ho hne heq
      rw [hself] at heq
      have hle := Format.distance_le (f := f) y sign other
      exact hnears.even other ho hne (le_antisymm (hle.trans heq.le) (hnears.nearest other ho))

end SignOf

end WireFormat.Floating
