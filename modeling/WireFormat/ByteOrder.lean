/-!
# Byte order

Numeric scalars occupy two, four or eight bytes. Their bytes are the base-256 digits of the number, least significant
first in the little order and most significant first in the big one. Main statements: a number within the span of a width
is read back from its bytes, and bytes are read back from their number.
-/
namespace WireFormat

inductive ByteOrder where
  | little
  | big
deriving DecidableEq, Repr

/-- The `width` lowest base-256 digits of a number, least significant first. -/
def digits : (width n : Nat) → List UInt8
  | 0, _ => []
  | width + 1, n => UInt8.ofNat n :: digits width (n / 256)

def ofDigits : List UInt8 → Nat
  | [] => 0
  | b :: bs => b.toNat + 256 * ofDigits bs

/-- How many numbers there are of a given width in bytes. -/
def span : (width : Nat) → Nat
  | 0 => 1
  | width + 1 => 256 * span width

theorem span_pos (width : Nat) : 0 < span width := by
  induction width with
  | zero => exact Nat.one_pos
  | succ width ih => exact Nat.mul_pos (by decide) ih

@[simp] theorem length_digits (width n : Nat) : (digits width n).length = width := by
  induction width generalizing n with
  | zero => rfl
  | succ width ih => simp [digits, ih]

theorem ofDigits_digits (width n : Nat) : ofDigits (digits width n) = n % span width := by
  induction width generalizing n with
  | zero => simp [digits, ofDigits, span, Nat.mod_one]
  | succ width ih =>
    have hb : (UInt8.ofNat n).toNat = n % 256 := by simp
    rw [digits, ofDigits, ih, hb, span, Nat.mod_mul]

theorem digits_ofDigits (bs : List UInt8) : digits bs.length (ofDigits bs) = bs := by
  induction bs with
  | nil => rfl
  | cons b bs ih =>
    have hb : b.toNat < 256 := b.toNat_lt
    have hd : (b.toNat + 256 * ofDigits bs) / 256 = ofDigits bs := by omega
    have hm : UInt8.ofNat (b.toNat + 256 * ofDigits bs) = b :=
      UInt8.toNat_inj.1 (by simp)
    simp only [List.length_cons, ofDigits, digits, hd, hm, ih]

theorem ofDigits_lt (bs : List UInt8) : ofDigits bs < span bs.length := by
  have h := ofDigits_digits bs.length (ofDigits bs)
  rw [digits_ofDigits] at h
  rw [h]
  exact Nat.mod_lt _ (span_pos _)

namespace ByteOrder

/-- Puts digits given least significant first into this order, and takes them out of it again. -/
def arrange : ByteOrder → List UInt8 → List UInt8
  | little, bs => bs
  | big, bs => bs.reverse

@[simp] theorem arrange_arrange (order : ByteOrder) (bs : List UInt8) : order.arrange (order.arrange bs) = bs := by
  cases order <;> simp [arrange]

@[simp] theorem length_arrange (order : ByteOrder) (bs : List UInt8) : (order.arrange bs).length = bs.length := by
  cases order <;> simp [arrange]

/-- The bytes of a numeric scalar that is `width` bytes wide; higher digits are dropped. -/
def bytes (order : ByteOrder) (width n : Nat) : List UInt8 :=
  order.arrange (digits width n)

def number (order : ByteOrder) (bs : List UInt8) : Nat :=
  ofDigits (order.arrange bs)

@[simp] theorem length_bytes (order : ByteOrder) (width n : Nat) : (order.bytes width n).length = width := by
  simp [bytes]

theorem number_bytes (order : ByteOrder) (width n : Nat) : order.number (order.bytes width n) = n % span width := by
  simp [number, bytes, ofDigits_digits]

theorem bytes_number (order : ByteOrder) (bs : List UInt8) : order.bytes bs.length (order.number bs) = bs := by
  rw [bytes, number, ← order.length_arrange bs, digits_ofDigits, arrange_arrange]

theorem number_lt (order : ByteOrder) (bs : List UInt8) : order.number bs < span bs.length := by
  simpa [number] using ofDigits_lt (order.arrange bs)

end ByteOrder

end WireFormat
