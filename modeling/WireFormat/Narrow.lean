/-!
# Narrow integers

A 64-bit integer is narrowed by keeping its low bits, so it is reduced modulo a power of two into the range of the
narrower type.
-/
namespace WireFormat.Narrow

def u8 (i : Int64) : UInt8 := i.toUInt64.toUInt8

def u16 (i : Int64) : UInt16 := i.toUInt64.toUInt16

def u32 (i : Int64) : UInt32 := i.toUInt64.toUInt32

/-- The low 32 bits in two's complement. -/
def i32 (i : Int64) : Int32 := i.toInt32

theorem toNat_toUInt64 (i : Int64) : (i.toUInt64.toNat : Int) = i.toInt % 0x10000000000000000 := by
  have h := BitVec.toInt_eq_toNat_bmod i.toBitVec
  have ht : i.toInt = Int.bmod i.toUInt64.toNat 0x10000000000000000 := h
  have hn := i.toUInt64.toNat_lt
  rw [ht, Int.bmod_def]
  split <;> omega

theorem toNat_u8 (i : Int64) : ((u8 i).toNat : Int) = i.toInt % 0x100 := by
  have h := toNat_toUInt64 i
  simp only [u8, UInt64.toNat_toUInt8]
  omega

theorem toNat_u16 (i : Int64) : ((u16 i).toNat : Int) = i.toInt % 0x10000 := by
  have h := toNat_toUInt64 i
  simp only [u16, UInt64.toNat_toUInt16]
  omega

theorem toNat_u32 (i : Int64) : ((u32 i).toNat : Int) = i.toInt % 0x100000000 := by
  have h := toNat_toUInt64 i
  simp only [u32, UInt64.toNat_toUInt32]
  omega

theorem toInt_i32 (i : Int64) : (i32 i).toInt = Int.bmod i.toInt 0x100000000 := by
  simp [i32]

end WireFormat.Narrow
