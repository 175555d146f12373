/-!
# Hexadecimal text

Two lowercase digits a byte, the high half first. Main statement: a text written so is read back.
-/
namespace WireFormat.Hex

def digit (n : Nat) : Char :=
  Nat.digitChar (n % 16)

def ofByte (b : UInt8) : List Char :=
  [digit (b.toNat / 16), digit b.toNat]

def ofBytes (bs : List UInt8) : String :=
  String.ofList (bs.flatMap ofByte)

def digit? (c : Char) : Option Nat :=
  (List.range 16).find? fun n => digit n == c

def bytesOf? : List Char → Option (List UInt8)
  | [] => some []
  | [_] => none
  | high :: low :: rest => do
    let high ← digit? high
    let low ← digit? low
    let bs ← bytesOf? rest
    return UInt8.ofNat (16 * high + low) :: bs

def toBytes? (s : String) : Option (List UInt8) :=
  bytesOf? s.toList

theorem digit?_digit (n : Nat) : digit? (digit n) = some (n % 16) := by
  have h : ∀ m : Fin 16, digit? (Nat.digitChar m) = some m.val := by decide
  exact h ⟨n % 16, Nat.mod_lt n (by decide)⟩

theorem toBytes?_ofBytes (bs : List UInt8) : toBytes? (ofBytes bs) = some bs := by
  simp only [toBytes?, ofBytes, String.toList_ofList]
  induction bs with
  | nil => rfl
  | cons b bs ih =>
    have hb : b.toNat < 256 := b.toNat_lt
    have hm : 16 * (b.toNat / 16 % 16) + b.toNat % 16 = b.toNat := by omega
    have hv : UInt8.ofNat (16 * (b.toNat / 16 % 16) + b.toNat % 16) = b := by rw [hm]; simp
    simp only [ofByte, List.flatMap_cons, List.cons_append, List.nil_append, bytesOf?, digit?_digit, ih]
    exact congrArg (fun b => some (b :: bs)) hv

end WireFormat.Hex
