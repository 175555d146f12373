/-!
# UTF-8

Text is carried as its UTF-8 bytes. `decode` accepts exactly the well-formed byte strings (shortest forms, no
surrogates, nothing above U+10FFFF) and otherwise locates the first fault. It looks at one byte at a time: the lead
byte of a character fixes which bytes may follow, and a character ends when none is due any more.
-/
namespace WireFormat.Utf8

def encode (s : String) : List UInt8 :=
  s.toList.flatMap String.utf8EncodeChar

/-- Where a byte string stops being UTF-8. All bytes before `index` are well formed; `length` counts how many bytes
from there begin a character that the next byte cannot continue, and is missing when the string ends instead. -/
structure Fault where
  index : Nat
  length : Option Nat
deriving DecidableEq, Repr

def Fault.message (fault : Fault) : String :=
  match fault.length with
  | some length => s!"invalid utf-8 sequence of {length} bytes from index {fault.index}"
  | none => s!"incomplete utf-8 byte sequence from index {fault.index}"

structure ByteRange where
  low : UInt8
  high : UInt8
deriving DecidableEq, Repr

def ByteRange.contains (range : ByteRange) (b : UInt8) : Bool :=
  range.low ≤ b && b ≤ range.high

/-- The range of a continuation byte that nothing restricts further. -/
def continuation : ByteRange := ⟨0x80, 0xBF⟩

/-- What may follow a lead byte, or nothing if no character begins with it. The narrower second ranges leave out
overlong forms (`E0`, `F0`), surrogates (`ED`) and code points above U+10FFFF (`F4`). -/
def followers (lead : UInt8) : Option (List ByteRange) :=
  if lead ≤ 0x7F then some []
  else if lead < 0xC2 then none
  else if lead ≤ 0xDF then some [continuation]
  else if lead = 0xE0 then some [⟨0xA0, 0xBF⟩, continuation]
  else if lead = 0xED then some [⟨0x80, 0x9F⟩, continuation]
  else if lead ≤ 0xEF then some [continuation, continuation]
  else if lead = 0xF0 then some [⟨0x90, 0xBF⟩, continuation, continuation]
  else if lead ≤ 0xF3 then some [continuation, continuation, continuation]
  else if lead = 0xF4 then some [⟨0x80, 0x8F⟩, continuation, continuation]
  else none

/-- The bits that a lead byte contributes to its code point. -/
def leadBits (lead : UInt8) : Nat :=
  if lead < 0x80 then lead.toNat
  else if lead < 0xE0 then lead.toNat % 32
  else if lead < 0xF0 then lead.toNat % 16
  else lead.toNat % 8

/-- Where the decoder stands: between two characters, or inside one that began at `start`, has `seen` bytes and the
code point bits `code` so far, and needs a byte of `due` and then those of `later`. -/
inductive Progress where
  | between (index : Nat)
  | inside (start seen code : Nat) (due : ByteRange) (later : List ByteRange)

def decodeFrom : Progress → List UInt8 → Except Fault (List Char)
  | .between _, [] => .ok []
  | .between index, b :: rest =>
    match followers b with
    | none => .error ⟨index, some 1⟩
    | some [] => (decodeFrom (.between (index + 1)) rest).map (Char.ofNat (leadBits b) :: ·)
    | some (due :: later) => decodeFrom (.inside index 1 (leadBits b) due later) rest
  | .inside start _ _ _ _, [] => .error ⟨start, none⟩
  | .inside start seen code due later, b :: rest =>
    if due.contains b then
      let code := code * 64 + b.toNat % 64
      match later with
      | [] => (decodeFrom (.between (start + seen + 1)) rest).map (Char.ofNat code :: ·)
      | next :: later => decodeFrom (.inside start (seen + 1) code next later) rest
    else .error ⟨start, some seen⟩

def decode (bs : List UInt8) : Except Fault String :=
  (decodeFrom (.between 0) bs).map String.ofList

example : decode [0x61, 0xC3, 0xA9] = .ok "aé" := rfl
example : decode [0xF0, 0x9F, 0xA6, 0x80] = .ok "🦀" := rfl
example : decode [0x61, 0xED, 0xA0, 0x80] = .error ⟨1, some 1⟩ := rfl
example : decode [0xF0, 0x90, 0x80, 0x41] = .error ⟨0, some 3⟩ := rfl
example : decode [0x61, 0xE2, 0x82] = .error ⟨1, none⟩ := rfl

end WireFormat.Utf8
