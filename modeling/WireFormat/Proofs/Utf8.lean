import WireFormat.Utf8

/-!
# Text is read back from its bytes

`decode` inverts `encode`, and it accepts nothing else: a byte string that decodes to a text is the encoding of that
text. The lead byte of a character is classified once, by the number of bytes that it announces.
-/
namespace WireFormat.Utf8

theorem contains_iff {range : ByteRange} {b : UInt8} :
    range.contains b = true ↔ range.low.toNat ≤ b.toNat ∧ b.toNat ≤ range.high.toNat := by
  simp [ByteRange.contains, UInt8.le_iff_toNat_le]

theorem contains_continuation {b : UInt8} :
    continuation.contains b = true ↔ 0x80 ≤ b.toNat ∧ b.toNat ≤ 0xBF :=
  contains_iff

/-- Lead bytes by what may follow them. The second byte of a longer character is a continuation byte, narrowed after
four of the lead bytes. -/
inductive Lead (b : UInt8) : Option (List ByteRange) → Prop where
  | one (high : b.toNat ≤ 0x7F) : Lead b (some [])
  | two (low : 0xC2 ≤ b.toNat) (high : b.toNat ≤ 0xDF) : Lead b (some [continuation])
  | three {second : ByteRange} (low : 0xE0 ≤ b.toNat) (high : b.toNat ≤ 0xEF)
      (range : ∀ c : UInt8, second.contains c = true ↔ 0x80 ≤ c.toNat ∧ c.toNat ≤ 0xBF ∧
        (b.toNat = 0xE0 → 0xA0 ≤ c.toNat) ∧ (b.toNat = 0xED → c.toNat ≤ 0x9F)) :
      Lead b (some [second, continuation])
  | four {second : ByteRange} (low : 0xF0 ≤ b.toNat) (high : b.toNat ≤ 0xF4)
      (range : ∀ c : UInt8, second.contains c = true ↔ 0x80 ≤ c.toNat ∧ c.toNat ≤ 0xBF ∧
        (b.toNat = 0xF0 → 0x90 ≤ c.toNat) ∧ (b.toNat = 0xF4 → c.toNat ≤ 0x8F)) :
      Lead b (some [second, continuation, continuation])
  | none (outside : 0x80 ≤ b.toNat ∧ b.toNat < 0xC2 ∨ 0xF4 < b.toNat) : Lead b Option.none

theorem lead_followers (b : UInt8) : Lead b (followers b) := by
  unfold followers
  simp only [UInt8.le_iff_toNat_le, UInt8.lt_iff_toNat_lt, ← UInt8.toNat_inj, UInt8.reduceToNat]
  split
  · exact .one ‹_›
  split
  · exact .none (by omega)
  split
  · exact .two (by omega) ‹_›
  split
  · refine .three (by omega) (by omega) fun c => ?_
    simp only [contains_iff, UInt8.reduceToNat]
    omega
  split
  · refine .three (by omega) (by omega) fun c => ?_
    simp only [contains_iff, UInt8.reduceToNat]
    omega
  split
  · refine .three (by omega) ‹_› fun c => ?_
    simp only [contains_continuation]
    omega
  split
  · refine .four (by omega) (by omega) fun c => ?_
    simp only [contains_iff, UInt8.reduceToNat]
    omega
  split
  · refine .four (by omega) (by omega) fun c => ?_
    simp only [contains_continuation]
    omega
  split
  · refine .four (by omega) (by omega) fun c => ?_
    simp only [contains_iff, UInt8.reduceToNat]
    omega
  · exact .none (by omega)

/-- The last byte of a character. -/
theorem decodeFrom_inside_last {start seen code : Nat} {due : ByteRange} {b : UInt8} (h : due.contains b = true)
    (rest : List UInt8) :
    decodeFrom (.inside start seen code due []) (b :: rest) =
      (decodeFrom (.between (start + seen + 1)) rest).map (Char.ofNat (code * 64 + b.toNat % 64) :: ·) := by
  simp [decodeFrom, h]

/-- A byte inside a character, with more to come. -/
theorem decodeFrom_inside_next {start seen code : Nat} {due next : ByteRange} {later : List ByteRange} {b : UInt8}
    (h : due.contains b = true) (rest : List UInt8) :
    decodeFrom (.inside start seen code due (next :: later)) (b :: rest) =
      decodeFrom (.inside start (seen + 1) (code * 64 + b.toNat % 64) next later) rest := by
  simp [decodeFrom, h]

theorem leadBits_eq (b : UInt8) :
    leadBits b =
      if b.toNat < 0x80 then b.toNat
      else if b.toNat < 0xE0 then b.toNat % 32
      else if b.toNat < 0xF0 then b.toNat % 16
      else b.toNat % 8 := by
  simp [leadBits, UInt8.lt_iff_toNat_lt]

/-- The bytes of one character are consumed together, whatever follows them. -/
theorem decodeFrom_utf8EncodeChar (c : Char) (index : Nat) (rest : List UInt8) :
    decodeFrom (.between index) (String.utf8EncodeChar c ++ rest) =
      (decodeFrom (.between (index + (String.utf8EncodeChar c).length)) rest).map (c :: ·) := by
  have hv : c.val.toNat < 0xD800 ∨ 0xDFFF < c.val.toNat ∧ c.val.toNat < 0x110000 := c.valid
  have hc : Char.ofNat c.val.toNat = c := Char.ofNat_toNat c
  fun_cases String.utf8EncodeChar c with
  | case1 v h =>
    have hb : (UInt8.ofNat v).toNat = v := by rw [UInt8.toNat_ofNat']; omega
    have hl := lead_followers (UInt8.ofNat v)
    generalize hf : followers (UInt8.ofNat v) = f at hl
    cases hl with
    | one =>
      have hcode : leadBits (UInt8.ofNat v) = c.val.toNat := by
        rw [leadBits_eq, hb, if_pos (by omega)]
      simp only [List.cons_append, List.nil_append, decodeFrom, hf, hcode, hc]
      rfl
    | two | three | four | none => omega
  | case2 v h1 h2 =>
    have hb : (UInt8.ofNat (v / 64 % 0x20 + 0xc0)).toNat = v / 64 + 0xc0 := by rw [UInt8.toNat_ofNat']; omega
    have hb₁ : (UInt8.ofNat (v % 0x40 + 0x80)).toNat = v % 64 + 0x80 := by rw [UInt8.toNat_ofNat']; omega
    have hl := lead_followers (UInt8.ofNat (v / 64 % 0x20 + 0xc0))
    generalize UInt8.ofNat (v / 64 % 0x20 + 0xc0) = b at *
    generalize UInt8.ofNat (v % 0x40 + 0x80) = b₁ at *
    generalize hf : followers b = f at hl
    cases hl with
    | two =>
      have hcode : leadBits b * 64 + b₁.toNat % 64 = c.val.toNat := by
        rw [leadBits_eq, hb, if_neg (by omega), if_pos (by omega)]; omega
      have h1 : continuation.contains b₁ = true := contains_continuation.2 (by omega)
      simp only [List.cons_append, List.nil_append, decodeFrom.eq_2, hf, decodeFrom_inside_last h1, hcode, hc]
      rfl
    | one | three | four | none => omega
  | case3 v h1 h2 h3 =>
    have hb : (UInt8.ofNat (v / 4096 % 0x10 + 0xe0)).toNat = v / 4096 + 0xe0 := by rw [UInt8.toNat_ofNat']; omega
    have hb₁ : (UInt8.ofNat (v / 64 % 0x40 + 0x80)).toNat = v / 64 % 64 + 0x80 := by rw [UInt8.toNat_ofNat']; omega
    have hb₂ : (UInt8.ofNat (v % 0x40 + 0x80)).toNat = v % 64 + 0x80 := by rw [UInt8.toNat_ofNat']; omega
    have hl := lead_followers (UInt8.ofNat (v / 4096 % 0x10 + 0xe0))
    generalize UInt8.ofNat (v / 4096 % 0x10 + 0xe0) = b at *
    generalize UInt8.ofNat (v / 64 % 0x40 + 0x80) = b₁ at *
    generalize UInt8.ofNat (v % 0x40 + 0x80) = b₂ at *
    generalize hf : followers b = f at hl
    cases hl with
    | three low high range =>
      have hcode : (leadBits b * 64 + b₁.toNat % 64) * 64 + b₂.toNat % 64 = c.val.toNat := by
        rw [leadBits_eq, hb, if_neg (by omega), if_neg (by omega), if_pos (by omega)]; omega
      have h1 := (range b₁).2 (by omega)
      have h2 : continuation.contains b₂ = true := contains_continuation.2 (by omega)
      simp only [List.cons_append, List.nil_append, decodeFrom.eq_2, hf, decodeFrom_inside_next h1,
        decodeFrom_inside_last h2, hcode, hc]
      rfl
    | one | two | four | none => omega
  | case4 v h1 h2 h3 =>
    have hb : (UInt8.ofNat (v / 262144 % 0x08 + 0xf0)).toNat = v / 262144 + 0xf0 := by
      rw [UInt8.toNat_ofNat']; omega
    have hb₁ : (UInt8.ofNat (v / 4096 % 0x40 + 0x80)).toNat = v / 4096 % 64 + 0x80 := by
      rw [UInt8.toNat_ofNat']; omega
    have hb₂ : (UInt8.ofNat (v / 64 % 0x40 + 0x80)).toNat = v / 64 % 64 + 0x80 := by rw [UInt8.toNat_ofNat']; omega
    have hb₃ : (UInt8.ofNat (v % 0x40 + 0x80)).toNat = v % 64 + 0x80 := by rw [UInt8.toNat_ofNat']; omega
    have hl := lead_followers (UInt8.ofNat (v / 262144 % 0x08 + 0xf0))
    generalize UInt8.ofNat (v / 262144 % 0x08 + 0xf0) = b at *
    generalize UInt8.ofNat (v / 4096 % 0x40 + 0x80) = b₁ at *
    generalize UInt8.ofNat (v / 64 % 0x40 + 0x80) = b₂ at *
    generalize UInt8.ofNat (v % 0x40 + 0x80) = b₃ at *
    generalize hf : followers b = f at hl
    cases hl with
    | four low high range =>
      have hcode : ((leadBits b * 64 + b₁.toNat % 64) * 64 + b₂.toNat % 64) * 64 + b₃.toNat % 64 =
          c.val.toNat := by
        rw [leadBits_eq, hb, if_neg (by omega), if_neg (by omega), if_neg (by omega)]; omega
      have h1 := (range b₁).2 (by omega)
      have h2 : continuation.contains b₂ = true := contains_continuation.2 (by omega)
      have h3 : continuation.contains b₃ = true := contains_continuation.2 (by omega)
      simp only [List.cons_append, List.nil_append, decodeFrom.eq_2, hf, decodeFrom_inside_next h1,
        decodeFrom_inside_next h2, decodeFrom_inside_last h3, hcode, hc]
      rfl
    | one | two | three | none => omega

theorem decodeFrom_flatMap (cs : List Char) (index : Nat) :
    decodeFrom (.between index) (cs.flatMap String.utf8EncodeChar) = .ok cs := by
  induction cs generalizing index with
  | nil => rfl
  | cons c cs ih =>
    rw [List.flatMap_cons, decodeFrom_utf8EncodeChar, ih]
    rfl

theorem decode_encode (s : String) : decode (encode s) = .ok s := by
  rw [decode, encode, decodeFrom_flatMap]
  exact congrArg Except.ok String.ofList_toList

/-- The bytes read so far of a character that is not complete, with its code point so far and what is still due. -/
inductive Begun : List UInt8 → (code : Nat) → (due : ByteRange) → (later : List ByteRange) → Prop where
  | lead {b : UInt8} {due : ByteRange} {later : List ByteRange} (h : followers b = some (due :: later)) :
      Begun [b] (leadBits b) due later
  | next {bs : List UInt8} {code : Nat} {due next : ByteRange} {later : List ByteRange} {b : UInt8}
      (prior : Begun bs code due (next :: later)) (h : due.contains b = true) :
      Begun (bs ++ [b]) (code * 64 + b.toNat % 64) next later

/-- A character has at most three bytes after its lead byte. -/
theorem Begun.length_le {bs : List UInt8} {code : Nat} {due : ByteRange} {later : List ByteRange}
    (h : Begun bs code due later) : bs.length + later.length ≤ 3 := by
  induction h with
  | @lead b due later h =>
    have hl := lead_followers b
    rw [h] at hl
    cases hl <;> simp
  | next prior h ih =>
    simp only [List.length_append, List.length_cons, List.length_nil] at ih ⊢
    omega

theorem toNat_val_ofNat {n : Nat} (h : n < 0xD800 ∨ 0xDFFF < n ∧ n < 0x110000) : (Char.ofNat n).val.toNat = n := by
  rw [Char.ofNat, dif_pos h]
  rfl

/-- The byte that completes a character completes the encoding of its code point. -/
theorem Begun.utf8EncodeChar {bs : List UInt8} {code : Nat} {due : ByteRange} {b : UInt8}
    (h : Begun bs code due []) (hb : due.contains b = true) :
    String.utf8EncodeChar (Char.ofNat (code * 64 + b.toNat % 64)) = bs ++ [b] := by
  cases h with
  | @lead b₀ _ _ h₀ =>
    have hl := lead_followers b₀
    rw [h₀] at hl
    cases hl with
    | two low high =>
      have h1 := contains_continuation.1 hb
      have hcode : leadBits b₀ = b₀.toNat % 32 := by rw [leadBits_eq, if_neg (by omega), if_pos (by omega)]
      have hv := toNat_val_ofNat (n := leadBits b₀ * 64 + b.toNat % 64) (by omega)
      simp only [String.utf8EncodeChar, hv]
      rw [if_neg (by omega), if_pos (by omega)]
      simp only [List.cons_append, List.nil_append, List.cons.injEq, ← UInt8.toNat_inj, UInt8.toNat_ofNat', and_true]
      omega
  | @next bs₁ code₁ due₁ _ _ b₁ prior h₁ =>
    cases prior with
    | @lead b₀ _ _ h₀ =>
      have hl := lead_followers b₀
      rw [h₀] at hl
      cases hl with
      | three low high range =>
        have h1 := (range b₁).1 h₁
        have h2 := contains_continuation.1 hb
        have hcode : leadBits b₀ = b₀.toNat % 16 := by
          rw [leadBits_eq, if_neg (by omega), if_neg (by omega), if_pos (by omega)]
        have hv := toNat_val_ofNat (n := (leadBits b₀ * 64 + b₁.toNat % 64) * 64 + b.toNat % 64) (by omega)
        simp only [String.utf8EncodeChar, hv]
        rw [if_neg (by omega), if_neg (by omega), if_pos (by omega)]
        simp only [List.cons_append, List.nil_append, List.cons.injEq, ← UInt8.toNat_inj, UInt8.toNat_ofNat', and_true]
        omega
    | @next bs₂ code₂ due₂ _ _ b₂ prior h₂ =>
      cases prior with
      | @lead b₀ _ _ h₀ =>
        have hl := lead_followers b₀
        rw [h₀] at hl
        cases hl with
        | four low high range =>
          have h1 := (range b₂).1 h₂
          have h2 := contains_continuation.1 h₁
          have h3 := contains_continuation.1 hb
          have hcode : leadBits b₀ = b₀.toNat % 8 := by
            rw [leadBits_eq, if_neg (by omega), if_neg (by omega), if_neg (by omega)]
          have hv := toNat_val_ofNat
            (n := ((leadBits b₀ * 64 + b₂.toNat % 64) * 64 + b₁.toNat % 64) * 64 + b.toNat % 64) (by omega)
          simp only [String.utf8EncodeChar, hv]
          rw [if_neg (by omega), if_neg (by omega), if_neg (by omega)]
          simp only [List.cons_append, List.nil_append, List.cons.injEq, ← UInt8.toNat_inj, UInt8.toNat_ofNat',
            and_true]
          omega
      | @next bs₃ code₃ due₃ _ _ b₃ prior h₃ =>
        -- A fourth byte after the lead byte is never due.
        have hlen := prior.length_le
        have hpos : 0 < bs₃.length := by cases prior <;> simp
        simp only [List.length_cons, List.length_nil] at hlen
        omega

theorem utf8EncodeChar_ascii {b : UInt8} (h : followers b = some []) :
    String.utf8EncodeChar (Char.ofNat (leadBits b)) = [b] := by
  have hl := lead_followers b
  rw [h] at hl
  cases hl with
  | one high =>
    have hcode : leadBits b = b.toNat := by rw [leadBits_eq, if_pos (by omega)]
    have hv := toNat_val_ofNat (n := leadBits b) (by omega)
    simp only [String.utf8EncodeChar, hv]
    rw [if_pos (by omega)]
    simp [hcode]

theorem exists_of_map_eq_ok {ε α β : Type} {f : α → β} {x : Except ε α} {b : β} (h : x.map f = .ok b) :
    ∃ a, x = .ok a ∧ f a = b := by
  cases x with
  | error e => cases h
  | ok a => exact ⟨a, rfl, Except.ok.inj h⟩

/-- What a decoder has already consumed: nothing between two characters, the begun character inside one. -/
def Progress.Holds : Progress → List UInt8 → Prop
  | .between _, bs => bs = []
  | .inside _ _ code due later, bs => Begun bs code due later

/-- The consumed bytes and the rest together encode the characters that come out. -/
theorem flatMap_of_decodeFrom {progress : Progress} {bs seen : List UInt8} {cs : List Char}
    (hp : progress.Holds seen) (h : decodeFrom progress bs = .ok cs) :
    cs.flatMap String.utf8EncodeChar = seen ++ bs := by
  fun_induction decodeFrom progress bs generalizing seen cs with
  | case1 index =>
    cases h
    simpa [Progress.Holds] using hp
  | case2 => cases h
  | case3 index b rest hf ih =>
    obtain ⟨cs, hr, rfl⟩ := exists_of_map_eq_ok h
    obtain rfl : seen = [] := hp
    rw [List.flatMap_cons, utf8EncodeChar_ascii hf, ih rfl hr]
    rfl
  | case4 index b rest due later hf ih =>
    obtain rfl : seen = [] := hp
    exact ih (.lead hf) h
  | case5 => cases h
  | case6 start count code due b rest hb =>
    rename_i ih
    obtain ⟨cs, hr, rfl⟩ := exists_of_map_eq_ok h
    have hc := Begun.utf8EncodeChar hp hb
    rw [List.flatMap_cons, hc, ih rfl hr]
    simp
  | case7 start count code due b rest hb =>
    rename_i ih
    rw [ih (Begun.next hp hb) h]
    simp
  | case8 => cases h

theorem encode_of_decode {bs : List UInt8} {s : String} (h : decode bs = .ok s) : encode s = bs := by
  obtain ⟨cs, hd, rfl⟩ := exists_of_map_eq_ok h
  rw [encode, String.toList_ofList]
  exact flatMap_of_decodeFrom (show (Progress.between 0).Holds [] from rfl) hd

end WireFormat.Utf8
