import WireFormat.Proofs.Operations

/-!
# What a failed read says

A read changes nothing in a buffer but the cursor, so what an error says about the bytes can be looked up in the buffer
that the failed read leaves behind. Main statement: whatever a schema or a descriptor is read from, the error holds true of
the buffer as it is then: the bytes that were asked for are not there, or those that were refused stand right in front of
the cursor.
-/
namespace WireFormat

/-- The last bytes in front of the cursor are those of a number of the given width. -/
def Buffer.Passed (b : Buffer) (width n : Nat) : Prop :=
  ∃ bs, bs <:+ b.before ∧ bs.length = width ∧ b.order.number bs = n

/-- What an error says about the buffer that a read leaves behind, where the descriptor offers the given choices. -/
def ReadError.Tells (choices : List (String × Nat)) (b : Buffer) : ReadError → Prop
  | unexpectedEnd offset requested available =>
    offset = b.cursor ∧ available = b.remaining ∧ b.filled < offset + requested
  | badDiscriminant typeName index count => (typeName, count) ∈ choices ∧ count ≤ index ∧ b.Passed 4 index
  | wideLength value => 0x100000000 ≤ value ∧ b.Passed 8 value
  | invalidUtf8 fault => ∃ frame bs, frame ++ bs <:+ b.before ∧ frame.length = 8 ∧
      b.order.number frame = bs.length ∧ Utf8.decode bs = .error fault
  | trailing _ => False

namespace Spelled

variable {b after : Buffer}

theorem suffix {leaves : List Leaf} (h : Spelled b leaves after) : Leaf.spell after.order leaves <:+ after.before := by
  rw [h.before_eq, h.order_eq]
  exact List.suffix_append _ _

theorem passed {width n : Nat} (h : Spelled b [.number width n] after) (hn : n < span width) : after.Passed width n := by
  refine ⟨after.order.bytes width n, ?_, after.order.length_bytes width n, ?_⟩
  · simpa [Leaf.spell, Leaf.bytes] using h.suffix
  · rw [ByteOrder.number_bytes, Nat.mod_eq_of_lt hn]

/-- A frame and its run of bytes, once both have been passed over. -/
theorem passed_run {n : Nat} {bs : List UInt8} (h : Spelled b ([Leaf.number 8 n] ++ [Leaf.run bs]) after)
    (hn : n < span 8) :
    ∃ frame, frame ++ bs <:+ after.before ∧ frame.length = 8 ∧ after.order.number frame = n := by
  refine ⟨after.order.bytes 8 n, ?_, after.order.length_bytes 8 n, ?_⟩
  · simpa [Leaf.spell, Leaf.bytes] using h.suffix
  · rw [ByteOrder.number_bytes, Nat.mod_eq_of_lt hn]

end Spelled

namespace Reader

variable {α β : Type} {choices : List (String × Nat)}

/-- Reading from the buffer ends in a buffer whose mark is within the storage and of which the error, if any, is true. -/
structure TruthfulAt (choices : List (String × Nat)) (reader : Reader α) (b : Buffer) : Prop where
  filled_le : (reader b).2.filled ≤ (reader b).2.capacity
  tells : ∀ e, (reader b).1 = .error e → e.Tells choices (reader b).2

def Truthful (choices : List (String × Nat)) (reader : Reader α) : Prop :=
  ∀ b : Buffer, b.filled ≤ b.capacity → reader.TruthfulAt choices b

theorem truthfulAt_of_ok {reader : Reader α} {b after : Buffer} {a : α} (h : reader b = (.ok a, after))
    (hfilled : after.filled ≤ after.capacity) : reader.TruthfulAt choices b := by
  refine ⟨?_, ?_⟩ <;> rw [h]
  · exact hfilled
  · exact fun e he => nomatch he

theorem truthfulAt_of_error {reader : Reader α} {b after : Buffer} {e : ReadError} (h : reader b = (.error e, after))
    (hfilled : after.filled ≤ after.capacity) (htells : e.Tells choices after) : reader.TruthfulAt choices b := by
  refine ⟨?_, ?_⟩ <;> rw [h]
  · exact hfilled
  · intro e' he
    obtain rfl : e = e' := Except.error.inj he
    exact htells

theorem truthful_pure (a : α) : (pure a : Reader α).Truthful choices :=
  fun _ hfilled => truthfulAt_of_ok rfl hfilled

/-- What follows has to be truthful only where the first reader has got to. -/
theorem TruthfulAt.bind {reader : Reader α} {next : α → Reader β} {b : Buffer} (h : reader.TruthfulAt choices b)
    (hnext : ∀ a after, after.filled ≤ after.capacity → reader b = (.ok a, after) →
      (next a).TruthfulAt choices after) :
    (reader >>= next).TruthfulAt choices b := by
  obtain ⟨hfilled, htells⟩ := h
  rcases hreader : reader b with ⟨result, after⟩
  rw [hreader] at hfilled htells
  cases result with
  | ok a =>
    obtain ⟨hfilled', htells'⟩ := hnext a after hfilled hreader
    exact ⟨by rwa [bind_ok hreader], by rwa [bind_ok hreader]⟩
  | error e => exact truthfulAt_of_error (bind_error hreader) hfilled (htells e rfl)

theorem Truthful.bind {reader : Reader α} {next : α → Reader β} (h : reader.Truthful choices)
    (hnext : ∀ a, (next a).Truthful choices) : (reader >>= next).Truthful choices := by
  intro b hfilled
  exact (h b hfilled).bind fun a after hafter _ => hnext a after hafter

theorem truthful_take (n : Nat) : (take n).Truthful choices := by
  intro b hfilled
  by_cases hroom : b.cursor + n ≤ b.filled
  · exact truthfulAt_of_ok (if_pos hroom) hfilled
  · exact truthfulAt_of_error (if_neg hroom) hfilled ⟨rfl, rfl, Nat.lt_of_not_le hroom⟩

theorem truthful_number (width : Nat) : (number width).Truthful choices := by
  intro b hfilled
  have hnumber := number_eq width b
  rw [Buffer.take] at hnumber
  split at hnumber
  · exact truthfulAt_of_ok hnumber hfilled
  · exact truthfulAt_of_error hnumber hfilled ⟨rfl, rfl, Nat.lt_of_not_le ‹_›⟩

theorem truthful_frame : frame.Truthful choices := by
  intro b hfilled
  refine (truthful_number 8 b hfilled).bind fun n after hafter hnumber => ?_
  obtain ⟨hspelled, hn⟩ := Spelled.of_number hfilled hnumber
  split
  · exact truthful_pure n after hafter
  · exact truthfulAt_of_error rfl hafter ⟨Nat.le_of_not_lt ‹_›, hspelled.passed hn⟩

theorem truthful_str : str.Truthful choices := by
  intro b hfilled
  refine (truthful_frame b hfilled).bind fun n after hafter hframe => ?_
  refine (truthful_take n after hafter).bind fun bs last hlast htake => ?_
  obtain ⟨hframed, hn⟩ := Spelled.of_frame hfilled hframe
  obtain ⟨hrun, rfl⟩ := Spelled.of_take hafter htake
  split
  · exact truthful_pure _ last hlast
  · obtain ⟨frame, hsuffix, hlength, hnumber⟩ := (hframed.append hrun).passed_run (Nat.lt_trans hn (by decide))
    exact truthfulAt_of_error rfl hlast ⟨frame, bs, hsuffix, hlength, hnumber, ‹_›⟩

theorem truthful_checked (choices : List (String × Nat)) : Checked choices (Truthful choices) where
  pure := truthful_pure
  bind := Truthful.bind
  number _ := truthful_number _
  frame := truthful_frame
  str := truthful_str
  choice {_ _ count _} hmem hnext hbeyond := by
    have hu32 : u32.Truthful choices := (truthful_number 4).bind fun n => truthful_pure _
    intro b hfilled
    refine (hu32 b hfilled).bind fun index after hafter hread => ?_
    by_cases hlt : index.toNat < count
    · exact hnext index hlt after hafter
    · have hge := Nat.le_of_not_lt hlt
      rw [hbeyond index hge]
      exact truthfulAt_of_error rfl hafter ⟨hmem, hge, (Spelled.of_u32 hfilled hread).passed index.toNat_lt⟩

end Reader

open Reader

namespace Recursive

variable {α : Type}

/-- What stands at the bottom is not seen, so a reader that always asks for too much may stand there. -/
theorem truthful_read (layout : Recursive α) {choices : List (String × Nat)}
    (hchoices : layout.body.choices ⊆ choices) :
    layout.read.Truthful choices := by
  let starved : Reader α := fun b => fail (.unexpectedEnd b.cursor (b.filled + 1) b.remaining) b
  have hstarved : starved.Truthful choices := by
    intro b hfilled
    exact truthfulAt_of_error rfl hfilled ⟨rfl, rfl, Nat.lt_of_lt_of_le (Nat.lt_succ_self _) (Nat.le_add_left _ _)⟩
  intro b hfilled
  have h := layout.readWithin_checked (truthful_checked choices) hchoices hstarved (b.remaining + 1) b hfilled
  have heq := layout.readWithin_eq_read starved (Nat.lt_succ_self b.remaining)
  exact ⟨heq ▸ h.filled_le, heq ▸ h.tells⟩

end Recursive

theorem Descriptor.truthful_read {α : Type} {choices : List (String × Nat)} (d : Descriptor α)
    (hchoices : d.choices ⊆ choices) : d.codec.read.Truthful choices := by
  induction d with
  | unit => exact truthful_pure ()
  | layout self body ih =>
    obtain ⟨hbody, hself⟩ := List.append_subset.1 hchoices
    exact body.read_checked (truthful_checked choices) (ih hself) hbody
  | recursive layout => exact layout.truthful_read hchoices

namespace Reader

/-- The readers of schemas and of descriptors, with the choices that these offer. -/
inductive Offers : {α : Type} → Reader α → List (String × Nat) → Prop
  | schema (schema : Schema) : Offers schema.read schema.choices
  | descriptor {α : Type} (d : Descriptor α) : Offers d.codec.read d.choices

variable {α : Type} {reader : Reader α} {choices : List (String × Nat)}

theorem Offers.described (h : reader.Offers choices) : reader.Described := by
  cases h with
  | schema schema => exact .schema schema
  | descriptor d => exact .layout d.ofLayout

theorem Offers.truthful (h : reader.Offers choices) : reader.Truthful choices := by
  cases h with
  | schema schema => exact schema.read_checked (truthful_checked _) (List.Subset.refl _)
  | descriptor d => exact d.truthful_read (List.Subset.refl _)

/-- A read moves the cursor forwards, not beyond the mark unless it was there already, and touches nothing else; and if it
fails, the error is true of the buffer that it leaves behind. -/
theorem Offers.moves_and_tells (h : reader.Offers choices) {b : Buffer} (hfilled : b.filled ≤ b.capacity) :
    ∃ cursor, (reader b).2 = { b with cursor := cursor } ∧ b.cursor ≤ cursor ∧
      (b.cursor ≤ b.filled → cursor ≤ b.filled) ∧
      ∀ e, (reader b).1 = .error e → e.Tells choices { b with cursor := cursor } := by
  obtain ⟨cursor, hafter, hge, hle⟩ := h.described.composed.moves b
  have htells := (h.truthful b hfilled).tells
  rw [hafter] at htells
  refine ⟨cursor, hafter, hge, ?_, htells⟩
  intro hcursor
  rwa [Nat.max_eq_right hcursor] at hle

/-- Behind a complete element comes an index that the union does not have; and with the cursor beyond the mark, not even
a count can be read. -/
theorem Offers.moves_and_tells_undeclared :
    let schema : Schema := .vec (.union [("empty", none), ("text", some .str)])
    let bs : List UInt8 := [0, 0, 0, 0, 0, 0, 0, 2, 0, 0, 0, 1, 0, 0, 0, 0, 0, 0, 0, 1, 0x41, 0, 0, 0, 7, 0]
    let numbers : Descriptor (List UInt16) := .layout .unit (.vector .u16)
    schema.read.Offers [("Union", 2)] ∧ numbers.codec.read.Offers [] ∧
      schema.read (.ofBytes .big bs) = (.error (.badDiscriminant "Union" 7 2), ⟨bs, 25, 26, .big⟩) ∧
      (⟨bs, 25, 26, .big⟩ : Buffer).Passed 4 7 ∧
      numbers.codec.read ⟨bs, 9, 8, .little⟩ = (.error (.unexpectedEnd 9 8 0), ⟨bs, 9, 8, .little⟩) ∧ 8 < 9 + 8 := by
  intro schema bs numbers
  have hschema : schema.read.Offers schema.choices := .schema schema
  have hnumbers : numbers.codec.read.Offers numbers.choices := .descriptor numbers
  have hread : schema.read (.ofBytes .big bs) = (.error (.badDiscriminant "Union" 7 2), ⟨bs, 25, 26, .big⟩) := rfl
  have hread' : numbers.codec.read ⟨bs, 9, 8, .little⟩ =
      (.error (.unexpectedEnd 9 8 0), ⟨bs, 9, 8, .little⟩) := rfl
  obtain ⟨cursor, hafter, -, -, htells⟩ := hschema.moves_and_tells (b := .ofBytes .big bs) (Nat.le_refl _)
  obtain ⟨cursor', hafter', -, -, htells'⟩ := hnumbers.moves_and_tells (b := ⟨bs, 9, 8, .little⟩) (by decide)
  obtain rfl : 25 = cursor := congrArg Buffer.cursor hafter
  obtain ⟨-, -, hpassed⟩ := htells _ (congrArg Prod.fst hread)
  obtain ⟨-, -, hbeyond⟩ := htells' _ (congrArg Prod.fst hread')
  exact ⟨hschema, hnumbers, hread, hpassed, hread', hbeyond⟩

end Reader

end WireFormat
