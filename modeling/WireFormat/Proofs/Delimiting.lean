import WireFormat.Proofs.Leaves
import WireFormat.Proofs.Levels
import WireFormat.Schema.Codec

/-!
# Encodings say where they end

Main statement: whatever a schema or a layout reads from some bytes, it reads again wherever these bytes come next, and
where only a part of them is left it runs out of bytes before anything else can go wrong. So decoding with leftover
bytes rejected differs from decoding with leftover bytes ignored in nothing but the rejection.
-/
namespace WireFormat

namespace Buffer

theorem length_unread {b : Buffer} (hfilled : b.filled ≤ b.capacity) : b.unread.length = b.remaining := by
  simp only [unread, written, List.length_drop, List.length_take, remaining, capacity] at *
  omega

/-- A take of more than is left runs out of bytes. -/
theorem take_of_length_lt {b : Buffer} {n : Nat} (hfilled : b.filled ≤ b.capacity) (h : b.unread.length < n) :
    b.take n = (.error (.unexpectedEnd b.cursor n b.remaining), b) := by
  rw [length_unread hfilled] at h
  have hbeyond : ¬b.cursor + n ≤ b.filled := by
    simp only [remaining] at h
    omega
  rw [take, if_neg hbeyond]

end Buffer

namespace Reader

variable {α β : Type}

/-- In the given byte order these bytes are all that the reader needs for the value, and less of them is too little. -/
structure Delimits (reader : Reader α) (order : ByteOrder) (bs : List UInt8) (a : α) : Prop where
  whole : ∀ c : Buffer, c.order = order → bs <+: c.unread → reader c = (.ok a, c.skip bs.length)
  cut : ∀ c : Buffer, c.order = order → c.filled ≤ c.capacity → c.unread <+: bs → c.unread ≠ bs →
    ∃ offset requested available, (reader c).1 = .error (.unexpectedEnd offset requested available)

/-- Wherever the reader succeeds, it has passed over bytes that delimit its value. -/
def SelfDelimiting (reader : Reader α) : Prop :=
  ∀ ⦃b after : Buffer⦄ ⦃a : α⦄, b.filled ≤ b.capacity → reader b = (.ok a, after) →
    ∃ bs, bs <+: b.unread ∧ after = b.skip bs.length ∧ reader.Delimits b.order bs a

theorem selfDelimiting_pure (a : α) : (pure a : Reader α).SelfDelimiting := by
  intro b after a' hfilled h
  obtain ⟨rfl, rfl⟩ := pure_ok h
  refine ⟨[], List.nil_prefix, rfl, fun c _ _ => rfl, ?_⟩
  intro c _ _ hprefix hne
  exact absurd (List.prefix_nil.1 hprefix) hne

theorem selfDelimiting_fail (e : ReadError) : (fail e : Reader α).SelfDelimiting := by
  intro b after a hfilled h
  cases h

theorem length_lt_of_prefix {xs cs : List UInt8} (h : cs <+: xs) (hne : cs ≠ xs) : cs.length < xs.length :=
  Nat.lt_of_le_of_ne h.length_le fun hlength => hne (h.eq_of_length hlength)

/-- A part of two runs is a part of the first, or the first and a part of the second. -/
theorem prefix_append_cases {xs ys cs : List UInt8} (h : cs <+: xs ++ ys) (hne : cs ≠ xs ++ ys) :
    (cs <+: xs ∧ cs ≠ xs) ∨ ∃ zs, cs = xs ++ zs ∧ zs <+: ys ∧ zs ≠ ys := by
  by_cases hlength : cs.length < xs.length
  · refine .inl ⟨List.prefix_of_prefix_length_le h (List.prefix_append xs ys) (Nat.le_of_lt hlength), ?_⟩
    rintro rfl
    exact absurd hlength (Nat.lt_irrefl _)
  · obtain ⟨zs, rfl⟩ := List.prefix_of_prefix_length_le (List.prefix_append xs ys) h (Nat.le_of_not_lt hlength)
    refine .inr ⟨zs, rfl, (List.prefix_append_right_inj xs).1 h, ?_⟩
    rintro rfl
    exact hne rfl

theorem Delimits.bind {reader : Reader α} {next : α → Reader β} {order : ByteOrder} {xs ys : List UInt8} {a : α} {v : β}
    (h : reader.Delimits order xs a) (hnext : (next a).Delimits order ys v) :
    (reader >>= next).Delimits order (xs ++ ys) v where
  whole c horder hprefix := by
    obtain ⟨rest, hrest⟩ := hprefix
    have hfirst := h.whole c horder ⟨ys ++ rest, by rw [← hrest, List.append_assoc]⟩
    have hsecond := hnext.whole (c.skip xs.length) horder
      ⟨rest, by rw [Buffer.unread_skip, ← hrest, List.append_assoc, List.drop_left]⟩
    rw [bind_ok hfirst, hsecond, Buffer.skip_skip, List.length_append]
  cut c horder hfilled hprefix hne := by
    obtain ⟨hfirst, hshort⟩ | ⟨zs, hunread, hsecond, hshort⟩ := prefix_append_cases hprefix hne
    · obtain ⟨offset, requested, available, he⟩ := h.cut c horder hfilled hfirst hshort
      refine ⟨offset, requested, available, ?_⟩
      rw [bind_error (Prod.ext he rfl)]
    · have hread := h.whole c horder ⟨zs, hunread.symm⟩
      have hrest : (c.skip xs.length).unread = zs := by rw [Buffer.unread_skip, hunread, List.drop_left]
      rw [bind_ok hread]
      exact hnext.cut (c.skip xs.length) horder hfilled (hrest ▸ hsecond) (hrest ▸ hshort)

theorem SelfDelimiting.bind {reader : Reader α} {next : α → Reader β} (h : reader.SelfDelimiting)
    (hnext : ∀ a, (next a).SelfDelimiting) : (reader >>= next).SelfDelimiting := by
  intro b after v hfilled hread
  obtain ⟨a, between, hfirst, hsecond⟩ := exists_of_bind_ok hread
  obtain ⟨xs, ⟨rest, hrest⟩, rfl, hxs⟩ := h hfilled hfirst
  obtain ⟨ys, ⟨rest', hrest'⟩, rfl, hys⟩ := hnext a (b := b.skip xs.length) hfilled hsecond
  rw [Buffer.unread_skip, ← hrest, List.drop_left] at hrest'
  refine ⟨xs ++ ys, ⟨rest', ?_⟩, ?_, hxs.bind hys⟩
  · rw [List.append_assoc, hrest', hrest]
  · rw [Buffer.skip_skip, List.length_append]

theorem delimits_number {width n : Nat} (order : ByteOrder) (hwidth : 0 < width) (hn : n < span width) :
    (number width).Delimits order (order.bytes width n) n where
  whole c horder hprefix := by
    subst horder
    have hyields := yields_number hwidth hn c (by simpa [bytesOf, Piece.bytes] using hprefix)
    simpa [lengthOf, Piece.length] using hyields
  cut c horder hfilled hprefix hne := by
    have hlt : c.unread.length < width := by simpa using length_lt_of_prefix hprefix hne
    rw [number, Buffer.take_of_length_lt hfilled hlt]
    exact ⟨_, _, _, rfl⟩

theorem selfDelimiting_number {width : Nat} (hwidth : 0 < width) : (number width).SelfDelimiting := by
  intro b after n hfilled h
  obtain ⟨⟨hnext, hafter⟩, hn⟩ := Spelled.of_number hfilled h
  have hspell : Leaf.spell b.order [.number width n] = b.order.bytes width n := List.append_nil _
  rw [hspell] at hnext hafter
  exact ⟨_, hnext, hafter, delimits_number b.order hwidth hn⟩

theorem selfDelimiting_frame : frame.SelfDelimiting := by
  refine (selfDelimiting_number (by omega)).bind ?_
  intro n
  split
  · exact selfDelimiting_pure n
  · exact selfDelimiting_fail _

/-- A run may be empty, but behind its frame the cursor has not passed the valid mark. -/
theorem selfDelimiting_framed : framed.SelfDelimiting := by
  intro b after bs hfilled h
  obtain ⟨n, between, hframe, htake⟩ := exists_of_bind_ok h
  obtain ⟨xs, ⟨rest, hrest⟩, hbetween, hxs⟩ := selfDelimiting_frame hfilled hframe
  have hlength : xs.length = 8 := by
    obtain ⟨-, hafter⟩ := frame_eq_ok hframe
    have hcursor := congrArg Buffer.cursor (hbetween.symm.trans hafter)
    simp only [Buffer.skip] at hcursor
    omega
  subst hbetween
  obtain ⟨rfl, ⟨rest', hrest'⟩, rfl⟩ := Buffer.take_ok (b := b.skip xs.length) hfilled htake
  rw [Buffer.unread_skip, ← hrest, List.drop_left] at hrest'
  refine ⟨xs ++ bs, ⟨rest', ?_⟩, ?_, ?_, ?_⟩
  · rw [List.append_assoc, hrest', hrest]
  · rw [Buffer.skip_skip, List.length_append]
  · rintro c horder ⟨tail, htail⟩
    have hroom : (c.skip xs.length).cursor ≤ c.filled := by
      have hle := c.length_unread_le
      have hcount := congrArg List.length htail
      simp only [List.length_append] at hcount
      show c.cursor + xs.length ≤ c.filled
      omega
    have hread := hxs.whole c horder ⟨bs ++ tail, by rw [← htail, List.append_assoc]⟩
    have hrun : bs <+: (c.skip xs.length).unread :=
      ⟨tail, by rw [Buffer.unread_skip, ← htail, List.append_assoc, List.drop_left]⟩
    rw [framed, bind_ok hread, List.length_append, ← Buffer.skip_skip]
    exact Buffer.take_of_prefix hrun fun _ => hroom
  · intro c horder hfilled hprefix hne
    obtain ⟨hfirst, hshort⟩ | ⟨zs, hunread, hsecond, hshort⟩ := prefix_append_cases hprefix hne
    · obtain ⟨offset, requested, available, he⟩ := hxs.cut c horder hfilled hfirst hshort
      refine ⟨offset, requested, available, ?_⟩
      rw [framed, bind_error (Prod.ext he rfl)]
    · have hread := hxs.whole c horder ⟨zs, hunread.symm⟩
      have hlt : (c.skip xs.length).unread.length < bs.length := by
        rw [Buffer.unread_skip, hunread, List.drop_left]
        exact length_lt_of_prefix hsecond hshort
      rw [framed, bind_ok hread, take, Buffer.take_of_length_lt (b := c.skip xs.length) hfilled hlt]
      exact ⟨_, _, _, rfl⟩

theorem selfDelimiting_closed : Closed @SelfDelimiting where
  pure := selfDelimiting_pure
  fail := selfDelimiting_fail
  bind := SelfDelimiting.bind
  number := selfDelimiting_number
  framed := selfDelimiting_framed

/-- Bytes are left over after a value exactly when the cursor has not reached the end of the bytes. -/
theorem SelfDelimiting.remaining {reader : Reader α} (h : reader.SelfDelimiting) {bs : List UInt8} {a : α}
    {after : Buffer} (hread : reader (.ofBytes .little bs) = (.ok a, after)) :
    after.cursor ≤ bs.length ∧ after.remaining = bs.length - after.cursor := by
  obtain ⟨xs, hprefix, rfl, -⟩ := h (Nat.le_refl _) hread
  have hunread : (Buffer.ofBytes .little bs).unread = bs := List.take_length
  have hle := hprefix.length_le
  rw [hunread] at hle
  refine ⟨?_, rfl⟩
  show 0 + xs.length ≤ bs.length
  omega

/-- Rejecting leftover bytes changes the result of decoding only where there are some. -/
theorem SelfDelimiting.decode_rejected_eq_ok_iff {reader : Reader α} (h : reader.SelfDelimiting) (bs : List UInt8)
    (a : α) : reader.decode .rejected bs = .ok a ↔
      reader.decode .ignored bs = .ok a ∧ (reader (.ofBytes .little bs)).2.cursor = bs.length := by
  rcases hread : reader (.ofBytes .little bs) with ⟨result, after⟩
  cases result with
  | error e => simp [decode, hread]
  | ok v =>
    obtain ⟨hle, hremaining⟩ := h.remaining hread
    by_cases hend : after.cursor = bs.length
    · have hnone : after.remaining = 0 := by omega
      simp [decode, hread, Buffer.finish, hnone, hend]
    · have hsome : after.remaining ≠ 0 := by omega
      simp [decode, hread, Buffer.finish, hsome, hend, Except.map]

theorem SelfDelimiting.decode_trailing {reader : Reader α} (h : reader.SelfDelimiting) {bs : List UInt8} {a : α}
    {after : Buffer} (hread : reader (.ofBytes .little bs) = (.ok a, after)) (hlt : after.cursor < bs.length) :
    reader.decode .rejected bs = .error (.trailing (bs.length - after.cursor)) := by
  obtain ⟨-, hremaining⟩ := h.remaining hread
  have hsome : bs.length - after.cursor ≠ 0 := by omega
  simp [decode, hread, Buffer.finish, hremaining, hsome, Except.map]

/-- The readers of schemas and of layouts. -/
inductive Described : {α : Type} → Reader α → Prop
  | schema (schema : Schema) : Described schema.read
  | layout {α : Type} {codec : Codec α} (h : codec.OfLayout) : Described codec.read

end Reader

namespace Recursive

open Reader

variable {α : Type}

/-- The levels are chosen for the bytes that are left, so those of two buffers are compared at a common number. -/
theorem selfDelimiting_read (layout : Recursive α) : layout.read.SelfDelimiting := by
  intro b after a hfilled h
  let e : ReadError := .unexpectedEnd 0 0 0
  have hcommon : ∀ levels, b.remaining < levels →
      ∃ bs, bs <+: b.unread ∧ after = b.skip bs.length ∧ (layout.readWithin (fail e) levels).Delimits b.order bs a := by
    intro levels hlevels
    exact layout.readWithin_closed selfDelimiting_closed e levels hfilled
      ((layout.readWithin_eq_read _ hlevels).trans h)
  obtain ⟨bs, hnext, rfl, -⟩ := hcommon (b.remaining + 1) (Nat.lt_succ_self _)
  have hdelimits : ∀ levels, b.remaining < levels → (layout.readWithin (fail e) levels).Delimits b.order bs a := by
    intro levels hlevels
    obtain ⟨bs', hnext', hafter, h'⟩ := hcommon levels hlevels
    have hlength : bs.length = bs'.length := Nat.add_left_cancel (congrArg Buffer.cursor hafter)
    obtain rfl : bs = bs' :=
      (List.prefix_of_prefix_length_le hnext hnext' (Nat.le_of_eq hlength)).eq_of_length hlength
    exact h'
  refine ⟨bs, hnext, rfl, ?_, ?_⟩
  · intro c horder hprefix
    have hlevels : c.remaining < b.remaining + c.remaining + 1 := by omega
    rw [← layout.readWithin_eq_read (fail e) hlevels]
    exact (hdelimits _ (by omega)).whole c horder hprefix
  · intro c horder hfilled' hprefix hne
    have hlevels : c.remaining < b.remaining + c.remaining + 1 := by omega
    rw [← layout.readWithin_eq_read (fail e) hlevels]
    exact (hdelimits _ (by omega)).cut c horder hfilled' hprefix hne

end Recursive

namespace Reader

theorem Described.selfDelimiting {α : Type} {reader : Reader α} (h : reader.Described) : reader.SelfDelimiting := by
  cases h with
  | schema schema => exact schema.read_closed selfDelimiting_closed
  | layout h =>
    induction h with
    | unit => exact selfDelimiting_pure ()
    | layout h layout ih => exact layout.read_closed selfDelimiting_closed ih
    | recursive layout => exact layout.selfDelimiting_read

/-- What a schema or a layout reads is fixed by the bytes it consumes, wherever they stand, and no part of them is
enough; so whether leftover bytes are rejected matters only where there are some. -/
theorem Described.self_delimiting {α : Type} {reader : Reader α} (h : reader.Described) :
    (∀ (b after : Buffer) (a : α), b.filled ≤ b.capacity → reader b = (.ok a, after) →
      ∃ bs, bs <+: b.unread ∧ after = b.skip bs.length ∧
        (∀ c : Buffer, c.order = b.order → bs <+: c.unread → reader c = (.ok a, c.skip bs.length)) ∧
        (∀ c : Buffer, c.order = b.order → c.filled ≤ c.capacity → c.unread <+: bs → c.unread ≠ bs →
          ∃ offset requested available, (reader c).1 = .error (.unexpectedEnd offset requested available))) ∧
    ∀ bs : List UInt8,
      (∀ a, reader.decode .rejected bs = .ok a ↔
        reader.decode .ignored bs = .ok a ∧ (reader (.ofBytes .little bs)).2.cursor = bs.length) ∧
      ∀ a after, reader (.ofBytes .little bs) = (.ok a, after) → after.cursor < bs.length →
        reader.decode .rejected bs = .error (.trailing (bs.length - after.cursor)) := by
  refine ⟨?_, fun bs => ⟨h.selfDelimiting.decode_rejected_eq_ok_iff bs, ?_⟩⟩
  · intro b after a hfilled hread
    obtain ⟨bs, hnext, hafter, hdelimits⟩ := h.selfDelimiting hfilled hread
    exact ⟨bs, hnext, hafter, hdelimits.whole, hdelimits.cut⟩
  · intro a after hread hlt
    exact h.selfDelimiting.decode_trailing hread hlt

/-- A text and an optional number, with other bytes around them, cut off inside the text, and with a byte too much. -/
theorem Described.self_delimiting_text :
    let schema : Schema := .tuple [.str, .option .u16]
    let bs : List UInt8 := [0, 0, 0, 0, 0, 0, 0, 1, 0x41, 1, 2, 3]
    let value : Value := .tuple [.str "A", .int 515]
    schema.read.Described ∧ schema.read (.ofBytes .big bs) = (.ok value, ⟨bs, 12, 12, .big⟩) ∧
      schema.read ⟨0xFF :: bs ++ [7, 8], 1, 14, .big⟩ = (.ok value, ⟨0xFF :: bs ++ [7, 8], 13, 14, .big⟩) ∧
      (∃ offset requested available,
        (schema.read ⟨bs, 0, 8, .big⟩).1 = .error (.unexpectedEnd offset requested available)) ∧
      Schema.decode .bool .rejected [1, 7] = .error (.trailing 1) := by
  intro schema bs value
  have hdescribed : schema.read.Described := .schema schema
  have hread : schema.read (.ofBytes .big bs) = (.ok value, ⟨bs, 12, 12, .big⟩) := rfl
  obtain ⟨found, hprefix, hafter, hwhole, hcut⟩ := hdescribed.self_delimiting.1 _ _ _ (Nat.le_refl _) hread
  have hlength : found.length = 12 := by
    have hcursor : 12 = 0 + found.length := congrArg Buffer.cursor hafter
    omega
  obtain rfl : found = bs := hprefix.eq_of_length hlength
  refine ⟨hdescribed, hread, ?_, ?_, ?_⟩
  · exact hwhole ⟨0xFF :: bs ++ [7, 8], 1, 14, .big⟩ rfl ⟨[7], rfl⟩
  · exact hcut ⟨bs, 0, 8, .big⟩ rfl (by decide) ⟨[0x41, 1, 2, 3], rfl⟩ (by decide)
  · exact ((Described.schema .bool).self_delimiting.2 [1, 7]).2 (.bool true) ⟨[1, 7], 1, 2, .little⟩ rfl (by decide)

end Reader

end WireFormat
