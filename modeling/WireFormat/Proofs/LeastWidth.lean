import WireFormat.Layout.Schema
import WireFormat.Proofs.Operations

/-!
# How many bytes a value takes up at least

The count of a sequence is not compared with the bytes behind it. What keeps a count that is too large from succeeding is
that every element takes up bytes, unless its least width is 0. Main statements: whatever is read by a schema or a
descriptor takes up at least its least width; so where the elements of a sequence cannot all fit into the bytes that are
left, reading fails at one of them, behind no more others than there is room for.
-/
namespace WireFormat

namespace Schema

mutual

/-- The least number of bytes that a value takes up. -/
def leastWidth : Schema → Nat
  | bool | u8 | option _ | nullable _ => 1
  | u16 => 2
  | u32 | i32 | f32 | enum _ => 4
  | f64 | str | vec _ => 8
  | struct fields => leastWidthOfFields fields
  | tuple components => leastWidthOfComponents components
  | union variants => 4 + (widthsOfPayloads variants).min?.getD 0

def leastWidthOfFields : List (String × Schema) → Nat
  | [] => 0
  | (_, schema) :: rest => schema.leastWidth + leastWidthOfFields rest

def leastWidthOfComponents : List Schema → Nat
  | [] => 0
  | schema :: rest => schema.leastWidth + leastWidthOfComponents rest

def widthsOfPayloads : List (String × Option Schema) → List Nat
  | [] => []
  | (_, none) :: rest => 0 :: widthsOfPayloads rest
  | (_, some schema) :: rest => schema.leastWidth :: widthsOfPayloads rest

end

theorem leastPayload_le {variants : List (String × Option Schema)} {width : Nat}
    (h : width ∈ widthsOfPayloads variants) : (widthsOfPayloads variants).min?.getD 0 ≤ width := by
  cases hleast : (widthsOfPayloads variants).min? with
  | none =>
    rw [List.min?_eq_none_iff.1 hleast] at h
    cases h
  | some least => exact (List.min?_eq_some_iff.1 hleast).2 width h

end Schema

/-- The schema of a descriptor. Below a sequence, where a type may refer back to itself, a record without fields stands
for it. -/
def Descriptor.schema {α : Type} : Descriptor α → Schema
  | unit => .struct []
  | layout self body => body.schemaWith self.schema
  | recursive whole => whole.body.schemaWith (.struct [])

def Descriptor.leastWidth {α : Type} (d : Descriptor α) : Nat :=
  d.schema.leastWidth

namespace Reader

variable {α β : Type} {reader : Reader α} {m n : Nat}

/-- A reader that succeeds has moved the cursor by `n` or more. -/
def Consumes (reader : Reader α) (n : Nat) : Prop :=
  ∀ ⦃b after : Buffer⦄ ⦃a : α⦄, reader b = (.ok a, after) → b.cursor + n ≤ after.cursor

theorem Consumes.mono (h : reader.Consumes n) (hle : m ≤ n) : reader.Consumes m :=
  fun _ _ _ hread => Nat.le_trans (Nat.add_le_add_left hle _) (h hread)

theorem Consumes.nothing (h : reader.Consumes n) : reader.Consumes 0 :=
  h.mono (Nat.zero_le n)

theorem consumes_pure (a : α) : (pure a : Reader α).Consumes 0 := by
  intro b after c hread
  obtain ⟨-, rfl⟩ := pure_ok hread
  exact Nat.le_refl _

theorem consumes_fail (e : ReadError) (n : Nat) : (fail e : Reader α).Consumes n := by
  intro b after a hread
  cases hread

theorem Consumes.bind {next : α → Reader β} (h : reader.Consumes m) (hnext : ∀ a, (next a).Consumes n) :
    (reader >>= next).Consumes (m + n) := by
  intro b after c hread
  obtain ⟨a, between, hfirst, hsecond⟩ := exists_of_bind_ok hread
  have hle := h hfirst
  have hle' := hnext a hsecond
  omega

/-- What follows need not consume anything. -/
theorem Consumes.bind_nothing {next : α → Reader β} (h : reader.Consumes n) (hnext : ∀ a, (next a).Consumes 0) :
    (reader >>= next).Consumes n :=
  h.bind hnext

theorem Consumes.map (h : reader.Consumes n) (f : α → β) : (reader >>= fun a => pure (f a)).Consumes n :=
  h.bind_nothing fun a => consumes_pure (f a)

theorem consumes_take (n : Nat) : (take n).Consumes n := by
  intro b after bs hread
  obtain ⟨-, rfl⟩ := take_eq_ok hread
  exact Nat.le_refl _

theorem consumes_number (width : Nat) : (number width).Consumes width := by
  intro b after n hread
  obtain ⟨-, rfl⟩ := number_eq_ok hread
  exact Nat.le_refl _

theorem consumes_u32 : u32.Consumes 4 :=
  (consumes_number 4).map UInt32.ofNat

theorem consumes_mark : mark.Consumes 1 :=
  ((consumes_number 1).map UInt8.ofNat).map (· == 1)

theorem consumes_frame : frame.Consumes 8 := by
  intro b after n hread
  obtain ⟨-, rfl⟩ := frame_eq_ok hread
  exact Nat.le_refl _

theorem consumes_str : str.Consumes 8 := by
  refine consumes_frame.bind_nothing fun length => (consumes_take length).nothing.bind_nothing ?_
  intro bs
  split
  · exact consumes_pure _
  · exact consumes_fail _ 0

theorem Consumes.times (h : reader.Consumes m) (n : Nat) : (times reader n).Consumes 0 := by
  induction n with
  | zero => exact consumes_pure []
  | succ n ih => exact h.nothing.bind_nothing fun a => ih.map (a :: ·)

theorem Consumes.seq (h : reader.Consumes m) : (seq reader).Consumes 8 :=
  consumes_frame.bind_nothing h.times

theorem Consumes.opt (h : reader.Consumes m) : (opt reader).Consumes 1 := by
  refine consumes_mark.bind_nothing ?_
  intro present
  cases present with
  | false => exact consumes_pure none
  | true => exact h.nothing.map some

end Reader

open Reader

namespace Schema

mutual

/-- By induction on the schema, one case a constructor. -/
theorem consumes_read : (schema : Schema) → schema.read.Consumes schema.leastWidth
  | bool => consumes_mark.map _
  | str => consumes_str.map _
  | u8 => ((consumes_number 1).map _).map _
  | u16 => ((consumes_number 2).map _).map _
  | u32 => consumes_u32.map _
  | i32 => (consumes_u32.map _).map _
  | f32 => (consumes_u32.map _).map _
  | f64 => ((consumes_number 8).map _).map _
  | enum names => by
    refine consumes_u32.bind_nothing ?_
    intro index
    split
    · exact consumes_pure _
    · exact consumes_fail _ 0
  | struct fields => (consumes_readFields fields).map _
  | tuple components => (consumes_readComponents components).map _
  | union variants => consumes_u32.bind fun _ => consumes_readVariant variants _ _ _ fun _ => leastPayload_le
  | vec element => element.consumes_read.seq.map _
  | option element => by
    refine element.consumes_read.opt.bind_nothing ?_
    intro value
    split
    · exact consumes_pure _
    · exact consumes_pure _
  | nullable element => element.consumes_read.opt.map _

theorem consumes_readFields : (fields : List (String × Schema)) →
    (readFields fields).Consumes (leastWidthOfFields fields)
  | [] => consumes_pure []
  | (_, schema) :: rest => schema.consumes_read.bind fun _ => (consumes_readFields rest).map _

theorem consumes_readComponents : (components : List Schema) →
    (readComponents components).Consumes (leastWidthOfComponents components)
  | [] => consumes_pure []
  | schema :: rest => schema.consumes_read.bind fun _ => (consumes_readComponents rest).map _

/-- Whichever variant is read, its payload is no narrower than the narrowest. -/
theorem consumes_readVariant {least : Nat} : (variants : List (String × Option Schema)) → (index count skip : Nat) →
    (∀ width ∈ widthsOfPayloads variants, least ≤ width) → (readVariant index count variants skip).Consumes least
  | [], _, _, _, _ => consumes_fail _ least
  | (_, none) :: _, _, _, 0, h => (consumes_pure _).mono (h 0 List.mem_cons_self)
  | (_, some schema) :: _, _, _, 0, h => (schema.consumes_read.map _).mono (h _ List.mem_cons_self)
  | (_, none) :: rest, index, count, skip + 1, h | (_, some _) :: rest, index, count, skip + 1, h =>
    consumes_readVariant rest index count skip fun width hwidth => h width (List.mem_cons_of_mem _ hwidth)

end

end Schema

section

variable {Self : Type} {self : Reader Self} {inner : Schema}

mutual

/-- By induction on the layout; `self` is given with the least width of the schema that stands for it. -/
theorem Layout.consumes_read {α : Type} (hself : self.Consumes inner.leastWidth) :
    (layout : Layout Self α) → (layout.read self).Consumes (layout.schemaWith inner).leastWidth
  | .bool => consumes_mark
  | .str => consumes_str
  | .u8 => (consumes_number 1).map _
  | .u16 => (consumes_number 2).map _
  | .u32 => consumes_u32
  | .i32 | .f32 => consumes_u32.map _
  | .f64 => (consumes_number 8).map _
  | .enumeration e => by
    refine consumes_u32.bind_nothing ?_
    intro index
    split
    · exact consumes_pure _
    · exact consumes_fail _ 0
  | .record _ fields => fields.consumes_read hself
  | .tuple parts => parts.consumes_read hself
  | .union _ variants _ =>
    consumes_u32.bind fun _ => variants.consumes_read hself _ _ fun _ => Schema.leastPayload_le
  | .vector element => (element.consumes_read hself).seq
  | .optional element => (element.consumes_read hself).opt
  | .nullable element => (element.consumes_read hself).opt.map _
  | .retyped host base => (base.consumes_read hself).map host.make
  | .self => hself

theorem Parts.consumes_read {α : Type} (hself : self.Consumes inner.leastWidth) :
    (parts : Parts Self α) → (parts.read self).Consumes (Schema.leastWidthOfComponents (parts.schemasWith inner))
  | .pair first second =>
    (first.consumes_read hself).bind fun _ => (second.consumes_read hself).map _
  | .cons first rest =>
    (first.consumes_read hself).bind fun _ => (rest.consumes_read hself).map _

theorem Fields.consumes_read {names : List String} {α : Type} (hself : self.Consumes inner.leastWidth) :
    (fields : Fields Self names α) →
      (fields.read self).Consumes (Schema.leastWidthOfFields (fields.schemasWith inner))
  | .nil => consumes_pure ()
  | .cons _ layout rest _ =>
    (layout.consumes_read hself).bind fun _ => (rest.consumes_read hself).map _

theorem Variants.consumes_read {tags : List String} {α : Type} {least : Nat}
    (hself : self.Consumes inner.leastWidth) :
    (variants : Variants Self tags α) → (beyond : ReadError) → (skip : Nat) →
      (∀ width ∈ Schema.widthsOfPayloads (variants.schemasWith inner), least ≤ width) →
      (variants.read self beyond skip).Consumes least
  | .nil, beyond, _, _ => consumes_fail beyond least
  | .unit _ _ _, _, 0, h => (consumes_pure _).mono (h 0 List.mem_cons_self)
  | .payload _ layout _ _, _, 0, h => ((layout.consumes_read hself).map _).mono (h _ List.mem_cons_self)
  | .unit _ rest _, beyond, skip + 1, h | .payload _ _ rest _, beyond, skip + 1, h =>
    (rest.consumes_read hself beyond skip fun width hwidth => h width (List.mem_cons_of_mem _ hwidth)).map Sum.inr

end

end

theorem Reader.Moves.consumes {α : Type} {reader : Reader α} (h : reader.Moves) : reader.Consumes 0 := by
  intro b after a hread
  have hforwards := h.le_cursor b
  rwa [hread] at hforwards

theorem Recursive.consumes_read {α : Type} (layout : Recursive α) :
    layout.read.Consumes (layout.body.schemaWith (.struct [])).leastWidth := by
  have hself : layout.read.Consumes (Schema.struct []).leastWidth := layout.read_moves.consumes
  rw [layout.read_eq]
  exact layout.body.consumes_read hself

theorem Descriptor.consumes_read {α : Type} (d : Descriptor α) : d.codec.read.Consumes d.leastWidth := by
  induction d with
  | unit => exact consumes_pure ()
  | layout self body ih => exact body.consumes_read ih
  | recursive whole => exact whole.consumes_read

namespace Reader

variable {α β : Type} {element : Reader α} {m : Nat}

/-- From the buffer on, the reader succeeds so many times in a row and then fails. -/
def StopsAfter (element : Reader α) (done : Nat) (b : Buffer) (e : ReadError) (after : Buffer) : Prop :=
  ∃ items between, times element done b = (.ok items, between) ∧ element between = (.error e, after)

theorem StopsAfter.succ {done : Nat} {b between after : Buffer} {e : ReadError} {a : α}
    (hfirst : element b = (.ok a, between)) (h : element.StopsAfter done between e after) :
    element.StopsAfter (done + 1) b e after := by
  obtain ⟨items, last, hitems, hlast⟩ := h
  refine ⟨a :: items, last, ?_, hlast⟩
  rw [times, bind_ok hfirst, bind_ok hitems]
  rfl

/-- Each element that is read leaves so many bytes fewer. -/
theorem Consumes.remaining_le (h : element.Consumes m) (hmoves : element.Moves) (hpos : 0 < m) {b between : Buffer}
    {a : α} (hread : element b = (.ok a, between)) : between.remaining + m ≤ b.remaining := by
  have hconsumed := h hread
  obtain ⟨cursor, hafter, -, hle⟩ := hmoves b
  rw [hread] at hafter
  subst hafter
  simp only [Buffer.remaining] at hconsumed ⊢
  omega

/-- By induction on the count: an element that is read makes up for the one fewer to come. -/
theorem Consumes.stops (h : element.Consumes m) (hmoves : element.Moves) (hpos : 0 < m) {count : Nat} {b : Buffer}
    (hover : b.remaining < count * m) : ∃ done e after, done * m ≤ b.remaining ∧ element.StopsAfter done b e after ∧
      Reader.times element count b = (.error e, after) := by
  induction count generalizing b with
  | zero => omega
  | succ count ih =>
    rcases hread : element b with ⟨result, between⟩
    cases result with
    | error e =>
      refine ⟨0, e, between, by omega, ⟨[], b, rfl, hread⟩, ?_⟩
      rw [Reader.times, bind_error hread]
    | ok a =>
      have hle := h.remaining_le hmoves hpos hread
      rw [Nat.succ_mul] at hover
      obtain ⟨done, e, after, hdone, hstops, htimes⟩ := ih (b := between) (by omega)
      refine ⟨done + 1, e, after, ?_, hstops.succ hread, ?_⟩
      · rw [Nat.succ_mul]
        omega
      · rw [Reader.times, bind_ok hread, bind_error htimes]

/-- Read from `b`, behind whose frame `behind` is left, a sequence fails: the count is too wide for a frame, or so many
elements or fewer are read and the next one cannot be. -/
def FailsWithin (sequence : Reader β) (element : Reader α) (most count : Nat) (b behind : Buffer) : Prop :=
  ∃ e after, sequence b = (.error e, after) ∧
    (e = .wideLength count ∧ after = behind ∨ ∃ done ≤ most, element.StopsAfter done behind e after)

theorem FailsWithin.map {γ : Type} {sequence : Reader β} {most count : Nat} {b behind : Buffer}
    (h : sequence.FailsWithin element most count b behind) (f : β → γ) :
    (sequence >>= fun a => pure (f a)).FailsWithin element most count b behind := by
  obtain ⟨e, after, hread, hwhy⟩ := h
  exact ⟨e, after, bind_error hread, hwhy⟩

theorem Consumes.seq_fails (h : element.Consumes m) (hmoves : element.Moves) (hpos : 0 < m) {count : Nat}
    {b behind : Buffer} (hframe : number 8 b = (.ok count, behind)) (hover : behind.remaining < count * m) :
    (Reader.seq element).FailsWithin element (behind.remaining / m) count b behind := by
  by_cases hwide : count < 0x100000000
  · have hcount : frame b = (.ok count, behind) := by
      rw [frame, bind_ok hframe, if_pos hwide]
      rfl
    obtain ⟨done, e, after, hdone, hstops, htimes⟩ := h.stops hmoves hpos hover
    refine ⟨e, after, ?_, .inr ⟨done, (Nat.le_div_iff_mul_le hpos).2 hdone, hstops⟩⟩
    rw [Reader.seq, bind_ok hcount, htimes]
  · have hcount : frame b = (.error (.wideLength count), behind) := by
      rw [frame, bind_ok hframe, if_neg hwide]
      rfl
    exact ⟨_, behind, bind_error hcount, .inl ⟨rfl, rfl⟩⟩

end Reader

/-- Whatever is read takes up at least the least width of its schema or descriptor. So a sequence whose elements take up
bytes fails where its count asks for more of them than there is room for, and the elements that are read before are no
more than that. -/
theorem oversized_count_fails :
    (∀ (schema : Schema) (b after : Buffer) (value : Value), schema.read b = (.ok value, after) →
      b.cursor + schema.leastWidth ≤ after.cursor) ∧
    (∀ {α : Type} (d : Descriptor α) (b after : Buffer) (value : α), d.codec.read b = (.ok value, after) →
      b.cursor + d.leastWidth ≤ after.cursor) ∧
    ∀ (b behind : Buffer) (count : Nat), number 8 b = (.ok count, behind) →
      (∀ element : Schema, 1 ≤ element.leastWidth → behind.remaining < count * element.leastWidth →
        (Schema.vec element).read.FailsWithin element.read (behind.remaining / element.leastWidth) count b behind) ∧
      ∀ {Self α : Type} (self : Descriptor Self) (element : Layout Self α),
        1 ≤ (Descriptor.layout self element).leastWidth →
        behind.remaining < count * (Descriptor.layout self element).leastWidth →
          (Descriptor.layout self (.vector element)).codec.read.FailsWithin (Descriptor.layout self element).codec.read
            (behind.remaining / (Descriptor.layout self element).leastWidth) count b behind := by
  refine ⟨fun schema _ _ _ hread => schema.consumes_read hread, fun d _ _ _ hread => d.consumes_read hread, ?_⟩
  intro b behind count hframe
  refine ⟨?_, ?_⟩
  · intro element hpos hover
    have hmoves := (Described.schema element).composed.moves
    exact (element.consumes_read.seq_fails hmoves hpos hframe hover).map _
  · intro Self α self element hpos hover
    have hmoves := (Described.layout (Descriptor.layout self element).ofLayout).composed.moves
    exact (Descriptor.layout self element).consumes_read.seq_fails hmoves hpos hframe hover

/-- Of three elements there is room for two, and the second is cut off; a count of four bytes of ones, with one element and
a half; and where elements take up nothing, any count is as good as another. -/
theorem oversized_count_fails_cut_off :
    let element : Schema := .struct [("kind", .union [("off", some .u16), ("text", some .str)]), ("more", .option .f64)]
    let bs : List UInt8 := [3, 0, 0, 0, 0, 0, 0, 0, 0, 0, 0, 0, 9, 9, 0, 1, 0, 0, 0, 5, 0, 0, 0, 0]
    let pair : Layout Unit (Bool × UInt8) := .tuple (.pair .bool .u8)
    let ones : List UInt8 := [255, 255, 255, 255, 0, 0, 0, 0, 1, 7, 1]
    element.leastWidth = 7 ∧ Reader.number 8 (.ofBytes .little bs) = (.ok 3, (Buffer.ofBytes .little bs).skip 8) ∧
      (Schema.vec element).read.FailsWithin element.read 2 3 (.ofBytes .little bs) ((Buffer.ofBytes .little bs).skip 8) ∧
      (Descriptor.layout .unit pair).leastWidth = 2 ∧
      (Descriptor.layout .unit (.vector pair)).codec.read.FailsWithin (Descriptor.layout .unit pair).codec.read 1 0xFFFFFFFF
        (.ofBytes .little ones) ((Buffer.ofBytes .little ones).skip 8) ∧
      (Schema.vec (.struct [])).read (.ofBytes .little [2, 0, 0, 0, 0, 0, 0, 0]) =
        (.ok (.vec [.struct [], .struct []]), (Buffer.ofBytes .little [2, 0, 0, 0, 0, 0, 0, 0]).skip 8) := by
  intro element bs pair ones
  have hbs : Reader.number 8 (.ofBytes .little bs) = (.ok 3, (Buffer.ofBytes .little bs).skip 8) := rfl
  have hones : Reader.number 8 (.ofBytes .little ones) = (.ok 0xFFFFFFFF, (Buffer.ofBytes .little ones).skip 8) := rfl
  have helement := (oversized_count_fails.2.2 _ _ 3 hbs).1 element (by decide) (by decide)
  have hpair := (oversized_count_fails.2.2 _ _ 0xFFFFFFFF hones).2 .unit pair (by decide) (by decide)
  rw [show ((Buffer.ofBytes .little bs).skip 8).remaining / element.leastWidth = 2 by decide] at helement
  rw [show ((Buffer.ofBytes .little ones).skip 8).remaining / (Descriptor.layout .unit pair).leastWidth = 1 by decide]
    at hpair
  exact ⟨rfl, hbs, helement, rfl, hpair, rfl⟩

end WireFormat
