import WireFormat.Proofs.Emission

/-!
# Buffers as tapes

A buffer stands for a tape without end: its storage with zeros behind it, a cursor, a valid mark and a byte order. Only
the capacity is lost. Main statements: whatever is emitted to a buffer in bounds leaves it in bounds and does to its tape
what it does to the buffer, growth included; and emitted where the cursor has not passed the mark, pieces overwrite the
tape by their bytes and change nothing else.
-/
namespace WireFormat

/-- What a buffer shows besides its capacity. -/
structure Tape where
  cells : Nat → UInt8
  cursor : Nat
  filled : Nat
  order : ByteOrder

section

variable {τ σ : Type} [Output τ] [Output σ]

/-- Two outputs that are in the relation write in the same byte order and stay in the relation. -/
structure Output.Simulates (related : τ → σ → Prop) : Prop where
  order_eq : ∀ {a b}, related a b → Output.order a = Output.order b
  makeRoom : ∀ {a b} (n : Nat), related a b → related (Output.makeRoom a n) (Output.makeRoom b n)
  push : ∀ {a b} (bs : List UInt8), related a b → related (Output.push a bs).1 (Output.push b bs).1

/-- What one piece keeps, a whole encoding keeps. -/
theorem Output.Simulates.emit {related : τ → σ → Prop} (h : Output.Simulates related) {a : τ} {b : σ}
    (hab : related a b) (pieces : List Piece) : related (emit a pieces).1 (emit b pieces).1 := by
  induction pieces generalizing a b with
  | nil => exact hab
  | cons piece pieces ih =>
    cases hpiece : piece.announces with
    | true =>
      obtain ⟨n, rfl⟩ := Piece.exists_of_announces hpiece
      exact ih (h.makeRoom n hab)
    | false =>
      rw [emit_cons a hpiece, emit_cons b hpiece, h.order_eq hab]
      exact ih (h.push _ hab)

end

theorem emit_byteString (out : ByteString) (pieces : List Piece) :
    (emit out pieces).1 = ⟨out.bytes ++ bytesOf .little pieces⟩ := by
  induction pieces generalizing out with
  | nil => simp [emit, bytesOf]
  | cons piece pieces ih =>
    cases hpiece : piece.announces with
    | true =>
      obtain ⟨n, rfl⟩ := Piece.exists_of_announces hpiece
      exact ih out
    | false =>
      rw [emit_cons out hpiece, bytesOf_cons, ← List.append_assoc]
      exact ih ⟨out.bytes ++ piece.bytes .little⟩

namespace Tape

/-- Overwrites the cells from the cursor on and moves past them. -/
def push (t : Tape) (bs : List UInt8) : Tape where
  cells i := if t.cursor ≤ i then bs.getD (i - t.cursor) (t.cells i) else t.cells i
  cursor := t.cursor + bs.length
  filled := max t.filled (t.cursor + bs.length)
  order := t.order

/-- A tape never runs out of room. -/
instance : Output Tape where
  order := Tape.order
  makeRoom t _ := t
  push t bs := (t.push bs, bs.length)

/-- Nothing changes unless the cursor has passed the mark, which even nothing moves there. -/
theorem push_nil {t : Tape} (h : t.cursor ≤ t.filled) : t.push [] = t := by
  simp [push, Nat.max_eq_left h]

theorem push_push (t : Tape) (xs ys : List UInt8) : (t.push xs).push ys = t.push (xs ++ ys) := by
  simp only [push, mk.injEq, List.length_append, Nat.add_assoc, true_and, and_true]
  refine ⟨?_, by omega⟩
  funext i
  by_cases hcursor : t.cursor ≤ i
  · by_cases hpast : t.cursor + xs.length ≤ i
    · have hle : xs.length ≤ i - t.cursor := by omega
      simp only [hcursor, hpast, if_true, List.getD_eq_getElem?_getD, List.getElem?_append_right hle,
        List.getElem?_eq_none hle, Nat.sub_sub]
      rfl
    · have hlt : i - t.cursor < xs.length := by omega
      simp only [hcursor, hpast, if_true, if_false, List.getD_eq_getElem?_getD, List.getElem?_append_left hlt]
  · have hpast : ¬t.cursor + xs.length ≤ i := by omega
    simp only [hcursor, hpast, if_false]

/-- Requests for room leave the tape as it is, and everything else amounts to one push. -/
theorem emit_eq (t : Tape) (pieces : List Piece) :
    (emit t pieces).1 = if pieces.all Piece.announces then t else t.push (bytesOf t.order pieces) := by
  induction pieces generalizing t with
  | nil => rfl
  | cons piece pieces ih =>
    cases hpiece : piece.announces with
    | true =>
      obtain ⟨n, rfl⟩ := Piece.exists_of_announces hpiece
      exact ih t
    | false =>
      have hrest : (emit t (piece :: pieces)).1 = (emit (t.push (piece.bytes t.order)) pieces).1 := by
        rw [emit_cons t hpiece]
        rfl
      rw [hrest, ih, List.all_cons, hpiece, Bool.false_and, if_neg Bool.false_ne_true, bytesOf_cons]
      split
      · rw [bytesOf_of_announces ‹_›, List.append_nil]
      · exact push_push t _ _

/-- Where the cursor has not passed the mark, pushing nothing is no exception. -/
theorem emit_eq_push {t : Tape} (h : t.cursor ≤ t.filled) (pieces : List Piece) :
    (emit t pieces).1 = t.push (bytesOf t.order pieces) := by
  rw [emit_eq]
  split
  · rw [bytesOf_of_announces ‹_›, push_nil h]
  · rfl

end Tape

namespace Buffer

def tape (b : Buffer) : Tape :=
  ⟨fun i => b.storage.getD i 0, b.cursor, b.filled, b.order⟩

theorem capacity_le_reserve (b : Buffer) (n : Nat) : b.capacity ≤ (b.reserve n).capacity := by
  obtain ⟨zeros, hzeros⟩ := b.reserve_prefix n
  rw [capacity, capacity, hzeros, List.length_append]
  exact Nat.le_add_right _ _

/-- New storage is zero, as the tape is behind the storage. -/
theorem tape_reserve (b : Buffer) (n : Nat) : (b.reserve n).tape = b.tape := by
  unfold reserve
  split
  · rfl
  · simp only [tape, Tape.mk.injEq, and_true]
    funext i
    simp only [List.getD_eq_getElem?_getD, List.getElem?_append, List.getElem?_replicate]
    split
    · rfl
    · rw [List.getElem?_eq_none (by omega : b.storage.length ≤ i)]
      split <;> rfl

theorem capacity_le_push (b : Buffer) (bs : List UInt8) : b.capacity ≤ (b.push bs).capacity := by
  have hgrown := b.capacity_le_reserve bs.length
  simp only [push, capacity, List.length_append, List.length_take, List.length_drop] at hgrown ⊢
  omega

/-- Overwriting takes no more storage than was made sure of. -/
theorem capacity_push {b : Buffer} (h : b.cursor ≤ b.capacity) (bs : List UInt8) :
    (b.push bs).capacity = (b.reserve bs.length).capacity := by
  have hroom := room_reserve h bs.length
  have hcursor : (b.reserve bs.length).cursor = b.cursor := (wrote_reserve h bs.length).cursor_eq
  simp only [push, capacity, hcursor, List.length_append, List.length_take, List.length_drop] at hroom ⊢
  omega

theorem InBounds.push {b : Buffer} (h : b.InBounds) (bs : List UInt8) : (b.push bs).InBounds := by
  have hwrote := wrote_push h.cursor_le bs
  have hgrown := b.capacity_le_push bs
  have hfilled := h.filled_le
  have hmax := hwrote.filled_le_max
  have hcursor := hwrote.cursor_le
  exact ⟨hcursor, by omega⟩

theorem tape_push {b : Buffer} (h : b.cursor ≤ b.capacity) (bs : List UInt8) : (b.push bs).tape = b.tape.push bs := by
  have hgrown := b.tape_reserve bs.length
  have hcells : ∀ i, (b.reserve bs.length).storage.getD i 0 = b.storage.getD i 0 :=
    fun i => congrFun (congrArg Tape.cells hgrown) i
  have hcursor : (b.reserve bs.length).cursor = b.cursor := congrArg Tape.cursor hgrown
  have hfilled : (b.reserve bs.length).filled = b.filled := congrArg Tape.filled hgrown
  have horder : (b.reserve bs.length).order = b.order := congrArg Tape.order hgrown
  have hroom := room_reserve h bs.length
  simp only [tape, Buffer.push, Tape.push, Tape.mk.injEq, hcursor, hfilled, horder, and_true]
  funext i
  rw [← hcells i]
  simp only [List.getD_eq_getElem?_getD, capacity] at hroom ⊢
  have hfront : ((b.reserve bs.length).storage.take b.cursor).length = b.cursor := by
    rw [List.length_take]
    omega
  by_cases hbefore : i < b.cursor
  · rw [if_neg (by omega), List.append_assoc, List.getElem?_append_left (by omega), List.getElem?_take_of_lt hbefore]
  · rw [if_pos (by omega), List.append_assoc, List.getElem?_append_right (by omega), hfront]
    by_cases hinside : i - b.cursor < bs.length
    · rw [List.getElem?_append_left hinside, List.getElem?_eq_getElem hinside]
      rfl
    · have hpast : b.cursor + bs.length + (i - b.cursor - bs.length) = i := by omega
      rw [List.getElem?_append_right (by omega), List.getElem?_drop, hpast,
        List.getElem?_eq_none (by omega : bs.length ≤ i - b.cursor)]
      rfl

/-- What holds of every piece holds of an encoding: bounds are kept, the tape follows, and no storage is given up. -/
theorem simulates_tape (least : Nat) :
    Output.Simulates fun (b : Buffer) (t : Tape) => b.InBounds ∧ b.tape = t ∧ least ≤ b.capacity where
  order_eq := by
    rintro b _ ⟨-, rfl, -⟩
    rfl
  makeRoom := by
    rintro b _ n ⟨hbounds, rfl, hleast⟩
    exact ⟨(hbounds.reserve n).1, b.tape_reserve n, Nat.le_trans hleast (b.capacity_le_reserve n)⟩
  push := by
    rintro b _ bs ⟨hbounds, rfl, hleast⟩
    exact ⟨hbounds.push bs, tape_push hbounds.cursor_le bs, Nat.le_trans hleast (b.capacity_le_push bs)⟩

theorem tape_emit {b : Buffer} (h : b.InBounds) (pieces : List Piece) :
    (emit b pieces).1.InBounds ∧ (emit b pieces).1.tape = (emit b.tape pieces).1 ∧
      b.capacity ≤ (emit b pieces).1.capacity :=
  (simulates_tape b.capacity).emit ⟨h, rfl, Nat.le_refl _⟩ pieces

/-- The valid bytes are the cells below the mark. -/
theorem getElem?_written {b : Buffer} (h : b.filled ≤ b.capacity) (i : Nat) :
    b.written[i]? = if i < b.filled then some (b.tape.cells i) else none := by
  rw [written, List.getElem?_take]
  by_cases hi : i < b.filled
  · have hstored : i < b.storage.length := Nat.lt_of_lt_of_le hi h
    rw [if_pos hi, if_pos hi, List.getElem?_eq_getElem hstored]
    exact congrArg some (List.getElem_eq_getD 0)
  · rw [if_neg hi, if_neg hi]

theorem length_written {b : Buffer} (h : b.filled ≤ b.capacity) : b.written.length = b.filled := by
  rw [written, List.length_take]
  exact Nat.min_eq_left h

/-- An overwrite within the valid bytes cuts nothing off. -/
theorem written_of_tape_push {b after : Buffer} {bs : List UInt8} (h : b.InBounds) (hcursor : b.cursor ≤ b.filled)
    (hafter : after.InBounds) (htape : after.tape = b.tape.push bs) :
    after.written = b.written.take b.cursor ++ bs ++ b.written.drop (b.cursor + bs.length) := by
  have hfilled : after.filled = max b.filled (b.cursor + bs.length) := congrArg Tape.filled htape
  have hfront : (b.written.take b.cursor).length = b.cursor := by
    rw [List.length_take, length_written h.filled_le]
    exact Nat.min_eq_left hcursor
  refine List.ext_getElem? fun i => ?_
  rw [getElem?_written hafter.filled_le, htape, hfilled, List.append_assoc]
  by_cases hbefore : i < b.cursor
  · have hcell : (b.tape.push bs).cells i = b.tape.cells i := if_neg (Nat.not_le_of_lt hbefore)
    rw [List.getElem?_append_left (by omega), List.getElem?_take_of_lt hbefore, getElem?_written h.filled_le,
      if_pos (by omega), if_pos (by omega), hcell]
  · have hcell : (b.tape.push bs).cells i = bs.getD (i - b.cursor) (b.tape.cells i) := if_pos (Nat.le_of_not_lt hbefore)
    rw [List.getElem?_append_right (by omega), hfront, hcell, List.getD_eq_getElem?_getD]
    by_cases hinside : i - b.cursor < bs.length
    · rw [List.getElem?_append_left hinside, List.getElem?_eq_getElem hinside, if_pos (by omega)]
      rfl
    · have hpast : b.cursor + bs.length + (i - b.cursor - bs.length) = i := by omega
      rw [List.getElem?_append_right (by omega), List.getElem?_drop, hpast, getElem?_written h.filled_le,
        List.getElem?_eq_none (by omega : bs.length ≤ i - b.cursor)]
      by_cases hvalid : i < b.filled
      · rw [if_pos hvalid, if_pos (by omega)]
        rfl
      · rw [if_neg hvalid, if_neg (by omega)]

end Buffer

end WireFormat
