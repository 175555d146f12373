import WireFormat.Output

/-!
# What emitting leaves in a buffer

Pieces emitted at the cursor of a buffer put their bytes right behind what stood before the cursor, whether or not the
storage has to grow on the way, and leave the cursor behind them. Unless nothing was put down, the valid mark then
reaches the cursor. Main statement: with the cursor moved back to where it was, the emitted bytes are the first ones to
be read.
-/
namespace WireFormat

theorem bytesOf_cons (order : ByteOrder) (piece : Piece) (pieces : List Piece) :
    bytesOf order (piece :: pieces) = piece.bytes order ++ bytesOf order pieces := by
  simp only [bytesOf, List.flatMap_cons]

theorem bytesOf_append (order : ByteOrder) (first second : List Piece) :
    bytesOf order (first ++ second) = bytesOf order first ++ bytesOf order second := by
  simp only [bytesOf, List.flatMap_append]

theorem lengthOf_append (first second : List Piece) :
    lengthOf (first ++ second) = lengthOf first + lengthOf second := by
  rw [← length_bytesOf .little, bytesOf_append, List.length_append, length_bytesOf, length_bytesOf]

/-- Whether a piece only asks for room. -/
def Piece.announces : Piece → Bool
  | room _ => true
  | mark _ | number _ _ | run _ => false

theorem Piece.exists_of_announces {piece : Piece} (h : piece.announces = true) : ∃ n, piece = .room n := by
  cases piece with
  | room n => exact ⟨n, rfl⟩
  | _ => cases h

theorem bytesOf_of_announces {order : ByteOrder} {pieces : List Piece} (h : pieces.all Piece.announces = true) :
    bytesOf order pieces = [] := by
  induction pieces with
  | nil => rfl
  | cons piece pieces ih =>
    obtain ⟨hpiece, hpieces⟩ := Bool.and_eq_true_iff.1 (List.all_cons ▸ h)
    obtain ⟨n, rfl⟩ := Piece.exists_of_announces hpiece
    exact ih hpieces

section

variable {τ : Type} [Output τ]

theorem emit_cons (out : τ) {piece : Piece} (h : piece.announces = false) (pieces : List Piece) :
    emit out (piece :: pieces) =
      ((emit (Output.push out (piece.bytes (Output.order out))).1 pieces).1,
        (Output.push out (piece.bytes (Output.order out))).2 +
          (emit (Output.push out (piece.bytes (Output.order out))).1 pieces).2) := by
  cases piece with
  | room n => cases h
  | mark b => rfl
  | number width value => rfl
  | run bs => rfl

/-- Where every push counts its bytes, the count is the size of the pieces. -/
theorem count_emit (hcount : ∀ (out : τ) (bs : List UInt8), (Output.push out bs).2 = bs.length) (out : τ)
    (pieces : List Piece) : (emit out pieces).2 = lengthOf pieces := by
  induction pieces generalizing out with
  | nil => rfl
  | cons piece pieces ih =>
    cases hpiece : piece.announces with
    | true =>
      obtain ⟨n, rfl⟩ := Piece.exists_of_announces hpiece
      exact (ih _).trans (Nat.zero_add _).symm
    | false => rw [emit_cons out hpiece, hcount, ih, Piece.length_bytes, lengthOf]

end

namespace Buffer

/-- The storage in front of the cursor. -/
def before (b : Buffer) : List UInt8 :=
  b.storage.take b.cursor

/-- Putting bytes down at the cursor of a buffer has led to another one. -/
structure Wrote (b : Buffer) (bs : List UInt8) (after : Buffer) : Prop where
  order_eq : after.order = b.order
  before_eq : after.before = b.before ++ bs
  cursor_eq : after.cursor = b.cursor + bs.length
  cursor_le : after.cursor ≤ after.capacity
  filled_le : b.filled ≤ after.filled
  filled_le_max : after.filled ≤ max b.filled after.cursor
  reaches : bs ≠ [] → after.cursor ≤ after.filled

theorem Wrote.refl {b : Buffer} (h : b.cursor ≤ b.capacity) : b.Wrote [] b where
  order_eq := rfl
  before_eq := (List.append_nil _).symm
  cursor_eq := rfl
  cursor_le := h
  filled_le := Nat.le_refl _
  filled_le_max := Nat.le_max_left _ _
  reaches h := absurd rfl h

theorem Wrote.trans {a b c : Buffer} {xs ys : List UInt8} (hab : a.Wrote xs b) (hbc : b.Wrote ys c) :
    a.Wrote (xs ++ ys) c := by
  have hcur : c.cursor = b.cursor + ys.length := hbc.cursor_eq
  have hfill := hbc.filled_le
  have hmax := hab.filled_le_max
  have hmax' := hbc.filled_le_max
  refine ⟨hbc.order_eq.trans hab.order_eq, ?_, ?_, hbc.cursor_le, Nat.le_trans hab.filled_le hfill, ?_, ?_⟩
  · rw [hbc.before_eq, hab.before_eq, List.append_assoc]
  · rw [hcur, hab.cursor_eq, List.length_append, Nat.add_assoc]
  · omega
  · intro hne
    cases ys with
    | nil =>
      have hxs : xs ≠ [] := by simpa using hne
      have hreach := hab.reaches hxs
      have hstay : c.cursor = b.cursor := hcur
      omega
    | cons y ys => exact hbc.reaches (List.cons_ne_nil y ys)

theorem length_before {b : Buffer} (h : b.cursor ≤ b.capacity) : b.before.length = b.cursor := by
  rw [before, List.length_take]
  exact Nat.min_eq_left h

theorem reserve_prefix (b : Buffer) (n : Nat) : ∃ zeros, (b.reserve n).storage = b.storage ++ zeros := by
  unfold reserve
  split
  · exact ⟨[], (List.append_nil _).symm⟩
  · exact ⟨_, rfl⟩

/-- Growing keeps everything but the amount of storage. -/
theorem wrote_reserve {b : Buffer} (h : b.cursor ≤ b.capacity) (n : Nat) : b.Wrote [] (b.reserve n) := by
  obtain ⟨zeros, hzeros⟩ := b.reserve_prefix n
  have hcursor : (b.reserve n).cursor = b.cursor := by unfold reserve; split <;> rfl
  have hfilled : (b.reserve n).filled = b.filled := by unfold reserve; split <;> rfl
  have horder : (b.reserve n).order = b.order := by unfold reserve; split <;> rfl
  refine ⟨horder, ?_, ?_, ?_, ?_, ?_, fun hne => absurd rfl hne⟩
  · rw [before, hzeros, hcursor, List.take_append_of_le_length h, List.append_nil, before]
  · rw [hcursor, List.length_nil, Nat.add_zero]
  · rw [hcursor, capacity, hzeros, List.length_append]
    exact Nat.le_add_right_of_le h
  · exact Nat.le_of_eq hfilled.symm
  · rw [hfilled]
    exact Nat.le_max_left _ _

theorem room_reserve {b : Buffer} (h : b.cursor ≤ b.capacity) (n : Nat) :
    b.cursor + n ≤ (b.reserve n).capacity := by
  unfold reserve
  split
  · omega
  · simp only [capacity, List.length_append, List.length_replicate] at *
    omega

theorem wrote_push {b : Buffer} (h : b.cursor ≤ b.capacity) (bs : List UInt8) : b.Wrote bs (b.push bs) := by
  have hgrown := wrote_reserve h bs.length
  have hroom := room_reserve h bs.length
  have hcursor : (b.reserve bs.length).cursor = b.cursor := hgrown.cursor_eq
  have hlength := length_before hgrown.cursor_le
  have hbefore : (b.push bs).before = (b.reserve bs.length).before ++ bs := by
    have hfront : ((b.reserve bs.length).before ++ bs).length = (b.push bs).cursor := by
      rw [List.length_append, hlength]
      rfl
    rw [before, ← hfront]
    exact List.take_left
  have hpushed : b.reserve bs.length |>.Wrote bs (b.push bs) := by
    refine ⟨rfl, hbefore, rfl, ?_, Nat.le_max_left _ _, Nat.le_refl _, fun _ => Nat.le_max_right _ _⟩
    show (b.reserve bs.length).cursor + bs.length ≤
      ((b.reserve bs.length).before ++ bs ++ (b.reserve bs.length).storage.drop _).length
    simp only [List.length_append, hlength]
    omega
  exact hgrown.trans hpushed

theorem count_emit (b : Buffer) (pieces : List Piece) : (emit b pieces).2 = lengthOf pieces :=
  WireFormat.count_emit (fun _ _ => rfl) b pieces

/-- Emitting puts down the bytes of the pieces and counts them. -/
theorem wrote_emit {b : Buffer} (h : b.cursor ≤ b.capacity) (pieces : List Piece) :
    b.Wrote (bytesOf b.order pieces) (emit b pieces).1 ∧ (emit b pieces).2 = lengthOf pieces := by
  refine ⟨?_, b.count_emit pieces⟩
  induction pieces generalizing b with
  | nil => exact Wrote.refl h
  | cons piece pieces ih =>
    cases hpiece : piece.announces with
    | true =>
      obtain ⟨n, rfl⟩ := Piece.exists_of_announces hpiece
      have hgrown := wrote_reserve h n
      have hrest := ih hgrown.cursor_le
      rw [hgrown.order_eq] at hrest
      exact hgrown.trans hrest
    | false =>
      have hpushed := wrote_push h (piece.bytes b.order)
      have hrest := ih hpushed.cursor_le
      rw [hpushed.order_eq] at hrest
      rw [emit_cons b hpiece, bytesOf_cons]
      exact hpushed.trans hrest

/-- What was put down is the first thing to be read once the cursor is moved back in front of it. -/
theorem Wrote.unread {b after : Buffer} {bs : List UInt8} (h : b.cursor ≤ b.capacity) (hw : b.Wrote bs after) :
    bs <+: { after with cursor := b.cursor }.unread := by
  by_cases hne : bs = []
  · rw [hne]
    exact List.nil_prefix
  · have hreach := hw.reaches hne
    have htake : after.before = after.written.take after.cursor := by
      rw [before, written, List.take_take, Nat.min_eq_left hreach]
    obtain ⟨rest, hrest⟩ : after.before <+: after.written := htake ▸ List.take_prefix _ _
    refine ⟨rest, ?_⟩
    show bs ++ rest = after.written.drop b.cursor
    rw [← hrest, hw.before_eq, List.append_assoc, ← length_before h, List.drop_left]

/-- Moving back in front of what was put down succeeds, and the pieces come next there. -/
theorem Wrote.moved_back {b after : Buffer} {pieces : List Piece} (h : b.cursor ≤ b.capacity)
    (hw : b.Wrote (bytesOf b.order pieces) after) :
    ∃ back, after.moveTo b.cursor = .ok back ∧ back.cursor = b.cursor ∧ bytesOf back.order pieces <+: back.unread := by
  have hcur := hw.cursor_eq
  have hle := hw.cursor_le
  have hprefix := hw.unread h
  rw [← hw.order_eq] at hprefix
  refine ⟨{ after with cursor := b.cursor }, ?_, rfl, hprefix⟩
  exact if_pos (by omega)

/-- In a fresh buffer what was put down is all there is. -/
theorem Wrote.written_of_empty {order : ByteOrder} {capacity : Nat} {bs : List UInt8} {after : Buffer}
    (hw : (empty order capacity).Wrote bs after) : after.written = bs := by
  have hcur : after.cursor = 0 + bs.length := hw.cursor_eq
  have hmax : after.filled ≤ max 0 after.cursor := hw.filled_le_max
  have hfilled : after.filled = after.cursor := by
    cases bs with
    | nil => simp only [List.length_nil] at hcur; omega
    | cons b bs => have hreach := hw.reaches (List.cons_ne_nil b bs); omega
  have hbefore : after.before = [] ++ bs := hw.before_eq
  rw [written, hfilled]
  exact hbefore

theorem written_emit_empty (order : ByteOrder) (capacity : Nat) (pieces : List Piece) :
    (emit (empty order capacity) pieces).1.written = bytesOf order pieces :=
  (wrote_emit (Nat.zero_le _) pieces).1.written_of_empty

end Buffer

end WireFormat
