import WireFormat.Reader
import WireFormat.Proofs.Emission
import WireFormat.Proofs.Utf8

/-!
# Reading pieces back

A reader yields a value from some pieces if it consumes exactly their bytes wherever these come next, in the byte order
of the place it reads from. Yields compose as readers do. Main statements: each scalar, each string and each sequence
within 32 bits, and each optional value is what its reader yields from the pieces that it is written as.
-/
namespace WireFormat

namespace Buffer

/-- The same buffer with the cursor moved on. -/
def skip (b : Buffer) (n : Nat) : Buffer :=
  { b with cursor := b.cursor + n }

@[simp] theorem skip_skip (b : Buffer) (m n : Nat) : (b.skip m).skip n = b.skip (m + n) := by
  simp only [skip, Nat.add_assoc]

@[simp] theorem order_skip (b : Buffer) (n : Nat) : (b.skip n).order = b.order := rfl

theorem unread_skip (b : Buffer) (n : Nat) : (b.skip n).unread = b.unread.drop n := by
  simp only [skip, unread, written, List.drop_drop]

theorem length_unread_le (b : Buffer) : b.unread.length ≤ b.filled - b.cursor := by
  simp only [unread, written, List.length_drop, List.length_take]
  omega

/-- A buffer never holds back bytes that come next. -/
theorem take_of_prefix {b : Buffer} {bs : List UInt8} (h : bs <+: b.unread) (hc : bs = [] → b.cursor ≤ b.filled) :
    b.take bs.length = (.ok bs, b.skip bs.length) := by
  have hle := h.length_le
  have hunread := b.length_unread_le
  have hroom : b.cursor + bs.length ≤ b.filled := by
    cases bs with
    | nil => exact hc rfl
    | cons x bs => simp only [List.length_cons] at *; omega
  have htaken : (b.storage.drop b.cursor).take bs.length = bs := by
    obtain ⟨rest, hrest⟩ := h
    have hsplit : b.unread = (b.storage.drop b.cursor).take (b.filled - b.cursor) := by
      rw [unread, written, List.drop_take]
    rw [← Nat.min_eq_left (Nat.le_sub_of_add_le' hroom), ← List.take_take, ← hsplit, ← hrest, List.take_left]
  rw [take, if_pos hroom, htaken]
  rfl

/-- A take that succeeds has taken what came next. -/
theorem take_ok {b after : Buffer} {n : Nat} {bs : List UInt8} (hfilled : b.filled ≤ b.capacity)
    (h : b.take n = (.ok bs, after)) : bs.length = n ∧ bs <+: b.unread ∧ after = b.skip n := by
  unfold take at h
  split at h
  · obtain ⟨hbs, hafter⟩ := Prod.mk.inj h
    obtain rfl := Except.ok.inj hbs
    have hsplit : b.unread = (b.storage.drop b.cursor).take (b.filled - b.cursor) := by
      rw [unread, written, List.drop_take]
    have hle : n ≤ b.filled - b.cursor := by omega
    refine ⟨?_, ?_, hafter.symm⟩
    · simp only [capacity] at hfilled
      rw [List.length_take, List.length_drop]
      omega
    · rw [hsplit, ← Nat.min_eq_left hle, ← List.take_take]
      exact List.take_prefix _ _
  · cases h

theorem prefix_left {b : Buffer} {first second : List Piece} (h : bytesOf b.order (first ++ second) <+: b.unread) :
    bytesOf b.order first <+: b.unread := by
  rw [bytesOf_append] at h
  exact (List.prefix_append _ _).trans h

theorem prefix_right {b : Buffer} {first second : List Piece} (h : bytesOf b.order (first ++ second) <+: b.unread) :
    bytesOf b.order second <+: (b.skip (lengthOf first)).unread := by
  obtain ⟨rest, hrest⟩ := h
  refine ⟨rest, ?_⟩
  rw [unread_skip, ← hrest, bytesOf_append, List.append_assoc, ← length_bytesOf b.order first, List.drop_left]

end Buffer

namespace Reader

variable {α β : Type}

/-- Wherever the bytes of the pieces come next, the reader consumes them and nothing more, and yields the value. -/
def Yields (reader : Reader α) (pieces : List Piece) (a : α) : Prop :=
  ∀ b : Buffer, bytesOf b.order pieces <+: b.unread → reader b = (.ok a, b.skip (lengthOf pieces))

theorem bind_ok {reader : Reader α} {next : α → Reader β} {b after : Buffer} {a : α}
    (h : reader b = (.ok a, after)) : (reader >>= next) b = next a after := by
  simp only [bind, h]

theorem bind_error {reader : Reader α} {next : α → Reader β} {b after : Buffer} {e : ReadError}
    (h : reader b = (.error e, after)) : (reader >>= next) b = (.error e, after) := by
  simp only [bind, h]

theorem pure_ok {a c : α} {b after : Buffer} (h : (pure a : Reader α) b = (.ok c, after)) : a = c ∧ b = after := by
  cases h
  exact ⟨rfl, rfl⟩

theorem exists_of_bind_ok {reader : Reader α} {next : α → Reader β} {b after : Buffer} {c : β}
    (h : (reader >>= next) b = (.ok c, after)) :
    ∃ a between, reader b = (.ok a, between) ∧ next a between = (.ok c, after) := by
  rcases hreader : reader b with ⟨result, between⟩
  cases result with
  | ok a =>
    rw [bind_ok hreader] at h
    exact ⟨a, between, rfl, h⟩
  | error e =>
    rw [bind_error hreader] at h
    cases h

theorem yields_pure (a : α) : (pure a : Reader α).Yields [] a :=
  fun _ _ => rfl

theorem Yields.bind {reader : Reader α} {next : α → Reader β} {first second : List Piece} {a : α} {c : β}
    (h : reader.Yields first a) (hnext : (next a).Yields second c) :
    (reader >>= next).Yields (first ++ second) c := by
  intro b hb
  have hread := h b (Buffer.prefix_left hb)
  have hrest := hnext (b.skip (lengthOf first)) (Buffer.prefix_right hb)
  rw [bind_ok hread, hrest, Buffer.skip_skip, lengthOf_append]

/-- What follows may read nothing more. -/
theorem Yields.bind_nothing {reader : Reader α} {next : α → Reader β} {pieces : List Piece} {a : α} {c : β}
    (h : reader.Yields pieces a) (hnext : (next a).Yields [] c) : (reader >>= next).Yields pieces c := by
  have hbind := h.bind hnext
  rwa [List.append_nil] at hbind

/-- What is yielded may be passed through a function. -/
theorem Yields.map {reader : Reader α} {pieces : List Piece} {a : α} (h : reader.Yields pieces a) (f : α → β) :
    (reader >>= fun a => pure (f a)).Yields pieces (f a) :=
  h.bind_nothing (yields_pure (f a))

theorem yields_number {width n : Nat} (hw : 0 < width) (hn : n < span width) :
    (number width).Yields [.number width n] n := by
  intro b hb
  have hbytes : bytesOf b.order [.number width n] = b.order.bytes width n := List.append_nil _
  have htake := Buffer.take_of_prefix (hbytes ▸ hb) (fun hnil => by
    have hlength := b.order.length_bytes width n
    rw [hnil, List.length_nil] at hlength
    omega)
  rw [ByteOrder.length_bytes] at htake
  simp only [number, htake, ByteOrder.number_bytes, Nat.mod_eq_of_lt hn, lengthOf, Piece.length, Nat.add_zero]

theorem yields_u8 (n : UInt8) : u8.Yields [.u8 n] n := by
  have h := (yields_number Nat.one_pos n.toNat_lt).map UInt8.ofNat
  rwa [UInt8.ofNat_toNat] at h

theorem yields_u16 (n : UInt16) : u16.Yields [.u16 n] n := by
  have h := (yields_number Nat.two_pos n.toNat_lt).map UInt16.ofNat
  rwa [UInt16.ofNat_toNat] at h

theorem yields_u32 (n : UInt32) : u32.Yields [.u32 n] n := by
  have h := (yields_number (show 0 < 4 by omega) n.toNat_lt).map UInt32.ofNat
  rwa [UInt32.ofNat_toNat] at h

theorem yields_i32 (n : Int32) : i32.Yields [.i32 n] n :=
  (yields_u32 n.toUInt32).map UInt32.toInt32

theorem yields_f32 (x : Floating.Binary32) : f32.Yields [.f32 x] x :=
  (yields_u32 x.bits).map Floating.Binary32.mk

theorem yields_f64 (x : Floating.Binary64) : f64.Yields [.f64 x] x := by
  have h := (yields_number (show 0 < 8 by omega) x.bits.toNat_lt).map (fun n => Floating.Binary64.mk (.ofNat n))
  rwa [UInt64.ofNat_toNat] at h

/-- The index of a variant is read as a number of four bytes. -/
theorem yields_index {n : Nat} (h : n < 0x100000000) : u32.Yields [.index n] (.ofNat n) :=
  (yields_number (show 0 < 4 by omega) h).map UInt32.ofNat

theorem bytes_mark (order : ByteOrder) (b : Bool) : (Piece.mark b).bytes order = order.bytes 1 b.toNat := by
  cases order <;> cases b <;> rfl

theorem yields_mark (b : Bool) : mark.Yields [.mark b] b := by
  have h := (yields_u8 (.ofNat b.toNat)).map (· == 1)
  have hvalue : (UInt8.ofNat b.toNat == 1) = b := by cases b <;> rfl
  have hpiece : Piece.u8 (.ofNat b.toNat) = .number 1 b.toNat := by cases b <;> rfl
  rw [hvalue, hpiece] at h
  intro buffer hb
  rw [bytesOf_cons, bytes_mark] at hb
  exact h buffer hb

theorem yields_frame {n : Nat} (h : n < 0x100000000) : frame.Yields [.frame n] n := by
  have hspan : n < span 8 := Nat.lt_trans h (by decide)
  have hnext : (if n < 0x100000000 then pure n else fail (.wideLength n) : Reader Nat).Yields [] n := by
    rw [if_pos h]
    exact yields_pure n
  have hbind : frame.Yields ([Piece.number 8 n] ++ []) n := (yields_number (by omega) hspan).bind hnext
  rwa [Piece.frame, Nat.mod_eq_of_lt h]

/-- Behind a frame the bytes that it counts are consumed, be they text or not. An empty run is only taken where the cursor
has not passed the valid mark, as it has not right behind a frame. -/
theorem str_behind_frame {b : Buffer} {bs : List UInt8} (hlength : bs.length < 0x100000000)
    (h : b.order.bytes 8 bs.length ++ bs <+: b.unread) :
    str b = ((Utf8.decode bs).mapError .invalidUtf8, b.skip (8 + bs.length)) := by
  have hpieces : bytesOf b.order ([Piece.frame bs.length] ++ [Piece.run bs]) <+: b.unread := by
    simpa [bytesOf, Piece.bytes, Piece.frame, Nat.mod_eq_of_lt hlength] using h
  have hframe := yields_frame hlength b (Buffer.prefix_left hpieces)
  have hrun : bs <+: (b.skip 8).unread := by
    have hbytes : bytesOf b.order [.run bs] = bs := List.append_nil _
    exact hbytes ▸ Buffer.prefix_right hpieces
  have htake := Buffer.take_of_prefix hrun (fun _ => by
    have hle := h.length_le
    have hunread := b.length_unread_le
    rw [List.length_append, ByteOrder.length_bytes] at hle
    show b.cursor + 8 ≤ b.filled
    omega)
  have hbytes : take bs.length (b.skip 8) = (.ok bs, _) := htake
  rw [str, bind_ok hframe]
  refine (bind_ok hbytes).trans ?_
  rw [Buffer.skip_skip]
  cases Utf8.decode bs <;> rfl

theorem yields_str {s : String} (h : (Utf8.encode s).length < 0x100000000) : str.Yields (Piece.str s) s := by
  intro b hb
  have hbytes : bytesOf b.order (Piece.str s) = b.order.bytes 8 (Utf8.encode s).length ++ Utf8.encode s := by
    simp [bytesOf, Piece.str, Piece.bytes, Piece.frame, Nat.mod_eq_of_lt h]
  have hwidth : lengthOf (Piece.str s) = 8 + (Utf8.encode s).length := by
    simp [Piece.str, lengthOf, Piece.length, Piece.frame]
  rw [str_behind_frame h (hbytes ▸ hb), Utf8.decode_encode, hwidth]
  rfl

variable {γ : Type} {element : Reader α} {pieces : γ → List Piece} {back : γ → α}

theorem yields_times_map {items : List γ} (h : ∀ a ∈ items, element.Yields (pieces a) (back a)) :
    (times element items.length).Yields (items.flatMap pieces) (items.map back) := by
  induction items with
  | nil => exact yields_pure []
  | cons a items ih =>
    have hfirst := h a List.mem_cons_self
    have hrest := ih fun c hc => h c (List.mem_cons_of_mem a hc)
    rw [List.flatMap_cons]
    exact hfirst.bind (hrest.map (back a :: ·))

/-- What is read back from a sequence may be other than what was written, element by element. -/
theorem yields_seq_map {items : List γ} (hlength : items.length < 0x100000000)
    (h : ∀ a ∈ items, element.Yields (pieces a) (back a)) :
    (seq element).Yields (Piece.seq pieces items) (items.map back) :=
  (yields_frame hlength).bind (yields_times_map h)

theorem yields_opt_map {value : Option γ} (h : ∀ a ∈ value, element.Yields (pieces a) (back a)) :
    (opt element).Yields (Piece.opt pieces value) (value.map back) := by
  cases value with
  | none => exact (yields_mark false).bind (yields_pure none)
  | some a => exact (yields_mark true).bind ((h a rfl).map some)

theorem yields_seq {pieces : α → List Piece} {items : List α} (hlength : items.length < 0x100000000)
    (h : ∀ a ∈ items, element.Yields (pieces a) a) : (seq element).Yields (Piece.seq pieces items) items := by
  have hmap : (seq element).Yields (Piece.seq pieces items) (items.map id) := yields_seq_map hlength h
  rwa [List.map_id] at hmap

theorem yields_opt {pieces : α → List Piece} {value : Option α} (h : ∀ a ∈ value, element.Yields (pieces a) a) :
    (opt element).Yields (Piece.opt pieces value) value := by
  have hmap : (opt element).Yields (Piece.opt pieces value) (value.map id) := yields_opt_map h
  rwa [Option.map_id] at hmap

/-- Bytes that hold one value and nothing more are consumed to the last. -/
theorem Yields.read_ofBytes {reader : Reader α} {pieces : List Piece} {a : α} (h : reader.Yields pieces a)
    (order : ByteOrder) : reader (Buffer.ofBytes order (bytesOf order pieces)) =
      (.ok a, (Buffer.ofBytes order (bytesOf order pieces)).skip (lengthOf pieces)) :=
  h _ ⟨[], (List.append_nil _).trans List.take_length.symm⟩

/-- They decode to it, whatever becomes of leftover bytes. -/
theorem Yields.decode {reader : Reader α} {pieces : List Piece} {a : α} (h : reader.Yields pieces a)
    (leftover : Leftover) : reader.decode leftover (bytesOf .little pieces) = .ok a := by
  have hremaining : ((Buffer.ofBytes .little (bytesOf .little pieces)).skip (lengthOf pieces)).remaining = 0 := by
    show (bytesOf .little pieces).length - (0 + lengthOf pieces) = 0
    rw [length_bytesOf]
    omega
  simp only [Reader.decode, h.read_ofBytes]
  cases leftover with
  | ignored => rfl
  | rejected => simp only [Buffer.finish, hremaining, if_true, Except.map]

end Reader

end WireFormat
