import WireFormat.Proofs.Delimiting
import WireFormat.Proofs.Tape

/-!
# Everything that can be done with a buffer

A buffer is made empty or from bytes, and then written to, read from and moved about in any order. Main statements: in
every state that comes about in this way cursor and mark lie within the storage, and a take succeeds exactly when the
mark is far enough; and two buffers that stand for the same tape give the same answers for ever, whatever their capacities.
-/
namespace WireFormat

namespace Buffer

/-- The same cursor, mark and byte order, and the same valid bytes. -/
structure SameValid (a b : Buffer) : Prop where
  order_eq : a.order = b.order
  cursor_eq : a.cursor = b.cursor
  filled_eq : a.filled = b.filled
  written_eq : a.written = b.written

theorem SameValid.of_tape_eq {a b : Buffer} (ha : a.InBounds) (hb : b.InBounds) (h : a.tape = b.tape) : a.SameValid b where
  order_eq := congrArg Tape.order h
  cursor_eq := congrArg Tape.cursor h
  filled_eq := congrArg Tape.filled h
  written_eq := by
    have hfilled : a.filled = b.filled := congrArg Tape.filled h
    refine List.ext_getElem? fun i => ?_
    rw [getElem?_written ha.filled_le, getElem?_written hb.filled_le, h, hfilled]

theorem SameValid.remaining_eq {a b : Buffer} (h : a.SameValid b) : a.remaining = b.remaining := by
  rw [remaining, remaining, h.filled_eq, h.cursor_eq]

/-- A take looks at valid bytes only. -/
theorem take_eq (b : Buffer) (n : Nat) : b.take n =
    if b.cursor + n ≤ b.filled then (.ok ((b.written.drop b.cursor).take n), b.skip n)
    else (.error (.unexpectedEnd b.cursor n b.remaining), b) := by
  unfold take
  split
  · have hle : n ≤ b.filled - b.cursor := by omega
    rw [written, List.drop_take, List.take_take, Nat.min_eq_left hle]
    rfl
  · rfl

theorem take_iff {b : Buffer} (h : b.InBounds) (n : Nat) :
    (b.cursor + n ≤ b.filled ↔ ∃ bs, bs.length = n ∧ b.take n = (.ok bs, b.skip n)) ∧
      (¬b.cursor + n ≤ b.filled ↔ b.take n = (.error (.unexpectedEnd b.cursor n b.remaining), b)) := by
  rw [take_eq]
  by_cases hroom : b.cursor + n ≤ b.filled
  · have hlength : ((b.written.drop b.cursor).take n).length = n := by
      rw [List.length_take, List.length_drop, length_written h.filled_le]
      omega
    simp [hroom, hlength]
  · simp [hroom]

theorem SameValid.take {a b : Buffer} (h : a.SameValid b) (n : Nat) :
    (a.take n).1 = (b.take n).1 ∧ (a.take n).2.SameValid (b.take n).2 := by
  rw [take_eq, take_eq, h.cursor_eq, h.filled_eq, h.written_eq, h.remaining_eq]
  split
  · refine ⟨rfl, h.order_eq, ?_, h.filled_eq, h.written_eq⟩
    show a.cursor + n = b.cursor + n
    rw [h.cursor_eq]
  · exact ⟨rfl, h⟩

end Buffer

namespace Reader

variable {α β : Type}

/-- Readers that are put together from takes and may look at how much there is to read. -/
inductive Composed : {α : Type} → Reader α → Prop where
  | pure {α : Type} (a : α) : Composed (pure a : Reader α)
  | fail {α : Type} (e : ReadError) : Composed (fail e : Reader α)
  | bind {α β : Type} {reader : Reader α} {next : α → Reader β} (h : Composed reader) (hnext : ∀ a, Composed (next a)) :
    Composed (reader >>= next)
  | take (n : Nat) : Composed (take n)
  | number (width : Nat) : Composed (number width)
  | measured {α : Type} {choose : (filled remaining : Nat) → Reader α}
    (h : ∀ filled remaining, Composed (choose filled remaining)) :
    Composed fun b => choose b.filled b.remaining b

theorem composed_closed : Closed @Composed where
  pure := .pure
  fail := .fail
  bind := .bind
  number _ := .number _
  framed := by
    refine .bind (.bind (.number 8) fun n => ?_) .take
    split
    · exact .pure n
    · exact .fail _

/-- The readers of all schemas and layouts, recursive ones included. -/
theorem Described.composed {reader : Reader α} (h : reader.Described) : reader.Composed := by
  cases h with
  | schema schema => exact schema.read_closed composed_closed
  | layout h =>
    induction h with
    | unit => exact .pure ()
    | layout h layout ih => exact layout.read_closed composed_closed ih
    | recursive layout =>
      let choose (filled remaining : Nat) := layout.readWithin (Reader.fail (.unexpectedEnd filled 1 0)) (remaining + 1)
      exact @Composed.measured _ choose fun _ _ => layout.readWithin_closed composed_closed _ _

theorem Composed.moves {reader : Reader α} (h : reader.Composed) : reader.Moves := by
  induction h with
  | pure a => exact moves_closed.pure a
  | fail e => exact moves_closed.fail e
  | bind _ _ ih ihnext => exact ih.bind ihnext
  | take n => exact moves_take n
  | number width => exact moves_number width
  | measured _ ih => exact fun b => ih _ _ b

/-- What is read depends on the valid bytes and on nothing else in the storage. -/
theorem Composed.respects {reader : Reader α} (h : reader.Composed) {a b : Buffer} (hab : a.SameValid b) :
    (reader a).1 = (reader b).1 ∧ (reader a).2.SameValid (reader b).2 := by
  induction h generalizing a b with
  | pure v => exact ⟨rfl, hab⟩
  | fail e => exact ⟨rfl, hab⟩
  | @bind _ _ reader next _ _ ih ihnext =>
    obtain ⟨hresult, hafter⟩ := ih hab
    rcases ha : reader a with ⟨result, after⟩
    rcases hb : reader b with ⟨result', after'⟩
    rw [ha, hb] at hresult hafter
    obtain rfl : result = result' := hresult
    cases result with
    | ok v =>
      rw [bind_ok ha, bind_ok hb]
      exact ihnext v hafter
    | error e =>
      rw [bind_error ha, bind_error hb]
      exact ⟨rfl, hafter⟩
  | take n => exact hab.take n
  | number width =>
    obtain ⟨hresult, hafter⟩ := hab.take width
    rw [number_eq, number_eq, hab.order_eq, hresult]
    exact ⟨rfl, hafter⟩
  | @measured _ choose _ ih =>
    show (choose a.filled a.remaining a).1 = (choose b.filled b.remaining b).1 ∧
      (choose a.filled a.remaining a).2.SameValid (choose b.filled b.remaining b).2
    rw [← hab.filled_eq, ← hab.remaining_eq]
    exact ih _ _ hab

end Reader

/-- What can be asked of a buffer, by the type of the answer. -/
inductive Operation : Type → Type 1 where
  | write (pieces : List Piece) : Operation Nat
  | writeBy (schema : Schema) (value : Value) : Operation (Except WriteError Nat)
  | read {α : Type} (reader : Reader α) (composed : reader.Composed) : Operation (Except ReadError α)
  | moveTo (position : Nat) : Operation (Except OutOfStorage Unit)
  | rewind : Operation Unit
  | reset : Operation Unit

namespace Operation

/-- A push of any length. -/
def push (bs : List UInt8) : Operation Nat :=
  write [.run bs]

/-- A request for room, with nothing written. -/
def reserve (n : Nat) : Operation Nat :=
  write [.room n]

def writeWith {α : Type} (codec : Codec α) (value : α) : Operation Nat :=
  write (codec.pieces value)

def take (n : Nat) : Operation (Except ReadError (List UInt8)) :=
  read (Reader.take n) (.take n)

variable {ρ : Type}

/-- The answer and the buffer afterwards. A cursor that would leave the storage stays where it is. -/
def run : Operation ρ → Buffer → ρ × Buffer
  | write pieces, b => ((emit b pieces).2, (emit b pieces).1)
  | writeBy schema value, b => ((schema.writeTo b value).2, (schema.writeTo b value).1)
  | read reader _, b => reader b
  | moveTo position, b =>
    match b.moveTo position with
    | .ok moved => (.ok (), moved)
    | .error e => (.error e, b)
  | rewind, b => ((), b.rewind)
  | reset, b => ((), b.reset)

/-- The pieces that an operation writes. -/
def pieces : Operation ρ → List Piece
  | write pieces => pieces
  | writeBy schema value => (schema.write value).pieces
  | read _ _ | moveTo _ | rewind | reset => []

/-- Whether what was written before is discarded. -/
def clears : Operation ρ → Bool
  | reset => true
  | write _ | writeBy _ _ | read _ _ | moveTo _ | rewind => false

-- The buffer's own operations and the writing of codecs are runs of these.

theorem run_push (bs : List UInt8) (b : Buffer) : (push bs).run b = (bs.length, b.push bs) := rfl

theorem run_reserve (n : Nat) (b : Buffer) : (reserve n).run b = (0, b.reserve n) := rfl

theorem run_take (n : Nat) (b : Buffer) : (take n).run b = b.take n := rfl

theorem run_writeWith {α : Type} (codec : Codec α) (value : α) (b : Buffer) :
    (writeWith codec value).run b = ((codec.writeTo b value).2, (codec.writeTo b value).1) := rfl

theorem run_writeBy (schema : Schema) (value : Value) (b : Buffer) : (writeBy schema value).run b =
    (match (schema.write value).error? with
      | none => .ok (lengthOf (schema.write value).pieces)
      | some error => .error error, (emit b (schema.write value).pieces).1) := by
  cases herror : (schema.write value).error? with
  | none => simp only [run, Schema.writeTo, herror, Buffer.count_emit]
  | some error => simp only [run, Schema.writeTo, herror]

/-- All that an operation can do: write its pieces, move the cursor within the storage, or discard what was written. -/
theorem effect (op : Operation ρ) {b : Buffer} (h : b.InBounds) :
    (op.clears = false ∧ (op.run b).2 = (emit b op.pieces).1) ∨
      (op.clears = false ∧ op.pieces = [] ∧ ∃ cursor ≤ b.capacity, (op.run b).2 = { b with cursor := cursor }) ∨
      (op.clears = true ∧ op.pieces = [] ∧ (op.run b).2 = b.reset) := by
  cases op with
  | write pieces => exact .inl ⟨rfl, rfl⟩
  | writeBy schema value => exact .inl ⟨rfl, by rw [run_writeBy, pieces]⟩
  | read reader composed =>
    obtain ⟨cursor, hafter, -, hle⟩ := composed.moves b
    have hcursor := h.cursor_le
    have hfilled := h.filled_le
    exact .inr (.inl ⟨rfl, rfl, cursor, by omega, hafter⟩)
  | moveTo position =>
    refine .inr (.inl ⟨rfl, rfl, ?_⟩)
    by_cases hposition : position ≤ b.capacity
    · exact ⟨position, hposition, by simp only [run, Buffer.moveTo, hposition, if_true]⟩
    · exact ⟨b.cursor, h.cursor_le, by simp only [run, Buffer.moveTo, hposition, if_false]⟩
  | rewind => exact .inr (.inl ⟨rfl, rfl, 0, Nat.zero_le _, rfl⟩)
  | reset => exact .inr (.inr ⟨rfl, rfl, rfl⟩)

theorem inBounds_run (op : Operation ρ) {b : Buffer} (h : b.InBounds) : (op.run b).2.InBounds := by
  obtain ⟨-, hafter⟩ | ⟨-, -, cursor, hle, hafter⟩ | ⟨-, -, hafter⟩ := op.effect h
  · rw [hafter]
    exact (Buffer.tape_emit h op.pieces).1
  · rw [hafter]
    exact ⟨hle, h.filled_le⟩
  · rw [hafter]
    exact ⟨Nat.zero_le _, Nat.zero_le _⟩

/-- Moving the cursor is asked for within the storage only. -/
def Within (b : Buffer) : Operation ρ → Prop
  | moveTo position => position ≤ b.capacity
  | write _ | writeBy _ _ | read _ _ | rewind | reset => True

instance decidableWithin (b : Buffer) : (op : Operation ρ) → Decidable (op.Within b)
  | moveTo position => inferInstanceAs (Decidable (position ≤ b.capacity))
  | write _ | writeBy _ _ | read _ _ | rewind | reset => isTrue trivial

theorem tape_emit_congr {a b : Buffer} (ha : a.InBounds) (hb : b.InBounds) (h : a.tape = b.tape) (pieces : List Piece) :
    (emit a pieces).1.tape = (emit b pieces).1.tape := by
  rw [(Buffer.tape_emit ha pieces).2.1, (Buffer.tape_emit hb pieces).2.1, h]

/-- Buffers that stand for the same tape answer alike and stand for the same tape again. -/
theorem run_congr (op : Operation ρ) {a b : Buffer} (ha : a.InBounds) (hb : b.InBounds) (h : a.tape = b.tape)
    (hwithin : op.Within a) (hwithin' : op.Within b) :
    (op.run a).1 = (op.run b).1 ∧ (op.run a).2.tape = (op.run b).2.tape := by
  cases op with
  | write pieces =>
    refine ⟨?_, tape_emit_congr ha hb h pieces⟩
    show (emit a pieces).2 = (emit b pieces).2
    rw [Buffer.count_emit, Buffer.count_emit]
  | writeBy schema value =>
    rw [run_writeBy, run_writeBy]
    exact ⟨rfl, tape_emit_congr ha hb h _⟩
  | read reader composed =>
    obtain ⟨hanswer, hvalid⟩ := composed.respects (Buffer.SameValid.of_tape_eq ha hb h)
    obtain ⟨cursor, hafter, -⟩ := composed.moves a
    obtain ⟨cursor', hafter', -⟩ := composed.moves b
    have hcursor := hvalid.cursor_eq
    refine ⟨hanswer, ?_⟩
    show (reader a).2.tape = (reader b).2.tape
    rw [hafter, hafter'] at hcursor ⊢
    obtain rfl : cursor = cursor' := hcursor
    exact congrArg (fun t => { t with cursor := cursor }) h
  | moveTo position =>
    have hle : position ≤ a.capacity := hwithin
    have hle' : position ≤ b.capacity := hwithin'
    simp only [run, Buffer.moveTo, hle, hle', if_true]
    exact ⟨trivial, congrArg (fun t => { t with cursor := position }) h⟩
  | rewind => exact ⟨rfl, congrArg (fun t => { t with cursor := 0 }) h⟩
  | reset => exact ⟨rfl, congrArg (fun t => { t with cursor := 0, filled := 0 }) h⟩

/-- One operation after the other, with all answers. -/
def runAll : List ((ρ : Type) × Operation ρ) → Buffer → List ((ρ : Type) × ρ) × Buffer
  | [], b => ([], b)
  | ⟨ρ, op⟩ :: rest, b => (⟨ρ, (op.run b).1⟩ :: (runAll rest (op.run b).2).1, (runAll rest (op.run b).2).2)

def WithinAll : List ((ρ : Type) × Operation ρ) → Buffer → Prop
  | [], _ => True
  | ⟨_, op⟩ :: rest, b => op.Within b ∧ WithinAll rest (op.run b).2

instance decidableWithinAll : (ops : List ((ρ : Type) × Operation ρ)) → (b : Buffer) → Decidable (WithinAll ops b)
  | [], _ => isTrue trivial
  | ⟨_, op⟩ :: rest, b => @instDecidableAnd _ _ (decidableWithin b op) (decidableWithinAll rest (op.run b).2)

theorem runAll_congr (ops : List ((ρ : Type) × Operation ρ)) {a b : Buffer} (ha : a.InBounds) (hb : b.InBounds)
    (h : a.tape = b.tape) (hwithin : WithinAll ops a) (hwithin' : WithinAll ops b) :
    (runAll ops a).1 = (runAll ops b).1 ∧ (runAll ops a).2.tape = (runAll ops b).2.tape := by
  induction ops generalizing a b with
  | nil => exact ⟨rfl, h⟩
  | cons op rest ih =>
    obtain ⟨ρ, op⟩ := op
    obtain ⟨hanswer, htape⟩ := op.run_congr ha hb h hwithin.1 hwithin'.1
    obtain ⟨hanswers, hend⟩ := ih (op.inBounds_run ha) (op.inBounds_run hb) htape hwithin.2 hwithin'.2
    refine ⟨?_, hend⟩
    rw [runAll, runAll, hanswer, hanswers]

end Operation

/-- How a buffer has come about. -/
inductive History : Type 1 where
  | empty (order : ByteOrder) (capacity : Nat)
  | ofBytes (order : ByteOrder) (bs : List UInt8)
  | next (past : History) {ρ : Type} (op : Operation ρ)

namespace History

def buffer : History → Buffer
  | empty order capacity => .empty order capacity
  | ofBytes order bs => .ofBytes order bs
  | next past op => (op.run past.buffer).2

theorem inBounds (h : History) : h.buffer.InBounds := by
  induction h with
  | empty order capacity => exact Buffer.inBounds_empty order capacity
  | ofBytes order bs => exact Buffer.inBounds_ofBytes order bs
  | next past op ih => exact op.inBounds_run ih

/-- In every state a push finds room, the valid bytes are stored, and a take succeeds exactly when the mark is far
enough, and otherwise changes nothing. No operation tells apart two buffers that stand for the same tape, as long as the
cursor is moved within the storage of both. -/
theorem behaves_as_tape :
    (∀ h : History, h.buffer.InBounds ∧ h.buffer.written.length = h.buffer.filled ∧
      ∀ n, h.buffer.cursor + n ≤ (h.buffer.reserve n).capacity ∧
        (h.buffer.cursor + n ≤ h.buffer.filled ↔
          ∃ bs, bs.length = n ∧ h.buffer.take n = (.ok bs, h.buffer.skip n)) ∧
        (¬h.buffer.cursor + n ≤ h.buffer.filled ↔
          h.buffer.take n = (.error (.unexpectedEnd h.buffer.cursor n h.buffer.remaining), h.buffer))) ∧
    ∀ g h : History, g.buffer.tape = h.buffer.tape →
      (g.buffer.remaining = h.buffer.remaining ∧ g.buffer.written = h.buffer.written ∧
        ∀ leftover, g.buffer.finish leftover = h.buffer.finish leftover) ∧
      (∀ {ρ : Type} (op : Operation ρ), op.Within g.buffer → op.Within h.buffer →
        (op.run g.buffer).1 = (op.run h.buffer).1 ∧ (op.run g.buffer).2.tape = (op.run h.buffer).2.tape) ∧
      ∀ ops, Operation.WithinAll ops g.buffer → Operation.WithinAll ops h.buffer →
        (Operation.runAll ops g.buffer).1 = (Operation.runAll ops h.buffer).1 ∧
          (Operation.runAll ops g.buffer).2.tape = (Operation.runAll ops h.buffer).2.tape := by
  refine ⟨fun h => ?_, fun g h htape => ⟨?_, ?_, ?_⟩⟩
  · have hbounds := h.inBounds
    refine ⟨hbounds, Buffer.length_written hbounds.filled_le, fun n => ⟨?_, Buffer.take_iff hbounds n⟩⟩
    exact Buffer.room_reserve hbounds.cursor_le n
  · have hvalid := Buffer.SameValid.of_tape_eq g.inBounds h.inBounds htape
    refine ⟨hvalid.remaining_eq, hvalid.written_eq, fun leftover => ?_⟩
    simp only [Buffer.finish, hvalid.remaining_eq]
  · intro ρ op hwithin hwithin'
    exact op.run_congr g.inBounds h.inBounds htape hwithin hwithin'
  · intro ops hwithin hwithin'
    exact Operation.runAll_congr ops g.inBounds h.inBounds htape hwithin hwithin'

/-- A fresh buffer stands for a tape of zeros. -/
theorem tape_empty (order : ByteOrder) (capacity : Nat) :
    (empty order capacity).buffer.tape = ⟨fun _ => 0, 0, 0, order⟩ := by
  simp only [buffer, Buffer.empty, Buffer.tape, Tape.mk.injEq, and_true]
  funext i
  rw [List.getD_eq_getElem?_getD, List.getElem?_replicate]
  split <;> rfl

/-- One byte of storage and ample storage under pushes, a patch, a failing read, a take far too long and a reset. -/
theorem behaves_as_tape_one_byte :
    let small := empty .little 1
    let ample := empty .little 16
    let ops : List ((ρ : Type) × Operation ρ) := [⟨_, .push [7, 8]⟩, ⟨_, .moveTo 1⟩, ⟨_, .writeBy (.vec .u16) (.vec [.int 9])⟩,
      ⟨_, .rewind⟩, ⟨_, .read Schema.str.read (Reader.Described.composed (.schema .str))⟩, ⟨_, .take 0xFFFFFFFFFFFFFFFF⟩,
      ⟨_, .reset⟩, ⟨_, .moveTo 3⟩, ⟨_, .push []⟩]
    small.buffer.tape = ample.buffer.tape ∧ Operation.WithinAll ops small.buffer ∧ Operation.WithinAll ops ample.buffer ∧
      (Operation.runAll ops small.buffer).1 = (Operation.runAll ops ample.buffer).1 ∧
      (Operation.runAll ops small.buffer).2.tape = (Operation.runAll ops ample.buffer).2.tape ∧
      (small.next (Operation.push [7, 8])).buffer.InBounds := by
  intro small ample ops
  have htape : small.buffer.tape = ample.buffer.tape := (tape_empty .little 1).trans (tape_empty .little 16).symm
  have hsmall : Operation.WithinAll ops small.buffer := by decide
  have hample : Operation.WithinAll ops ample.buffer := by decide
  obtain ⟨hanswers, hend⟩ := (behaves_as_tape.2 small ample htape).2.2 ops hsmall hample
  exact ⟨htape, hsmall, hample, hanswers, hend, (behaves_as_tape.1 (small.next (Operation.push [7, 8]))).1⟩

end History

end WireFormat
