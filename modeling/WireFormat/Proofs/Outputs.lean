import WireFormat.Layout.Codec
import WireFormat.Schema.Codec
import WireFormat.Proofs.Tape

/-!
# All outputs take the same bytes

The three kinds of output differ only in what becomes of the bytes. Main statement: what a schema or a codec writes gives
the same result everywhere, the discarding output included, and up to a write error puts the same bytes at the end of a
byte string and over the bytes behind the cursor of a buffer; a run of bytes pushed at once has the effect of its bytes
pushed one by one.
-/
namespace WireFormat

/-- Pushes bytes one at a time. -/
def pushEach {τ : Type} [Output τ] (out : τ) (bs : List UInt8) : τ × Nat :=
  emit out (bs.map fun b => .run [b])

theorem bytesOf_map_run (order : ByteOrder) (bs : List UInt8) : bytesOf order (bs.map fun b => .run [b]) = bs := by
  induction bs with
  | nil => rfl
  | cons b bs ih => rw [List.map_cons, bytesOf_cons, ih]; rfl

theorem count_pushEach {τ : Type} [Output τ] (hcount : ∀ (out : τ) (bs : List UInt8), (Output.push out bs).2 = bs.length)
    (out : τ) (bs : List UInt8) : (pushEach out bs).2 = bs.length := by
  rw [pushEach, count_emit hcount, ← length_bytesOf .little, bytesOf_map_run]

/-- What is written comes to the same bytes and the same result on every output. A little-endian buffer whose cursor has
not passed the mark is overwritten by the bytes from the cursor on; its other cells stay as they are. -/
structure Agrees {ρ : Type} (write : {τ : Type} → [Output τ] → τ → τ × ρ) (bs : List UInt8) (result : ρ) : Prop where
  discard : ∀ out : Discard, write out = (out, result)
  byteString : ∀ out : ByteString, write out = (⟨out.bytes ++ bs⟩, result)
  result_eq : ∀ b : Buffer, (write b).2 = result
  inBounds : ∀ b : Buffer, b.InBounds → (write b).1.InBounds ∧ b.capacity ≤ (write b).1.capacity
  tape_eq : ∀ b : Buffer, b.InBounds → b.order = .little → b.cursor ≤ b.filled →
    (write b).1.tape = b.tape.push bs ∧
      (write b).1.written = b.written.take b.cursor ++ bs ++ b.written.drop (b.cursor + bs.length)

/-- Any result that is made from the count alone. -/
theorem agrees_emit {ρ : Type} (pieces : List Piece) (result : Nat → ρ) :
    Agrees (fun out => ((emit out pieces).1, result (emit out pieces).2)) (bytesOf .little pieces)
      (result (lengthOf pieces)) where
  discard out := by rw [emit_discard]
  byteString out := by rw [emit_byteString, count_emit fun _ _ => rfl]
  result_eq b := by rw [b.count_emit]
  inBounds b h := by
    obtain ⟨hbounds, -, hcapacity⟩ := b.tape_emit h pieces
    exact ⟨hbounds, hcapacity⟩
  tape_eq b h horder hcursor := by
    obtain ⟨hbounds, htape, -⟩ := Buffer.tape_emit h pieces
    have hpushed : (emit b pieces).1.tape = b.tape.push (bytesOf .little pieces) := by
      rw [htape, Tape.emit_eq_push hcursor, ← horder]
      rfl
    exact ⟨hpushed, Buffer.written_of_tape_push h hcursor hbounds hpushed⟩

theorem Schema.agrees_writeTo (schema : Schema) (value : Value) :
    ∃ bs result, Agrees (schema.writeTo · value) bs result ∧ ∀ n, result = .ok n → n = bs.length := by
  cases herror : (schema.write value).error? with
  | none =>
    refine ⟨bytesOf .little (schema.write value).pieces, .ok (lengthOf (schema.write value).pieces), ?_, ?_⟩
    · simp only [Schema.writeTo, herror]
      exact agrees_emit (schema.write value).pieces Except.ok
    · intro n hn
      rw [length_bytesOf, Except.ok.inj hn]
  | some error =>
    refine ⟨bytesOf .little (schema.write value).pieces, .error error, ?_, fun n hn => nomatch hn⟩
    simp only [Schema.writeTo, herror]
    exact agrees_emit (schema.write value).pieces fun _ => Except.error error

theorem Codec.agrees_writeTo {α : Type} (codec : Codec α) (value : α) :
    ∃ bs, Agrees (codec.writeTo · value) bs bs.length := by
  refine ⟨bytesOf .little (codec.pieces value), ?_⟩
  rw [length_bytesOf]
  exact agrees_emit (codec.pieces value) id

/-- Only a push of nothing could be told from no push at all, by the mark that it moves to a cursor beyond. -/
theorem Tape.emit_each {t : Tape} {bs : List UInt8} (h : bs = [] → t.cursor ≤ t.filled) :
    (pushEach t bs).1 = t.push bs := by
  cases bs with
  | nil => exact (push_nil (h rfl)).symm
  | cons b bs =>
    rw [pushEach, emit_eq, bytesOf_map_run]
    rfl

/-- Every output gives the same result and takes the same bytes, whatever is written by a schema or a codec, and pushing
bytes is pushing them one by one. -/
theorem outputs_agree :
    (∀ (schema : Schema) (value : Value), ∃ bs result,
      Agrees (schema.writeTo · value) bs result ∧ ∀ n, result = .ok n → n = bs.length) ∧
    (∀ {α : Type} (codec : Codec α) (value : α), ∃ bs, Agrees (codec.writeTo · value) bs bs.length) ∧
    ∀ bs : List UInt8,
      (∀ out : Discard, Output.push out bs = pushEach out bs) ∧
      (∀ out : ByteString, Output.push out bs = pushEach out bs) ∧
      ∀ b : Buffer, b.InBounds → (bs = [] → b.cursor ≤ b.filled) →
        (Output.push b bs).2 = (pushEach b bs).2 ∧ (Output.push b bs).1.tape = (pushEach b bs).1.tape := by
  refine ⟨Schema.agrees_writeTo, Codec.agrees_writeTo, fun bs => ⟨?_, ?_, ?_⟩⟩
  · intro out
    exact Prod.ext rfl (count_pushEach (fun _ _ => rfl) out bs).symm
  · intro out
    refine Prod.ext ?_ (count_pushEach (fun _ _ => rfl) out bs).symm
    rw [pushEach, emit_byteString, bytesOf_map_run]
    rfl
  · intro b hbounds hempty
    refine ⟨(count_pushEach (fun _ _ => rfl) b bs).symm, ?_⟩
    have htape : (pushEach b bs).1.tape = (pushEach b.tape bs).1 := (Buffer.tape_emit hbounds _).2.1
    rw [htape, Tape.emit_each hempty]
    exact Buffer.tape_push hbounds.cursor_le bs

/-- A number patched into the middle of four valid bytes, and a sequence whose second element does not fit. -/
theorem outputs_agree_patch :
    let b : Buffer := ⟨[5, 6, 7, 8, 0], 1, 4, .little⟩
    let codec := (Layout.u16 : Layout Unit UInt16).codec
    let schema : Schema := .vec .u8
    let value : Value := .vec [.int 1, .bool true, .int 258]
    b.InBounds ∧ b.cursor ≤ b.filled ∧
      (codec.writeTo b 0x0102).1.written = [5, 2, 1, 8] ∧
      (schema.writeTo (Discard.mk) value).2 = .error (.mismatch .u8 .bool) ∧
      (schema.writeTo b value).2 = .error (.mismatch .u8 .bool) ∧
      (schema.writeTo b value).1.written = [5, 3, 0, 0, 0, 0, 0, 0, 0, 1, 2] ∧
      (b.push [2, 1]).tape = (pushEach b [2, 1]).1.tape := by
  intro b codec schema value
  have hbounds : b.InBounds := ⟨by decide, by decide⟩
  have hcursor : b.cursor ≤ b.filled := by decide
  obtain ⟨bs, hcodec⟩ := outputs_agree.2.1 codec 0x0102
  obtain ⟨taken, result, hschema, -⟩ := outputs_agree.1 schema value
  have hbs : bs = [2, 1] := congrArg (fun p => p.1.bytes) (hcodec.byteString ⟨[]⟩).symm
  have hresult : result = .error (.mismatch .u8 .bool) := congrArg Prod.snd (hschema.discard ⟨⟩).symm
  have hpartial : taken = [3, 0, 0, 0, 0, 0, 0, 0, 1, 2] :=
    congrArg (fun p => p.1.bytes) (hschema.byteString ⟨[]⟩).symm
  subst hbs hresult hpartial
  exact ⟨hbounds, hcursor, (hcodec.tape_eq b hbounds rfl hcursor).2, congrArg Prod.snd (hschema.discard ⟨⟩),
    hschema.result_eq b, (hschema.tape_eq b hbounds rfl hcursor).2,
    ((outputs_agree.2.2 [2, 1]).2.2 b hbounds fun h => nomatch h).2⟩

end WireFormat
