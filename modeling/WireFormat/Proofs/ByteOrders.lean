import WireFormat.Proofs.Levels
import WireFormat.Proofs.Recovery
import WireFormat.Proofs.RoundTrip

/-!
# Little and big encodings of one value

Main statement: what is written of a value in one byte order and what is written of it in the other are the same chunks,
the numeric ones mirrored and the others as they are; and from either, read in its own byte order, comes the same value.
-/
namespace WireFormat

open Chunk

section

variable {Self : Type} {chunks : Self → List Chunk} {ok : Self → Prop}

mutual

/-- Where no length is cut off, all lengths are within 32 bits. By induction on the layout, one case a constructor. -/
theorem Layout.within_of_allFit {α : Type} : (layout : Layout Self α) → (value : α) →
    (∀ inner ∈ layout.selves value, AllFit (chunks inner) → ok inner) → AllFit (layout.chunks chunks value) →
      layout.Within .short ok value
  | .str, _, _, h => allFit_str_iff.1 h
  | .record _ fields, value, hself, h => fields.within_of_allFit value hself h
  | .tuple parts, value, hself, h => parts.within_of_allFit value hself h
  | .union _ variants _, value, hself, h => variants.within_of_allFit value hself (allFit_cons_iff.1 h).2
  | .vector element, items, hself, h => by
    obtain ⟨hcount, hitems⟩ := allFit_seq_iff.1 h
    refine ⟨hcount, fun a ha => element.within_of_allFit a ?_ (hitems a ha)⟩
    exact fun inner hinner => hself inner (List.mem_flatMap.2 ⟨a, ha, hinner⟩)
  | .optional element, _, hself, h | .nullable element, _, hself, h => by
    intro a ha
    refine element.within_of_allFit a ?_ (allFit_opt_iff.1 h a ha)
    exact fun inner hinner => hself inner (List.mem_flatMap.2 ⟨a, Option.mem_toList.2 ha, hinner⟩)
  | .retyped host base, value, hself, h => base.within_of_allFit (host.view value) hself h
  | .self, value, hself, h => hself value List.mem_cons_self h
  | .f32, _, _, _ => trivial
  | .bool, _, _, _ | .u8, _, _, _ | .u16, _, _, _ | .u32, _, _, _ | .i32, _, _, _ | .f64, _, _, _
  | .enumeration _, _, _, _ => trivial

theorem Parts.within_of_allFit {α : Type} : (parts : Parts Self α) → (value : α) →
    (∀ inner ∈ parts.selves value, AllFit (chunks inner) → ok inner) → AllFit (parts.chunks chunks value) →
      parts.Within .short ok value
  | .pair first rest, (a, b), hself, h | .cons first rest, (a, b), hself, h => by
    obtain ⟨ha, hb⟩ := allFit_append_iff.1 h
    obtain ⟨hfirst, hrest⟩ := List.forall_mem_append.1 hself
    exact ⟨first.within_of_allFit a hfirst ha, rest.within_of_allFit b hrest hb⟩

theorem Fields.within_of_allFit {names : List String} {α : Type} : (fields : Fields Self names α) → (value : α) →
    (∀ inner ∈ fields.selves value, AllFit (chunks inner) → ok inner) → AllFit (fields.chunks chunks value) →
      fields.Within .short ok value
  | .nil, _, _, _ => trivial
  | .cons _ layout rest _, (a, b), hself, h => by
    obtain ⟨ha, hb⟩ := allFit_append_iff.1 h
    obtain ⟨hlayout, hrest⟩ := List.forall_mem_append.1 hself
    exact ⟨layout.within_of_allFit a hlayout ha, rest.within_of_allFit b hrest hb⟩

theorem Variants.within_of_allFit {tags : List String} {α : Type} :
    (variants : Variants Self tags α) → (value : α) →
      (∀ inner ∈ variants.selves value, AllFit (chunks inner) → ok inner) →
      AllFit (variants.payloadChunks chunks value) → variants.Within .short ok value
  | .unit _ _ _, .inl _, _, _ => trivial
  | .unit _ rest _, .inr b, hself, h => rest.within_of_allFit b hself h
  | .payload _ layout _ _, .inl a, hself, h => layout.within_of_allFit a hself h
  | .payload _ _ rest _, .inr b, hself, h => rest.within_of_allFit b hself h

end

end

/-- By induction on the levels; the values inside have a lower rank, so that one level less is enough for them. -/
theorem Recursive.yields_within {α : Type} (layout : Recursive α) {levels : Nat} {value : α}
    (hrank : layout.rank value < levels) (h : AllFit (layout.chunksWithin levels value)) :
    layout.read.Yields (layout.piecesWithin levels value) value := by
  induction levels generalizing value with
  | zero => exact absurd hrank (Nat.not_lt_zero _)
  | succ levels ih =>
    let below : Codec α := ⟨layout.read, layout.piecesWithin levels⟩
    let ok (inner : α) : Prop := layout.rank inner < levels ∧ AllFit (layout.chunksWithin levels inner)
    have hwithin : layout.body.Within .short ok value := by
      refine layout.body.within_of_allFit value (fun inner hinner hfit => ⟨?_, hfit⟩) h
      exact Nat.lt_of_lt_of_le (layout.rank_lt value inner hinner) (Nat.le_of_lt_succ hrank)
    have hbelow : ∀ inner, ok inner → below.read.Yields (below.pieces inner) inner := fun inner hok => ih hok.1 hok.2
    rw [layout.read_eq]
    exact layout.body.yields (fun _ hn => hn) hbelow value hwithin

/-- Values come back from the descriptor of their type if no length is cut off. -/
theorem Descriptor.yields {α : Type} (d : Descriptor α) (value : α) (h : AllFit (d.chunks value)) :
    d.codec.read.Yields (d.codec.pieces value) value := by
  induction d with
  | unit => exact Reader.yields_pure ()
  | layout self body ih =>
    have hwithin := body.within_of_allFit value (fun _ _ hfit => hfit) h
    exact body.yields (fun _ hn => hn) ih value hwithin
  | recursive whole => exact whole.yields_within (Nat.lt_succ_self _) h

/-- Two outputs, one in each byte order, that hold the same chunks and nothing else. -/
structure Mirrors (chunks : List Chunk) (little big : List UInt8) : Prop where
  little_eq : little = chunks.flatMap Chunk.little
  big_eq : big = chunks.flatMap Chunk.mirrored
  length_eq : little.length = big.length
  frames : ∀ n, .frame n ∈ chunks →
    (Chunk.frame n).little.drop 4 = [0, 0, 0, 0] ∧ (Chunk.frame n).mirrored.take 4 = [0, 0, 0, 0]

/-- What fresh buffers hold once the pieces have been emitted to them. -/
theorem Renders.mirrors {pieces : List Piece} {chunks : List Chunk} (h : Renders pieces chunks) (capacity : Nat) :
    Mirrors chunks (emit (Buffer.empty .little capacity) pieces).1.written
      (emit (Buffer.empty .big capacity) pieces).1.written := by
  rw [Buffer.written_emit_empty, Buffer.written_emit_empty]
  refine ⟨h .little, h .big, ?_, fun n _ => ⟨drop_little_frame n, take_mirrored_frame n⟩⟩
  rw [length_bytesOf, length_bytesOf]

theorem count_emit_empty (order : ByteOrder) (capacity : Nat) (pieces : List Piece) :
    (emit (Buffer.empty order capacity) pieces).2 = (emit (Buffer.empty order capacity) pieces).1.written.length := by
  rw [Buffer.count_emit, Buffer.written_emit_empty, length_bytesOf]

theorem Reader.Yields.of_written {α : Type} {reader : Reader α} {pieces : List Piece} {a : α}
    (h : reader.Yields pieces a) (capacity : Nat) {b : Buffer}
    (hnext : (emit (Buffer.empty b.order capacity) pieces).1.written <+: b.unread) :
    reader b = (.ok a, b.skip (emit (Buffer.empty b.order capacity) pieces).1.written.length) := by
  rw [Buffer.written_emit_empty] at hnext ⊢
  rw [length_bytesOf]
  exact h b hnext

/-- Writing succeeds in both byte orders alike. The outputs are the chunks of the value, mirrored between the orders where
they are numeric; and where no length and no index is cut off, whatever follows either output, reading it in its own byte
order gives the same value. -/
theorem mirrored_outputs (capacity : Nat) :
    (∀ (schema : Schema) (value : Value), schema.Accepts value → ∃ out : ByteOrder → Buffer,
      (∀ order, schema.writeTo (Buffer.empty order capacity) value = (out order, .ok (out order).written.length)) ∧
      Mirrors (schema.chunks value) (out .little).written (out .big).written ∧
      (AllFit (schema.chunks value) → ∀ b : Buffer, (out b.order).written <+: b.unread →
        schema.read b = (.ok (schema.recovered value), b.skip (out b.order).written.length))) ∧
    (∀ {α : Type} (d : Descriptor α) (value : α), ∃ out : ByteOrder → Buffer,
      (∀ order, d.codec.writeTo (Buffer.empty order capacity) value = (out order, (out order).written.length)) ∧
      Mirrors (d.chunks value) (out .little).written (out .big).written ∧
      (AllFit (d.chunks value) → ∀ b : Buffer, (out b.order).written <+: b.unread →
        d.codec.read b = (.ok value, b.skip (out b.order).written.length))) := by
  refine ⟨?_, ?_⟩
  · intro schema value haccepts
    refine ⟨fun order => (emit (Buffer.empty order capacity) (schema.write value).pieces).1, ?_,
      (schema.renders haccepts).mirrors capacity, ?_⟩
    · intro order
      have herror : (schema.write value).error? = none := haccepts
      rw [← count_emit_empty]
      simp only [Schema.writeTo, herror]
    · exact fun hfit _ hnext => (schema.recovers_fitting haccepts hfit).of_written capacity hnext
  · intro α d value
    refine ⟨fun order => (emit (Buffer.empty order capacity) (d.codec.pieces value)).1, ?_,
      (d.renders value).mirrors capacity, ?_⟩
    · intro order
      rw [← count_emit_empty]
      rfl
    · exact fun hfit _ hnext => (d.yields value hfit).of_written capacity hnext

/-- A text, marks, indices and numbers of all widths by a schema, and a number and a sequence by a descriptor. -/
theorem mirrored_outputs_nested :
    let schema : Schema := .struct [("id", .u32), ("name", .option .str),
      ("data", .vec (.union [("off", none), ("on", some .f64)]))]
    let value : Value := .struct [("name", .str "é"), ("id", .int 0x01020304),
      ("data", .vec [.tagged "on" (.float ⟨0x3FF0000000000000⟩), .unit "off"])]
    let chunks : List Chunk := [.four 0x01020304, .byte 1, .frame 2, .text "é", .frame 2, .index 1,
      .eight 0x3FF0000000000000, .index 0]
    let big : List UInt8 := [1, 2, 3, 4, 1, 0, 0, 0, 0, 0, 0, 0, 2, 0xC3, 0xA9, 0, 0, 0, 0, 0, 0, 0, 2, 0, 0, 0, 1,
      0x3F, 0xF0, 0, 0, 0, 0, 0, 0, 0, 0, 0, 0]
    let d : Descriptor (UInt16 × List UInt8) := .layout .unit (.tuple (.pair .u16 (.vector .u8)))
    schema.Accepts value ∧ schema.chunks value = chunks ∧ AllFit chunks ∧
      (schema.writeTo (Buffer.empty .big 3) value).1.written = big ∧
      schema.read (.ofBytes .big big) = (.ok (schema.recovered value), (Buffer.ofBytes .big big).skip 39) ∧
      d.chunks (0x0102, [9]) = [.two 0x0102, .frame 1, .byte 9] ∧
      d.codec.read (.ofBytes .little [2, 1, 1, 0, 0, 0, 0, 0, 0, 0, 9]) = (.ok (0x0102, [9]),
        (Buffer.ofBytes .little [2, 1, 1, 0, 0, 0, 0, 0, 0, 0, 9]).skip 11) := by
  intro schema value chunks big d
  have haccepts : schema.Accepts value := by rfl
  have hchunks : schema.chunks value = chunks := rfl
  have hfit : AllFit chunks := by decide
  have hbig : chunks.flatMap Chunk.mirrored = big := by decide
  have hdchunks : d.chunks (0x0102, [9]) = [.two 0x0102, .frame 1, .byte 9] := rfl
  have hdfit : AllFit (d.chunks (0x0102, [9])) := by decide
  obtain ⟨out, hwrite, hmirrors, hread⟩ := (mirrored_outputs 3).1 schema value haccepts
  obtain ⟨dout, -, hdmirrors, hdread⟩ := (mirrored_outputs 0).2 d (0x0102, [9])
  have hout : (out .big).written = big := by rw [hmirrors.big_eq, hchunks, hbig]
  have hdout : (dout .little).written = [2, 1, 1, 0, 0, 0, 0, 0, 0, 0, 9] := hdmirrors.little_eq
  refine ⟨haccepts, hchunks, hfit, ?_, ?_, hdchunks, ?_⟩
  · rw [hwrite .big, hout]
  · have hvalue := hread (hchunks ▸ hfit) (.ofBytes .big big)
    rw [show (Buffer.ofBytes .big big).order = .big from rfl, hout] at hvalue
    exact hvalue List.prefix_rfl
  · have hvalue := hdread hdfit (.ofBytes .little [2, 1, 1, 0, 0, 0, 0, 0, 0, 0, 9])
    rw [show (Buffer.ofBytes .little _).order = .little from rfl, hdout] at hvalue
    exact hvalue List.prefix_rfl

end WireFormat
