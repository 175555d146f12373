import WireFormat.Proofs.Retracing

/-!
# Decoding and encoding again

Where no enumeration repeats a name and no wrapper collides with what it wraps, every schema retraces. Main statement:
encoding a value that was read from some bytes gives the bytes that were consumed, except that every flag other than 1
has become 0.
-/
namespace WireFormat
open Floating

namespace Schema

theorem retracesFields {fields : List (String × Schema)} (h : ∀ part ∈ fields.map Prod.snd, part.Retraces) :
    RetracesFields fields := by
  induction fields with
  | nil => exact retracedBy_pure rfl
  | cons field rest ih =>
    rw [List.map_cons, List.forall_mem_cons] at h
    exact h.1.cons (ih h.2) fun _ _ => rfl

theorem retracesComponents {components : List Schema} (h : ∀ part ∈ components, part.Retraces) :
    RetracesComponents components := by
  induction components with
  | nil => exact retracedBy_pure rfl
  | cons schema rest ih =>
    rw [List.forall_mem_cons] at h
    exact h.1.cons (ih h.2) fun _ _ => rfl

theorem retracesVariant {variants : List (String × Option Schema)} (hnodup : (Entries.names variants).Nodup)
    (h : ∀ part ∈ variants.filterMap Prod.snd, part.Retraces) : RetracesVariant variants := by
  induction variants with
  | nil => exact retracesVariant_nil
  | cons variant rest ih =>
    obtain ⟨tag, payload⟩ := variant
    obtain ⟨hfresh, hnodup⟩ := List.nodup_cons.1 hnodup
    apply retracesVariant_cons hfresh
    · rintro schema ⟨⟩
      exact h schema List.mem_cons_self
    · exact ih hnodup fun part hpart => h part (List.filterMap_subset _ (List.subset_cons_self _ _) hpart)

/-- By induction on the schema. Every hypothesis holds of all its parts, and each is what one kind of node needs:
structs and unions names of their own, enumerations distinct names, and wrappers to be apart from what they wrap. -/
theorem retraces (schema : Schema) (hkeyed : schema.Keyed)
    (hdistinct : ∀ names, Schema.enum names ∈ schema.nodes → names.Nodup) (hapart : schema.Apart) :
    schema.Retraces := by
  induction schema using induction_on_parts with
  | step schema ih =>
    have hparts : ∀ part ∈ schema.parts, part.Retraces := by
      intro part hpart
      apply ih part hpart (hkeyed.part hpart)
      · exact fun names h => hdistinct names (mem_nodes_of_mem_parts hpart h)
      · exact fun node h => hapart node (mem_nodes_of_mem_parts hpart h)
    cases schema with
    | bool => exact retraces_bool
    | str => exact retraces_str
    | u8 => exact retraces_u8
    | u16 => exact retraces_u16
    | u32 => exact retraces_u32
    | i32 => exact retraces_i32
    | f32 => exact retraces_f32
    | f64 => exact retraces_f64
    | enum names => exact retraces_enum (hdistinct names (mem_nodes _))
    | struct fields => exact retraces_struct hkeyed.1 (retracesFields hparts)
    | tuple components => exact retraces_tuple (retracesComponents hparts)
    | union variants => exact retraces_union (retracesVariant hkeyed.1 hparts)
    | vec element => exact retraces_vec (hparts element List.mem_cons_self)
    | option element => exact retraces_option hapart (hparts element List.mem_cons_self)
    | nullable element => exact retraces_nullable hapart (hparts element List.mem_cons_self)

/-- What is read from some bytes and written again, in the same byte order and wherever there is room, are the bytes
that were consumed, up to flags. -/
theorem reencoded (schema : Schema) (hkeyed : schema.Keyed)
    (hdistinct : ∀ names, Schema.enum names ∈ schema.nodes → names.Nodup) (hapart : schema.Apart) (order : ByteOrder)
    (bs : List UInt8) (value : Value) (after : Buffer)
    (hread : schema.read (Buffer.ofBytes order bs) = (.ok value, after)) :
    ∃ found, schema.leaves (Buffer.ofBytes order bs) = (.ok found, after) ∧
      Leaf.spell order found = bs.take after.cursor ∧
      (Leaf.Numbers found → ∀ capacity, ∃ out,
        schema.writeTo (Buffer.empty order capacity) value = (out, .ok after.cursor) ∧
        out.written = Leaf.spell order (found.map Leaf.settle) ∧
        ((∀ b, Leaf.flag b ∈ found → b = 0 ∨ b = 1) → out.written = bs.take after.cursor)) := by
  have hfilled : (Buffer.ofBytes order bs).filled ≤ (Buffer.ofBytes order bs).capacity := Nat.le_refl _
  obtain ⟨found, hfound, hwritten⟩ := schema.retraces hkeyed hdistinct hapart hfilled hread
  have hspelled := schema.spelled_leaves hfilled hfound
  have hcursor : after.cursor = (Leaf.spell order found).length := by
    rw [hspelled.after_eq]
    exact Nat.zero_add _
  have hconsumed : Leaf.spell order found = bs.take after.cursor := by
    have hunread : (Buffer.ofBytes order bs).unread = bs := List.take_length
    obtain ⟨rest, hrest⟩ := hspelled.comes_next
    rw [hunread] at hrest
    rw [hcursor, ← hrest]
    exact List.take_left.symm
  refine ⟨found, hfound, hconsumed, fun hnumbers capacity => ?_⟩
  obtain ⟨pieces, hpieces, hbytes⟩ := hwritten hnumbers
  have hcount : (emit (Buffer.empty order capacity) pieces).2 = after.cursor := by
    have hlength := congrArg List.length hbytes
    rw [length_bytesOf, Leaf.length_spell_settle] at hlength
    rw [hcursor]
    exact (Buffer.wrote_emit (Nat.zero_le _) pieces).2.trans hlength
  have hout := Buffer.written_emit_empty order capacity pieces
  refine ⟨(emit (Buffer.empty order capacity) pieces).1, ?_, ?_, ?_⟩
  · rw [writeTo, hpieces, ← hcount]
    rfl
  · rw [hout]
    exact hbytes
  · intro hflags
    rw [hout, ← hconsumed]
    rw [Leaf.map_settle hflags] at hbytes
    exact hbytes

/-- A present absence and a truth value with unusual flags, of which only the flags change; one byte is left over. -/
theorem reencoded_unusual_flags :
    let schema : Schema := .tuple [.option (.option .u8), .vec .bool, .enum ["on", "off"], .f32]
    let bs : List UInt8 := [1, 5, 0, 0, 0, 0, 0, 0, 0, 2, 9, 1, 0, 0, 0, 1, 0x3F, 0x80, 0, 0, 0xAA]
    let value : Value := .tuple [.present .undefined, .vec [.bool false, .bool true], .str "off",
      .float (Binary32.widen ⟨0x3F800000⟩)]
    schema.Keyed ∧ (∀ names, Schema.enum names ∈ schema.nodes → names.Nodup) ∧ schema.Apart ∧
      ∃ after, schema.read (Buffer.ofBytes .big bs) = (.ok value, after) ∧ after.cursor = 20 ∧
        ∃ out, schema.writeTo (Buffer.empty .big 3) value = (out, .ok 20) ∧
          out.written = [1, 0, 0, 0, 0, 0, 0, 0, 0, 2, 0, 1, 0, 0, 0, 1, 0x3F, 0x80, 0, 0] := by
  intro schema bs value
  have hkeyed : schema.Keyed := by simp [schema, Keyed, KeyedComponents]
  have hdistinct : ∀ names, Schema.enum names ∈ schema.nodes → names.Nodup := by
    intro names hnode
    obtain rfl : names = ["on", "off"] := by simpa [schema, nodes, nodesOfComponents] using hnode
    decide
  have hapart : schema.Apart := by decide
  have hread : schema.read (Buffer.ofBytes .big bs) = (.ok value, ⟨bs, 20, 21, .big⟩) := rfl
  obtain ⟨found, hfound, -, hwritten⟩ := schema.reencoded hkeyed hdistinct hapart .big bs value _ hread
  have hleaves : schema.leaves (Buffer.ofBytes .big bs) = (.ok [.flag 1, .flag 5, .number 8 2, .flag 9, .flag 1,
    .number 4 1, .single ⟨0x3F800000⟩], ⟨bs, 20, 21, .big⟩) := rfl
  obtain rfl := Except.ok.inj (congrArg Prod.fst (hfound.symm.trans hleaves))
  have hnumbers : Leaf.Numbers [.flag 1, .flag 5, .number 8 2, .flag 9, .flag 1, .number 4 1,
      .single ⟨0x3F800000⟩] := by
    intro x hx
    obtain rfl : x = ⟨0x3F800000⟩ := by simpa using hx
    decide
  obtain ⟨out, hout, hbytes, -⟩ := hwritten hnumbers 3
  exact ⟨hkeyed, hdistinct, hapart, _, hread, rfl, out, hout, hbytes⟩

end Schema

end WireFormat
