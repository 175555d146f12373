import WireFormat.Schema.Basic
import WireFormat.Proofs.Reading

/-!
# The leaves of an encoding

What a schema finds in some bytes, apart from what it makes of them: flags, single precision numbers, other numbers and
runs of bytes. A flag may be any byte; all but 1 mean the same, and settling makes them 0. Main statement: the leaves
that a schema finds spell exactly the bytes that it passes over.
-/
namespace WireFormat
open Floating

inductive Leaf where
  /-- The byte of a truth value, or the byte in front of an optional or nullable value. -/
  | flag (b : UInt8)
  | single (x : Binary32)
  | number (width n : Nat)
  | run (bs : List UInt8)
deriving DecidableEq, Repr

namespace Leaf

def bytes (order : ByteOrder) : Leaf → List UInt8
  | flag b => [b]
  | single x => order.bytes 4 x.bits.toNat
  | number width n => order.bytes width n
  | run bs => bs

/-- A flag other than 1 becomes 0. -/
def settle : Leaf → Leaf
  | flag b => flag (if b = 1 then 1 else 0)
  | single x => single x
  | number width n => number width n
  | run bs => run bs

def spell (order : ByteOrder) (leaves : List Leaf) : List UInt8 :=
  leaves.flatMap (bytes order)

theorem spell_append (order : ByteOrder) (xs ys : List Leaf) :
    spell order (xs ++ ys) = spell order xs ++ spell order ys := by
  simp [spell]

/-- Settling changes bytes, not their number. -/
theorem length_spell_settle (order : ByteOrder) (leaves : List Leaf) :
    (spell order (leaves.map settle)).length = (spell order leaves).length := by
  induction leaves with
  | nil => rfl
  | cons leaf leaves ih =>
    have hfirst : (leaf.settle.bytes order).length = (leaf.bytes order).length := by cases leaf <;> rfl
    simp only [spell, List.map_cons, List.flatMap_cons, List.length_append, hfirst] at ih ⊢
    omega

/-- Flags that are 0 or 1 are settled. -/
theorem map_settle {leaves : List Leaf} (h : ∀ b, flag b ∈ leaves → b = 0 ∨ b = 1) : leaves.map settle = leaves := by
  induction leaves with
  | nil => rfl
  | cons leaf leaves ih =>
    have hfirst : leaf.settle = leaf := by
      cases leaf with
      | flag b => rcases h b List.mem_cons_self with rfl | rfl <;> simp [settle]
      | _ => rfl
    rw [List.map_cons, hfirst, ih fun b hb => h b (List.mem_cons_of_mem leaf hb)]

end Leaf

/-- The leaves come next in `b` and have been passed over in `after`. -/
structure Spelled (b : Buffer) (leaves : List Leaf) (after : Buffer) : Prop where
  comes_next : Leaf.spell b.order leaves <+: b.unread
  after_eq : after = b.skip (Leaf.spell b.order leaves).length

namespace Spelled

variable {b between after : Buffer} {xs ys leaves : List Leaf}

theorem nil (b : Buffer) : Spelled b [] b :=
  ⟨List.nil_prefix, rfl⟩

theorem order_eq (h : Spelled b leaves after) : after.order = b.order := by
  rw [h.after_eq, Buffer.order_skip]

theorem filled_le (h : Spelled b leaves after) (hfilled : b.filled ≤ b.capacity) : after.filled ≤ after.capacity := by
  rw [h.after_eq]
  exact hfilled

theorem append (hxs : Spelled b xs between) (hys : Spelled between ys after) : Spelled b (xs ++ ys) after := by
  obtain ⟨⟨rest, hrest⟩, hbetween⟩ := hxs
  obtain ⟨⟨rest', hrest'⟩, hafter⟩ := hys
  subst hbetween
  rw [Buffer.unread_skip, ← hrest, List.drop_left] at hrest'
  refine ⟨⟨rest', ?_⟩, ?_⟩
  · rw [Leaf.spell_append, List.append_assoc, ← hrest, ← hrest']
    rfl
  · rw [hafter, Buffer.skip_skip, Leaf.spell_append, List.length_append]
    rfl

/-- What a take has taken is a run. -/
theorem of_take {n : Nat} {bs : List UInt8} (hfilled : b.filled ≤ b.capacity) (h : b.take n = (.ok bs, after)) :
    Spelled b [.run bs] after ∧ bs.length = n := by
  obtain ⟨hlength, hprefix, hafter⟩ := Buffer.take_ok hfilled h
  have hspell : Leaf.spell b.order [.run bs] = bs := List.append_nil _
  refine ⟨⟨?_, ?_⟩, hlength⟩
  · rwa [hspell]
  · rw [hspell, hlength, hafter]

theorem of_number {width n : Nat} (hfilled : b.filled ≤ b.capacity) (h : Reader.number width b = (.ok n, after)) :
    Spelled b [.number width n] after ∧ n < span width := by
  unfold Reader.number at h
  split at h
  · rename_i bs rest htake
    obtain ⟨hn, hrest⟩ := Prod.mk.inj h
    obtain rfl := Except.ok.inj hn
    obtain ⟨hspelled, hlength⟩ := of_take hfilled htake
    have hbytes : Leaf.spell b.order [.number width (b.order.number bs)] = Leaf.spell b.order [.run bs] := by
      have hnumber := b.order.bytes_number bs
      rw [hlength] at hnumber
      simp [Leaf.spell, Leaf.bytes, hnumber]
    refine ⟨⟨?_, ?_⟩, ?_⟩
    · rw [hbytes]
      exact hspelled.comes_next
    · rw [hbytes, ← hrest]
      exact hspelled.after_eq
    · rw [← hlength]
      exact b.order.number_lt bs
  · cases h

theorem of_u8 {c : UInt8} (hfilled : b.filled ≤ b.capacity) (h : Reader.u8 b = (.ok c, after)) :
    Spelled b [.flag c] after := by
  obtain ⟨n, between, hnumber, hpure⟩ := Reader.exists_of_bind_ok h
  obtain ⟨rfl, rfl⟩ := Reader.pure_ok hpure
  obtain ⟨hspelled, -⟩ := of_number hfilled hnumber
  have hbytes : Leaf.spell b.order [.flag (.ofNat n)] = Leaf.spell b.order [.number 1 n] := by
    cases b.order <;> rfl
  exact ⟨hbytes ▸ hspelled.comes_next, hbytes ▸ hspelled.after_eq⟩

theorem of_u32 {n : UInt32} (hfilled : b.filled ≤ b.capacity) (h : Reader.u32 b = (.ok n, after)) :
    Spelled b [.number 4 n.toNat] after := by
  obtain ⟨m, between, hnumber, hpure⟩ := Reader.exists_of_bind_ok h
  obtain ⟨rfl, rfl⟩ := Reader.pure_ok hpure
  obtain ⟨hspelled, hlt⟩ := of_number hfilled hnumber
  rwa [UInt32.toNat_ofNat_of_lt' hlt]

theorem of_f32 {x : Binary32} (hfilled : b.filled ≤ b.capacity) (h : Reader.f32 b = (.ok x, after)) :
    Spelled b [.single x] after := by
  obtain ⟨bits, between, hu32, hpure⟩ := Reader.exists_of_bind_ok h
  obtain ⟨rfl, rfl⟩ := Reader.pure_ok hpure
  have hspelled := of_u32 hfilled hu32
  exact ⟨hspelled.comes_next, hspelled.after_eq⟩

theorem of_frame {n : Nat} (hfilled : b.filled ≤ b.capacity) (h : Reader.frame b = (.ok n, after)) :
    Spelled b [.number 8 n] after ∧ n < 0x100000000 := by
  obtain ⟨m, between, hnumber, hnext⟩ := Reader.exists_of_bind_ok h
  split at hnext
  · obtain ⟨rfl, rfl⟩ := Reader.pure_ok hnext
    exact ⟨(of_number hfilled hnumber).1, ‹_›⟩
  · cases hnext

theorem of_times {element : Reader (List Leaf)}
    (helement : ∀ b leaves after, b.filled ≤ b.capacity → element b = (.ok leaves, after) → Spelled b leaves after)
    {n : Nat} {lists : List (List Leaf)} (hfilled : b.filled ≤ b.capacity)
    (h : Reader.times element n b = (.ok lists, after)) : Spelled b lists.flatten after := by
  induction n generalizing b lists with
  | zero =>
    obtain ⟨rfl, rfl⟩ := Reader.pure_ok h
    exact nil b
  | succ n ih =>
    obtain ⟨first, between, hfirst, hnext⟩ := Reader.exists_of_bind_ok h
    obtain ⟨rest, between', hrest, hpure⟩ := Reader.exists_of_bind_ok hnext
    obtain ⟨rfl, rfl⟩ := Reader.pure_ok hpure
    have hspelled := helement b first between hfilled hfirst
    exact hspelled.append (ih (hspelled.filled_le hfilled) hrest)

/-- What was passed over stands in front of the cursor. -/
theorem before_eq (h : Spelled b leaves after) : after.before = b.before ++ Leaf.spell b.order leaves := by
  have hstored : b.unread <+: b.storage.drop b.cursor := by
    rw [Buffer.unread, Buffer.written, List.drop_take]
    exact List.take_prefix _ _
  have hnext : Leaf.spell b.order leaves = (b.storage.drop b.cursor).take (Leaf.spell b.order leaves).length :=
    List.prefix_iff_eq_take.1 (h.comes_next.trans hstored)
  have hafter : after.before = b.storage.take (b.cursor + (Leaf.spell b.order leaves).length) := by rw [h.after_eq]; rfl
  rw [hafter, List.take_add, ← hnext, Buffer.before]

/-- The bytes that were passed over from the start of some bytes are as many as the cursor says. -/
theorem consumed {order : ByteOrder} {bs : List UInt8} (h : Spelled (Buffer.ofBytes order bs) leaves after) :
    after.cursor = (Leaf.spell order leaves).length ∧ Leaf.spell order leaves = bs.take after.cursor := by
  obtain ⟨⟨rest, hrest⟩, hafter⟩ := h
  have hcursor : after.cursor = (Leaf.spell order leaves).length := by
    rw [hafter]
    exact Nat.zero_add _
  have hunread : (Buffer.ofBytes order bs).unread = bs := List.take_length
  rw [hunread] at hrest
  refine ⟨hcursor, ?_⟩
  rw [hcursor, ← hrest]
  exact List.take_left.symm

end Spelled

namespace Schema

def leavesOfNumber (width : Nat) : Reader (List Leaf) := do
  let n ← Reader.number width
  return [.number width n]

mutual

/-- The leaves that come next. No index is checked here, and an undeclared variant has no payload. -/
def leaves : Schema → Reader (List Leaf)
  | bool => do
    let b ← Reader.u8
    return [.flag b]
  | str => do
    let length ← Reader.frame
    let bs ← Reader.take length
    return [.number 8 length, .run bs]
  | u8 => leavesOfNumber 1
  | u16 => leavesOfNumber 2
  | u32 | i32 | enum _ => leavesOfNumber 4
  | f32 => do
    let x ← Reader.f32
    return [.single x]
  | f64 => leavesOfNumber 8
  | struct fields => leavesOfFields fields
  | tuple components => leavesOfComponents components
  | union variants => do
    let index ← Reader.number 4
    let payload ← leavesOfVariant variants index
    return .number 4 index :: payload
  | vec element => do
    let count ← Reader.frame
    let items ← Reader.times element.leaves count
    return .number 8 count :: items.flatten
  | option element | nullable element => do
    let b ← Reader.u8
    if b = 1 then
      let rest ← element.leaves
      return .flag b :: rest
    else return [.flag b]

def leavesOfFields : List (String × Schema) → Reader (List Leaf)
  | [] => return []
  | (_, schema) :: rest => do
    let first ← schema.leaves
    let others ← leavesOfFields rest
    return first ++ others

def leavesOfComponents : List Schema → Reader (List Leaf)
  | [] => return []
  | schema :: rest => do
    let first ← schema.leaves
    let others ← leavesOfComponents rest
    return first ++ others

def leavesOfVariant : List (String × Option Schema) → (skip : Nat) → Reader (List Leaf)
  | [], _ => return []
  | (_, none) :: _, 0 => return []
  | (_, some schema) :: _, 0 => schema.leaves
  | _ :: rest, skip + 1 => leavesOfVariant rest skip

end

theorem spelled_leavesOfNumber {width : Nat} {b after : Buffer} {found : List Leaf} (hfilled : b.filled ≤ b.capacity)
    (h : leavesOfNumber width b = (.ok found, after)) : Spelled b found after := by
  obtain ⟨n, between, hnumber, hpure⟩ := Reader.exists_of_bind_ok h
  obtain ⟨rfl, rfl⟩ := Reader.pure_ok hpure
  exact (Spelled.of_number hfilled hnumber).1

mutual

/-- By induction on the schema: each step of the walk spells what it passes over, and spelling is cumulative. -/
theorem spelled_leaves (schema : Schema) {b after : Buffer} {found : List Leaf} (hfilled : b.filled ≤ b.capacity)
    (h : schema.leaves b = (.ok found, after)) : Spelled b found after := by
  match schema with
  | bool =>
    obtain ⟨c, between, hu8, hpure⟩ := Reader.exists_of_bind_ok h
    obtain ⟨rfl, rfl⟩ := Reader.pure_ok hpure
    exact Spelled.of_u8 hfilled hu8
  | str =>
    obtain ⟨length, between, hframe, hnext⟩ := Reader.exists_of_bind_ok h
    obtain ⟨bs, between', htake, hpure⟩ := Reader.exists_of_bind_ok hnext
    obtain ⟨rfl, rfl⟩ := Reader.pure_ok hpure
    have hspelled := (Spelled.of_frame hfilled hframe).1
    exact hspelled.append (Spelled.of_take (hspelled.filled_le hfilled) htake).1
  | u8 | u16 | u32 | i32 | enum _ | f64 => exact spelled_leavesOfNumber hfilled h
  | f32 =>
    obtain ⟨x, between, hf32, hpure⟩ := Reader.exists_of_bind_ok h
    obtain ⟨rfl, rfl⟩ := Reader.pure_ok hpure
    exact Spelled.of_f32 hfilled hf32
  | struct fields => exact spelled_leavesOfFields fields hfilled h
  | tuple components => exact spelled_leavesOfComponents components hfilled h
  | union variants =>
    obtain ⟨index, between, hnumber, hnext⟩ := Reader.exists_of_bind_ok h
    obtain ⟨payload, between', hpayload, hpure⟩ := Reader.exists_of_bind_ok hnext
    obtain ⟨rfl, rfl⟩ := Reader.pure_ok hpure
    have hspelled := (Spelled.of_number hfilled hnumber).1
    exact hspelled.append (spelled_leavesOfVariant variants (hspelled.filled_le hfilled) hpayload)
  | vec element =>
    obtain ⟨count, between, hframe, hnext⟩ := Reader.exists_of_bind_ok h
    obtain ⟨items, between', htimes, hpure⟩ := Reader.exists_of_bind_ok hnext
    obtain ⟨rfl, rfl⟩ := Reader.pure_ok hpure
    have hspelled := (Spelled.of_frame hfilled hframe).1
    exact hspelled.append
      (Spelled.of_times (fun b leaves after => spelled_leaves element) (hspelled.filled_le hfilled) htimes)
  | option element | nullable element =>
    obtain ⟨c, between, hu8, hnext⟩ := Reader.exists_of_bind_ok h
    have hspelled := Spelled.of_u8 hfilled hu8
    split at hnext
    · obtain ⟨rest, between', hrest, hpure⟩ := Reader.exists_of_bind_ok hnext
      obtain ⟨rfl, rfl⟩ := Reader.pure_ok hpure
      exact hspelled.append (spelled_leaves element (hspelled.filled_le hfilled) hrest)
    · obtain ⟨rfl, rfl⟩ := Reader.pure_ok hnext
      exact hspelled

theorem spelled_leavesOfFields (fields : List (String × Schema)) {b after : Buffer} {found : List Leaf}
    (hfilled : b.filled ≤ b.capacity) (h : leavesOfFields fields b = (.ok found, after)) : Spelled b found after := by
  match fields with
  | [] =>
    obtain ⟨rfl, rfl⟩ := Reader.pure_ok h
    exact Spelled.nil b
  | (_, schema) :: rest =>
    obtain ⟨first, between, hfirst, hnext⟩ := Reader.exists_of_bind_ok h
    obtain ⟨others, between', hothers, hpure⟩ := Reader.exists_of_bind_ok hnext
    obtain ⟨rfl, rfl⟩ := Reader.pure_ok hpure
    have hspelled := spelled_leaves schema hfilled hfirst
    exact hspelled.append (spelled_leavesOfFields rest (hspelled.filled_le hfilled) hothers)

theorem spelled_leavesOfComponents (components : List Schema) {b after : Buffer} {found : List Leaf}
    (hfilled : b.filled ≤ b.capacity) (h : leavesOfComponents components b = (.ok found, after)) :
    Spelled b found after := by
  match components with
  | [] =>
    obtain ⟨rfl, rfl⟩ := Reader.pure_ok h
    exact Spelled.nil b
  | schema :: rest =>
    obtain ⟨first, between, hfirst, hnext⟩ := Reader.exists_of_bind_ok h
    obtain ⟨others, between', hothers, hpure⟩ := Reader.exists_of_bind_ok hnext
    obtain ⟨rfl, rfl⟩ := Reader.pure_ok hpure
    have hspelled := spelled_leaves schema hfilled hfirst
    exact hspelled.append (spelled_leavesOfComponents rest (hspelled.filled_le hfilled) hothers)

theorem spelled_leavesOfVariant (variants : List (String × Option Schema)) {skip : Nat} {b after : Buffer}
    {found : List Leaf} (hfilled : b.filled ≤ b.capacity) (h : leavesOfVariant variants skip b = (.ok found, after)) :
    Spelled b found after := by
  match variants, skip with
  | [], _ | (_, none) :: _, 0 =>
    obtain ⟨rfl, rfl⟩ := Reader.pure_ok h
    exact Spelled.nil b
  | (_, some schema) :: _, 0 => exact spelled_leaves schema hfilled h
  | (_, none) :: rest, skip + 1 | (_, some _) :: rest, skip + 1 => exact spelled_leavesOfVariant rest hfilled h

end

end Schema

end WireFormat
