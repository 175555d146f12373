import Mathlib.Data.List.Forall2
import WireFormat.Proofs.Levels
import WireFormat.Proofs.Retracing

/-!
# Layouts read nothing but encodings

Main statement: the bytes that a layout has consumed for a value are those that it writes for the value, except that
flags other than 1 have become 0; so the bytes of one value differ from each other in nothing but such flags.
-/
namespace WireFormat
open Floating

/-- What a piece puts down. -/
def Piece.leaf? : Piece → Option Leaf
  | room _ => none
  | mark b => some (.flag (if b then 1 else 0))
  | number width n => some (.number width n)
  | run bs => some (.run bs)

def leavesOf (pieces : List Piece) : List Leaf :=
  pieces.filterMap Piece.leaf?

@[simp] theorem leavesOf_append (xs ys : List Piece) : leavesOf (xs ++ ys) = leavesOf xs ++ leavesOf ys :=
  List.filterMap_append

theorem spell_leavesOf (order : ByteOrder) (pieces : List Piece) :
    Leaf.spell order (leavesOf pieces) = bytesOf order pieces := by
  induction pieces with
  | nil => rfl
  | cons piece pieces ih =>
    rw [bytesOf_cons, ← ih]
    cases piece <;> simp [leavesOf, List.filterMap_cons, Piece.leaf?, Leaf.spell, Leaf.bytes, Piece.bytes]

/-- The bytes passed over between two buffers are those of the pieces as soon as flags other than 1 are made 0. -/
def Settled (b : Buffer) (pieces : List Piece) (after : Buffer) : Prop :=
  ∃ found, Spelled b found after ∧ found.map Leaf.settle = leavesOf pieces

namespace Settled

variable {b between after : Buffer} {xs ys pieces : List Piece}

theorem nil (b : Buffer) : Settled b [] b :=
  ⟨[], Spelled.nil b, rfl⟩

theorem append (hxs : Settled b xs between) (hys : Settled between ys after) : Settled b (xs ++ ys) after := by
  obtain ⟨found, hspelled, hfound⟩ := hxs
  obtain ⟨others, hspelled', hothers⟩ := hys
  refine ⟨found ++ others, hspelled.append hspelled', ?_⟩
  rw [List.map_append, hfound, hothers, leavesOf_append]

theorem filled_le (h : Settled b pieces after) (hfilled : b.filled ≤ b.capacity) : after.filled ≤ after.capacity := by
  obtain ⟨found, hspelled, -⟩ := h
  exact hspelled.filled_le hfilled

theorem room (h : Settled b pieces after) (n : Nat) : Settled b (.room n :: pieces) after :=
  h

theorem of_number {width n : Nat} (hfilled : b.filled ≤ b.capacity) (h : Reader.number width b = (.ok n, after)) :
    Settled b [.number width n] after :=
  ⟨[.number width n], (Spelled.of_number hfilled h).1, rfl⟩

end Settled

namespace Reader

variable {α β γ : Type}

/-- Whatever the reader succeeds on settles as the pieces of the value that it returns. -/
def Exact (reader : Reader α) (pieces : α → List Piece) : Prop :=
  ∀ ⦃b after : Buffer⦄ ⦃a : α⦄, b.filled ≤ b.capacity → reader b = (.ok a, after) → Settled b (pieces a) after

theorem exact_pure (a : α) {pieces : α → List Piece} (h : pieces a = []) : (pure a : Reader α).Exact pieces := by
  intro b after a' hfilled hread
  obtain ⟨rfl, rfl⟩ := pure_ok hread
  rw [h]
  exact Settled.nil b

theorem exact_fail (e : ReadError) (pieces : α → List Piece) : (fail e).Exact pieces := by
  intro b after a hfilled hread
  cases hread

/-- A value that is made of what was read is written as what it was made of. -/
theorem Exact.map {reader : Reader α} {pieces : α → List Piece} {pieces' : β → List Piece} {f : α → β}
    (h : reader.Exact pieces) (hf : ∀ a, pieces' (f a) = pieces a) :
    (reader >>= fun a => pure (f a)).Exact pieces' := by
  intro b after v hfilled hread
  obtain ⟨a, between, hfirst, hpure⟩ := exists_of_bind_ok hread
  obtain ⟨rfl, rfl⟩ := pure_ok hpure
  rw [hf]
  exact h hfilled hfirst

theorem Exact.pair {first : Reader α} {second : Reader β} {pieces : α → List Piece} {pieces' : β → List Piece}
    {both : γ → List Piece} {f : α → β → γ} (h : first.Exact pieces) (h' : second.Exact pieces')
    (hf : ∀ a v, both (f a v) = pieces a ++ pieces' v) :
    (first >>= fun a => second >>= fun v => pure (f a v)).Exact both := by
  intro b after c hfilled hread
  obtain ⟨a, between, hfirst, hnext⟩ := exists_of_bind_ok hread
  obtain ⟨v, between', hsecond, hpure⟩ := exists_of_bind_ok hnext
  obtain ⟨rfl, rfl⟩ := pure_ok hpure
  have hsettled := h hfilled hfirst
  rw [hf]
  exact hsettled.append (h' (hsettled.filled_le hfilled) hsecond)

theorem exact_mark : mark.Exact fun b => [.mark b] := by
  intro b after x hfilled h
  obtain ⟨c, hu8, rfl⟩ := u8_of_mark h
  refine ⟨[.flag c], Spelled.of_u8 hfilled hu8, ?_⟩
  simp [leavesOf, Piece.leaf?, Leaf.settle]

theorem exact_u8 : u8.Exact fun n => [.u8 n] :=
  fun _ _ _ hfilled h => .of_number hfilled (number_of_u8 hfilled h)

theorem exact_u16 : u16.Exact fun n => [.u16 n] :=
  fun _ _ _ hfilled h => .of_number hfilled (number_of_u16 hfilled h)

theorem exact_u32 : u32.Exact fun n => [.u32 n] :=
  fun _ _ _ hfilled h => .of_number hfilled (number_of_u32 hfilled h)

theorem exact_i32 : i32.Exact fun n => [.i32 n] :=
  fun _ _ _ hfilled h => exact_u32 hfilled (u32_of_i32 h)

theorem exact_f32 : f32.Exact fun x => [.f32 x] :=
  exact_u32.map fun _ => rfl

theorem exact_f64 : f64.Exact fun x => [.f64 x] :=
  fun _ _ _ hfilled h => .of_number hfilled (number_of_f64 hfilled h)

/-- A frame that is read is within 32 bits, so writing drops nothing of it. -/
theorem exact_frame : frame.Exact fun n => [.frame n] := by
  intro b after n hfilled h
  obtain ⟨hspelled, hlt⟩ := Spelled.of_frame hfilled h
  refine ⟨[.number 8 n], hspelled, ?_⟩
  simp [leavesOf, Piece.frame, Piece.leaf?, Leaf.settle, Nat.mod_eq_of_lt hlt]

theorem exact_str : str.Exact Piece.str := by
  intro b after s hfilled h
  obtain ⟨length, between, hframe, hnext⟩ := exists_of_bind_ok h
  obtain ⟨bs, between', htake, hdecoded⟩ := exists_of_bind_ok hnext
  have hsettled := exact_frame hfilled hframe
  obtain ⟨hspelled, rfl⟩ := Spelled.of_take (hsettled.filled_le hfilled) htake
  have hrun : Settled between [.run bs] between' := ⟨[.run bs], hspelled, rfl⟩
  cases hdecode : Utf8.decode bs with
  | error fault =>
    simp only [hdecode] at hdecoded
    cases hdecoded
  | ok text =>
    simp only [hdecode] at hdecoded
    obtain ⟨rfl, rfl⟩ := pure_ok hdecoded
    obtain rfl := Utf8.encode_of_decode hdecode
    exact (hsettled.append hrun).room _

theorem Exact.times {element : Reader α} {pieces : α → List Piece} (h : element.Exact pieces) {n : Nat}
    {b after : Buffer} {items : List α} (hfilled : b.filled ≤ b.capacity)
    (hread : times element n b = (.ok items, after)) :
    items.length = n ∧ Settled b (items.flatMap pieces) after := by
  induction n generalizing b items with
  | zero =>
    obtain ⟨rfl, rfl⟩ := pure_ok hread
    exact ⟨rfl, Settled.nil b⟩
  | succ n ih =>
    obtain ⟨a, between, hfirst, hnext⟩ := exists_of_bind_ok hread
    obtain ⟨rest, between', hrest, hpure⟩ := exists_of_bind_ok hnext
    obtain ⟨rfl, rfl⟩ := pure_ok hpure
    have hsettled := h hfilled hfirst
    obtain ⟨rfl, hothers⟩ := ih (hsettled.filled_le hfilled) hrest
    exact ⟨rfl, hsettled.append hothers⟩

theorem Exact.seq {element : Reader α} {pieces : α → List Piece} (h : element.Exact pieces) :
    (seq element).Exact (Piece.seq pieces) := by
  intro b after items hfilled hread
  obtain ⟨count, between, hframe, htimes⟩ := exists_of_bind_ok hread
  have hsettled := exact_frame hfilled hframe
  obtain ⟨rfl, hitems⟩ := h.times (hsettled.filled_le hfilled) htimes
  exact hsettled.append hitems

theorem Exact.opt {element : Reader α} {pieces : α → List Piece} (h : element.Exact pieces) :
    (opt element).Exact (Piece.opt pieces) := by
  intro b after value hfilled hread
  obtain ⟨present, between, hmark, hnext⟩ := exists_of_bind_ok hread
  have hsettled := exact_mark hfilled hmark
  cases present with
  | false =>
    obtain ⟨rfl, rfl⟩ := pure_ok hnext
    exact hsettled
  | true =>
    obtain ⟨a, between', helement, hpure⟩ := exists_of_bind_ok hnext
    obtain ⟨rfl, rfl⟩ := pure_ok hpure
    exact hsettled.append (h (hsettled.filled_le hfilled) helement)

end Reader

open Reader

variable {Self : Type} {self : Codec Self}

theorem Enumeration.exact_ofIndex? {e : Enumeration} {index : UInt32} {b after : Buffer} {variant : e.Variant}
    {other : ReadError}
    (h : (match e.ofIndex? index.toNat with
      | some variant => return variant
      | none => fail other : Reader e.Variant) b = (.ok variant, after)) : variant.val = index.toNat ∧ b = after := by
  by_cases hindex : index.toNat < e.names.length
  · rw [show e.ofIndex? index.toNat = some ⟨index.toNat, hindex⟩ from dif_pos hindex] at h
    obtain ⟨rfl, rfl⟩ := pure_ok h
    exact ⟨rfl, rfl⟩
  · rw [show e.ofIndex? index.toNat = none from dif_neg hindex] at h
    cases h

theorem Variants.indexOf_of_read {tags : List String} {α : Type} {read : Reader Self} {beyond : ReadError} :
    (variants : Variants Self tags α) → {skip : Nat} → {b after : Buffer} → {value : α} →
      variants.read read beyond skip b = (.ok value, after) → variants.indexOf value = skip
  | .nil, _, _, _, _, h => nomatch h
  | .unit _ _ _, 0, _, _, _, h => by
    obtain ⟨rfl, -⟩ := pure_ok h
    rfl
  | .unit _ rest _, skip + 1, _, _, _, h => by
    obtain ⟨inner, between, hinner, hpure⟩ := exists_of_bind_ok h
    obtain ⟨rfl, -⟩ := pure_ok hpure
    exact congrArg (· + 1) (rest.indexOf_of_read hinner)
  | .payload _ layout _ _, 0, _, _, _, h => by
    obtain ⟨inner, between, -, hpure⟩ := exists_of_bind_ok h
    obtain ⟨rfl, -⟩ := pure_ok hpure
    rfl
  | .payload _ _ rest _, skip + 1, _, _, _, h => by
    obtain ⟨inner, between, hinner, hpure⟩ := exists_of_bind_ok h
    obtain ⟨rfl, -⟩ := pure_ok hpure
    exact congrArg (· + 1) (rest.indexOf_of_read hinner)

mutual

/-- By induction on the layout; `self` is given with the same property. -/
theorem Layout.exact_read {α : Type} (hself : self.read.Exact self.pieces) :
    (layout : Layout Self α) → (layout.read self.read).Exact (layout.pieces self.pieces)
  | .bool => exact_mark
  | .str => exact_str
  | .u8 => exact_u8
  | .u16 => exact_u16
  | .u32 => exact_u32
  | .i32 => exact_i32
  | .f32 => exact_f32
  | .f64 => exact_f64
  | .enumeration e => by
    intro b after variant hfilled h
    obtain ⟨index, between, hu32, hnext⟩ := exists_of_bind_ok h
    obtain ⟨hval, rfl⟩ := Enumeration.exact_ofIndex? hnext
    rw [Layout.pieces, hval]
    exact exact_u32 hfilled hu32
  | .record _ fields => fields.exact_read hself
  | .tuple parts => parts.exact_read hself
  | .union _ variants _ => by
    intro b after value hfilled h
    obtain ⟨index, between, hu32, hnext⟩ := exists_of_bind_ok h
    have hsettled := exact_u32 hfilled hu32
    have hpayload := variants.exact_read hself _ index.toNat (hsettled.filled_le hfilled) hnext
    rw [Layout.pieces, variants.indexOf_of_read hnext]
    exact hsettled.append hpayload
  | .vector element => (element.exact_read hself).seq
  | .optional element => (element.exact_read hself).opt
  | .nullable element => (element.exact_read hself).opt.map fun value => by
    rw [Layout.pieces, Nullable.toOption_ofOption]
  | .retyped host base => (base.exact_read hself).map fun a => by
    rw [Layout.pieces, host.view_make]
  | .self => hself

theorem Parts.exact_read {α : Type} (hself : self.read.Exact self.pieces) :
    (parts : Parts Self α) → (parts.read self.read).Exact (parts.pieces self.pieces)
  | .pair first second => (first.exact_read hself).pair (second.exact_read hself) fun _ _ => rfl
  | .cons first rest => (first.exact_read hself).pair (rest.exact_read hself) fun _ _ => rfl

theorem Fields.exact_read {names : List String} {α : Type} (hself : self.read.Exact self.pieces) :
    (fields : Fields Self names α) → (fields.read self.read).Exact (fields.pieces self.pieces)
  | .nil => exact_pure () rfl
  | .cons _ layout rest _ => (layout.exact_read hself).pair (rest.exact_read hself) fun _ _ => rfl

theorem Variants.exact_read {tags : List String} {α : Type} (hself : self.read.Exact self.pieces)
    (beyond : ReadError) : (variants : Variants Self tags α) → (skip : Nat) →
      (variants.read self.read beyond skip).Exact (variants.payloadPieces self.pieces)
  | .nil, _ => exact_fail beyond _
  | .unit _ _ _, 0 => exact_pure _ rfl
  | .unit _ rest _, skip + 1 => (rest.exact_read hself beyond skip).map fun _ => rfl
  | .payload _ layout _ _, 0 => (layout.exact_read hself).map fun _ => rfl
  | .payload _ _ rest _, skip + 1 => (rest.exact_read hself beyond skip).map fun _ => rfl

end

/-- On every level the values of the level below are written as they were read. -/
theorem Recursive.exact_readWithin {α : Type} (layout : Recursive α) (e : ReadError) (levels : Nat) :
    (layout.readWithin (fail e) levels).Exact layout.pieces := by
  induction levels with
  | zero => exact exact_fail e _
  | succ levels ih =>
    intro b after value hfilled h
    rw [layout.pieces_eq]
    let below : Codec α := ⟨layout.readWithin (fail e) levels, layout.pieces⟩
    have hbelow : below.read.Exact below.pieces := ih
    exact layout.body.exact_read hbelow hfilled h

theorem Codec.OfLayout.exact_read {α : Type} {codec : Codec α} (h : codec.OfLayout) :
    codec.read.Exact codec.pieces := by
  induction h with
  | unit => exact exact_pure () rfl
  | layout h layout ih => exact layout.exact_read ih
  | recursive layout => exact fun b _ _ hfilled hread => layout.exact_readWithin _ _ hfilled hread

/-- Leaves that have the same bytes, or are two flags other than 1. -/
def Leaf.Alike (x y : Leaf) : Prop :=
  x = y ∨ ∃ c d, x = .flag c ∧ y = .flag d ∧ c ≠ 1 ∧ d ≠ 1

theorem Leaf.alike_of_settle_eq {x y : Leaf} (h : x.settle = y.settle) : x.Alike y := by
  cases x <;> cases y <;> simp only [settle, reduceCtorEq] at h
  case flag.flag c d =>
    by_cases hc : c = 1 <;> by_cases hd : d = 1 <;> simp_all [Alike]
  all_goals exact .inl h

theorem Leaf.alike_of_map_settle_eq {xs ys : List Leaf} (h : xs.map settle = ys.map settle) :
    List.Forall₂ Alike xs ys := by
  rw [← List.forall₂_eq_eq_eq, List.forall₂_map_left_iff, List.forall₂_map_right_iff] at h
  exact h.imp fun _ _ => alike_of_settle_eq

/-- Reading some bytes and writing the value again, in the same byte order and wherever there is room, gives the bytes
that were consumed, up to flags, which stand where the writer has marks. Bytes of the same value are alike. -/
theorem Codec.OfLayout.only_encodings_read {α : Type} {codec : Codec α} (h : codec.OfLayout) (order : ByteOrder)
    (bs : List UInt8) (value : α) (after : Buffer)
    (hread : codec.read (Buffer.ofBytes order bs) = (.ok value, after)) :
    ∃ found, Leaf.spell order found = bs.take after.cursor ∧ found.map Leaf.settle = leavesOf (codec.pieces value) ∧
      (∀ capacity, ∃ out, codec.writeTo (Buffer.empty order capacity) value = (out, after.cursor) ∧
        out.written = Leaf.spell order (found.map Leaf.settle)) ∧
      ∀ bs' after', codec.read (Buffer.ofBytes order bs') = (.ok value, after') →
        ∃ found', Leaf.spell order found' = bs'.take after'.cursor ∧ List.Forall₂ Leaf.Alike found found' := by
  have hsettled : ∀ bs after, codec.read (Buffer.ofBytes order bs) = (.ok value, after) →
      Settled (Buffer.ofBytes order bs) (codec.pieces value) after :=
    fun bs after hread => h.exact_read (Nat.le_refl _) hread
  obtain ⟨found, hspelled, hfound⟩ := hsettled bs after hread
  obtain ⟨hcursor, hconsumed⟩ := hspelled.consumed
  have hbytes : Leaf.spell order (found.map Leaf.settle) = bytesOf order (codec.pieces value) := by
    rw [hfound, spell_leavesOf]
  refine ⟨found, hconsumed, hfound, ?_, ?_⟩
  · intro capacity
    have hcount : (emit (Buffer.empty order capacity) (codec.pieces value)).2 = after.cursor := by
      rw [(Buffer.wrote_emit (Nat.zero_le _) _).2, ← length_bytesOf order, ← hbytes, Leaf.length_spell_settle, hcursor]
    refine ⟨(emit (Buffer.empty order capacity) (codec.pieces value)).1, ?_, ?_⟩
    · rw [← hcount]
      rfl
    · rw [Buffer.written_emit_empty, hbytes]
  · intro bs' after' hread'
    obtain ⟨found', hspelled', hfound'⟩ := hsettled bs' after' hread'
    exact ⟨found', hspelled'.consumed.2, Leaf.alike_of_map_settle_eq (hfound.trans hfound'.symm)⟩

/-- An absence under the flag 7, and two numbers of which one is a NaN; one byte is left over. Of all bytes that hold the
same value only the flag may be another. -/
theorem Codec.OfLayout.only_encodings_read_unusual_flag :
    let layout : Layout Unit (Option Bool × List Binary32) := .tuple (.pair (.optional .bool) (.vector .f32))
    let bs : List UInt8 := [7, 0, 0, 0, 0, 0, 0, 0, 2, 0x7F, 0x80, 0, 1, 0x3F, 0x80, 0, 0, 0xAA]
    let value : Option Bool × List Binary32 := (none, [⟨0x7F800001⟩, ⟨0x3F800000⟩])
    layout.codec.OfLayout ∧ ∃ after, layout.codec.read (Buffer.ofBytes .big bs) = (.ok value, after) ∧
      after.cursor = 17 ∧
      (∃ out, layout.codec.writeTo (Buffer.empty .big 4) value = (out, 17) ∧
        out.written = [0, 0, 0, 0, 0, 0, 0, 0, 2, 0x7F, 0x80, 0, 1, 0x3F, 0x80, 0, 0]) ∧
      ∀ bs' after', layout.codec.read (Buffer.ofBytes .big bs') = (.ok value, after') →
        ∃ found found', Leaf.spell .big found = bs.take 17 ∧ Leaf.spell .big found' = bs'.take after'.cursor ∧
          List.Forall₂ Leaf.Alike found found' := by
  intro layout bs value
  have hlayout : layout.codec.OfLayout := OfLayout.unit.layout layout
  have hread : layout.codec.read (Buffer.ofBytes .big bs) = (.ok value, ⟨bs, 17, 18, .big⟩) := rfl
  obtain ⟨found, hconsumed, hfound, hwritten, hothers⟩ := hlayout.only_encodings_read .big bs value _ hread
  obtain ⟨out, hout, hbytes⟩ := hwritten 4
  refine ⟨hlayout, _, hread, rfl, ⟨out, hout, ?_⟩, ?_⟩
  · rw [hbytes, hfound]
    rfl
  · intro bs' after' hread'
    obtain ⟨found', hconsumed', halike⟩ := hothers bs' after' hread'
    exact ⟨found, found', hconsumed, hconsumed', halike⟩

end WireFormat
