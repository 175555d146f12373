import WireFormat.Proofs.Leaves
import WireFormat.Proofs.Rounding
import WireFormat.Proofs.Wrappers

/-!
# Writing back what was read

A schema retraces what it reads if it writes it back as the leaves it was read from, with every flag settled. Main
statements: every kind of schema retraces if its parts do. An enumeration must not repeat a name, a union not a tag,
and a wrapper must not collide with what it wraps.
-/
namespace WireFormat
open Floating

/-- None of the leaves is a single precision NaN. -/
def Leaf.Numbers (leaves : List Leaf) : Prop :=
  ∀ x, .single x ∈ leaves → x.isNaN = false

theorem Leaf.Numbers.left {xs ys : List Leaf} (h : Leaf.Numbers (xs ++ ys)) : Leaf.Numbers xs :=
  fun x hx => h x (List.mem_append_left _ hx)

theorem Leaf.Numbers.right {xs ys : List Leaf} (h : Leaf.Numbers (xs ++ ys)) : Leaf.Numbers ys :=
  fun x hx => h x (List.mem_append_right _ hx)

theorem Leaf.Numbers.of_cons {leaf : Leaf} {leaves : List Leaf} (h : Leaf.Numbers (leaf :: leaves)) :
    Leaf.Numbers leaves :=
  fun x hx => h x (List.mem_cons_of_mem _ hx)

namespace Written

/-- The attempt succeeds and writes the leaves with their flags settled. -/
def Settles (attempt : Written) (order : ByteOrder) (leaves : List Leaf) : Prop :=
  ∃ pieces, attempt = .done pieces ∧ bytesOf order pieces = Leaf.spell order (leaves.map Leaf.settle)

variable {order : ByteOrder} {xs ys : List Leaf} {first second : Written}

theorem settles_number (order : ByteOrder) (width n : Nat) :
    (done [.number width n]).Settles order [.number width n] :=
  ⟨_, rfl, rfl⟩

theorem settles_mark (order : ByteOrder) (c : UInt8) : (done [.mark (c == 1)]).Settles order [.flag c] := by
  refine ⟨_, rfl, ?_⟩
  by_cases h : c = 1
  · subst h
    rfl
  · have hne : (c == 1) = false := by simpa using h
    rw [hne, List.map_cons, Leaf.settle, if_neg h]
    rfl

theorem settles_absent (order : ByteOrder) {c : UInt8} (h : c ≠ 1) : (done [.mark false]).Settles order [.flag c] := by
  have hmark := settles_mark order c
  have hne : (c == 1) = false := by simpa using h
  rwa [hne] at hmark

theorem Settles.andThen (hfirst : first.Settles order xs) (hsecond : second.Settles order ys) :
    (first.andThen second).Settles order (xs ++ ys) := by
  obtain ⟨pieces, rfl, hpieces⟩ := hfirst
  obtain ⟨more, rfl, hmore⟩ := hsecond
  refine ⟨pieces ++ more, rfl, ?_⟩
  rw [bytesOf_append, hpieces, hmore, List.map_append, Leaf.spell_append]

theorem Settles.after {front : List Piece} (hfront : (done front).Settles order xs) (h : second.Settles order ys) :
    (second.after front).Settles order (xs ++ ys) :=
  hfront.andThen h

theorem settles_all_nil (order : ByteOrder) : (all []).Settles order [] :=
  ⟨[], rfl, rfl⟩

theorem Settles.all_cons {rest : List Written} (hfirst : first.Settles order xs) (hrest : (all rest).Settles order ys) :
    (all (first :: rest)).Settles order (xs ++ ys) := by
  obtain ⟨pieces, rfl, -⟩ := id hfirst
  have hsplit : all (done pieces :: rest) = (done pieces).andThen (all rest) := rfl
  rw [hsplit]
  exact hfirst.andThen hrest

end Written

namespace Reader

variable {b after : Buffer}

/-- A word was read as the number that it holds. -/
theorem number_of_word {α : Type} {reader : Reader α} {width : Nat} {word : Nat → α} (digits : α → Nat)
    (hreader : reader = number width >>= fun m => pure (word m))
    (hdigits : ∀ m < span width, digits (word m) = m) (hfilled : b.filled ≤ b.capacity) {a : α}
    (h : reader b = (.ok a, after)) : number width b = (.ok (digits a), after) := by
  rw [hreader] at h
  obtain ⟨m, between, hnumber, hpure⟩ := exists_of_bind_ok h
  obtain ⟨rfl, rfl⟩ := pure_ok hpure
  rwa [hdigits m (Spelled.of_number hfilled hnumber).2]

theorem number_of_u8 {n : UInt8} (hfilled : b.filled ≤ b.capacity) (h : u8 b = (.ok n, after)) :
    number 1 b = (.ok n.toNat, after) := by
  refine number_of_word UInt8.toNat rfl (fun m hm => ?_) hfilled h
  exact UInt8.toNat_ofNat_of_lt' hm

theorem number_of_u16 {n : UInt16} (hfilled : b.filled ≤ b.capacity) (h : u16 b = (.ok n, after)) :
    number 2 b = (.ok n.toNat, after) := by
  refine number_of_word UInt16.toNat rfl (fun m hm => ?_) hfilled h
  exact UInt16.toNat_ofNat_of_lt' hm

theorem number_of_u32 {n : UInt32} (hfilled : b.filled ≤ b.capacity) (h : u32 b = (.ok n, after)) :
    number 4 b = (.ok n.toNat, after) := by
  refine number_of_word UInt32.toNat rfl (fun m hm => ?_) hfilled h
  exact UInt32.toNat_ofNat_of_lt' hm

theorem number_of_f64 {x : Binary64} (hfilled : b.filled ≤ b.capacity) (h : f64 b = (.ok x, after)) :
    number 8 b = (.ok x.bits.toNat, after) := by
  refine number_of_word (fun x => x.bits.toNat) rfl (fun m hm => ?_) hfilled h
  exact UInt64.toNat_ofNat_of_lt' hm

theorem u32_of_i32 {n : Int32} (h : i32 b = (.ok n, after)) : u32 b = (.ok n.toUInt32, after) := by
  obtain ⟨m, between, hu32, hpure⟩ := exists_of_bind_ok h
  obtain ⟨rfl, rfl⟩ := pure_ok hpure
  exact hu32

theorem u8_of_mark {x : Bool} (h : mark b = (.ok x, after)) : ∃ c, u8 b = (.ok c, after) ∧ x = (c == 1) := by
  obtain ⟨c, between, hu8, hpure⟩ := exists_of_bind_ok h
  obtain ⟨rfl, rfl⟩ := pure_ok hpure
  exact ⟨c, hu8, rfl⟩

/-- An optional value is there if its byte is 1. -/
theorem opt_ok {α : Type} {element : Reader α} {value : Option α} (h : opt element b = (.ok value, after)) :
    ∃ c between, u8 b = (.ok c, between) ∧
      ((c = 1 ∧ ∃ a, value = some a ∧ element between = (.ok a, after)) ∨
        (c ≠ 1 ∧ value = none ∧ between = after)) := by
  obtain ⟨present, between, hmark, hnext⟩ := exists_of_bind_ok h
  obtain ⟨c, hu8, hpresent⟩ := u8_of_mark hmark
  refine ⟨c, between, hu8, ?_⟩
  split at hnext
  · obtain ⟨a, between', helement, hpure⟩ := exists_of_bind_ok hnext
    obtain ⟨rfl, rfl⟩ := pure_ok hpure
    left
    simp_all
  · obtain ⟨rfl, rfl⟩ := pure_ok hnext
    right
    simp_all

end Reader

namespace Schema

theorem names_readFields {fields : List (String × Schema)} {b after : Buffer} {values : List (String × Value)}
    (h : readFields fields b = (.ok values, after)) : Entries.names values = Entries.names fields := by
  induction fields generalizing b values with
  | nil =>
    obtain ⟨rfl, -⟩ := Reader.pure_ok h
    rfl
  | cons field rest ih =>
    obtain ⟨name, schema⟩ := field
    obtain ⟨value, between, -, hnext⟩ := Reader.exists_of_bind_ok h
    obtain ⟨others, between', hothers, hpure⟩ := Reader.exists_of_bind_ok hnext
    obtain ⟨rfl, rfl⟩ := Reader.pure_ok hpure
    exact congrArg (name :: ·) (ih hothers)

theorem length_readComponents {components : List Schema} {b after : Buffer} {values : List Value}
    (h : readComponents components b = (.ok values, after)) : values.length = components.length := by
  induction components generalizing b values with
  | nil =>
    obtain ⟨rfl, -⟩ := Reader.pure_ok h
    rfl
  | cons schema rest ih =>
    obtain ⟨value, between, -, hnext⟩ := Reader.exists_of_bind_ok h
    obtain ⟨others, between', hothers, hpure⟩ := Reader.exists_of_bind_ok hnext
    obtain ⟨rfl, rfl⟩ := Reader.pure_ok hpure
    exact congrArg (· + 1) (ih hothers)

theorem read_enum_ok {names : List String} {b after : Buffer} {value : Value}
    (h : (enum names).read b = (.ok value, after)) :
    ∃ (index : UInt32) (hindex : index.toNat < names.length), Reader.u32 b = (.ok index, after) ∧
      value = .str names[index.toNat] := by
  obtain ⟨index, between, hu32, hnext⟩ := Reader.exists_of_bind_ok h
  cases hname : names[index.toNat]? with
  | none =>
    simp only [hname] at hnext
    cases hnext
  | some name =>
    simp only [hname] at hnext
    obtain ⟨rfl, rfl⟩ := Reader.pure_ok hnext
    obtain ⟨hindex, rfl⟩ := List.getElem?_eq_some_iff.1 hname
    exact ⟨index, hindex, hu32, rfl⟩

/-- What is read by a union is one of its variants, with the payload that the variant has. -/
theorem readVariant_ok {index count : Nat} {variants : List (String × Option Schema)} {skip : Nat} {b after : Buffer}
    {value : Value} (h : readVariant index count variants skip b = (.ok value, after)) :
    ∃ tag, ((tag, none) ∈ variants ∧ value = .unit tag ∧ b = after) ∨
      ∃ schema payload, (tag, some schema) ∈ variants ∧ value = .tagged tag payload ∧
        schema.read b = (.ok payload, after) := by
  induction variants generalizing skip with
  | nil => cases h
  | cons variant rest ih =>
    obtain ⟨tag, entry⟩ := variant
    cases skip with
    | zero =>
      cases entry with
      | none =>
        obtain ⟨rfl, rfl⟩ := Reader.pure_ok h
        exact ⟨tag, .inl ⟨List.mem_cons_self, rfl, rfl⟩⟩
      | some schema =>
        obtain ⟨payload, between, hpayload, hpure⟩ := Reader.exists_of_bind_ok h
        obtain ⟨rfl, rfl⟩ := Reader.pure_ok hpure
        exact ⟨tag, .inr ⟨schema, payload, List.mem_cons_self, rfl, hpayload⟩⟩
    | succ skip =>
      have hrest : readVariant index count rest skip b = (.ok value, after) := by cases entry <;> exact h
      obtain ⟨other, ⟨hmem, hunit⟩ | ⟨schema, payload, hmem, htagged⟩⟩ := ih hrest
      · exact ⟨other, .inl ⟨List.mem_cons_of_mem _ hmem, hunit⟩⟩
      · exact ⟨other, .inr ⟨schema, payload, List.mem_cons_of_mem _ hmem, htagged⟩⟩

theorem variant?_readVariant {index count : Nat} {variants : List (String × Option Schema)} {skip : Nat}
    {b after : Buffer} {value : Value} (h : readVariant index count variants skip b = (.ok value, after)) :
    ∃ tag ∈ Entries.names variants, value.variant? = some tag := by
  obtain ⟨tag, ⟨hmem, rfl, -⟩ | ⟨schema, payload, hmem, rfl, -⟩⟩ := readVariant_ok h
  · exact ⟨tag, List.mem_map_of_mem hmem, rfl⟩
  · exact ⟨tag, List.mem_map_of_mem hmem, rfl⟩

/-- A schema reads values of the kinds that it shows. -/
theorem read_shows (schema : Schema) {b after : Buffer} {value : Value} (h : schema.read b = (.ok value, after)) :
    schema.Shows value.kind := by
  match schema with
  | option element =>
    obtain ⟨inner, between, hopt, hnext⟩ := Reader.exists_of_bind_ok h
    obtain ⟨c, between', -, ⟨-, a, rfl, helement⟩ | ⟨-, rfl, -⟩⟩ := Reader.opt_ok hopt
    · obtain ⟨rfl, -⟩ := Reader.pure_ok hnext
      exact shows_presented (element.read_shows helement)
    · obtain ⟨rfl, -⟩ := Reader.pure_ok hnext
      exact .inl rfl
  | nullable element =>
    obtain ⟨inner, between, hopt, hnext⟩ := Reader.exists_of_bind_ok h
    obtain ⟨rfl, -⟩ := Reader.pure_ok hnext
    obtain ⟨c, between', -, ⟨-, a, rfl, helement⟩ | ⟨-, rfl, -⟩⟩ := Reader.opt_ok hopt
    · exact .inr (element.read_shows helement)
    · exact .inl rfl
  | enum names =>
    obtain ⟨index, hindex, -, rfl⟩ := read_enum_ok h
    exact ⟨Kind.noConfusion, Kind.noConfusion, Kind.noConfusion⟩
  | union variants =>
    obtain ⟨index, between, -, hnext⟩ := Reader.exists_of_bind_ok h
    obtain ⟨tag, -, hvalue⟩ := variant?_readVariant hnext
    rw [Value.kind_of_variant? hvalue]
    exact ⟨Kind.noConfusion, Kind.noConfusion, Kind.noConfusion⟩
  | bool | str | u8 | u16 | u32 | i32 | f32 | f64 | struct _ | tuple _ | vec _ =>
    obtain ⟨inner, between, -, hpure⟩ := Reader.exists_of_bind_ok h
    obtain ⟨rfl, -⟩ := Reader.pure_ok hpure
    exact ⟨Kind.noConfusion, Kind.noConfusion, Kind.noConfusion⟩

/-- Whatever the reader reads, leaves are found in the same bytes, and it is written back as these, settled. -/
def RetracedBy {α : Type} (reader : Reader α) (leaves : Reader (List Leaf)) (write : α → Written) : Prop :=
  ∀ ⦃b after : Buffer⦄ ⦃a : α⦄, b.filled ≤ b.capacity → reader b = (.ok a, after) →
    ∃ found, leaves b = (.ok found, after) ∧ (Leaf.Numbers found → (write a).Settles b.order found)

def Retraces (schema : Schema) : Prop :=
  RetracedBy schema.read schema.leaves schema.write

/-- Fields are written back as the components that they are. -/
def RetracesFields (fields : List (String × Schema)) : Prop :=
  RetracedBy (readFields fields) (leavesOfFields fields) fun values =>
    writeComponents (fields.map Prod.snd) (values.map Prod.snd)

def RetracesComponents (components : List Schema) : Prop :=
  RetracedBy (readComponents components) (leavesOfComponents components) (writeComponents components)

/-- The variant that was read is found again by its tag, at the same place. -/
def RetracesVariant (variants : List (String × Option Schema)) : Prop :=
  ∀ ⦃index count skip : Nat⦄ ⦃b after : Buffer⦄ ⦃value : Value⦄, b.filled ≤ b.capacity →
    readVariant index count variants skip b = (.ok value, after) →
    ∃ found, leavesOfVariant variants skip b = (.ok found, after) ∧ (Leaf.Numbers found → ∀ start,
      ∃ payload : Written, payload.Settles b.order found ∧
        writeUnion variants start value = payload.after [.index (start + skip)])

theorem leavesOfNumber_ok {width n : Nat} {b after : Buffer} (h : Reader.number width b = (.ok n, after)) :
    leavesOfNumber width b = (.ok [.number width n], after) :=
  Reader.bind_ok h

theorem retraces_bool : Schema.bool.Retraces := by
  intro b after value hfilled h
  obtain ⟨x, between, hmark, hpure⟩ := Reader.exists_of_bind_ok h
  obtain ⟨rfl, rfl⟩ := Reader.pure_ok hpure
  obtain ⟨c, hu8, rfl⟩ := Reader.u8_of_mark hmark
  exact ⟨[.flag c], Reader.bind_ok hu8, fun _ => Written.settles_mark _ c⟩

theorem retraces_str : Schema.str.Retraces := by
  intro b after value hfilled h
  obtain ⟨s, between, hstr, hpure⟩ := Reader.exists_of_bind_ok h
  obtain ⟨rfl, rfl⟩ := Reader.pure_ok hpure
  obtain ⟨length, between', hframe, hnext⟩ := Reader.exists_of_bind_ok hstr
  obtain ⟨bs, between'', htake, hdecoded⟩ := Reader.exists_of_bind_ok hnext
  obtain ⟨hspelled, hlt⟩ := Spelled.of_frame hfilled hframe
  obtain ⟨-, rfl⟩ := Spelled.of_take (hspelled.filled_le hfilled) htake
  cases hdecode : Utf8.decode bs with
  | error fault =>
    simp only [hdecode] at hdecoded
    cases hdecoded
  | ok text =>
    simp only [hdecode] at hdecoded
    obtain ⟨rfl, rfl⟩ := Reader.pure_ok hdecoded
    obtain rfl := Utf8.encode_of_decode hdecode
    refine ⟨[.number 8 _, .run _], (Reader.bind_ok hframe).trans (Reader.bind_ok htake), fun _ => ?_⟩
    refine ⟨Piece.str text, rfl, ?_⟩
    rw [Piece.str, Piece.frame, Nat.mod_eq_of_lt hlt]
    rfl

/-- A leaf that is read from one number and written as that number. -/
theorem retraces_number {α : Type} {schema : Schema} {reader : Reader α} {image : α → Value} {width : Nat}
    {digits : α → Nat} (hread : schema.read = reader >>= fun a => pure (image a))
    (hleaves : schema.leaves = leavesOfNumber width)
    (hnumber : ∀ {b after : Buffer} {a : α}, b.filled ≤ b.capacity → reader b = (.ok a, after) →
      Reader.number width b = (.ok (digits a), after))
    (hwrite : ∀ a, schema.write (image a) = .done [.number width (digits a)]) : schema.Retraces := by
  intro b after value hfilled h
  rw [hread] at h
  obtain ⟨a, between, ha, hpure⟩ := Reader.exists_of_bind_ok h
  obtain ⟨rfl, rfl⟩ := Reader.pure_ok hpure
  refine ⟨_, hleaves ▸ leavesOfNumber_ok (hnumber hfilled ha), fun _ => ?_⟩
  rw [hwrite]
  exact Written.settles_number _ _ _

theorem retraces_u8 : Schema.u8.Retraces :=
  retraces_number rfl rfl Reader.number_of_u8 write_u8

theorem retraces_u16 : Schema.u16.Retraces :=
  retraces_number rfl rfl Reader.number_of_u16 write_u16

theorem retraces_u32 : Schema.u32.Retraces :=
  retraces_number rfl rfl Reader.number_of_u32 write_u32

theorem retraces_i32 : Schema.i32.Retraces :=
  retraces_number rfl rfl (fun hfilled h => Reader.number_of_u32 hfilled (Reader.u32_of_i32 h)) write_i32

theorem retraces_f64 : Schema.f64.Retraces :=
  retraces_number rfl rfl Reader.number_of_f64 fun _ => rfl

theorem retraces_f32 : Schema.f32.Retraces := by
  intro b after value hfilled h
  obtain ⟨x, between, hf32, hpure⟩ := Reader.exists_of_bind_ok h
  obtain ⟨rfl, rfl⟩ := Reader.pure_ok hpure
  refine ⟨[.single x], Reader.bind_ok hf32, fun hnumbers => ?_⟩
  exact ⟨_, write_f32 (narrow_widen (hnumbers x List.mem_cons_self)), rfl⟩

theorem retraces_enum {names : List String} (hnodup : names.Nodup) : (Schema.enum names).Retraces := by
  intro b after value hfilled h
  obtain ⟨index, hindex, hu32, rfl⟩ := read_enum_ok h
  refine ⟨_, leavesOfNumber_ok (Reader.number_of_u32 hfilled hu32), fun _ => ?_⟩
  rw [write_enum hnodup hindex]
  exact Written.settles_number _ _ _

theorem retraces_struct {fields : List (String × Schema)} (hnodup : (Entries.names fields).Nodup)
    (hfields : RetracesFields fields) : (Schema.struct fields).Retraces := by
  intro b after value hfilled h
  obtain ⟨values, between, hvalues, hpure⟩ := Reader.exists_of_bind_ok h
  obtain ⟨rfl, rfl⟩ := Reader.pure_ok hpure
  obtain ⟨found, hfound, hwritten⟩ := hfields hfilled hvalues
  refine ⟨found, hfound, fun hnumbers => ?_⟩
  have hwrite : (struct fields).write (.struct values) = _ :=
    writeFields_eq_writeComponents (names_readFields hvalues) hnodup
  rw [hwrite]
  exact hwritten hnumbers

theorem retraces_tuple {components : List Schema} (hcomponents : RetracesComponents components) :
    (Schema.tuple components).Retraces := by
  intro b after value hfilled h
  obtain ⟨values, between, hvalues, hpure⟩ := Reader.exists_of_bind_ok h
  obtain ⟨rfl, rfl⟩ := Reader.pure_ok hpure
  obtain ⟨found, hfound, hwritten⟩ := hcomponents hfilled hvalues
  refine ⟨found, hfound, fun hnumbers => ?_⟩
  have hwrite : (tuple components).write (.tuple values) = writeComponents components values :=
    if_pos (length_readComponents hvalues)
  rw [hwrite]
  exact hwritten hnumbers

theorem retraces_union {variants : List (String × Option Schema)} (hvariants : RetracesVariant variants) :
    (Schema.union variants).Retraces := by
  intro b after value hfilled h
  obtain ⟨index, between, hu32, hvariant⟩ := Reader.exists_of_bind_ok h
  have hnumber := Reader.number_of_u32 hfilled hu32
  obtain ⟨hspelled, -⟩ := Spelled.of_number hfilled hnumber
  obtain ⟨found, hfound, hwritten⟩ := hvariants (hspelled.filled_le hfilled) hvariant
  refine ⟨_, (Reader.bind_ok hnumber).trans (Reader.bind_ok hfound), fun hnumbers => ?_⟩
  obtain ⟨payload, hpayload, hunion⟩ := hwritten hnumbers.of_cons 0
  rw [hspelled.order_eq] at hpayload
  rw [write_union, hunion, Nat.zero_add]
  exact (Written.settles_number _ _ _).after hpayload

/-- Reading a sequence finds the leaves of its elements one after the other. -/
theorem Retraces.times {element : Schema} (helement : element.Retraces) {n : Nat} {b after : Buffer}
    {values : List Value} (hfilled : b.filled ≤ b.capacity)
    (h : Reader.times element.read n b = (.ok values, after)) :
    ∃ items, Reader.times element.leaves n b = (.ok items, after) ∧ values.length = n ∧
      (Leaf.Numbers items.flatten → (Written.all (values.map element.write)).Settles b.order items.flatten) := by
  induction n generalizing b values with
  | zero =>
    obtain ⟨rfl, rfl⟩ := Reader.pure_ok h
    exact ⟨[], rfl, rfl, fun _ => Written.settles_all_nil _⟩
  | succ n ih =>
    obtain ⟨value, between, hvalue, hnext⟩ := Reader.exists_of_bind_ok h
    obtain ⟨rest, between', hrest, hpure⟩ := Reader.exists_of_bind_ok hnext
    obtain ⟨rfl, rfl⟩ := Reader.pure_ok hpure
    obtain ⟨first, hfirst, hwritten⟩ := helement hfilled hvalue
    have hspelled := spelled_leaves element hfilled hfirst
    obtain ⟨items, hitems, hlength, hwritten'⟩ := ih (hspelled.filled_le hfilled) hrest
    refine ⟨first :: items, ?_, congrArg (· + 1) hlength, ?_⟩
    · exact (Reader.bind_ok hfirst).trans (Reader.bind_ok hitems)
    · intro hnumbers
      rw [hspelled.order_eq] at hwritten'
      exact (hwritten hnumbers.left).all_cons (hwritten' hnumbers.right)

theorem retraces_vec {element : Schema} (helement : element.Retraces) : (Schema.vec element).Retraces := by
  intro b after value hfilled h
  obtain ⟨values, between, hseq, hpure⟩ := Reader.exists_of_bind_ok h
  obtain ⟨rfl, rfl⟩ := Reader.pure_ok hpure
  obtain ⟨count, between', hframe, htimes⟩ := Reader.exists_of_bind_ok hseq
  obtain ⟨hspelled, hlt⟩ := Spelled.of_frame hfilled hframe
  obtain ⟨items, hitems, rfl, hwritten⟩ := helement.times (hspelled.filled_le hfilled) htimes
  refine ⟨_, (Reader.bind_ok hframe).trans (Reader.bind_ok hitems), fun hnumbers => ?_⟩
  have hfront : (Written.done [.frame values.length]).Settles b.order [.number 8 values.length] := by
    rw [Piece.frame, Nat.mod_eq_of_lt hlt]
    exact Written.settles_number _ _ _
  have hrest := hwritten hnumbers.of_cons
  rw [hspelled.order_eq] at hrest
  exact hfront.after hrest

/-- Behind a flag of 1 the wrapped schema reads on, and the wrapper writes what was read behind a mark. -/
theorem Retraces.behind_flag {element : Schema} (helement : element.Retraces) {b between after : Buffer}
    {value : Value} (hfilled : b.filled ≤ b.capacity) (hflag : Reader.u8 b = (.ok 1, between))
    (hvalue : element.read between = (.ok value, after)) :
    ∃ found, element.leaves between = (.ok found, after) ∧
      (Leaf.Numbers (.flag 1 :: found) →
        ((element.write value).after [.mark true]).Settles b.order (.flag 1 :: found)) := by
  have hspelled := Spelled.of_u8 hfilled hflag
  obtain ⟨found, hfound, hwritten⟩ := helement (hspelled.filled_le hfilled) hvalue
  refine ⟨found, hfound, fun hnumbers => ?_⟩
  have hrest := hwritten hnumbers.of_cons
  rw [hspelled.order_eq] at hrest
  exact (Written.settles_mark b.order 1).after hrest

theorem retraces_option {element : Schema} (hapart : (Schema.option element).Apart) (helement : element.Retraces) :
    (Schema.option element).Retraces := by
  intro b after value hfilled h
  obtain ⟨inner, between, hopt, hnext⟩ := Reader.exists_of_bind_ok h
  obtain ⟨c, between', hu8, ⟨rfl, a, rfl, ha⟩ | ⟨hc, rfl, rfl⟩⟩ := Reader.opt_ok hopt
  · obtain ⟨rfl, rfl⟩ := Reader.pure_ok hnext
    obtain ⟨found, hfound, hwritten⟩ := helement.behind_flag hfilled hu8 ha
    refine ⟨_, (Reader.bind_ok hu8).trans (Reader.bind_ok hfound), ?_⟩
    rw [hapart.write_option (element.read_shows ha)]
    exact hwritten
  · obtain ⟨rfl, rfl⟩ := Reader.pure_ok hnext
    exact ⟨[.flag c], (Reader.bind_ok hu8).trans (if_neg hc ▸ rfl), fun _ => Written.settles_absent _ hc⟩

theorem retraces_nullable {element : Schema} (hapart : (Schema.nullable element).Apart)
    (helement : element.Retraces) : (Schema.nullable element).Retraces := by
  intro b after value hfilled h
  obtain ⟨inner, between, hopt, hpure⟩ := Reader.exists_of_bind_ok h
  obtain ⟨rfl, rfl⟩ := Reader.pure_ok hpure
  obtain ⟨c, between', hu8, ⟨rfl, a, rfl, ha⟩ | ⟨hc, rfl, rfl⟩⟩ := Reader.opt_ok hopt
  · obtain ⟨found, hfound, hwritten⟩ := helement.behind_flag hfilled hu8 ha
    refine ⟨_, (Reader.bind_ok hu8).trans (Reader.bind_ok hfound), ?_⟩
    rw [Option.getD_some, hapart.write_nullable (element.read_shows ha)]
    exact hwritten
  · exact ⟨[.flag c], (Reader.bind_ok hu8).trans (if_neg hc ▸ rfl), fun _ => Written.settles_absent _ hc⟩

theorem retracedBy_pure {α : Type} {a : α} {write : α → Written} (h : write a = .done []) :
    RetracedBy (pure a) (pure []) write := by
  intro b after a hfilled hread
  obtain ⟨rfl, rfl⟩ := Reader.pure_ok hread
  rw [h]
  exact ⟨[], rfl, fun _ => ⟨[], rfl, rfl⟩⟩

/-- A field or a component retraces together with those behind it. -/
theorem Retraces.cons {α : Type} {schema : Schema} {reader : Reader (List α)} {leaves : Reader (List Leaf)}
    {write written : List α → Written} {image : Value → α} (hschema : schema.Retraces)
    (hrest : RetracedBy reader leaves write)
    (hwrite : ∀ value others, written (image value :: others) = (schema.write value).andThen (write others)) :
    RetracedBy (schema.read >>= fun value => reader >>= fun others => pure (image value :: others))
      (schema.leaves >>= fun first => leaves >>= fun others => pure (first ++ others)) written := by
  intro b after values hfilled h
  obtain ⟨value, between, hvalue, hnext⟩ := Reader.exists_of_bind_ok h
  obtain ⟨others, between', hothers, hpure⟩ := Reader.exists_of_bind_ok hnext
  obtain ⟨rfl, rfl⟩ := Reader.pure_ok hpure
  obtain ⟨first, hfirst, hwritten⟩ := hschema hfilled hvalue
  have hspelled := spelled_leaves schema hfilled hfirst
  obtain ⟨found, hfound, hwritten'⟩ := hrest (hspelled.filled_le hfilled) hothers
  refine ⟨first ++ found, (Reader.bind_ok hfirst).trans (Reader.bind_ok hfound), fun hnumbers => ?_⟩
  rw [hspelled.order_eq] at hwritten'
  rw [hwrite]
  exact (hwritten hnumbers.left).andThen (hwritten' hnumbers.right)

theorem retracesVariant_nil : RetracesVariant [] := by
  intro index count skip b after value hfilled h
  cases h

theorem retracesVariant_cons {tag : String} {payload : Option Schema} {rest : List (String × Option Schema)}
    (hfresh : tag ∉ Entries.names rest) (hpayload : ∀ schema ∈ payload, schema.Retraces)
    (hrest : RetracesVariant rest) : RetracesVariant ((tag, payload) :: rest) := by
  intro index count skip b after value hfilled h
  cases skip with
  | zero =>
    cases payload with
    | none =>
      obtain ⟨rfl, rfl⟩ := Reader.pure_ok h
      exact ⟨[], rfl, fun _ start => ⟨.done [], ⟨[], rfl, rfl⟩, writeUnion_unit tag rest start⟩⟩
    | some schema =>
      obtain ⟨inner, between, hinner, hpure⟩ := Reader.exists_of_bind_ok h
      obtain ⟨rfl, rfl⟩ := Reader.pure_ok hpure
      obtain ⟨found, hfound, hwritten⟩ := hpayload schema rfl hfilled hinner
      refine ⟨found, hfound, fun hnumbers start => ?_⟩
      exact ⟨_, hwritten hnumbers, writeUnion_tagged tag schema rest start inner⟩
  | succ skip =>
    have hnext : readVariant index count rest skip b = (.ok value, after) := by cases payload <;> exact h
    have hleaves : leavesOfVariant ((tag, payload) :: rest) (skip + 1) = leavesOfVariant rest skip := by
      cases payload <;> rfl
    have hne : value.variant? ≠ some tag := by
      obtain ⟨other, hother, hvalue⟩ := variant?_readVariant hnext
      rw [hvalue]
      rintro ⟨⟩
      exact hfresh hother
    obtain ⟨found, hfound, hwritten⟩ := hrest hfilled hnext
    refine ⟨found, hleaves ▸ hfound, fun hnumbers start => ?_⟩
    obtain ⟨written, hsettles, hunion⟩ := hwritten hnumbers (start + 1)
    refine ⟨written, hsettles, (writeUnion_cons hne).trans ?_⟩
    rw [hunion, Nat.add_right_comm, Nat.add_assoc]

end Schema

end WireFormat
