import WireFormat.Layout.Codec
import WireFormat.Layout.Schema
import WireFormat.Schema.Codec
import WireFormat.Proofs.Reading
import WireFormat.Proofs.Writing

/-!
# A layout and its schema read alike

Every value of a layout has an image among the dynamic values. Main statement: on every buffer, the reader of a layout
and the reader of its schema stop at the same place, and either the second returns the image of what the first returns,
or both fail for the same reason. Only the type that a bad discriminant is reported for may differ.
-/
namespace WireFormat

/-- The error without the name of the type it is about. -/
def ReadError.unnamed : ReadError → ReadError
  | badDiscriminant _ index count => badDiscriminant "" index count
  | unexpectedEnd offset requested available => unexpectedEnd offset requested available
  | wideLength value => wideLength value
  | invalidUtf8 fault => invalidUtf8 fault
  | trailing residual => trailing residual

mutual

/-- The image of a value. Only an optional of an optional marks what is present, and null and absent are told apart. -/
def Layout.toValue {α : Type} : Layout Unit α → α → Value
  | .bool, b => .bool b
  | .str, s => .str s
  | .u8, n => .int (.ofInt n.toNat)
  | .u16, n => .int (.ofInt n.toNat)
  | .u32, n => .int (.ofInt n.toNat)
  | .i32, n => .int n.toInt64
  | .f32, x => .float x.widen
  | .f64, x => .float x
  | .enumeration _, variant => .str (Enumeration.nameOf variant)
  | .record _ fields, value => .struct (fields.toValues value)
  | .tuple parts, value => .tuple (parts.toValues value)
  | .union _ variants _, value => variants.toValue value
  | .vector element, items => .vec (items.map element.toValue)
  | .optional _, none => .undefined
  | .optional element, some a => if element.tag = .option then .present (element.toValue a) else element.toValue a
  | .nullable _, .null => .null
  | .nullable element, .value a => element.toValue a
  | .retyped host base, value => base.toValue (host.view value)
  | .self, _ => .struct []

def Parts.toValues {α : Type} : Parts Unit α → α → List Value
  | .pair first second, (a, b) => [first.toValue a, second.toValue b]
  | .cons first rest, (a, b) => first.toValue a :: rest.toValues b

def Fields.toValues {names : List String} {α : Type} : Fields Unit names α → α → List (String × Value)
  | .nil, _ => []
  | .cons name layout rest _, (a, b) => (name, layout.toValue a) :: rest.toValues b

def Variants.toValue {tags : List String} {α : Type} : Variants Unit tags α → α → Value
  | .unit tag _ _, .inl _ => .unit tag
  | .unit _ rest _, .inr b => rest.toValue b
  | .payload tag layout _ _, .inl a => .tagged tag (layout.toValue a)
  | .payload _ _ rest _, .inr b => rest.toValue b

end

/-- Two results are the same if images are taken in the second and type names are left out of errors. -/
inductive Agree {α β : Type} (image : α → β) : Except ReadError α → Except ReadError β → Prop where
  | ok (a : α) : Agree image (.ok a) (.ok (image a))
  | error {e f : ReadError} (h : e.unnamed = f.unnamed) : Agree image (.error e) (.error f)

namespace Reader

variable {α β γ δ : Type}

/-- On every buffer both readers come to the same result and leave the same buffer. -/
def Simulates (image : α → β) (reader : Reader α) (other : Reader β) : Prop :=
  ∀ b, Agree image (reader b).1 (other b).1 ∧ (reader b).2 = (other b).2

theorem simulates_pure (image : α → β) (a : α) : Simulates image (pure a) (pure (image a)) :=
  fun _ => ⟨.ok a, rfl⟩

theorem simulates_fail {image : α → β} {e f : ReadError} (h : e.unnamed = f.unnamed) :
    Simulates image (fail e) (fail f) :=
  fun _ => ⟨.error h, rfl⟩

theorem Simulates.bind {image : α → β} {image' : γ → δ} {reader : Reader α} {other : Reader β}
    {next : α → Reader γ} {next' : β → Reader δ} (h : Simulates image reader other)
    (hnext : ∀ a, Simulates image' (next a) (next' (image a))) :
    Simulates image' (reader >>= next) (other >>= next') := by
  intro b
  obtain ⟨hagree, hafter⟩ := h b
  rcases hreader : reader b with ⟨result, after⟩
  rcases hother : other b with ⟨result', after'⟩
  rw [hreader, hother] at hagree hafter
  obtain rfl : after = after' := hafter
  cases hagree with
  | ok a =>
    rw [bind_ok hreader, bind_ok hother]
    exact hnext a after
  | error he =>
    rw [bind_error hreader, bind_error hother]
    exact ⟨.error he, rfl⟩

theorem simulates_refl (reader : Reader α) : Simulates id reader reader := by
  intro b
  refine ⟨?_, rfl⟩
  cases (reader b).1 with
  | ok a => exact .ok a
  | error e => exact .error rfl

theorem bind_pure_self (reader : Reader α) : (reader >>= fun a => pure a) = reader := by
  funext b
  rcases hreader : reader b with ⟨result, after⟩
  cases result with
  | ok a => exact bind_ok hreader
  | error e => exact bind_error hreader

/-- The second reader may go on where the first has come to its end. -/
theorem Simulates.bind_right {image : α → β} {image' : α → δ} {reader : Reader α} {other : Reader β}
    {next : β → Reader δ} (h : Simulates image reader other) (hnext : ∀ a, Simulates image' (pure a) (next (image a))) :
    Simulates image' reader (other >>= next) := by
  have hbind : Simulates image' (reader >>= fun a => pure a) (other >>= next) := h.bind hnext
  rwa [bind_pure_self] at hbind

/-- A reader is simulated by itself followed by the image. -/
theorem simulates_map (reader : Reader α) (image : α → β) :
    Simulates image reader (reader >>= fun a => pure (image a)) :=
  (simulates_refl reader).bind_right fun a => simulates_pure image a

/-- The first reader may go on to another type as long as the images stay the same. -/
theorem Simulates.map {image : α → β} {image' : γ → β} {reader : Reader α} {other : Reader β} {f : α → γ}
    (h : Simulates image reader other) (himage : ∀ a, image' (f a) = image a) :
    Simulates image' (reader >>= fun a => pure (f a)) other := by
  have hbind : Simulates image' (reader >>= fun a => pure (f a)) (other >>= fun v => pure v) := by
    refine h.bind ?_
    intro a
    rw [← himage]
    exact simulates_pure image' (f a)
  rwa [bind_pure_self] at hbind

theorem Simulates.times {image : α → β} {element : Reader α} {other : Reader β} (h : Simulates image element other)
    (n : Nat) : Simulates (List.map image) (times element n) (times other n) := by
  induction n with
  | zero => exact simulates_pure (List.map image) []
  | succ n ih =>
    refine h.bind ?_
    intro a
    refine ih.bind ?_
    intro rest
    exact simulates_pure (List.map image) (a :: rest)

theorem Simulates.seq {image : α → β} {element : Reader α} {other : Reader β} (h : Simulates image element other) :
    Simulates (List.map image) (seq element) (seq other) :=
  (simulates_refl frame).bind fun count => h.times count

theorem Simulates.opt {image : α → β} {element : Reader α} {other : Reader β} (h : Simulates image element other) :
    Simulates (Option.map image) (opt element) (opt other) := by
  refine (simulates_refl mark).bind ?_
  intro present
  cases present with
  | false => exact simulates_pure (Option.map image) none
  | true =>
    refine h.bind ?_
    intro a
    exact simulates_pure (Option.map image) (some a)

/-- Both readers leave the same number of bytes over, so they also agree where leftover bytes are an error. -/
theorem Simulates.decode {image : α → β} {reader : Reader α} {other : Reader β} (h : Simulates image reader other)
    (leftover : Leftover) (bs : List UInt8) : Agree image (reader.decode leftover bs) (other.decode leftover bs) := by
  obtain ⟨hagree, hafter⟩ := h (.ofBytes .little bs)
  rcases hreader : reader (.ofBytes .little bs) with ⟨result, after⟩
  rcases hother : other (.ofBytes .little bs) with ⟨result', after'⟩
  rw [hreader, hother] at hagree hafter
  obtain rfl : after = after' := hafter
  cases hagree with
  | error he =>
    simp only [Reader.decode, hreader, hother]
    exact .error he
  | ok a =>
    simp only [Reader.decode, hreader, hother]
    cases after.finish leftover with
    | ok _ => exact .ok a
    | error e => exact .error rfl

end Reader

theorem Variants.length_schemasWith {tags : List String} {α : Type} {Self : Type} (self : Schema)
    (variants : Variants Self tags α) : (variants.schemasWith self).length = tags.length := by
  match variants with
  | .nil => rfl
  | .unit _ rest _ => exact congrArg (· + 1) (rest.length_schemasWith self)
  | .payload _ _ rest _ => exact congrArg (· + 1) (rest.length_schemasWith self)

open Reader

mutual

/-- By induction on the layout, one case a constructor. -/
theorem Layout.read_simulates {α : Type} :
    (layout : Layout Unit α) →
      Simulates layout.toValue (layout.read Codec.unit.read) (layout.schemaWith (.struct [])).read
  | .bool => simulates_map mark Value.bool
  | .str => simulates_map Reader.str Value.str
  | .u8 => simulates_map Reader.u8 _
  | .u16 => simulates_map Reader.u16 _
  | .u32 => simulates_map Reader.u32 _
  | .i32 => simulates_map Reader.i32 _
  | .f32 => simulates_map Reader.f32 _
  | .f64 => simulates_map Reader.f64 Value.float
  | .enumeration e => by
    refine (simulates_refl Reader.u32).bind ?_
    intro index
    by_cases h : index.toNat < e.names.length
    · have hstatic : e.ofIndex? index.toNat = some ⟨index.toNat, h⟩ := dif_pos h
      have hdynamic : e.names[(id index).toNat]? = some e.names[index.toNat] := List.getElem?_eq_getElem h
      rw [hstatic, hdynamic]
      exact simulates_pure (Layout.enumeration e).toValue _
    · have hstatic : e.ofIndex? index.toNat = none := dif_neg h
      have hdynamic : e.names[(id index).toNat]? = none := List.getElem?_eq_none (Nat.le_of_not_lt h)
      rw [hstatic, hdynamic]
      exact simulates_fail rfl
  | .record _ fields => by
    refine fields.read_simulates.bind_right ?_
    intro value
    exact simulates_pure _ value
  | .tuple parts => by
    refine parts.read_simulates.bind_right ?_
    intro value
    exact simulates_pure _ value
  | .union name variants bounded => by
    refine (simulates_refl Reader.u32).bind ?_
    intro index
    have hcount := variants.length_schemasWith (.struct [])
    refine variants.read_simulates ?_ index.toNat
    rw [hcount]
    rfl
  | .vector element => by
    have h : Simulates _ (Reader.seq (element.read Codec.unit.read)) _ := element.read_simulates.seq
    refine h.bind_right ?_
    intro items
    exact simulates_pure _ items
  | .optional element => by
    have h : Simulates _ (Reader.opt (element.read Codec.unit.read)) _ := element.read_simulates.opt
    refine h.bind_right ?_
    intro value
    cases value with
    | none => exact simulates_pure _ none
    | some a =>
      have hvalue : element.optional.toValue (some a) =
          (element.schemaWith (.struct [])).presented (element.toValue a) := (Schema.presented_eq _ _).symm
      show Simulates _ (pure (some a)) (pure ((element.schemaWith (.struct [])).presented (element.toValue a)))
      rw [← hvalue]
      exact simulates_pure _ (some a)
  | .nullable element => by
    have h : Simulates _ (Reader.opt (element.read Codec.unit.read)) _ := element.read_simulates.opt
    refine h.bind ?_
    intro value
    cases value with
    | none => exact simulates_pure element.nullable.toValue .null
    | some a => exact simulates_pure element.nullable.toValue (.value a)
  | .retyped host base => by
    refine base.read_simulates.map ?_
    intro a
    show base.toValue (host.view (host.make a)) = base.toValue a
    rw [host.view_make]
  | .self => simulates_pure (Layout.self).toValue ()

theorem Parts.read_simulates {α : Type} :
    (parts : Parts Unit α) → Simulates parts.toValues (parts.read Codec.unit.read)
      (Schema.readComponents (parts.schemasWith (.struct [])))
  | .pair first second => by
    have hlast : Simulates (fun b => [second.toValue b]) (second.read Codec.unit.read)
        (Schema.readComponents [second.schemaWith (.struct [])]) := by
      refine second.read_simulates.bind_right ?_
      intro b
      exact simulates_pure (fun b => [second.toValue b]) b
    refine first.read_simulates.bind ?_
    intro a
    refine hlast.bind ?_
    intro b
    exact simulates_pure (Parts.pair first second).toValues (a, b)
  | .cons first rest => by
    refine first.read_simulates.bind ?_
    intro a
    refine rest.read_simulates.bind ?_
    intro b
    exact simulates_pure (Parts.cons first rest).toValues (a, b)

theorem Fields.read_simulates {names : List String} {α : Type} :
    (fields : Fields Unit names α) → Simulates fields.toValues (fields.read Codec.unit.read)
      (Schema.readFields (fields.schemasWith (.struct [])))
  | .nil => simulates_pure Fields.nil.toValues ()
  | .cons name layout rest fresh => by
    refine layout.read_simulates.bind ?_
    intro a
    refine rest.read_simulates.bind ?_
    intro b
    exact simulates_pure (Fields.cons name layout rest fresh).toValues (a, b)

theorem Variants.read_simulates {tags : List String} {α : Type} {beyond : ReadError} {index count : Nat} :
    (variants : Variants Unit tags α) → beyond.unnamed = (ReadError.badDiscriminant "Union" index count).unnamed →
      (skip : Nat) → Simulates variants.toValue (variants.read Codec.unit.read beyond skip)
        (Schema.readVariant index count (variants.schemasWith (.struct [])) skip)
  | .nil, h, _ => simulates_fail h
  | .unit tag rest fresh, _, 0 => simulates_pure (Variants.unit tag rest fresh).toValue (.inl ())
  | .unit _ rest _, h, skip + 1 => by
    refine (rest.read_simulates h skip).map ?_
    exact fun _ => rfl
  | .payload tag layout rest fresh, _, 0 => by
    refine layout.read_simulates.bind ?_
    intro a
    exact simulates_pure (Variants.payload tag layout rest fresh).toValue (.inl a)
  | .payload _ _ rest _, h, skip + 1 => by
    refine (rest.read_simulates h skip).map ?_
    exact fun _ => rfl

end

/-- On every buffer, and on every byte string that is to be one value, a layout and its schema come to the same result.
-/
theorem Layout.schema_simulates {α : Type} (layout : Layout Unit α) :
    (∀ b : Buffer, Agree layout.toValue (layout.codec.read b).1 (layout.schema.read b).1 ∧
      (layout.codec.read b).2 = (layout.schema.read b).2) ∧
    ∀ (leftover : Leftover) (bs : List UInt8),
      Agree layout.toValue (layout.codec.decode leftover bs) (layout.schema.decode leftover bs) :=
  ⟨layout.read_simulates, layout.read_simulates.decode⟩

end WireFormat
