import WireFormat.Layout.Recursive
import WireFormat.Proofs.Descriptors
import WireFormat.Schema.Read

/-!
# What all readers have in common

Every reader is put together from numbers and framed runs of bytes, and fails by itself only at a frame, a string or a
choice. Main statements: a property that numbers, frames, strings and choices have, and that passes from readers to what
follows from one another, is one of the reader of every schema, of every layout whose `self` is read by a reader that has
it, and of every recursive layout cut off at some level; and so is a property that framed runs and all failures have.
-/
namespace WireFormat

namespace Reader

variable {α β : Type}

/-- A length frame and as many bytes as it says. -/
def framed : Reader (List UInt8) := do
  let length ← frame
  take length

/-- A property that numbers have and that passes from readers to what follows from one another. -/
structure Sequential (holds : ∀ {α : Type}, Reader α → Prop) : Prop where
  pure : ∀ {α : Type} (a : α), holds (pure a)
  bind : ∀ {α β : Type} {reader : Reader α} {next : α → Reader β}, holds reader → (∀ a, holds (next a)) →
    holds (reader >>= next)
  number : ∀ {width : Nat}, 0 < width → holds (number width)

/-- What is asked of a property of readers so that all of them have it. -/
structure Closed (holds : ∀ {α : Type}, Reader α → Prop) : Prop extends Sequential @holds where
  fail : ∀ {α : Type} (e : ReadError), holds (Reader.fail e : Reader α)
  framed : holds framed

/-- What is asked of a property of readers so that those have it that offer no other choices than the given ones. It
need not be one of every failure. -/
structure Checked (choices : List (String × Nat)) (holds : ∀ {α : Type}, Reader α → Prop) : Prop
    extends Sequential @holds where
  frame : holds frame
  str : holds str
  choice : ∀ {α : Type} {typeName : String} {count : Nat} {next : UInt32 → Reader α},
    (typeName, count) ∈ choices →
    (∀ index, index.toNat < count → holds (next index)) →
    (∀ index, count ≤ index.toNat → next index = fail (.badDiscriminant typeName index.toNat count)) →
    holds (u32 >>= next)

theorem bind_assoc {γ : Type} (reader : Reader α) (next : α → Reader β) (last : β → Reader γ) :
    reader >>= next >>= last = reader >>= fun a => next a >>= last := by
  funext b
  rcases hreader : reader b with ⟨result, between⟩
  cases result <;> simp only [bind, hreader]

theorem fail_bind (e : ReadError) (next : α → Reader β) : (fail e >>= next) = fail e := rfl

theorem str_eq : str = framed >>= fun bs =>
    match Utf8.decode bs with
    | .ok s => return s
    | .error fault => fail (.invalidUtf8 fault) :=
  (bind_assoc frame take _).symm

variable {holds : ∀ {α : Type}, Reader α → Prop}

namespace Sequential

theorem map (h : Sequential holds) {reader : Reader α} (hreader : holds reader) (f : α → β) :
    holds (reader >>= fun a => return f a) :=
  h.bind hreader fun a => h.pure (f a)

theorem u8 (h : Sequential holds) : holds u8 :=
  h.map (h.number (by omega)) _

theorem u16 (h : Sequential holds) : holds u16 :=
  h.map (h.number (by omega)) _

theorem u32 (h : Sequential holds) : holds u32 :=
  h.map (h.number (by omega)) _

theorem i32 (h : Sequential holds) : holds i32 :=
  h.map h.u32 _

theorem f32 (h : Sequential holds) : holds f32 :=
  h.map h.u32 _

theorem f64 (h : Sequential holds) : holds f64 :=
  h.map (h.number (by omega)) _

theorem mark (h : Sequential holds) : holds mark :=
  h.map h.u8 _

theorem times (h : Sequential holds) {element : Reader α} (helement : holds element) (n : Nat) :
    holds (times element n) := by
  induction n with
  | zero => exact h.pure []
  | succ n ih => exact h.bind helement fun a => h.map ih (a :: ·)

theorem opt (h : Sequential holds) {element : Reader α} (helement : holds element) : holds (opt element) := by
  refine h.bind h.mark ?_
  intro present
  cases present with
  | false => exact h.pure none
  | true => exact h.map helement some

end Sequential

theorem Checked.seq {choices : List (String × Nat)} (h : Checked choices holds) {element : Reader α}
    (helement : holds element) : holds (seq element) :=
  h.bind h.frame fun count => h.times helement count

namespace Closed

theorem frame (h : Closed holds) : holds frame := by
  refine h.bind (h.number (by omega)) ?_
  intro n
  split
  · exact h.pure n
  · exact h.fail _

theorem str (h : Closed holds) : holds str := by
  rw [str_eq]
  refine h.bind h.framed ?_
  intro bs
  split
  · exact h.pure _
  · exact h.fail _

theorem checked (h : Closed holds) (choices : List (String × Nat)) : Checked choices holds where
  toSequential := h.toSequential
  frame := h.frame
  str := h.str
  choice {_ _ count _} _ hnext hbeyond := by
    refine h.bind h.u32 fun index => ?_
    by_cases hlt : index.toNat < count
    · exact hnext index hlt
    · rw [hbeyond index (Nat.le_of_not_lt hlt)]
      exact h.fail _

end Closed

end Reader

variable {holds : ∀ {α : Type}, Reader α → Prop} {choices : List (String × Nat)}

namespace Schema

open Reader

theorem readFields_checked (h : Checked choices holds) {fields : List (String × Schema)}
    (hfields : ∀ schema ∈ fields.map Prod.snd, holds schema.read) : holds (readFields fields) := by
  induction fields with
  | nil => exact h.pure []
  | cons field rest ih =>
    have hrest := ih fun schema hmem => hfields schema (List.mem_cons_of_mem _ hmem)
    exact h.bind (hfields field.2 List.mem_cons_self) fun value => h.map hrest _

theorem readComponents_checked (h : Checked choices holds) {components : List Schema}
    (hcomponents : ∀ schema ∈ components, holds schema.read) : holds (readComponents components) := by
  induction components with
  | nil => exact h.pure []
  | cons schema rest ih =>
    have hrest := ih fun schema hmem => hcomponents schema (List.mem_cons_of_mem _ hmem)
    exact h.bind (hcomponents schema List.mem_cons_self) fun value => h.map hrest _

theorem readVariant_checked (h : Checked choices holds) {index count skip : Nat}
    {variants : List (String × Option Schema)}
    (hvariants : ∀ schema ∈ variants.filterMap Prod.snd, holds schema.read)
    (hskip : skip < variants.length) : holds (readVariant index count variants skip) := by
  induction variants generalizing skip with
  | nil => exact absurd hskip (Nat.not_lt_zero _)
  | cons variant rest ih =>
    obtain ⟨tag, payload⟩ := variant
    cases payload with
    | none =>
      cases skip with
      | zero => exact h.pure _
      | succ skip => exact ih hvariants (Nat.lt_of_succ_lt_succ hskip)
    | some schema =>
      cases skip with
      | zero => exact h.map (hvariants schema List.mem_cons_self) _
      | succ skip =>
        exact ih (fun schema hmem => hvariants schema (List.mem_cons_of_mem _ hmem)) (Nat.lt_of_succ_lt_succ hskip)

theorem readVariant_of_le {index count skip : Nat} {variants : List (String × Option Schema)}
    (h : variants.length ≤ skip) :
    readVariant index count variants skip = fail (.badDiscriminant "Union" index count) := by
  induction variants generalizing skip with
  | nil => cases skip <;> rfl
  | cons variant rest ih =>
    obtain ⟨tag, payload⟩ := variant
    cases skip with
    | zero => exact absurd h (Nat.not_succ_le_zero _)
    | succ skip => cases payload <;> exact ih (Nat.le_of_succ_le_succ h)

theorem read_checked (h : Checked choices holds) (schema : Schema) (hchoices : schema.choices ⊆ choices) :
    holds schema.read := by
  induction schema using induction_on_parts with
  | step schema ih =>
    replace ih : ∀ part ∈ schema.parts, holds part.read := fun part hpart =>
      ih part hpart fun _ hchoice => hchoices (choices_subset_of_mem_parts hpart hchoice)
    cases schema with
    | bool => exact h.map h.mark _
    | str => exact h.map h.str _
    | u8 => exact h.map h.u8 _
    | u16 => exact h.map h.u16 _
    | u32 => exact h.map h.u32 _
    | i32 => exact h.map h.i32 _
    | f32 => exact h.map h.f32 _
    | f64 => exact h.map h.f64 _
    | enum names =>
      refine h.choice (hchoices (mem_choices_of_choice? rfl)) ?_ ?_
      · intro index hlt
        simp only [List.getElem?_eq_getElem hlt]
        exact h.pure _
      · intro index hge
        simp only [List.getElem?_eq_none hge]
    | struct fields => exact h.map (readFields_checked h ih) _
    | tuple components => exact h.map (readComponents_checked h ih) _
    | union variants =>
      refine h.choice (hchoices (mem_choices_of_choice? rfl)) ?_ ?_
      · exact fun index hlt => readVariant_checked h ih hlt
      · exact fun index hge => readVariant_of_le hge
    | vec element => exact h.map (h.seq (ih element List.mem_cons_self)) _
    | option element =>
      refine h.bind (h.opt (ih element List.mem_cons_self)) ?_
      intro value
      split
      · exact h.pure _
      · exact h.pure _
    | nullable element => exact h.map (h.opt (ih element List.mem_cons_self)) _

theorem read_closed (h : Closed holds) (schema : Schema) : holds schema.read :=
  schema.read_checked (h.checked schema.choices) (List.Subset.refl _)

end Schema

open Reader

variable {Self : Type} {self : Reader Self}

theorem Enumeration.ofIndex?_of_le {e : Enumeration} {index : Nat} (h : e.names.length ≤ index) :
    e.ofIndex? index = none :=
  dif_neg (Nat.not_lt_of_le h)

theorem Variants.read_of_le {tags : List String} {α : Type} (beyond : ReadError) :
    (variants : Variants Self tags α) → (skip : Nat) → tags.length ≤ skip →
      variants.read self beyond skip = fail beyond
  | .nil, _, _ => rfl
  | .unit _ rest _, skip + 1, h | .payload _ _ rest _, skip + 1, h => by
    rw [Variants.read, rest.read_of_le beyond skip (Nat.le_of_succ_le_succ h)]
    exact fail_bind beyond _

mutual

/-- By induction on the layout, one case a constructor. -/
theorem Layout.read_checked {α : Type} (h : Checked choices holds) (hself : holds self) :
    (layout : Layout Self α) → layout.choices ⊆ choices → holds (layout.read self)
  | .bool, _ => h.mark
  | .str, _ => h.str
  | .u8, _ => h.u8
  | .u16, _ => h.u16
  | .u32, _ => h.u32
  | .i32, _ => h.i32
  | .f32, _ => h.f32
  | .f64, _ => h.f64
  | .enumeration e, hchoices => by
    refine h.choice (hchoices List.mem_cons_self) ?_ ?_
    · intro index hlt
      simp only [e.ofIndex?_val ⟨index.toNat, hlt⟩]
      exact h.pure _
    · intro index hge
      simp only [Enumeration.ofIndex?_of_le hge]
  | .record _ fields, hchoices => fields.read_checked h hself hchoices
  | .tuple parts, hchoices => parts.read_checked h hself hchoices
  | .union name variants _, hchoices => by
    obtain ⟨hmem, hchoices⟩ := List.cons_subset.1 hchoices
    refine h.choice hmem ?_ ?_
    · exact fun index hlt => variants.read_checked h hself hchoices _ index.toNat hlt
    · exact fun index hge => variants.read_of_le _ index.toNat hge
  | .vector element, hchoices => h.seq (element.read_checked h hself hchoices)
  | .optional element, hchoices => h.opt (element.read_checked h hself hchoices)
  | .nullable element, hchoices => h.map (h.opt (element.read_checked h hself hchoices)) _
  | .retyped host base, hchoices => h.map (base.read_checked h hself hchoices) host.make
  | .self, _ => hself

theorem Parts.read_checked {α : Type} (h : Checked choices holds) (hself : holds self) :
    (parts : Parts Self α) → parts.choices ⊆ choices → holds (parts.read self)
  | .pair first rest, hchoices | .cons first rest, hchoices => by
    obtain ⟨hfirst, hrest⟩ := List.append_subset.1 hchoices
    exact h.bind (first.read_checked h hself hfirst) fun _ => h.map (rest.read_checked h hself hrest) _

theorem Fields.read_checked {names : List String} {α : Type} (h : Checked choices holds) (hself : holds self) :
    (fields : Fields Self names α) → fields.choices ⊆ choices → holds (fields.read self)
  | .nil, _ => h.pure ()
  | .cons _ layout rest _, hchoices => by
    obtain ⟨hlayout, hrest⟩ := List.append_subset.1 hchoices
    exact h.bind (layout.read_checked h hself hlayout) fun _ => h.map (rest.read_checked h hself hrest) _

theorem Variants.read_checked {tags : List String} {α : Type} (h : Checked choices holds) (hself : holds self) :
    (variants : Variants Self tags α) → variants.choices ⊆ choices → (beyond : ReadError) → (skip : Nat) →
      skip < tags.length → holds (variants.read self beyond skip)
  | .nil, _, _, _, hskip => absurd hskip (Nat.not_lt_zero _)
  | .unit _ _ _, _, _, 0, _ => h.pure _
  | .unit _ rest _, hchoices, beyond, skip + 1, hskip =>
    h.map (rest.read_checked h hself hchoices beyond skip (Nat.lt_of_succ_lt_succ hskip)) Sum.inr
  | .payload _ layout _ _, hchoices, _, 0, _ =>
    h.map (layout.read_checked h hself (List.append_subset.1 hchoices).1) Sum.inl
  | .payload _ _ rest _, hchoices, beyond, skip + 1, hskip =>
    h.map (rest.read_checked h hself (List.append_subset.1 hchoices).2 beyond skip (Nat.lt_of_succ_lt_succ hskip)) Sum.inr

end

theorem Layout.read_closed {α : Type} (h : Closed holds) (hself : holds self) (layout : Layout Self α) :
    holds (layout.read self) :=
  layout.read_checked (h.checked layout.choices) hself (List.Subset.refl _)

theorem Recursive.readWithin_checked {α : Type} (h : Checked choices holds) (layout : Recursive α)
    (hchoices : layout.body.choices ⊆ choices) {bottom : Reader α} (hbottom : holds bottom) (levels : Nat) :
    holds (layout.readWithin bottom levels) := by
  induction levels with
  | zero => exact hbottom
  | succ levels ih => exact layout.body.read_checked h ih hchoices

theorem Recursive.readWithin_closed {α : Type} (h : Closed holds) (layout : Recursive α) (e : ReadError)
    (levels : Nat) : holds (layout.readWithin (fail e) levels) :=
  layout.readWithin_checked (h.checked layout.body.choices) (List.Subset.refl _) (h.fail e) levels

end WireFormat
