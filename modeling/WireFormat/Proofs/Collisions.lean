import Mathlib
import WireFormat.Proofs.Reproduction

/-!
# What collisions lose

Where a wrapper collides with what it wraps, some present value has the image of an absent one, and its schema writes
it in fewer bytes than its layout does. Main statement: the bytes of all values of a layout are reproduced by its
schema if no wrapper in it collides, and, as long as every enumeration and union in it has a variant, only then.
-/
namespace WireFormat

open Schema

/-- The values that a schema is to reproduce: short strings and sequences, and no single precision NaN. -/
abbrev Layout.Plain {α : Type} (layout : Layout Unit α) (value : α) : Prop :=
  layout.Within .plain (fun _ => True) value

/-- An absence or a null that a layout shows is the image of a value, which takes at least one byte. -/
theorem Layout.exists_of_shows {α : Type} {kind : Kind} (hkind : kind = .undefined ∨ kind = .null)
    (layout : Layout Unit α) (h : (layout.schemaWith (.struct [])).Shows kind) :
    ∃ value, layout.Plain value ∧ (layout.toValue value).kind = kind ∧
      0 < lengthOf (layout.pieces Codec.unit.pieces value) := by
  cases layout with
  | optional element =>
    rcases h with rfl | h
    · exact ⟨none, Layout.within_none, rfl, Nat.one_pos⟩
    · split at h
      · rcases hkind with rfl | rfl <;> cases h
      · obtain ⟨a, hplain, hvalue, hlength⟩ := element.exists_of_shows hkind h
        refine ⟨some a, Layout.within_some hplain, ?_, Nat.lt_add_right _ Nat.one_pos⟩
        rw [Layout.toValue_some, presented_eq, if_neg ‹_›]
        exact hvalue
  | nullable element =>
    rcases h with rfl | h
    · exact ⟨.null, Layout.within_null, rfl, Nat.one_pos⟩
    · obtain ⟨a, hplain, hvalue, hlength⟩ := element.exists_of_shows hkind h
      exact ⟨.value a, Layout.within_value hplain, hvalue, Nat.lt_add_right _ Nat.one_pos⟩
  | retyped host base =>
    obtain ⟨a, hplain, hvalue, hlength⟩ := base.exists_of_shows hkind h
    refine ⟨host.make a, ?_, ?_, ?_⟩
    · rwa [Layout.Plain, Layout.Within, host.view_make]
    · rwa [Layout.toValue, host.view_make]
    · rwa [Layout.pieces, host.view_make]
  | _ => rcases hkind with rfl | rfl <;> simp [Layout.schemaWith, Shows] at h

/-- An enumeration or a union has at least one variant; without one it has no values. -/
def Schema.declares : Schema → Bool
  | .enum names => !names.isEmpty
  | .union variants => !variants.isEmpty
  | _ => true

theorem Enumeration.pos_of_declares {e : Enumeration} (h : (Schema.enum e.names).declares = true) :
    0 < e.names.length := by
  cases hnames : e.names with
  | nil => simp [Schema.declares, hnames] at h
  | cons name names => exact Nat.succ_pos _

mutual

/-- The least value of a layout is reproduced, whatever its wrappers. -/
theorem Layout.exists_reproduced {α : Type} :
    (layout : Layout Unit α) → (∀ node ∈ (layout.schemaWith (.struct [])).nodes, node.declares = true) →
      ∃ value, layout.Plain value ∧ layout.Reproduces value
  | .bool, _ => ⟨false, trivial, rfl⟩
  | .str, _ => by
    refine ⟨"", ?_, rfl⟩
    show (Utf8.encode "").length < 2 ^ 32
    decide
  | .u8, _ => ⟨0, trivial, rfl⟩
  | .u16, _ => ⟨0, trivial, rfl⟩
  | .u32, _ => ⟨0, trivial, rfl⟩
  | .i32, _ => ⟨0, trivial, rfl⟩
  | .f32, _ => ⟨⟨0⟩, rfl, rfl⟩
  | .f64, _ => ⟨⟨0⟩, trivial, rfl⟩
  | .enumeration e, h => by
    have hpos : 0 < e.names.length := Enumeration.pos_of_declares (h _ (mem_nodes _))
    exact ⟨⟨0, hpos⟩, trivial, write_enum e.distinct hpos⟩
  | .record _ fields, h => by
    obtain ⟨value, hplain, hfields⟩ := fields.exists_reproduced fun node hnode => h node (List.mem_cons_of_mem _ hnode)
    exact ⟨value, hplain, Layout.reproduces_record hfields⟩
  | .tuple parts, h => by
    obtain ⟨value, hplain, hparts⟩ := parts.exists_reproduced fun node hnode => h node (List.mem_cons_of_mem _ hnode)
    exact ⟨value, hplain, Layout.reproduces_tuple hparts⟩
  | .union _ variants _, h => by
    obtain ⟨value, hplain, hvariants⟩ :=
      variants.exists_reproduced (h _ (mem_nodes _)) fun node hnode => h node (List.mem_cons_of_mem _ hnode)
    exact ⟨value, hplain, Layout.reproduces_union hvariants⟩
  | .vector _, _ => by
    refine ⟨[], ⟨?_, fun _ ha => absurd ha List.not_mem_nil⟩, rfl⟩
    show 0 < 2 ^ 32
    omega
  | .optional _, _ => ⟨none, Layout.within_none, rfl⟩
  | .nullable _, _ => ⟨.null, Layout.within_null, rfl⟩
  | .retyped host base, h => by
    obtain ⟨a, hplain, hbase⟩ := base.exists_reproduced h
    refine ⟨host.make a, ?_, Layout.reproduces_retyped hbase⟩
    rwa [Layout.Plain, Layout.Within, host.view_make]
  | .self, _ => ⟨(), trivial, rfl⟩

theorem Parts.exists_reproduced {α : Type} :
    (parts : Parts Unit α) → (∀ node ∈ nodesOfComponents (parts.schemasWith (.struct [])), node.declares = true) →
      ∃ value, parts.Within .plain (fun _ => True) value ∧ parts.Reproduces value
  | .pair first second, h => by
    obtain ⟨a, ha, hfirst⟩ := first.exists_reproduced fun node hnode => h node (List.mem_append_left _ hnode)
    obtain ⟨b, hb, hsecond⟩ := second.exists_reproduced fun node hnode =>
      h node (List.mem_append_right _ (List.mem_append_left _ hnode))
    exact ⟨(a, b), ⟨ha, hb⟩, Parts.reproduces_pair hfirst hsecond⟩
  | .cons first rest, h => by
    obtain ⟨a, ha, hfirst⟩ := first.exists_reproduced fun node hnode => h node (List.mem_append_left _ hnode)
    obtain ⟨b, hb, hrest⟩ := rest.exists_reproduced fun node hnode => h node (List.mem_append_right _ hnode)
    exact ⟨(a, b), ⟨ha, hb⟩, Parts.reproduces_cons hfirst hrest⟩

theorem Fields.exists_reproduced {names : List String} {α : Type} :
    (fields : Fields Unit names α) → (∀ node ∈ nodesOfFields (fields.schemasWith (.struct [])), node.declares = true) →
      ∃ value, fields.Within .plain (fun _ => True) value ∧ fields.Reproduces value
  | .nil, _ => ⟨(), trivial, rfl⟩
  | .cons _ layout rest _, h => by
    obtain ⟨a, ha, hfirst⟩ := layout.exists_reproduced fun node hnode => h node (List.mem_append_left _ hnode)
    obtain ⟨b, hb, hrest⟩ := rest.exists_reproduced fun node hnode => h node (List.mem_append_right _ hnode)
    exact ⟨(a, b), ⟨ha, hb⟩, Fields.reproduces_cons hfirst hrest⟩

theorem Variants.exists_reproduced {tags : List String} {α : Type} :
    (variants : Variants Unit tags α) → (Schema.union (variants.schemasWith (.struct []))).declares = true →
      (∀ node ∈ nodesOfVariants (variants.schemasWith (.struct [])), node.declares = true) →
      ∃ value, variants.Within .plain (fun _ => True) value ∧ variants.Reproduces value
  | .nil, hdeclares, _ => nomatch hdeclares
  | .unit _ _ _, _, _ => ⟨.inl (), trivial, rfl⟩
  | .payload _ layout _ _, _, h => by
    obtain ⟨a, ha, hfirst⟩ := layout.exists_reproduced fun node hnode => h node (List.mem_append_left _ hnode)
    exact ⟨.inl a, ha, hfirst⟩

end

/-- The image of the value is written in as many bytes as the value takes. -/
def Layout.Fits {α : Type} (layout : Layout Unit α) (value : α) : Prop :=
  ((layout.schemaWith (.struct [])).write (layout.toValue value)).Takes
    (lengthOf (layout.pieces Codec.unit.pieces value))

def Parts.Fits {α : Type} (parts : Parts Unit α) (value : α) : Prop :=
  (writeComponents (parts.schemasWith (.struct [])) (parts.toValues value)).Takes
    (lengthOf (parts.pieces Codec.unit.pieces value))

def Fields.Fits {names : List String} {α : Type} (fields : Fields Unit names α) (value : α) : Prop :=
  (writeComponents ((fields.schemasWith (.struct [])).map Prod.snd) ((fields.toValues value).map Prod.snd)).Takes
    (lengthOf (fields.pieces Codec.unit.pieces value))

def Variants.Fits {tags : List String} {α : Type} (variants : Variants Unit tags α) (value : α) : Prop :=
  (variants.writePayload value).Takes (lengthOf (variants.payloadPieces Codec.unit.pieces value))

section

variable {α β : Type} {names tags : List String}

/-- Next to a component that is reproduced, whether all fits is decided by the other one. -/
theorem Parts.fits_pair_left {first : Layout Unit α} {second : Layout Unit β} {a : α} {b : β}
    (hb : second.Reproduces b) : (Parts.pair first second).Fits (a, b) ↔ first.Fits a := by
  rw [Layout.Reproduces] at hb
  rw [Parts.Fits, Parts.schemasWith, Parts.toValues, writeComponents, writeComponents_single, hb, Parts.pieces,
    lengthOf_append, Written.takes_andThen_done, Layout.Fits]

theorem Parts.fits_pair_right {first : Layout Unit α} {second : Layout Unit β} {a : α} {b : β}
    (ha : first.Reproduces a) : (Parts.pair first second).Fits (a, b) ↔ second.Fits b := by
  rw [Layout.Reproduces] at ha
  rw [Parts.Fits, Parts.schemasWith, Parts.toValues, writeComponents, writeComponents_single, ha, Parts.pieces,
    lengthOf_append, Written.andThen_done, Written.takes_after, Layout.Fits]

theorem Parts.fits_cons_left {first : Layout Unit α} {rest : Parts Unit β} {a : α} {b : β}
    (hb : rest.Reproduces b) : (Parts.cons first rest).Fits (a, b) ↔ first.Fits a := by
  rw [Parts.Reproduces] at hb
  rw [Parts.Fits, Parts.schemasWith, Parts.toValues, writeComponents, hb, Parts.pieces, lengthOf_append,
    Written.takes_andThen_done, Layout.Fits]

theorem Parts.fits_cons_right {first : Layout Unit α} {rest : Parts Unit β} {a : α} {b : β}
    (ha : first.Reproduces a) : (Parts.cons first rest).Fits (a, b) ↔ rest.Fits b := by
  rw [Layout.Reproduces] at ha
  rw [Parts.Fits, Parts.schemasWith, Parts.toValues, writeComponents, ha, Parts.pieces, lengthOf_append,
    Written.andThen_done, Written.takes_after, Parts.Fits]

theorem Fields.fits_cons_left {name : String} {layout : Layout Unit α} {rest : Fields Unit names β}
    {fresh : name ∉ names} {a : α} {b : β} (hb : rest.Reproduces b) :
    (Fields.cons name layout rest fresh).Fits (a, b) ↔ layout.Fits a := by
  rw [Fields.Reproduces] at hb
  rw [Fields.Fits, Fields.schemasWith, Fields.toValues, List.map_cons, List.map_cons, writeComponents, hb,
    Fields.pieces, lengthOf_append, Written.takes_andThen_done, Layout.Fits]

theorem Fields.fits_cons_right {name : String} {layout : Layout Unit α} {rest : Fields Unit names β}
    {fresh : name ∉ names} {a : α} {b : β} (ha : layout.Reproduces a) :
    (Fields.cons name layout rest fresh).Fits (a, b) ↔ rest.Fits b := by
  rw [Layout.Reproduces] at ha
  rw [Fields.Fits, Fields.schemasWith, Fields.toValues, List.map_cons, List.map_cons, writeComponents, ha,
    Fields.pieces, lengthOf_append, Written.andThen_done, Written.takes_after, Fields.Fits]

theorem Layout.fits_record {name : String} {fields : Fields Unit names α} {value : α} :
    (Layout.record name fields).Fits value ↔ fields.Fits value := by
  have h : (Schema.struct (fields.schemasWith (.struct []))).write (.struct (fields.toValues value)) = _ :=
    fields.writeFields_toValues value
  rw [Layout.Fits, Layout.schemaWith, Layout.toValue, h, Layout.pieces, Fields.Fits]

theorem Layout.fits_tuple {parts : Parts Unit α} {value : α} :
    (Layout.tuple parts).Fits value ↔ parts.Fits value := by
  have h : (Schema.tuple (parts.schemasWith (.struct []))).write (.tuple (parts.toValues value)) = _ :=
    if_pos (parts.length_toValues value)
  rw [Layout.Fits, Layout.schemaWith, Layout.toValue, h, Layout.pieces, Parts.Fits]

theorem Layout.fits_union {name : String} {variants : Variants Unit tags α} {bounded : tags.length ≤ 0x100000000}
    {value : α} : (Layout.union name variants bounded).Fits value ↔ variants.Fits value := by
  have h := variants.writeUnion_toValue value 0
  rw [Nat.zero_add] at h
  rw [Layout.Fits, Layout.schemaWith, Layout.toValue, write_union, h, Layout.pieces]
  exact Written.takes_after [.index (variants.indexOf value)] _ _

theorem Layout.fits_single {element : Layout Unit α} {a : α} : element.vector.Fits [a] ↔ element.Fits a := by
  have hpieces : (element.vector).pieces Codec.unit.pieces [a] =
      [Piece.frame 1] ++ element.pieces Codec.unit.pieces a := by
    simp [Layout.pieces, Piece.seq]
  rw [Layout.Fits, hpieces, lengthOf_append]
  exact (Written.takes_after [.frame 1] _ _).trans (Written.takes_all_single _ _)

/-- A present value that its optional takes for absent is written without the value. -/
theorem Layout.not_fits_some {element : Layout Unit α} {a : α} (htag : element.tag ≠ .option)
    (hkind : (element.toValue a).kind = .undefined) (hlength : 0 < lengthOf (element.pieces Codec.unit.pieces a)) :
    ¬element.optional.Fits (some a) := by
  have hvalue : element.toValue a = .undefined := by
    cases hv : element.toValue a <;> simp [hv, Value.kind] at hkind
    rfl
  intro h
  rw [Layout.Fits, Layout.toValue, if_neg htag, hvalue] at h
  have hcount : 1 = 1 + lengthOf (element.pieces Codec.unit.pieces a) := h.2
  omega

theorem Layout.not_fits_value {element : Layout Unit α} {a : α} (hkind : (element.toValue a).kind = .null)
    (hlength : 0 < lengthOf (element.pieces Codec.unit.pieces a)) : ¬element.nullable.Fits (.value a) := by
  have hvalue : element.toValue a = .null := by
    cases hv : element.toValue a <;> simp [hv, Value.kind] at hkind
    rfl
  intro h
  rw [Layout.Fits, Layout.toValue, hvalue] at h
  have hcount : 1 = 1 + lengthOf (element.pieces Codec.unit.pieces a) := h.2
  omega

/-- Any other present value is written behind a mark. -/
theorem Layout.fits_some {element : Layout Unit α} {a : α}
    (h : element.tag ≠ .option → ¬(element.schemaWith (.struct [])).Shows .undefined) :
    element.optional.Fits (some a) ↔ element.Fits a := by
  have hshows := element.shows_toValue a
  have hwrite : (Schema.option (element.schemaWith (.struct []))).write
      ((element.schemaWith (.struct [])).presented (element.toValue a)) = _ :=
    write_option_presented (fun htag hkind => h htag (hkind ▸ hshows)) fun htag hkind =>
      h htag (shows_undefined_of_some _ htag (hkind ▸ hshows))
  rw [Layout.Fits, Layout.toValue_some, Layout.schemaWith, hwrite]
  exact Written.takes_after [.mark true] _ _

theorem Layout.fits_value {element : Layout Unit α} {a : α}
    (h : ¬(element.schemaWith (.struct [])).Shows .null) : element.nullable.Fits (.value a) ↔ element.Fits a := by
  have hshows := element.shows_toValue a
  have hwrite : (Schema.nullable (element.schemaWith (.struct []))).write (element.toValue a) = _ :=
    write_nullable fun hkind => h (hkind ▸ hshows)
  rw [Layout.Fits, Layout.toValue, Layout.schemaWith, hwrite]
  exact Written.takes_after [.mark true] _ _

end

mutual

/-- Next to a collision every other component can be one that is reproduced, so nothing makes up for what is lost. -/
theorem Layout.exists_not_fits {α : Type} :
    (layout : Layout Unit α) → (∀ node ∈ (layout.schemaWith (.struct [])).nodes, node.declares = true) →
      (∃ node ∈ (layout.schemaWith (.struct [])).nodes, node.collides = true) →
      ∃ value, layout.Plain value ∧ ¬layout.Fits value
  | .record _ fields, hdeclares, ⟨node, hnode, hcollides⟩ => by
    rcases List.mem_cons.1 hnode with rfl | hinside
    · cases hcollides
    · obtain ⟨value, hplain, hlost⟩ :=
        fields.exists_not_fits (fun node h => hdeclares node (List.mem_cons_of_mem _ h)) ⟨node, hinside, hcollides⟩
      exact ⟨value, hplain, fun h => hlost (Layout.fits_record.1 h)⟩
  | .tuple parts, hdeclares, ⟨node, hnode, hcollides⟩ => by
    rcases List.mem_cons.1 hnode with rfl | hinside
    · cases hcollides
    · obtain ⟨value, hplain, hlost⟩ :=
        parts.exists_not_fits (fun node h => hdeclares node (List.mem_cons_of_mem _ h)) ⟨node, hinside, hcollides⟩
      exact ⟨value, hplain, fun h => hlost (Layout.fits_tuple.1 h)⟩
  | .union _ variants _, hdeclares, ⟨node, hnode, hcollides⟩ => by
    rcases List.mem_cons.1 hnode with rfl | hinside
    · cases hcollides
    · obtain ⟨value, hplain, hlost⟩ :=
        variants.exists_not_fits (fun node h => hdeclares node (List.mem_cons_of_mem _ h)) ⟨node, hinside, hcollides⟩
      exact ⟨value, hplain, fun h => hlost (Layout.fits_union.1 h)⟩
  | .vector element, hdeclares, ⟨node, hnode, hcollides⟩ => by
    rcases List.mem_cons.1 hnode with rfl | hinside
    · cases hcollides
    · obtain ⟨a, hplain, hlost⟩ :=
        element.exists_not_fits (fun node h => hdeclares node (List.mem_cons_of_mem _ h)) ⟨node, hinside, hcollides⟩
      refine ⟨[a], ⟨?_, ?_⟩, fun h => hlost (Layout.fits_single.1 h)⟩
      · show 1 < 2 ^ 32
        omega
      · intro other hother
        obtain rfl := List.mem_singleton.1 hother
        exact hplain
  | .optional element, hdeclares, ⟨node, hnode, hcollides⟩ => by
    by_cases hshows : element.tag ≠ .option ∧ (element.schemaWith (.struct [])).Shows .undefined
    · obtain ⟨a, hplain, hkind, hlength⟩ := element.exists_of_shows (.inl rfl) hshows.2
      exact ⟨some a, Layout.within_some hplain, Layout.not_fits_some hshows.1 hkind hlength⟩
    · rcases List.mem_cons.1 hnode with rfl | hinside
      · exact absurd (shows_of_collides_option hcollides) hshows
      · obtain ⟨a, hplain, hlost⟩ :=
          element.exists_not_fits (fun node h => hdeclares node (List.mem_cons_of_mem _ h)) ⟨node, hinside, hcollides⟩
        have hfits := Layout.fits_some (a := a) fun htag h => hshows ⟨htag, h⟩
        exact ⟨some a, Layout.within_some hplain, fun h => hlost (hfits.1 h)⟩
  | .nullable element, hdeclares, ⟨node, hnode, hcollides⟩ => by
    by_cases hshows : (element.schemaWith (.struct [])).Shows .null
    · obtain ⟨a, hplain, hkind, hlength⟩ := element.exists_of_shows (.inr rfl) hshows
      exact ⟨.value a, Layout.within_value hplain, Layout.not_fits_value hkind hlength⟩
    · rcases List.mem_cons.1 hnode with rfl | hinside
      · exact absurd (shows_of_collides_nullable hcollides) hshows
      · obtain ⟨a, hplain, hlost⟩ :=
          element.exists_not_fits (fun node h => hdeclares node (List.mem_cons_of_mem _ h)) ⟨node, hinside, hcollides⟩
        exact ⟨.value a, Layout.within_value hplain, fun h => hlost ((Layout.fits_value hshows).1 h)⟩
  | .retyped host base, hdeclares, hcollides => by
    obtain ⟨a, hplain, hlost⟩ := base.exists_not_fits hdeclares hcollides
    refine ⟨host.make a, ?_, ?_⟩
    · rwa [Layout.Plain, Layout.Within, host.view_make]
    · rwa [Layout.Fits, Layout.toValue, Layout.pieces, host.view_make]
  | .bool, _, h | .str, _, h | .u8, _, h | .u16, _, h | .u32, _, h | .i32, _, h | .f32, _, h | .f64, _, h
  | .enumeration _, _, h | .self, _, h => by
    simp [Layout.schemaWith, nodes, nodesOfFields, collides] at h

theorem Parts.exists_not_fits {α : Type} :
    (parts : Parts Unit α) → (∀ node ∈ nodesOfComponents (parts.schemasWith (.struct [])), node.declares = true) →
      (∃ node ∈ nodesOfComponents (parts.schemasWith (.struct [])), node.collides = true) →
      ∃ value, parts.Within .plain (fun _ => True) value ∧ ¬parts.Fits value
  | .pair first second, hdeclares, ⟨node, hnode, hcollides⟩ => by
    have hfirst := fun node h => hdeclares node (List.mem_append_left _ h)
    have hsecond := fun node h => hdeclares node (List.mem_append_right _ (List.mem_append_left _ h))
    rcases List.mem_append.1 hnode with hnode | hnode
    · obtain ⟨a, ha, hlost⟩ := first.exists_not_fits hfirst ⟨node, hnode, hcollides⟩
      obtain ⟨b, hb, hkept⟩ := second.exists_reproduced hsecond
      exact ⟨(a, b), ⟨ha, hb⟩, fun h => hlost ((Parts.fits_pair_left hkept).1 h)⟩
    · obtain ⟨a, ha, hkept⟩ := first.exists_reproduced hfirst
      have hinside : node ∈ (second.schemaWith (.struct [])).nodes := by simpa [nodesOfComponents] using hnode
      obtain ⟨b, hb, hlost⟩ := second.exists_not_fits hsecond ⟨node, hinside, hcollides⟩
      exact ⟨(a, b), ⟨ha, hb⟩, fun h => hlost ((Parts.fits_pair_right hkept).1 h)⟩
  | .cons first rest, hdeclares, ⟨node, hnode, hcollides⟩ => by
    have hfirst := fun node h => hdeclares node (List.mem_append_left _ h)
    have hrest := fun node h => hdeclares node (List.mem_append_right _ h)
    rcases List.mem_append.1 hnode with hnode | hnode
    · obtain ⟨a, ha, hlost⟩ := first.exists_not_fits hfirst ⟨node, hnode, hcollides⟩
      obtain ⟨b, hb, hkept⟩ := rest.exists_reproduced hrest
      exact ⟨(a, b), ⟨ha, hb⟩, fun h => hlost ((Parts.fits_cons_left hkept).1 h)⟩
    · obtain ⟨a, ha, hkept⟩ := first.exists_reproduced hfirst
      obtain ⟨b, hb, hlost⟩ := rest.exists_not_fits hrest ⟨node, hnode, hcollides⟩
      exact ⟨(a, b), ⟨ha, hb⟩, fun h => hlost ((Parts.fits_cons_right hkept).1 h)⟩

theorem Fields.exists_not_fits {names : List String} {α : Type} :
    (fields : Fields Unit names α) → (∀ node ∈ nodesOfFields (fields.schemasWith (.struct [])), node.declares = true) →
      (∃ node ∈ nodesOfFields (fields.schemasWith (.struct [])), node.collides = true) →
      ∃ value, fields.Within .plain (fun _ => True) value ∧ ¬fields.Fits value
  | .nil, _, ⟨_, hnode, _⟩ => absurd hnode List.not_mem_nil
  | .cons _ layout rest _, hdeclares, ⟨node, hnode, hcollides⟩ => by
    have hfirst := fun node h => hdeclares node (List.mem_append_left _ h)
    have hrest := fun node h => hdeclares node (List.mem_append_right _ h)
    rcases List.mem_append.1 hnode with hnode | hnode
    · obtain ⟨a, ha, hlost⟩ := layout.exists_not_fits hfirst ⟨node, hnode, hcollides⟩
      obtain ⟨b, hb, hkept⟩ := rest.exists_reproduced hrest
      exact ⟨(a, b), ⟨ha, hb⟩, fun h => hlost ((Fields.fits_cons_left hkept).1 h)⟩
    · obtain ⟨a, ha, hkept⟩ := layout.exists_reproduced hfirst
      obtain ⟨b, hb, hlost⟩ := rest.exists_not_fits hrest ⟨node, hnode, hcollides⟩
      exact ⟨(a, b), ⟨ha, hb⟩, fun h => hlost ((Fields.fits_cons_right hkept).1 h)⟩

theorem Variants.exists_not_fits {tags : List String} {α : Type} :
    (variants : Variants Unit tags α) →
      (∀ node ∈ nodesOfVariants (variants.schemasWith (.struct [])), node.declares = true) →
      (∃ node ∈ nodesOfVariants (variants.schemasWith (.struct [])), node.collides = true) →
      ∃ value, variants.Within .plain (fun _ => True) value ∧ ¬variants.Fits value
  | .nil, _, ⟨_, hnode, _⟩ => absurd hnode List.not_mem_nil
  | .unit _ rest _, hdeclares, hcollides => by
    obtain ⟨b, hb, hlost⟩ := rest.exists_not_fits hdeclares hcollides
    exact ⟨.inr b, hb, hlost⟩
  | .payload _ layout rest _, hdeclares, ⟨node, hnode, hcollides⟩ => by
    rcases List.mem_append.1 hnode with hnode | hnode
    · obtain ⟨a, ha, hlost⟩ :=
        layout.exists_not_fits (fun node h => hdeclares node (List.mem_append_left _ h)) ⟨node, hnode, hcollides⟩
      exact ⟨.inl a, ha, hlost⟩
    · obtain ⟨b, hb, hlost⟩ :=
        rest.exists_not_fits (fun node h => hdeclares node (List.mem_append_right _ h)) ⟨node, hnode, hcollides⟩
      exact ⟨.inr b, hb, hlost⟩

end

/-- The same bytes cannot be written in a different number of bytes. -/
theorem Layout.Reproduced.fits {α : Type} {layout : Layout Unit α} {value : α} (h : layout.Reproduced value)
    (hplain : layout.Plain value) : layout.Fits value := by
  obtain ⟨image, hdecode, hencode⟩ := h .ignored
  rw [layout.schema_decode_encode (fun _ hn => hn) value hplain] at hdecode
  cases hdecode
  rw [encode_eq, Codec.encode_eq] at hencode
  cases herror : (layout.schema.write (layout.toValue value)).error? with
  | some error =>
    rw [herror] at hencode
    cases hencode
  | none =>
    rw [herror] at hencode
    have hlength := congrArg List.length (Except.ok.inj hencode)
    rw [length_bytesOf, length_bytesOf] at hlength
    exact ⟨herror, hlength⟩

/-- Exactly when a schema reproduces every encoding of its layout. -/
theorem Layout.reproduced_iff_apart {α : Type} (layout : Layout Unit α) :
    (layout.schema.Apart → ∀ value, layout.Plain value → layout.Reproduced value) ∧
    ((∀ node ∈ layout.schema.nodes, node.declares = true) →
      (∀ value, layout.Plain value → layout.Reproduced value) → layout.schema.Apart) := by
  constructor
  · intro hapart value hplain
    exact (layout.reproduces (fun _ hx => hx) value hplain hapart).reproduced (fun _ hn => hn) hplain
  · intro hdeclares hall
    by_contra hapart
    obtain ⟨node, hnode, hcollides⟩ : ∃ node ∈ layout.schema.nodes, node.collides = true := by
      simpa [Apart] using hapart
    obtain ⟨value, hplain, hlost⟩ := layout.exists_not_fits hdeclares ⟨node, hnode, hcollides⟩
    exact hlost ((hall value hplain).fits hplain)

/-- Optionals of optionals and nullables of optionals are kept apart; of two nullables the inner null is lost. -/
theorem Layout.reproduced_nested_options :
    let kept : Layout Unit (Option (Option UInt8) × Nullable (Option UInt16)) :=
      .tuple (.pair (.optional (.optional .u8)) (.nullable (.optional .u16)))
    let lost : Layout Unit (Option (Nullable (Nullable UInt8))) := .optional (.nullable (.nullable .u8))
    (kept.schema.Apart ∧ kept.Plain (some none, .value none) ∧ kept.Reproduced (some none, .value none)) ∧
      (∀ node ∈ lost.schema.nodes, node.declares = true) ∧ ¬∀ value, lost.Plain value → lost.Reproduced value := by
  intro kept lost
  have hapart : kept.schema.Apart := by decide
  have hplain : kept.Plain (some none, .value none) :=
    ⟨Layout.within_some Layout.within_none, Layout.within_value Layout.within_none⟩
  have hdeclares : ∀ node ∈ lost.schema.nodes, node.declares = true := by decide
  refine ⟨⟨hapart, hplain, (Layout.reproduced_iff_apart kept).1 hapart _ hplain⟩, hdeclares, ?_⟩
  intro hall
  have hlost : lost.schema.Apart := (Layout.reproduced_iff_apart lost).2 hdeclares hall
  exact absurd hlost (by decide)

/-- The least case: a present null below a nullable is read as the null of the outer one, which takes one byte less. -/
theorem Layout.inner_null_not_reproduced :
    let layout : Layout Unit (Nullable (Nullable UInt8)) := .nullable (.nullable .u8)
    layout.Plain (.value .null) ∧ layout.codec.encode (.value .null) = [1, 0] ∧
      layout.schema.decode .rejected [1, 0] = .ok .null ∧ layout.schema.encode .null = .ok [0] ∧
      ¬layout.Reproduced (.value .null) := by
  intro layout
  have hplain : layout.Plain (.value .null) := Layout.within_value Layout.within_null
  have hencode : layout.codec.encode (.value .null) = [1, 0] := by decide
  refine ⟨hplain, hencode, rfl, rfl, ?_⟩
  intro h
  have hcount := (h.fits hplain).2
  exact absurd hcount (by decide)

end WireFormat
