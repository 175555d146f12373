import WireFormat.Schema.Exchange

/-!
# Schemas come back from their documents

The nodes of an exported schema may be rearranged: the members of a node are found by their keys, so their order does not
matter, and members under other keys are passed over. The order of fields, variants and components does matter; it is
that of the schema. Main statement: importing the document of a schema, however its nodes are rearranged, gives the schema.
-/
namespace WireFormat

namespace Document

/-- An object that holds the tag of a kind and the content of the node, in any order, and anything under other keys. -/
def IsNode (tag : Tag) (content : List (String × Document)) (document : Document) : Prop :=
  ∃ members others, document = object members ∧ members.Perm (("tag", str tag.name) :: content ++ others) ∧
    ∀ key ∈ Entries.names others, key ∉ "tag" :: Entries.names content

theorem isNode (tag : Tag) (content : List (String × Document)) :
    (object (("tag", str tag.name) :: content)).IsNode tag content := by
  refine ⟨_, [], rfl, ?_, fun key hkey => nomatch hkey⟩
  rw [List.append_nil]

/-- All members of a node are found by their keys. -/
theorem IsNode.exists_members {document : Document} {tag : Tag} {content : List (String × Document)}
    (h : document.IsNode tag content) (hnodup : ("tag" :: Entries.names content).Nodup) :
    ∃ members, document = object members ∧ members.lookup "tag" = some (str tag.name) ∧
      ∀ entry ∈ content, members.lookup entry.1 = some entry.2 := by
  obtain ⟨members, others, rfl, hperm, hothers⟩ := h
  refine ⟨members, rfl, Entries.lookup_of_perm hperm hnodup hothers List.mem_cons_self, ?_⟩
  intro entry hentry
  exact Entries.lookup_of_perm hperm hnodup hothers (List.mem_cons_of_mem _ hentry)

/-- The one member beside the tag. -/
theorem IsNode.exists_content {document : Document} {tag : Tag} {key : String} {content : Document}
    (h : document.IsNode tag [(key, content)]) (hkey : key ≠ "tag") :
    ∃ members, document = object members ∧ members.lookup "tag" = some (str tag.name) ∧
      members.lookup key = some content := by
  obtain ⟨members, rfl, htag, hcontent⟩ := h.exists_members (by simpa using hkey.symm)
  exact ⟨members, rfl, htag, hcontent _ List.mem_cons_self⟩

end Document

namespace Schema

mutual

/-- The document is what the schema is exported as, up to the order of the members of its nodes and up to members that
are held under other keys. -/
def ExportedAs : Schema → Document → Prop
  | bool, document => document.IsNode .bool []
  | str, document => document.IsNode .str []
  | u8, document => document.IsNode .u8 []
  | u16, document => document.IsNode .u16 []
  | u32, document => document.IsNode .u32 []
  | i32, document => document.IsNode .i32 []
  | f32, document => document.IsNode .f32 []
  | f64, document => document.IsNode .f64 []
  | enum names, document => document.IsNode .enum [("variants", .array (names.map .str))]
  | struct fields, document =>
    ∃ members, ExportedFields fields members ∧ document.IsNode .struct [("fields", .object members)]
  | tuple components, document =>
    ∃ items, ExportedComponents components items ∧ document.IsNode .tuple [("components", .array items)]
  | union variants, document =>
    ∃ members, ExportedVariants variants members ∧ document.IsNode .union [("variants", .object members)]
  | vec element, document => ∃ inner, element.ExportedAs inner ∧ document.IsNode .vec [("type", inner)]
  | option element, document => ∃ inner, element.ExportedAs inner ∧ document.IsNode .option [("type", inner)]
  | nullable element, document => ∃ inner, element.ExportedAs inner ∧ document.IsNode .nullable [("type", inner)]

def ExportedFields : List (String × Schema) → List (String × Document) → Prop
  | [], members => members = []
  | (name, schema) :: rest, members =>
    ∃ document others, members = (name, document) :: others ∧ schema.ExportedAs document ∧ ExportedFields rest others

def ExportedComponents : List Schema → List Document → Prop
  | [], items => items = []
  | schema :: rest, items =>
    ∃ document others, items = document :: others ∧ schema.ExportedAs document ∧ ExportedComponents rest others

def ExportedVariants : List (String × Option Schema) → List (String × Document) → Prop
  | [], members => members = []
  | (tag, none) :: rest, members => ∃ others, members = (tag, .null) :: others ∧ ExportedVariants rest others
  | (tag, some schema) :: rest, members =>
    ∃ document others, members = (tag, document) :: others ∧ schema.ExportedAs document ∧ ExportedVariants rest others

end

mutual

theorem exportedAs_toDocument : (schema : Schema) → schema.ExportedAs schema.toDocument
  | bool | str | u8 | u16 | u32 | i32 | f32 | f64 | enum _ => Document.isNode _ _
  | struct fields => ⟨_, exportedFields fields, Document.isNode _ _⟩
  | tuple components => ⟨_, exportedComponents components, Document.isNode _ _⟩
  | union variants => ⟨_, exportedVariants variants, Document.isNode _ _⟩
  | vec element | option element | nullable element => ⟨_, exportedAs_toDocument element, Document.isNode _ _⟩

theorem exportedFields : (fields : List (String × Schema)) → ExportedFields fields (documentsOfFields fields)
  | [] => rfl
  | (_, schema) :: rest => ⟨_, _, rfl, exportedAs_toDocument schema, exportedFields rest⟩

theorem exportedComponents : (components : List Schema) →
    ExportedComponents components (documentsOfComponents components)
  | [] => rfl
  | schema :: rest => ⟨_, _, rfl, exportedAs_toDocument schema, exportedComponents rest⟩

theorem exportedVariants : (variants : List (String × Option Schema)) →
    ExportedVariants variants (documentsOfVariants variants)
  | [] => rfl
  | (_, none) :: rest => ⟨_, rfl, exportedVariants rest⟩
  | (_, some schema) :: rest => ⟨_, _, rfl, exportedAs_toDocument schema, exportedVariants rest⟩

end

/-- Whatever the kind, a node says which it is. -/
theorem ExportedAs.tagDocument?_eq {schema : Schema} {document : Document} (h : schema.ExportedAs document) :
    tagDocument? document = some (.str schema.tag.name) := by
  obtain ⟨content, hnodup, hnode⟩ :
      ∃ content, ("tag" :: Entries.names content).Nodup ∧ document.IsNode schema.tag content := by
    cases schema with
    | enum names => exact ⟨_, by simp, h⟩
    | struct _ | tuple _ | union _ | vec _ | option _ | nullable _ =>
      obtain ⟨inner, -, h⟩ := h
      exact ⟨_, by simp, h⟩
    | _ => exact ⟨[], by simp, h⟩
  obtain ⟨members, rfl, htag, -⟩ := hnode.exists_members hnodup
  exact htag

/-- So it is not the null that stands for a variant without a schema. -/
theorem ExportedAs.ne_null {schema : Schema} {document : Document} (h : schema.ExportedAs document) :
    document ≠ .null := by
  rintro rfl
  exact nomatch h.tagDocument?_eq

/-- Looking for a member one by one is looking it up. -/
theorem eq_bind_lookup {α : Type} {key : String} {content : Document → Option α}
    {search : List (String × Document) → Option α} (hnil : search [] = none)
    (hcons : ∀ other document rest, search ((other, document) :: rest) =
      if other = key then content document else search rest) (members : List (String × Document)) :
    search members = (members.lookup key).bind content := by
  induction members with
  | nil => exact hnil
  | cons member rest ih =>
    obtain ⟨other, document⟩ := member
    by_cases h : other = key
    · rw [hcons, if_pos h, h, List.lookup_cons_self]
      rfl
    · rw [hcons, if_neg h, ih, List.lookup_cons, beq_false_of_ne (Ne.symm h)]

theorem elementIn?_eq (members : List (String × Document)) :
    elementIn? members = (members.lookup "type").bind ofNode? :=
  eq_bind_lookup rfl (fun _ _ _ => rfl) members

theorem fieldsIn?_eq (members : List (String × Document)) :
    fieldsIn? members = (members.lookup "fields").bind fieldsOf? :=
  eq_bind_lookup rfl (fun _ _ _ => rfl) members

theorem componentsIn?_eq (members : List (String × Document)) :
    componentsIn? members = (members.lookup "components").bind componentsOf? :=
  eq_bind_lookup rfl (fun _ _ _ => rfl) members

theorem variantsIn?_eq (members : List (String × Document)) :
    variantsIn? members = (members.lookup "variants").bind variantsOf? :=
  eq_bind_lookup rfl (fun _ _ _ => rfl) members

theorem namesOf?_map_str (names : List String) : namesOf? (.array (names.map .str)) = some names := by
  rw [namesOf?]
  induction names with
  | nil => rfl
  | cons name rest ih => simp [List.mapM_cons, nameOfDocument?, ih]

theorem tagOf?_name (tag : Tag) : tagOf? (.str tag.name) = some tag :=
  Tag.ofName?_name tag

theorem ofNode?_leaf {document : Document} {tag : Tag} {schema : Schema} (h : document.IsNode tag [])
    (hleaf : leaf? tag = some schema) : ofNode? document = some schema := by
  obtain ⟨members, rfl, htag, -⟩ := h.exists_members (by simp)
  cases tag <;> cases hleaf <;> simp only [ofNode?, htag, Option.bind_some, tagOf?_name, leaf?]

mutual

/-- By induction on the schema. Every node names its kind, so it is only looked at for the content of that kind. -/
theorem ofNode?_of_exportedAs : (schema : Schema) → {document : Document} → schema.ExportedAs document →
    ofNode? document = some schema
  | bool, _, h | str, _, h | u8, _, h | u16, _, h | u32, _, h | i32, _, h | f32, _, h | f64, _, h =>
    ofNode?_leaf h rfl
  | enum names, _, h => by
    obtain ⟨members, rfl, htag, hnames⟩ := h.exists_content (by decide)
    simp only [ofNode?, htag, Option.bind_some, tagOf?_name, hnames, namesOf?_map_str, Option.map_some]
  | struct fields, _, ⟨inner, hinner, h⟩ => by
    obtain ⟨members, rfl, htag, hfields⟩ := h.exists_content (by decide)
    have himported := fieldsOfDocuments?_of_exportedFields fields hinner
    simp only [ofNode?, htag, Option.bind_some, tagOf?_name, fieldsIn?_eq, hfields, fieldsOf?, himported,
      Option.map_some]
  | tuple components, _, ⟨inner, hinner, h⟩ => by
    obtain ⟨members, rfl, htag, hcomponents⟩ := h.exists_content (by decide)
    have himported := componentsOfDocuments?_of_exportedComponents components hinner
    simp only [ofNode?, htag, Option.bind_some, tagOf?_name, componentsIn?_eq, hcomponents, componentsOf?, himported,
      Option.map_some]
  | union variants, _, ⟨inner, hinner, h⟩ => by
    obtain ⟨members, rfl, htag, hvariants⟩ := h.exists_content (by decide)
    have himported := variantsOfDocuments?_of_exportedVariants variants hinner
    simp only [ofNode?, htag, Option.bind_some, tagOf?_name, variantsIn?_eq, hvariants, variantsOf?, himported,
      Option.map_some]
  | vec element, _, ⟨inner, hinner, h⟩ | option element, _, ⟨inner, hinner, h⟩
  | nullable element, _, ⟨inner, hinner, h⟩ => by
    obtain ⟨members, rfl, htag, helement⟩ := h.exists_content (by decide)
    have himported := ofNode?_of_exportedAs element hinner
    simp only [ofNode?, htag, Option.bind_some, tagOf?_name, elementIn?_eq, helement, himported, Option.map_some]

theorem fieldsOfDocuments?_of_exportedFields : (fields : List (String × Schema)) →
    {members : List (String × Document)} → ExportedFields fields members → fieldsOfDocuments? members = some fields
  | [], _, rfl => rfl
  | (name, schema) :: rest, _, ⟨document, others, rfl, hschema, hrest⟩ => by
    rw [fieldsOfDocuments?, ofNode?_of_exportedAs schema hschema, fieldsOfDocuments?_of_exportedFields rest hrest]
    rfl

theorem componentsOfDocuments?_of_exportedComponents : (components : List Schema) → {items : List Document} →
    ExportedComponents components items → componentsOfDocuments? items = some components
  | [], _, rfl => rfl
  | schema :: rest, _, ⟨document, others, rfl, hschema, hrest⟩ => by
    rw [componentsOfDocuments?, ofNode?_of_exportedAs schema hschema,
      componentsOfDocuments?_of_exportedComponents rest hrest]
    rfl

theorem variantsOfDocuments?_of_exportedVariants : (variants : List (String × Option Schema)) →
    {members : List (String × Document)} → ExportedVariants variants members →
      variantsOfDocuments? members = some variants
  | [], _, rfl => rfl
  | (tag, none) :: rest, _, ⟨others, rfl, hrest⟩ => by
    rw [variantsOfDocuments?, variantsOfDocuments?_of_exportedVariants rest hrest]
    rfl
  | (tag, some schema) :: rest, _, ⟨document, others, rfl, hschema, hrest⟩ => by
    rw [variantsOfDocuments?, ofNode?_of_exportedAs schema hschema,
      variantsOfDocuments?_of_exportedVariants rest hrest]
    · rfl
    · exact hschema.ne_null

end

/-- Importing what a schema was exported as gives the schema, unchecked ones included: the same names and parts in the
same order, whatever the order of the members of a node and whatever else it holds. -/
theorem imported_of_exportedAs (schema : Schema) :
    schema.ExportedAs schema.toDocument ∧ ofDocument? schema.toDocument = some schema ∧
      ∀ document, schema.ExportedAs document → ofDocument? document = some schema := by
  have himported : ∀ document, schema.ExportedAs document → ofDocument? document = some schema := by
    intro document h
    simp only [ofDocument?, h.tagDocument?_eq]
    exact ofNode?_of_exportedAs schema h
  have hself := exportedAs_toDocument schema
  exact ⟨hself, himported _ hself, himported⟩

/-- An enumeration that repeats a name and a tuple of one component, in nodes whose members stand in another order and
among members that other kinds have. -/
theorem imported_of_exportedAs_rearranged :
    let schema : Schema := .struct [("b", .enum ["x", "x"]), ("a", .tuple [.union [("Stop", none), ("Go", some .u8)]])]
    let document : Document := .object [("fields", .object [
        ("b", .object [("type", .int 7), ("variants", .array [.str "x", .str "x"]), ("tag", .str "Enum")]),
        ("a", .object [("tag", .str "Tuple"), ("components", .array [.object [
          ("variants", .object [("Stop", .null), ("Go", .object [("fields", .null), ("tag", .str "U8")])]),
          ("tag", .str "Union")]])])]),
      ("variants", .array []), ("tag", .str "Struct")]
    schema.ExportedAs document ∧ ofDocument? document = some schema := by
  intro schema document
  have hb : (Schema.enum ["x", "x"]).ExportedAs
      (.object [("type", .int 7), ("variants", .array [.str "x", .str "x"]), ("tag", .str "Enum")]) :=
    ⟨_, [("type", .int 7)], rfl, (List.reverse_perm _).symm, by decide⟩
  have hgo : Schema.u8.ExportedAs (.object [("fields", .null), ("tag", .str "U8")]) :=
    ⟨_, [("fields", .null)], rfl, (List.reverse_perm _).symm, by decide⟩
  have hunion : (Schema.union [("Stop", none), ("Go", some .u8)]).ExportedAs (.object [
      ("variants", .object [("Stop", .null), ("Go", .object [("fields", .null), ("tag", .str "U8")])]),
      ("tag", .str "Union")]) :=
    ⟨_, ⟨_, rfl, _, _, rfl, hgo, rfl⟩, _, [], rfl, (List.reverse_perm _).symm, by decide⟩
  have hdocument : schema.ExportedAs document :=
    ⟨_, ⟨_, _, rfl, hb, _, _, rfl, ⟨_, ⟨_, _, rfl, hunion, rfl⟩, Document.isNode _ _⟩, rfl⟩, _,
      [("variants", .array [])], rfl, @List.perm_append_comm _ [_, _] [_], by decide⟩
  exact ⟨hdocument, (imported_of_exportedAs schema).2.2 document hdocument⟩

end Schema

end WireFormat
