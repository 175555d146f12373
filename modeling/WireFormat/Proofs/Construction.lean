import WireFormat.Proofs.Reading
import WireFormat.Proofs.Wrappers

/-!
# Checked construction

Named items are collected one after the other until a name comes that has come before. Main statement: the constructors
that check build exactly the schemas in which no enumeration, struct or union declares a name twice and every tuple has
two components or more, and in such a schema an index stands for a name that is written as this index again.
-/
namespace WireFormat

namespace Entries

variable {α : Type} {kept entries : List (String × α)}

/-- Adds the entries to those that are kept, one after the other, and stops at a name that is kept already. -/
def collect : (kept entries : List (String × α)) → Except String (List (String × α))
  | kept, [] => .ok kept
  | kept, (name, item) :: rest =>
    if name ∈ names kept then .error name else collect (put name item kept) rest

/-- The name that is the first, in the order of the list, to have occurred before. -/
def FirstRepeated (list : List String) (name : String) : Prop :=
  ∃ front back, list = front ++ name :: back ∧ front.Nodup ∧ name ∈ front

/-- A new name goes to the end. -/
theorem put_of_not_mem {name : String} (item : α) (h : name ∉ names kept) :
    put name item kept = kept ++ [(name, item)] := by
  induction kept with
  | nil => rfl
  | cons entry rest ih =>
    obtain ⟨other, held⟩ := entry
    obtain ⟨hother, hrest⟩ := not_or.1 (mt List.mem_cons.2 h)
    rw [put, if_neg (Ne.symm hother), ih hrest, List.cons_append]

/-- A new name is added behind those that are kept, so that these are always the entries that have been passed over. -/
theorem collect_cons_of_not_mem {name : String} (item : α) (rest : List (String × α)) (h : name ∉ names kept) :
    collect kept ((name, item) :: rest) = collect (kept ++ [(name, item)]) rest := by
  rw [collect, if_neg h, put_of_not_mem item h]

/-- All entries are kept, in their order, if no name comes twice. -/
theorem collect_of_nodup (h : (names (kept ++ entries)).Nodup) : collect kept entries = .ok (kept ++ entries) := by
  induction entries generalizing kept with
  | nil => rw [collect, List.append_nil]
  | cons entry rest ih =>
    obtain ⟨name, item⟩ := entry
    have hfresh : name ∉ names kept := by
      intro hmem
      rw [names, List.map_append, List.map_cons] at h
      exact (List.nodup_append.1 h).2.2 name hmem name List.mem_cons_self rfl
    rw [collect_cons_of_not_mem item rest hfresh, ih (by simpa using h), List.append_assoc, List.singleton_append]

/-- Otherwise the name at which the collection stops is the first that has come before. -/
theorem collect_of_not_nodup (hkept : (names kept).Nodup) (h : ¬(names (kept ++ entries)).Nodup) :
    ∃ name, FirstRepeated (names (kept ++ entries)) name ∧ collect kept entries = .error name := by
  induction entries generalizing kept with
  | nil =>
    rw [List.append_nil] at h
    exact absurd hkept h
  | cons entry rest ih =>
    obtain ⟨name, item⟩ := entry
    by_cases hmem : name ∈ names kept
    · refine ⟨name, ⟨names kept, names rest, ?_, hkept, hmem⟩, ?_⟩
      · rw [names, List.map_append, List.map_cons]
      · rw [collect, if_pos hmem]
    · have hnext : (names (kept ++ [(name, item)])).Nodup := by
        rw [← put_of_not_mem item hmem]
        exact nodup_put hkept
      have happend : kept ++ (name, item) :: rest = kept ++ [(name, item)] ++ rest := by simp
      rw [happend] at h ⊢
      rw [collect_cons_of_not_mem item rest hmem]
      exact ih hnext h

theorem not_nodup_of_mem {front back : List String} {name : String} (h : name ∈ front) :
    ¬(front ++ name :: back).Nodup := by
  intro hnodup
  exact (List.nodup_append.1 hnodup).2.2 name h name List.mem_cons_self rfl

theorem FirstRepeated.not_nodup {list : List String} {name : String} (h : FirstRepeated list name) : ¬list.Nodup := by
  obtain ⟨front, back, rfl, -, hmem⟩ := h
  exact not_nodup_of_mem hmem

/-- Of two repeated names, the one that comes later has a repeated name in front of it. -/
theorem FirstRepeated.unique {list : List String} {name other : String} (h : FirstRepeated list name)
    (hother : FirstRepeated list other) : name = other := by
  obtain ⟨front, back, rfl, hfront, hmem⟩ := h
  obtain ⟨front', back', heq, hfront', hmem'⟩ := hother
  rcases List.append_eq_append_iff.1 heq with ⟨between, rfl, hback⟩ | ⟨between, rfl, hback⟩
  · cases between with
    | nil => exact (List.cons.inj hback).1
    | cons first rest =>
      obtain ⟨rfl, -⟩ := List.cons.inj hback
      exact absurd hfront' (not_nodup_of_mem hmem)
  · cases between with
    | nil => exact (List.cons.inj hback).1.symm
    | cons first rest =>
      obtain ⟨rfl, -⟩ := List.cons.inj hback
      exact absurd hfront (not_nodup_of_mem hmem')

/-- Looking for a repeated name is collecting without the items. -/
theorem collect_eq {seen : List String} (h : ∀ name, name ∈ seen ↔ name ∈ names kept) :
    collect kept entries =
      match repeated? seen (names entries) with
      | some name => .error name
      | none => .ok (kept ++ entries) := by
  induction entries generalizing kept seen with
  | nil => rw [collect, List.append_nil, names, List.map_nil, repeated?]
  | cons entry rest ih =>
    obtain ⟨name, item⟩ := entry
    rw [names, List.map_cons]
    by_cases hmem : name ∈ names kept
    · rw [collect, if_pos hmem, repeated?, if_pos ((h name).2 hmem)]
    · have hnext : ∀ other, other ∈ name :: seen ↔ other ∈ names (kept ++ [(name, item)]) := by
        intro other
        rw [names, List.map_append, List.mem_append, ← names, ← h other]
        simp [or_comm]
      rw [collect_cons_of_not_mem item rest hmem, repeated?, if_neg (mt (h name).1 hmem), ih hnext, List.append_assoc,
        List.singleton_append]

end Entries

namespace Schema
open Entries (FirstRepeated collect)

/-- A constructor that checks the names that it is given builds the schema if they are distinct, and otherwise reports
the first that has come before. -/
structure ChecksNames (outcome : Except SchemaError Schema) (names : List String) (schema : Schema) : Prop where
  ok_iff : ∀ built, outcome = .ok built ↔ names.Nodup ∧ built = schema
  error_iff : ∀ error, outcome = .error error ↔ ∃ name, FirstRepeated names name ∧ error = .duplicate name

theorem ifDistinct_eq_collect {α : Type} (entries : List (String × α)) (build : List (String × α) → Schema) :
    ifDistinct (Entries.names entries) (build entries) = ((collect [] entries).map build).mapError .duplicate := by
  have hcollect := @Entries.collect_eq α [] entries [] fun _ => Iff.rfl
  rw [hcollect, ifDistinct]
  cases Entries.repeated? [] (Entries.names entries) <;> rfl

/-- By what the collection comes to, which is one of two things. -/
theorem checksNames_collect {α : Type} (entries : List (String × α)) (build : List (String × α) → Schema) :
    ChecksNames (((collect [] entries).map build).mapError .duplicate) (Entries.names entries) (build entries) := by
  by_cases hnodup : (Entries.names entries).Nodup
  · have hcollect : collect [] entries = .ok entries := Entries.collect_of_nodup hnodup
    rw [hcollect]
    constructor
    · intro built
      constructor
      · intro h
        exact ⟨hnodup, (Except.ok.inj h).symm⟩
      · rintro ⟨-, rfl⟩
        rfl
    · intro error
      constructor
      · intro h
        cases h
      · rintro ⟨name, hrepeated, -⟩
        exact absurd hnodup hrepeated.not_nodup
  · obtain ⟨name, hrepeated, hcollect⟩ := @Entries.collect_of_not_nodup α [] entries List.nodup_nil hnodup
    rw [hcollect]
    constructor
    · intro built
      constructor
      · intro h
        cases h
      · rintro ⟨h, -⟩
        exact absurd h hnodup
    · intro error
      constructor
      · intro h
        exact ⟨name, hrepeated, (Except.error.inj h).symm⟩
      · rintro ⟨other, hother, rfl⟩
        rw [hrepeated.unique hother]
        rfl

theorem checksNames_ofFields (fields : List (String × Schema)) :
    ChecksNames (ofFields fields) (Entries.names fields) (struct fields) := by
  rw [ofFields, ifDistinct_eq_collect]
  exact checksNames_collect fields struct

theorem checksNames_ofVariants (variants : List (String × Option Schema)) :
    ChecksNames (ofVariants variants) (Entries.names variants) (union variants) := by
  rw [ofVariants, ifDistinct_eq_collect]
  exact checksNames_collect variants union

/-- Names are items of their own. -/
theorem checksNames_ofNames (names : List String) : ChecksNames (ofNames names) names (enum names) := by
  have hnames : Entries.names (names.map fun name => (name, ())) = names := by simp [Function.comp_def]
  have h := checksNames_collect (names.map fun name => (name, ())) fun entries => enum (Entries.names entries)
  rwa [← ifDistinct_eq_collect, hnames] at h

/-- What the constructors that check, the wrappers and the leaves build. -/
inductive Built : Schema → Prop where
  | leaf {schema : Schema} (h : schema ∈ [bool, str, u8, u16, u32, i32, f32, f64]) : Built schema
  | names {names : List String} {schema : Schema} (h : ofNames names = .ok schema) : Built schema
  | components {components : List Schema} {schema : Schema} (h : ofComponents components = .ok schema)
      (hparts : ∀ component ∈ components, Built component) : Built schema
  | fields {fields : List (String × Schema)} {schema : Schema} (h : ofFields fields = .ok schema)
      (hparts : ∀ field ∈ fields, Built field.2) : Built schema
  | variants {variants : List (String × Option Schema)} {schema : Schema} (h : ofVariants variants = .ok schema)
      (hparts : ∀ variant ∈ variants, ∀ payload ∈ variant.2, Built payload) : Built schema
  | vec {element : Schema} (h : Built element) : Built (.vec element)
  | option {element : Schema} (h : Built element) : Built (.option element)
  | nullable {element : Schema} (h : Built element) : Built (.nullable element)

/-- A schema declares no name twice, and a tuple has two components or more. Nothing is said of the schemas inside. -/
def WellFormed : Schema → Prop
  | enum names => names.Nodup
  | struct fields => (Entries.names fields).Nodup
  | tuple components => 2 ≤ components.length
  | union variants => (Entries.names variants).Nodup
  | bool | str | u8 | u16 | u32 | i32 | f32 | f64 | vec _ | option _ | nullable _ => True

theorem ofComponents_eq_ok_iff (components : List Schema) (schema : Schema) :
    ofComponents components = .ok schema ↔ 2 ≤ components.length ∧ schema = tuple components := by
  rw [ofComponents]
  by_cases h : components.length < 2
  · simp [h, Nat.not_le.2 h]
  · simp [h, Nat.not_lt.1 h, eq_comm]

/-- A schema is built out of its parts. -/
theorem built_iff_parts (schema : Schema) : schema.Built ↔ schema.WellFormed ∧ ∀ part ∈ schema.parts, part.Built := by
  constructor
  · intro h
    cases h with
    | leaf h =>
      simp only [List.mem_cons, List.not_mem_nil, or_false] at h
      rcases h with rfl | rfl | rfl | rfl | rfl | rfl | rfl | rfl <;> exact ⟨trivial, fun part hpart => nomatch hpart⟩
    | names h =>
      obtain ⟨hnodup, rfl⟩ := (ofNames_eq_ok_iff _ _).1 h
      exact ⟨hnodup, fun part hpart => nomatch hpart⟩
    | components h hparts =>
      obtain ⟨hlength, rfl⟩ := (ofComponents_eq_ok_iff _ _).1 h
      exact ⟨hlength, hparts⟩
    | fields h hparts =>
      obtain ⟨hnodup, rfl⟩ := (ofFields_eq_ok_iff _ _).1 h
      exact ⟨hnodup, List.forall_mem_map.2 hparts⟩
    | variants h hparts =>
      obtain ⟨hnodup, rfl⟩ := (ofVariants_eq_ok_iff _ _).1 h
      refine ⟨hnodup, fun part hpart => ?_⟩
      obtain ⟨variant, hvariant, hpayload⟩ := List.mem_filterMap.1 hpart
      exact hparts variant hvariant part hpayload
    | vec h | option h | nullable h => exact ⟨trivial, List.forall_mem_singleton.2 h⟩
  · rintro ⟨hnode, hparts⟩
    cases schema with
    | enum names => exact .names ((ofNames_eq_ok_iff _ _).2 ⟨hnode, rfl⟩)
    | struct fields => exact .fields ((ofFields_eq_ok_iff _ _).2 ⟨hnode, rfl⟩) (List.forall_mem_map.1 hparts)
    | tuple components => exact .components ((ofComponents_eq_ok_iff _ _).2 ⟨hnode, rfl⟩) hparts
    | union variants =>
      refine .variants ((ofVariants_eq_ok_iff _ _).2 ⟨hnode, rfl⟩) fun variant hvariant payload hpayload => ?_
      exact hparts payload (List.mem_filterMap.2 ⟨variant, hvariant, hpayload⟩)
    | vec element => exact .vec (hparts element List.mem_cons_self)
    | option element => exact .option (hparts element List.mem_cons_self)
    | nullable element => exact .nullable (hparts element List.mem_cons_self)
    | _ => exact .leaf (by simp)

/-- By induction on the schema: its nodes are itself and those of its parts. -/
theorem built_iff (schema : Schema) : schema.Built ↔ ∀ node ∈ schema.nodes, node.WellFormed := by
  induction schema using induction_on_parts with
  | step schema ih =>
    rw [built_iff_parts, nodes_eq, List.forall_mem_cons]
    refine and_congr_right fun _ => ⟨fun h node hnode => ?_, fun h part hpart => ?_⟩
    · obtain ⟨part, hpart, hmem⟩ := List.mem_flatMap.1 hnode
      exact (ih part hpart).1 (h part hpart) node hmem
    · exact (ih part hpart).2 fun node hnode => h node (List.mem_flatMap.2 ⟨part, hpart, hnode⟩)

/-- Every index of four bytes at which a name stands is read as this name, and the name is written as the index. A
payload follows the index as its own schema has it. -/
def IndicesReturn : Schema → Prop
  | enum names => ∀ (index : UInt32) (name : String), names[index.toNat]? = some name →
      (enum names).read.Yields [.index index.toNat] (.str name) ∧
        (enum names).write (.str name) = .done [.index index.toNat]
  | union variants => ∀ (index : UInt32) (tag : String) (payload : Option Schema),
      variants[index.toNat]? = some (tag, payload) →
        match payload with
        | none =>
          (union variants).read.Yields [.index index.toNat] (.unit tag) ∧
            (union variants).write (.unit tag) = .done [.index index.toNat]
        | some schema => ∀ inner,
          (∀ pieces, schema.read.Yields pieces inner →
            (union variants).read.Yields (.index index.toNat :: pieces) (.tagged tag inner)) ∧
            (union variants).write (.tagged tag inner) = (schema.write inner).after [.index index.toNat]
  | bool | str | u8 | u16 | u32 | i32 | f32 | f64 | struct _ | tuple _ | vec _ | option _ | nullable _ => True

theorem yields_index_enum {names : List String} {index : UInt32} {name : String}
    (h : names[index.toNat]? = some name) : (enum names).read.Yields [.index index.toNat] (.str name) := by
  have hindex := Reader.yields_index index.toNat_lt
  rw [UInt32.ofNat_toNat] at hindex
  apply hindex.bind_nothing
  simp only [h]
  exact Reader.yields_pure _

/-- The variant that stands `skip` places on is read. -/
theorem readVariant_at {variants : List (String × Option Schema)} {skip : Nat} {tag : String} {payload : Option Schema}
    (h : variants[skip]? = some (tag, payload)) (index count : Nat) :
    readVariant index count variants skip = readVariant index count [(tag, payload)] 0 := by
  induction variants generalizing skip with
  | nil => cases h
  | cons variant rest ih =>
    cases skip with
    | zero =>
      obtain rfl := Option.some.inj h
      cases payload <;> rfl
    | succ skip =>
      have hnext : readVariant index count (variant :: rest) (skip + 1) = readVariant index count rest skip := by
        obtain ⟨other, _ | schema⟩ := variant <;> rfl
      rw [hnext]
      exact ih h

theorem yields_index_union {variants : List (String × Option Schema)} {index : UInt32} {tag : String}
    {payload : Option Schema} {pieces : List Piece} {value : Value}
    (h : variants[index.toNat]? = some (tag, payload))
    (hpayload : (readVariant index.toNat variants.length [(tag, payload)] 0).Yields pieces value) :
    (union variants).read.Yields (.index index.toNat :: pieces) value := by
  have hindex := Reader.yields_index index.toNat_lt
  rw [UInt32.ofNat_toNat] at hindex
  apply hindex.bind
  rw [readVariant_at h]
  exact hpayload

/-- Where names are distinct, a variant is found by its name at the index where it stands. -/
theorem variant_found {variants : List (String × Option Schema)} (hnodup : (Entries.names variants).Nodup) {index : Nat}
    {tag : String} {payload : Option Schema} (h : variants[index]? = some (tag, payload)) :
    variants.lookup tag = some payload ∧ (Entries.names variants).idxOf tag = index := by
  have hname : (Entries.names variants)[index]? = some tag := by rw [Entries.names, List.getElem?_map, h]; rfl
  obtain ⟨hindex, rfl⟩ := List.getElem?_eq_some_iff.1 hname
  exact ⟨Entries.lookup_of_mem hnodup (List.mem_of_getElem? h), hnodup.idxOf_getElem index hindex⟩

/-- Where names are distinct, writing by name undoes reading by position. -/
theorem WellFormed.indicesReturn {schema : Schema} (h : schema.WellFormed) : schema.IndicesReturn := by
  cases schema with
  | enum names =>
    intro index name hname
    refine ⟨yields_index_enum hname, ?_⟩
    obtain ⟨hindex, rfl⟩ := List.getElem?_eq_some_iff.1 hname
    exact write_enum h hindex
  | union variants =>
    intro index tag payload hvariant
    obtain ⟨hlookup, hindex⟩ := variant_found h hvariant
    cases payload with
    | none =>
      refine ⟨yields_index_union hvariant (Reader.yields_pure _), ?_⟩
      rw [write_union, writeUnion, writeVariant_eq, hlookup, hindex, Nat.zero_add]
    | some payload =>
      intro inner
      refine ⟨fun pieces hpieces => yields_index_union hvariant (hpieces.map (Value.tagged tag)), ?_⟩
      rw [write_union, writeUnion, writeVariant_eq, hlookup, hindex, Nat.zero_add]
  | _ => trivial

/-- The constructors that check refuse repeated names, naming the first, and keep everything else as it is given; so
what they build is exactly what is well-formed in all of its nodes, and there an index comes back through its name. -/
theorem construction_checked :
    (∀ names, ChecksNames (ofNames names) names (enum names)) ∧
      (∀ fields, ChecksNames (ofFields fields) (Entries.names fields) (struct fields)) ∧
      (∀ variants, ChecksNames (ofVariants variants) (Entries.names variants) (union variants)) ∧
      ∀ schema : Schema, (schema.Built ↔ ∀ node ∈ schema.nodes, node.WellFormed) ∧
        (schema.Built → ∀ node ∈ schema.nodes, node.IndicesReturn) := by
  refine ⟨checksNames_ofNames, checksNames_ofFields, checksNames_ofVariants, fun schema => ⟨built_iff schema, ?_⟩⟩
  intro hbuilt node hnode
  exact ((built_iff schema).1 hbuilt node hnode).indicesReturn

/-- Of two names that come twice the first one is reported, and a union inside an option gets its index back. -/
theorem construction_checked_nested :
    ofNames ["A", "B", "A", "B"] = .error (.duplicate "A") ∧
      (option (union [("empty", none), ("data", some u8)])).Built ∧
      (union [("empty", none), ("data", some u8)]).write (.tagged "data" (.int 7)) =
        (u8.write (.int 7)).after [.index 1] := by
  obtain ⟨hnames, -, -, hschemas⟩ := construction_checked
  have hnodup : (Entries.names [("empty", none), ("data", some u8)]).Nodup := by decide
  have hunion : (union [("empty", none), ("data", some u8)]).Built := by
    apply Built.variants ((ofVariants_eq_ok_iff _ _).2 ⟨hnodup, rfl⟩)
    intro variant hvariant payload hpayload
    rw [List.mem_cons, List.mem_singleton] at hvariant
    rcases hvariant with rfl | rfl
    · cases hpayload
    · obtain rfl := Option.some.inj hpayload
      exact .leaf (by simp)
  have hindices := (hschemas _).2 hunion.option _ (List.mem_cons_of_mem _ (mem_nodes _)) 1 "data" (some u8) rfl
  exact ⟨((hnames _).error_iff _).2 ⟨"A", ⟨["A", "B"], ["B"], rfl, by decide, by decide⟩, rfl⟩, hunion.option,
    (hindices (.int 7)).2⟩

end Schema

end WireFormat
