import WireFormat.Proofs.Collisions
import WireFormat.Proofs.Recovery
import WireFormat.Proofs.Reordering
import WireFormat.Value.Equality

/-!
# The order of fields is part of the format

Two schemas that are equal up to order are told apart by what they write: at the first field that differs one of them
reports an error about its own field, and a variant is written with its own index. Main statement: they have the same
format only if they are equal in order as well, provided that indices fit their four bytes and that every enumeration
and union has a variant; without a variant nothing gets as far as the fields behind it.
-/
namespace WireFormat

namespace Written

/-- The bytes of what was written, or the error. -/
def outcome (attempt : Written) : Except WriteError (List UInt8) :=
  match attempt.error? with
  | none => .ok (bytesOf .little attempt.pieces)
  | some error => .error error

theorem outcome_of_error {attempt : Written} {error : WriteError} (h : attempt.error? = some error) :
    attempt.outcome = .error error := by
  rw [outcome, h]

theorem outcome_andThen_of_error {first : Written} {error : WriteError} (h : first.error? = some error)
    (second : Written) : (first.andThen second).outcome = .error error := by
  rw [andThen, h]
  exact outcome_of_error h

theorem all_single (attempt : Written) : all [attempt] = attempt := by
  obtain ⟨pieces, error?⟩ := attempt
  cases error? <;> simp [all]

theorem outcome_after_inj {front front' : List Piece} {first second : Written}
    (hfront : bytesOf .little front = bytesOf .little front') :
    (first.after front).outcome = (second.after front').outcome ↔ first.outcome = second.outcome := by
  obtain ⟨pieces, error?⟩ := first
  obtain ⟨others, other?⟩ := second
  cases error? <;> cases other? <;> simp [outcome, after, bytesOf_append, hfront]

section

variable {first first' second second' : Written}

theorem error?_eq_none_iff_of_size_eq (h : first.size = second.size) : first.error? = none ↔ second.error? = none := by
  rw [← not_iff_not, ← ne_eq, ← ne_eq, ← size_eq_top_iff, ← size_eq_top_iff, h]

/-- What comes first is found in front of all, since it takes as many bytes on both sides. -/
theorem outcome_eq_of_andThen_left (hsize : first.size = first'.size) (haccepted : second.error? = none)
    (haccepted' : second'.error? = none) (h : (first.andThen second).outcome = (first'.andThen second').outcome) :
    first.outcome = first'.outcome := by
  cases herror : first.error? with
  | some error =>
    obtain ⟨error', herror'⟩ : ∃ error', first'.error? = some error' := by
      rw [← Option.ne_none_iff_exists', ← size_eq_top_iff, ← hsize, size_eq_top_iff, herror]
      exact Option.some_ne_none error
    rw [outcome_andThen_of_error herror, outcome_andThen_of_error herror'] at h
    rw [outcome_of_error herror, outcome_of_error herror', h]
  | none =>
    obtain ⟨herror', hlength⟩ : first'.Takes (lengthOf first.pieces) := by
      rw [← size_eq_iff, ← hsize, size_eq_iff]
      exact ⟨herror, rfl⟩
    simp only [outcome, andThen, after, herror, herror', haccepted, haccepted', bytesOf_append, Except.ok.injEq] at h ⊢
    exact (List.append_inj h (by rw [length_bytesOf, length_bytesOf, hlength])).1

theorem outcome_eq_of_andThen_right (haccepted : first.error? = none) (hfirst : first.outcome = first'.outcome)
    (h : (first.andThen second).outcome = (first'.andThen second').outcome) : second.outcome = second'.outcome := by
  obtain ⟨pieces, error?⟩ := first
  obtain ⟨pieces', error?'⟩ := first'
  cases haccepted
  cases error?' with
  | some error => cases hfirst
  | none =>
    have hbytes : bytesOf .little pieces = bytesOf .little pieces' := Except.ok.inj hfirst
    exact (outcome_after_inj hbytes).1 h

end

end Written

namespace Schema

theorem encode_eq_outcome (schema : Schema) (value : Value) : schema.encode value = (schema.write value).outcome :=
  encode_eq schema value

theorem encodedLength_eq_ok_iff (schema : Schema) (value : Value) (n : Nat) :
    schema.encodedLength value = .ok n ↔ (schema.write value).size = n := by
  rw [encodedLength_eq, Written.size_eq_iff, Written.Takes]
  cases (schema.write value).error? <;> simp

/-- Values of three kinds that every wrapper passes on as they are. -/
def probes : List Value :=
  [.bool true, .vec [], .unit ""]

theorem offered_of_mem_probes {value : Value} (h : value ∈ probes) :
    value.present? = some value ∧ value.nonNull? = some value := by
  simp only [probes, List.mem_cons, List.not_mem_nil, or_false] at h
  rcases h with rfl | rfl | rfl <;> exact ⟨rfl, rfl⟩

/-- Of the three kinds every schema refuses two, and names in its error what it has found. -/
theorem exists_two_refused (schema : Schema) :
    ∃ first ∈ probes, ∃ second ∈ probes, ∃ error error', error ≠ error' ∧
      (schema.write first).error? = some error ∧ (schema.write second).error? = some error' := by
  induction schema using induction_on_parts with
  | step schema ih =>
    cases schema with
    | bool => exact ⟨.vec [], by simp [probes], .unit "", by simp [probes], _, _, by simp [mismatch, Value.kind], rfl, rfl⟩
    | vec element =>
      exact ⟨.bool true, by simp [probes], .unit "", by simp [probes], _, _, by simp [mismatch, Value.kind], rfl, rfl⟩
    | option element =>
      obtain ⟨first, hfirst, second, hsecond, error, error', hne, herror, herror'⟩ := ih element List.mem_cons_self
      refine ⟨first, hfirst, second, hsecond, error, error', hne, ?_⟩
      rw [write_option_eq, write_option_eq, (offered_of_mem_probes hfirst).1, (offered_of_mem_probes hsecond).1]
      exact ⟨herror, herror'⟩
    | nullable element =>
      obtain ⟨first, hfirst, second, hsecond, error, error', hne, herror, herror'⟩ := ih element List.mem_cons_self
      refine ⟨first, hfirst, second, hsecond, error, error', hne, ?_⟩
      rw [write_nullable_eq, write_nullable_eq, (offered_of_mem_probes hfirst).2, (offered_of_mem_probes hsecond).2]
      exact ⟨herror, herror'⟩
    | _ => exact ⟨.bool true, by simp [probes], .vec [], by simp [probes], _, _, by simp [mismatch, Value.kind], rfl, rfl⟩

/-- Whatever the error, the schema has another one for some value. -/
theorem exists_refused (schema : Schema) (error : WriteError) :
    ∃ value found, (schema.write value).error? = some found ∧ found ≠ error := by
  obtain ⟨first, -, second, -, found, found', hne, hfirst, hsecond⟩ := schema.exists_two_refused
  by_cases heq : found = error
  · exact ⟨second, found', hsecond, heq ▸ hne.symm⟩
  · exact ⟨first, found, hfirst, heq⟩

/-- What a schema needs for its order to show: names that are distinct, indices that fit their four bytes, and a variant
in every enumeration and union. -/
structure Proper (schema : Schema) : Prop where
  keyed : schema.Keyed
  indexed : schema.Indexed
  declares : ∀ node ∈ schema.nodes, node.declares = true

theorem Proper.part {schema part : Schema} (h : schema.Proper) (hpart : part ∈ schema.parts) : part.Proper where
  keyed := h.keyed.part hpart
  indexed := h.indexed.part hpart
  declares node hnode := h.declares node (mem_nodes_of_mem_parts hpart hnode)

/-- The value of another field is not looked at. -/
theorem writeFields_fresh {name : String} {fields : List (String × Schema)} (hfresh : name ∉ Entries.names fields)
    (value : Value) (values : List (String × Value)) :
    writeFields fields ((name, value) :: values) = writeFields fields values := by
  induction fields with
  | nil => rfl
  | cons field rest ih =>
    obtain ⟨other, schema⟩ := field
    rw [Entries.names, List.map_cons, List.mem_cons, not_or] at hfresh
    have hne : (other == name) = false := beq_false_of_ne fun h => hfresh.1 h.symm
    rw [writeFields_eq_andThen, writeFields_eq_andThen, ih hfresh.2, writeField, writeField, List.lookup_cons, hne]

/-- The value of the first field is only looked at there. -/
theorem writeFields_cons_fresh {name : String} {rest : List (String × Schema)} (hfresh : name ∉ Entries.names rest)
    (schema : Schema) (value : Value) (values : List (String × Value)) :
    writeFields ((name, schema) :: rest) ((name, value) :: values) =
      (schema.write value).andThen (writeFields rest values) := by
  rw [writeFields_eq_andThen, writeFields_fresh hfresh, writeField, List.lookup_cons_self]

theorem exists_accepted_fields {fields : List (String × Schema)} (hnodup : (Entries.names fields).Nodup)
    (h : ∀ part ∈ fields.map Prod.snd, ∃ value, part.Accepts value) :
    ∃ values, (writeFields fields values).error? = none := by
  induction fields with
  | nil => exact ⟨[], rfl⟩
  | cons field rest ih =>
    obtain ⟨name, schema⟩ := field
    obtain ⟨hfresh, hnodup⟩ := List.nodup_cons.1 hnodup
    obtain ⟨⟨value, hvalue⟩, hrest⟩ := List.forall_mem_cons.1 h
    obtain ⟨values, hvalues⟩ := ih hnodup hrest
    refine ⟨(name, value) :: values, ?_⟩
    rw [writeFields_cons_fresh hfresh, Written.error?_andThen_eq_none_iff]
    exact ⟨hvalue, hvalues⟩

theorem exists_accepted_components {components : List Schema} (h : ∀ part ∈ components, ∃ value, part.Accepts value) :
    ∃ values, values.length = components.length ∧ (writeComponents components values).error? = none := by
  induction components with
  | nil => exact ⟨[], rfl, rfl⟩
  | cons schema rest ih =>
    obtain ⟨⟨value, hvalue⟩, hrest⟩ := List.forall_mem_cons.1 h
    obtain ⟨values, hlength, hvalues⟩ := ih hrest
    refine ⟨value :: values, congrArg Nat.succ hlength, ?_⟩
    rw [writeComponents, Written.error?_andThen_eq_none_iff]
    exact ⟨hvalue, hvalues⟩

theorem exists_accepted_variant {entry : Option Schema} (h : ∀ schema ∈ entry, ∃ value, schema.Accepts value)
    (tag : String) (index : Nat) :
    ∃ value, value.variant? = some tag ∧ (writeUnion [(tag, entry)] index value).error? = none := by
  cases entry with
  | none =>
    refine ⟨.unit tag, rfl, ?_⟩
    rw [writeUnion_unit]
    rfl
  | some schema =>
    obtain ⟨payload, hpayload⟩ := h schema rfl
    refine ⟨.tagged tag payload, rfl, ?_⟩
    rw [writeUnion_tagged]
    exact hpayload

theorem exists_accepted (schema : Schema) (h : schema.Proper) : ∃ value, schema.Accepts value := by
  induction schema using induction_on_parts with
  | step schema ih =>
    have hparts : ∀ part ∈ schema.parts, ∃ value, part.Accepts value := fun part hpart => ih part hpart (h.part hpart)
    have hhere := h.declares _ (mem_nodes schema)
    cases schema with
    | bool => exact ⟨.bool true, rfl⟩
    | str => exact ⟨.str "", rfl⟩
    | u8 | u16 | u32 | i32 => exact ⟨.int 0, rfl⟩
    | f32 | f64 => exact ⟨.float ⟨0⟩, rfl⟩
    | enum names =>
      cases names with
      | nil => cases hhere
      | cons name rest => exact ⟨.str name, by simp [Accepts, write, List.idxOf?_cons]⟩
    | struct fields =>
      obtain ⟨values, hvalues⟩ := exists_accepted_fields h.keyed.1 hparts
      exact ⟨.struct values, hvalues⟩
    | tuple components =>
      obtain ⟨values, hlength, hvalues⟩ := exists_accepted_components hparts
      refine ⟨.tuple values, ?_⟩
      have hwrite : (tuple components).write (.tuple values) = writeComponents components values := if_pos hlength
      rw [Accepts, hwrite]
      exact hvalues
    | union variants =>
      cases variants with
      | nil => cases hhere
      | cons variant rest =>
        obtain ⟨tag, entry⟩ := variant
        have hentry : ∀ schema ∈ entry, ∃ value, schema.Accepts value := by
          rintro schema ⟨⟩
          exact hparts schema List.mem_cons_self
        obtain ⟨value, htag, hvalue⟩ := exists_accepted_variant hentry tag 0
        refine ⟨value, ?_⟩
        rw [Accepts, write_union, writeUnion_head htag]
        exact hvalue
    | vec element => exact ⟨.vec [], rfl⟩
    | option element => exact ⟨.undefined, rfl⟩
    | nullable element => exact ⟨.null, rfl⟩

/-- Equal up to order, and equal as soon as they write all values alike; a null need not be looked at, since below a
nullable it is not written by the element. -/
structure Rigid (a b : Schema) : Prop where
  proper : a.Proper
  same : a.same b = true
  eq_of_outcome : (∀ value, value.kind ≠ .null → (a.write value).outcome = (b.write value).outcome) → a = b

theorem Rigid.sameSize {a b : Schema} (h : a.Rigid b) : a.SameSize b :=
  sameSize_of_same h.same h.proper.keyed

theorem accepted_of_rigid {as bs : List Schema} (h : List.Forall₂ Rigid as bs) :
    ∀ part ∈ as, ∃ value, part.Accepts value := by
  have haccepted := h.imp fun a b hab => And.intro (a.exists_accepted hab.proper) hab
  exact ((List.forall₂_and_left as bs).1 haccepted).1

/-- In front of something that is accepted a schema is told apart, and so is what stands behind it. -/
theorem Rigid.eq_and_rest {a b : Schema} (h : a.Rigid b) {ι : Type} {rest rest' : ι → Written}
    (hsize : ∀ i, (rest i).size = (rest' i).size) (haccepted : ∃ i, (rest i).error? = none)
    (hboth : ∀ value i, ((a.write value).andThen (rest i)).outcome = ((b.write value).andThen (rest' i)).outcome) :
    a = b ∧ ∀ i, (rest i).outcome = (rest' i).outcome := by
  obtain ⟨i, hi⟩ := haccepted
  have hi' : (rest' i).error? = none := (Written.error?_eq_none_iff_of_size_eq (hsize i)).1 hi
  have hhead : ∀ value, (a.write value).outcome = (b.write value).outcome := fun value =>
    Written.outcome_eq_of_andThen_left (h.sameSize value) hi hi' (hboth value i)
  obtain ⟨value, hvalue⟩ := a.exists_accepted h.proper
  exact ⟨h.eq_of_outcome fun value _ => hhead value, fun i =>
    Written.outcome_eq_of_andThen_right hvalue (hhead value) (hboth value i)⟩

theorem eq_of_writeComponents {as bs : List Schema} (h : List.Forall₂ Rigid as bs)
    (hwrite : ∀ values, values.length = as.length →
      (writeComponents as values).outcome = (writeComponents bs values).outcome) : as = bs := by
  induction h with
  | nil => rfl
  | @cons a b as bs hfirst hrest ih =>
    have hsize : ∀ values, (writeComponents as values).size = (writeComponents bs values).size :=
      size_writeComponents (hrest.imp fun _ _ h => h.sameSize)
    obtain ⟨values, hlength, hvalues⟩ := exists_accepted_components (accepted_of_rigid hrest)
    obtain ⟨rfl, htail⟩ := hfirst.eq_and_rest (ι := { values : List Value // values.length = as.length })
      (fun values => hsize values.1) ⟨⟨values, hlength⟩, hvalues⟩
      fun value values => hwrite (value :: values.1) (congrArg Nat.succ values.2)
    rw [ih fun values hlength => htail ⟨values, hlength⟩]

/-- Where the first names differ, each can be given a value that is refused there, with another error on each side. -/
theorem name_eq_of_writeFields {name name' : String} {a b : Schema} {as bs : List (String × Schema)}
    (hwrite : ∀ values,
      (writeFields ((name, a) :: as) values).outcome = (writeFields ((name', b) :: bs) values).outcome) :
    name = name' := by
  by_contra hne
  obtain ⟨value', -, -, -, error', -, -, herror', -⟩ := b.exists_two_refused
  obtain ⟨value, error, herror, hdiffer⟩ := a.exists_refused error'
  have hfirst : (writeField [(name, value), (name', value')] (name, a)).error? = some error := by
    rwa [writeField, List.lookup_cons_self]
  have hsecond : (writeField [(name, value), (name', value')] (name', b)).error? = some error' := by
    rwa [writeField, List.lookup_cons, beq_false_of_ne (Ne.symm hne), List.lookup_cons_self]
  have heq := hwrite [(name, value), (name', value')]
  rw [writeFields_eq_andThen, writeFields_eq_andThen, Written.outcome_andThen_of_error hfirst,
    Written.outcome_andThen_of_error hsecond] at heq
  exact hdiffer (Except.error.inj heq)

/-- The fields are told apart one after the other, first their names and then their schemas. -/
theorem eq_of_writeFields {as bs : List (String × Schema)} (hnodup : (Entries.names as).Nodup)
    (h : Entries.Matches Rigid as bs)
    (hwrite : ∀ values, (writeFields as values).outcome = (writeFields bs values).outcome) : as = bs := by
  induction as generalizing bs with
  | nil => exact (List.eq_nil_of_length_eq_zero h.1.symm).symm
  | cons field as ih =>
    cases bs with
    | nil => cases h.1
    | cons other bs =>
      obtain ⟨name, a⟩ := field
      obtain ⟨name', b⟩ := other
      obtain rfl : name = name' := name_eq_of_writeFields hwrite
      have hnodup' : (Entries.names ((name, b) :: bs)).Nodup := (h.names_perm hnodup).nodup_iff.1 hnodup
      obtain ⟨hfresh, hnodup⟩ := List.nodup_cons.1 hnodup
      obtain ⟨hfresh', -⟩ := List.nodup_cons.1 hnodup'
      obtain ⟨hfirst, hrest⟩ := h.tail hfresh
      have hsize : ∀ values, (writeFields as values).size = (writeFields bs values).size :=
        size_writeFields_of_matches hnodup (hrest.mono fun _ _ _ hb => ⟨hb.same, hb.sameSize⟩)
      have haccepted : ∃ values, (writeFields as values).error? = none := by
        refine exists_accepted_fields hnodup fun part hpart => ?_
        obtain ⟨entry, hentry, rfl⟩ := List.mem_map.1 hpart
        obtain ⟨b, -, hb⟩ := hrest.2 entry hentry
        exact entry.2.exists_accepted hb.proper
      have hboth : ∀ value values, ((a.write value).andThen (writeFields as values)).outcome =
          ((b.write value).andThen (writeFields bs values)).outcome := by
        intro value values
        rw [← writeFields_cons_fresh hfresh, ← writeFields_cons_fresh hfresh']
        exact hwrite _
      obtain ⟨rfl, htail⟩ := hfirst.eq_and_rest hsize haccepted hboth
      rw [ih hnodup hrest htail]

/-- What is written of a variant starts with its index. -/
theorem pieces_writeUnion_single {tag : String} {entry : Option Schema} {index : Nat} {value : Value}
    (h : (writeUnion [(tag, entry)] index value).error? = none) :
    ∃ rest, (writeUnion [(tag, entry)] index value).pieces = .index index :: rest := by
  obtain ⟨rfl, rfl⟩ | ⟨schema, payload, rfl, rfl, -⟩ | ⟨-, hnone⟩ := union_accepted h
  · exact ⟨[], by rw [writeUnion_unit]; rfl⟩
  · exact ⟨(schema.write payload).pieces, by rw [writeUnion_tagged]; rfl⟩
  · cases value <;> cases hnone

theorem index_eq_of_bytesOf {i j : Nat} {xs ys : List Piece} (hi : i < 0x100000000) (hj : j < 0x100000000)
    (h : bytesOf .little (.index i :: xs) = bytesOf .little (.index j :: ys)) : i = j := by
  rw [bytesOf_cons, bytesOf_cons] at h
  have hdigits := (List.append_inj h (by rw [Piece.length_bytes, Piece.length_bytes]; rfl)).1
  have hnumber : i % span 4 = j % span 4 := by
    rw [← ByteOrder.number_bytes .little, ← ByteOrder.number_bytes .little]
    exact congrArg _ hdigits
  have hspan : span 4 = 0x100000000 := rfl
  rwa [hspan, Nat.mod_eq_of_lt hi, Nat.mod_eq_of_lt hj] at hnumber

/-- The same value at two places is told apart by the index. -/
theorem index_eq_of_writeUnion {tag : String} {first second : Option Schema} {i j : Nat} {value : Value}
    (hi : i < 0x100000000) (hj : j < 0x100000000) (haccepted : (writeUnion [(tag, first)] i value).error? = none)
    (h : (writeUnion [(tag, first)] i value).outcome = (writeUnion [(tag, second)] j value).outcome) : i = j := by
  obtain ⟨xs, hxs⟩ := pieces_writeUnion_single haccepted
  cases haccepted' : (writeUnion [(tag, second)] j value).error? with
  | some error =>
    rw [Written.outcome_of_error haccepted', Written.outcome, haccepted] at h
    cases h
  | none =>
    obtain ⟨ys, hys⟩ := pieces_writeUnion_single haccepted'
    rw [Written.outcome, Written.outcome, haccepted, haccepted', hxs, hys] at h
    exact index_eq_of_bytesOf hi hj (Except.ok.inj h)

theorem exists_accepted_of_rigid {entry held : Option Schema} (h : Option.Rel Rigid entry held) :
    ∀ schema ∈ entry, ∃ value, schema.Accepts value := by
  rintro schema ⟨⟩
  cases h with
  | some hrigid => exact schema.exists_accepted hrigid.proper

/-- Where the first tags differ, a value of the first tag is written with another index. -/
theorem tag_eq_of_writeUnion {tag tag' : String} {entry entry' held : Option Schema}
    {as bs : List (String × Option Schema)} {start : Nat} (hheld : ((tag', entry') :: bs).lookup tag = some held)
    (hrelated : Option.Rel Rigid entry held) (hbounded : start + (bs.length + 1) ≤ 0x100000000)
    (hwrite : ∀ value name, value.variant? = some name →
      (writeUnion ((tag, entry) :: as) start value).outcome = (writeUnion ((tag', entry') :: bs) start value).outcome) :
    tag = tag' := by
  by_contra hne
  rw [List.lookup_cons, beq_false_of_ne hne] at hheld
  obtain ⟨value, hvariant, hvalue⟩ := exists_accepted_variant (exists_accepted_of_rigid hrelated) tag start
  have hpass : value.variant? ≠ some tag' := fun heq => hne (Option.some.inj (hvariant.symm.trans heq))
  obtain ⟨index, hbehind, hlt, hindex⟩ := writeUnion_of_lookup hheld hvariant (start + 1)
  have heq := hwrite value tag hvariant
  rw [writeUnion_head hvariant, writeUnion_cons hpass, hindex] at heq
  have hsame := index_eq_of_writeUnion (by omega) (by omega) hvalue heq
  omega

/-- The variants are told apart one after the other, first their tags and then their payloads. -/
theorem eq_of_writeUnion {as bs : List (String × Option Schema)} {start : Nat} (hnodup : (Entries.names as).Nodup)
    (h : Entries.Matches (Option.Rel Rigid) as bs) (hbounded : start + as.length ≤ 0x100000000)
    (hwrite : ∀ value tag, value.variant? = some tag →
      (writeUnion as start value).outcome = (writeUnion bs start value).outcome) : as = bs := by
  induction as generalizing bs start with
  | nil => exact (List.eq_nil_of_length_eq_zero h.1.symm).symm
  | cons variant as ih =>
    cases bs with
    | nil => cases h.1
    | cons other bs =>
      obtain ⟨tag, entry⟩ := variant
      obtain ⟨tag', entry'⟩ := other
      have hlength : as.length = bs.length := Nat.succ.inj h.1
      rw [List.length_cons] at hbounded
      obtain rfl : tag = tag' := by
        obtain ⟨⟨held, hheld, hrelated⟩, -⟩ := List.forall_mem_cons.1 h.2
        exact tag_eq_of_writeUnion hheld hrelated (hlength ▸ hbounded) hwrite
      have hnodup' : (Entries.names ((tag, entry') :: bs)).Nodup := (h.names_perm hnodup).nodup_iff.1 hnodup
      obtain ⟨hfresh, hnodup⟩ := List.nodup_cons.1 hnodup
      obtain ⟨hfresh', -⟩ := List.nodup_cons.1 hnodup'
      obtain ⟨hfirst, hrest⟩ := h.tail hfresh
      have hentry : entry = entry' := by
        cases hfirst with
        | none => rfl
        | @some a b hrigid =>
          have hpayload : ∀ payload, (a.write payload).outcome = (b.write payload).outcome := by
            intro payload
            have heq := hwrite (.tagged tag payload) tag rfl
            rwa [writeUnion_tagged, writeUnion_tagged, Written.outcome_after_inj rfl] at heq
          rw [hrigid.eq_of_outcome fun payload _ => hpayload payload]
      have htail : as = bs := by
        refine @ih bs (start + 1) hnodup hrest (by omega) fun value name hname => ?_
        by_cases heq : name = tag
        · subst heq
          rw [writeUnion_of_lookup_none (Entries.lookup_eq_none hfresh) hname,
            writeUnion_of_lookup_none (Entries.lookup_eq_none hfresh') hname]
        · have hpass : value.variant? ≠ some tag := fun h => heq (Option.some.inj (hname.symm.trans h))
          have hboth := hwrite value name hname
          rwa [writeUnion_cons hpass, writeUnion_cons hpass] at hboth
      rw [hentry, htail]

/-- By induction on equality up to order. Whatever an element of a wrapper, a sequence or a variant writes stands behind
the same bytes on both sides. -/
theorem eq_of_outcome {a b : Schema} (hsame : a.same b = true) (hproper : a.Proper)
    (hwrite : ∀ value, value.kind ≠ .null → (a.write value).outcome = (b.write value).outcome) : a = b := by
  revert hproper hwrite
  refine same_induction hsame ?refl ?struct ?tuple ?union ?vec ?option ?nullable
  case refl => exact fun _ _ _ => rfl
  case struct =>
    intro as bs h hproper hwrite
    have hfields : Entries.Matches Rigid as bs :=
      h.mono fun a ha b hb => ⟨hproper.part ha, hb.1, hb.2 (hproper.part ha)⟩
    rw [eq_of_writeFields hproper.keyed.1 hfields fun values => hwrite (.struct values) Kind.noConfusion]
  case tuple =>
    intro as bs h hproper hwrite
    have hparts : List.Forall₂ Rigid as bs :=
      ((List.forall₂_and_left as bs).2 ⟨fun _ => hproper.part, h⟩).imp fun a b hab => ⟨hab.1, hab.2.1, hab.2.2 hab.1⟩
    rw [eq_of_writeComponents hparts fun values hlength => ?_]
    have hboth := hwrite (.tuple values) Kind.noConfusion
    rwa [write, write, if_pos hlength, if_pos (hlength.trans h.length_eq)] at hboth
  case union =>
    intro as bs h hproper hwrite
    have hvariants : Entries.Matches (Option.Rel Rigid) as bs :=
      h.mono_some fun a ha b hb => ⟨hproper.part ha, hb.1, hb.2 (hproper.part ha)⟩
    have hbounded : 0 + as.length ≤ 0x100000000 := (Nat.zero_add _).symm ▸ hproper.indexed _ (mem_nodes _)
    rw [eq_of_writeUnion hproper.keyed.1 hvariants hbounded fun value tag htag => ?_]
    rw [← write_union, ← write_union]
    exact hwrite value (Value.kind_of_variant? htag ▸ Kind.noConfusion)
  case vec =>
    intro a b _ h hproper hwrite
    rw [h (hproper.part List.mem_cons_self) fun value _ => ?_]
    have hboth := hwrite (.vec [value]) Kind.noConfusion
    rwa [write, write, Written.outcome_after_inj rfl, List.map_singleton, List.map_singleton, Written.all_single,
      Written.all_single] at hboth
  case option =>
    intro a b _ h hproper hwrite
    rw [h (hproper.part List.mem_cons_self) fun value _ => ?_]
    exact (Written.outcome_after_inj rfl).1 (hwrite (.present value) Kind.noConfusion)
  case nullable =>
    intro a b _ h hproper hwrite
    rw [h (hproper.part List.mem_cons_self) fun value hkind => ?_]
    have hboth := hwrite value hkind
    rwa [write_nullable hkind, write_nullable hkind, Written.outcome_after_inj rfl] at hboth

/-- Every value is written alike and every byte string is read alike. -/
def SameFormat (a b : Schema) : Prop :=
  (∀ value, a.encode value = b.encode value) ∧ ∀ leftover bs, a.decode leftover bs = b.decode leftover bs

/-- What two schemas that are equal up to order have in common, and when their formats are the same. -/
theorem same_format_iff_eq {a b : Schema} (hsame : a.same b = true) (hkeyed : a.Keyed) :
    (∀ value n, a.encodedLength value = .ok n ↔ b.encodedLength value = .ok n) ∧
      (a.Indexed → (∀ node ∈ a.nodes, node.declares = true) →
        ((∀ value, a.encode value = b.encode value) ↔ a = b) ∧ (a.SameFormat b ↔ a = b)) := by
  constructor
  · intro value n
    rw [encodedLength_eq_ok_iff, encodedLength_eq_ok_iff, sameSize_of_same hsame hkeyed]
  · intro hindexed hdeclares
    have heq : (∀ value, a.encode value = b.encode value) → a = b := by
      intro hencode
      refine eq_of_outcome hsame ⟨hkeyed, hindexed, hdeclares⟩ fun value _ => ?_
      rw [← encode_eq_outcome, ← encode_eq_outcome, hencode]
    refine ⟨⟨heq, ?_⟩, ⟨fun hformat => heq hformat.1, ?_⟩⟩
    · rintro rfl
      exact fun _ => rfl
    · rintro rfl
      exact ⟨fun _ => rfl, fun _ _ => rfl⟩

/-- A sequence of tagged values, with the two tags in either order: the same size, but not the same bytes. -/
theorem same_format_iff_eq_union :
    let a : Schema := .vec (.union [("none", none), ("some", some .u16)])
    let b : Schema := .vec (.union [("some", some .u16), ("none", none)])
    a.same b = true ∧ a.Keyed ∧ a.Indexed ∧ (∀ node ∈ a.nodes, node.declares = true) ∧
      b.encodedLength (.vec [.unit "none", .tagged "some" (.int 7)]) = .ok 18 ∧ a ≠ b ∧
      ¬(∀ value, a.encode value = b.encode value) ∧ ¬a.SameFormat b := by
  intro a b
  have hsame : a.same b = true := rfl
  have hkeyed : a.Keyed := by simp [a, Keyed, KeyedVariants]
  have hindexed : a.Indexed := by decide
  have hdeclares : ∀ node ∈ a.nodes, node.declares = true := by decide
  have hne : a ≠ b := by simp [a, b]
  obtain ⟨hlength, hformat⟩ := same_format_iff_eq hsame hkeyed
  obtain ⟨hencode, hboth⟩ := hformat hindexed hdeclares
  exact ⟨hsame, hkeyed, hindexed, hdeclares, (hlength _ _).1 rfl, hne, fun h => hne (hencode.1 h),
    fun h => hne (hboth.1 h)⟩

/-- The least case: two fields that are exchanged are written, and read, at each other's place. -/
theorem fields_exchanged :
    let a : Schema := .struct [("x", .u8), ("y", .bool)]
    let b : Schema := .struct [("y", .bool), ("x", .u8)]
    let value : Value := .struct [("x", .int 1), ("y", .bool false)]
    let read : Value := .struct [("y", .bool true), ("x", .int 0)]
    (a.same b = true ∧ a.Keyed ∧ b.Keyed) ∧ a.encode value = .ok [1, 0] ∧ b.encode value = .ok [0, 1] ∧
      a.decode .rejected [1, 0] = .ok value ∧ b.decode .rejected [1, 0] = .ok read ∧ value.same read = false ∧
      ¬a.SameFormat b := by
  intro a b value read
  have hkeyed : a.Keyed := by simp [a, Keyed, KeyedFields]
  have hkeyed' : b.Keyed := by simp [b, Keyed, KeyedFields]
  refine ⟨⟨rfl, hkeyed, hkeyed'⟩, rfl, rfl, rfl, rfl, rfl, ?_⟩
  intro h
  have hbytes : [1, 0] = [(0 : UInt8), 1] := Except.ok.inj (h.1 value)
  exact absurd hbytes (by decide)

end Schema

end WireFormat
