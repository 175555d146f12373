import WireFormat.Proofs.Recovery
import WireFormat.Proofs.Retracing

/-!
# What was read is not changed again

An optional above an optional, with nullables between them, takes the mark of the lower one for its own. Main statement:
where no two optionals stand like this, whatever a schema reads is accepted by it as it is and comes back unchanged.
-/
namespace WireFormat
open Floating

namespace Reader

variable {b after : Buffer}

theorem exists_of_times_ok {α : Type} {element : Reader α} {n : Nat} {items : List α}
    (h : times element n b = (.ok items, after)) :
    ∀ a ∈ items, ∃ before behind, element before = (.ok a, behind) := by
  induction n generalizing b items with
  | zero =>
    obtain ⟨rfl, rfl⟩ := pure_ok h
    simp
  | succ n ih =>
    obtain ⟨a, between, hfirst, hnext⟩ := exists_of_bind_ok h
    obtain ⟨rest, between', hrest, hpure⟩ := exists_of_bind_ok hnext
    obtain ⟨rfl, rfl⟩ := pure_ok hpure
    exact List.forall_mem_cons.2 ⟨⟨b, between, hfirst⟩, ih hrest⟩

end Reader

namespace Schema

/-- An optional, or nullables around one. -/
def leadsToOption : Schema → Bool
  | option _ => true
  | nullable element => element.leadsToOption
  | _ => false

/-- An optional above an optional, with nullables between them. -/
def blurs : Schema → Bool
  | option (nullable element) => element.leadsToOption
  | _ => false

/-- No optional inside the schema stands above an optional with nullables between them. -/
def Clear (schema : Schema) : Prop :=
  ∀ node ∈ schema.nodes, node.blurs = false

instance (schema : Schema) : Decidable schema.Clear :=
  inferInstanceAs (Decidable (∀ node ∈ schema.nodes, node.blurs = false))

theorem Clear.part {schema part : Schema} (h : schema.Clear) (hpart : part ∈ schema.parts) : part.Clear :=
  fun node hnode => h node (mem_nodes_of_mem_parts hpart hnode)

theorem leadsToOption_of_shows (schema : Schema) (h : schema.Shows .some) : schema.leadsToOption = true := by
  match schema with
  | option _ => rfl
  | nullable element =>
    rcases h with h | h
    · cases h
    · exact element.leadsToOption_of_shows h
  | bool | str | u8 | u16 | u32 | i32 | f32 | f64 | enum _ | struct _ | tuple _ | union _ | vec _ =>
    exact absurd rfl h.2.1

/-- Below an optional, only another optional right below it reads marks. -/
theorem Clear.not_marked {element : Schema} (h : (Schema.option element).Clear) (htag : element.tag ≠ .option)
    {kind : Kind} (hkind : element.Shows kind) : kind ≠ .some := by
  rintro rfl
  have hleads := element.leadsToOption_of_shows hkind
  have hhere := h _ (mem_nodes _)
  cases element with
  | option element => exact htag rfl
  | nullable element => exact absurd (hleads.symm.trans hhere) (by decide)
  | _ => cases hleads

/-- The schema accepts the value and gives it back unchanged. -/
structure Stable (schema : Schema) (value : Value) : Prop where
  accepted : schema.Accepts value
  fixed : schema.recovered value = value

/-- Whatever the schema reads is stable. -/
def ReadsStable (schema : Schema) : Prop :=
  ∀ ⦃b after : Buffer⦄ ⦃value : Value⦄, schema.read b = (.ok value, after) → schema.Stable value

/-- What is read as one value of another type. -/
theorem readsStable_of_map {α : Type} {schema : Schema} {reader : Reader α} {image : α → Value}
    (hread : schema.read = reader >>= fun a => pure (image a)) (h : ∀ a, schema.Stable (image a)) :
    schema.ReadsStable := by
  intro b after value hvalue
  rw [hread] at hvalue
  obtain ⟨a, between, -, hpure⟩ := Reader.exists_of_bind_ok hvalue
  obtain ⟨rfl, -⟩ := Reader.pure_ok hpure
  exact h a

theorem stable_unsigned {schema : Schema} {bound n : Nat} (hbound : bound ≤ 0x100000000) (hn : n < bound)
    (haccepts : ∀ i, schema.Accepts (.int i))
    (hrecovered : ∀ value, schema.recovered value = recoveredInteger (· % (bound : Int)) value) :
    schema.Stable (.int (.ofInt n)) := by
  refine ⟨haccepts _, ?_⟩
  have hback : (Int64.ofInt n).toInt = n := Int64.toInt_ofInt_of_le (by omega) (by omega)
  rw [hrecovered]
  show Value.int (.ofInt ((Int64.ofInt n).toInt % bound)) = _
  rw [hback, Int.emod_eq_of_lt (Int.natCast_nonneg _) (by omega)]

theorem stable_signed (n : Int32) : Schema.i32.Stable (.int n.toInt64) := by
  refine ⟨rfl, ?_⟩
  show Value.int (.ofInt (Int.bmod n.toInt64.toInt 0x100000000)) = _
  rw [← Narrow.toInt_i32, Narrow.i32_toInt64, ← Int32.toInt_toInt64, Int64.ofInt_toInt]

/-- A repeated name is accepted, at its first index. -/
theorem readsStable_enum (names : List String) : (Schema.enum names).ReadsStable := by
  intro b after value h
  obtain ⟨index, hindex, -, rfl⟩ := read_enum_ok h
  refine ⟨?_, rfl⟩
  cases hfound : names.idxOf? names[index.toNat] with
  | none => exact absurd (List.getElem_mem hindex) (List.idxOf?_eq_none_iff.1 hfound)
  | some first => simp [Accepts, write, hfound]

theorem ReadsStable.fields {fields : List (String × Schema)} (h : ∀ part ∈ fields.map Prod.snd, part.ReadsStable)
    {b after : Buffer} {values : List (String × Value)} (hread : readFields fields b = (.ok values, after)) :
    ∀ all : List (String × Value), (∀ entry ∈ values, all.lookup entry.1 = some entry.2) →
      (writeFields fields all).error? = none ∧ recoveredFields fields all = values := by
  induction fields generalizing b values with
  | nil =>
    obtain ⟨rfl, -⟩ := Reader.pure_ok hread
    exact fun _ _ => ⟨rfl, rfl⟩
  | cons field rest ih =>
    obtain ⟨name, schema⟩ := field
    rw [List.map_cons, List.forall_mem_cons] at h
    obtain ⟨value, between, hvalue, hnext⟩ := Reader.exists_of_bind_ok hread
    obtain ⟨others, between', hothers, hpure⟩ := Reader.exists_of_bind_ok hnext
    obtain ⟨rfl, rfl⟩ := Reader.pure_ok hpure
    have hstable := h.1 hvalue
    intro all hall
    rw [List.forall_mem_cons] at hall
    obtain ⟨haccepts, hfixed⟩ := ih h.2 hothers all hall.2
    constructor
    · rw [writeFields, hall.1]
      exact (Written.error?_andThen_eq_none_iff _ _).2 ⟨hstable.accepted, haccepts⟩
    · rw [recoveredFields, Value.field, hall.1, Option.getD_some, hstable.fixed, hfixed]

theorem readsStable_struct {fields : List (String × Schema)} (hnodup : (Entries.names fields).Nodup)
    (h : ∀ part ∈ fields.map Prod.snd, part.ReadsStable) : (Schema.struct fields).ReadsStable := by
  intro b after value hread
  obtain ⟨values, between, hvalues, hpure⟩ := Reader.exists_of_bind_ok hread
  obtain ⟨rfl, -⟩ := Reader.pure_ok hpure
  have hnames := names_readFields hvalues
  obtain ⟨haccepts, hfixed⟩ := ReadsStable.fields h hvalues values fun _ hentry =>
    Entries.lookup_of_mem (hnames ▸ hnodup) hentry
  exact ⟨haccepts, congrArg Value.struct hfixed⟩

theorem ReadsStable.components {components : List Schema} (h : ∀ part ∈ components, part.ReadsStable)
    {b after : Buffer} {values : List Value} (hread : readComponents components b = (.ok values, after)) :
    (writeComponents components values).error? = none ∧ recoveredComponents components values = values := by
  induction components generalizing b values with
  | nil =>
    obtain ⟨rfl, -⟩ := Reader.pure_ok hread
    exact ⟨rfl, rfl⟩
  | cons schema rest ih =>
    rw [List.forall_mem_cons] at h
    obtain ⟨value, between, hvalue, hnext⟩ := Reader.exists_of_bind_ok hread
    obtain ⟨others, between', hothers, hpure⟩ := Reader.exists_of_bind_ok hnext
    obtain ⟨rfl, rfl⟩ := Reader.pure_ok hpure
    have hstable := h.1 hvalue
    obtain ⟨haccepts, hfixed⟩ := ih h.2 hothers
    constructor
    · rw [writeComponents]
      exact (Written.error?_andThen_eq_none_iff _ _).2 ⟨hstable.accepted, haccepts⟩
    · rw [recoveredComponents, hstable.fixed, hfixed]

theorem readsStable_tuple {components : List Schema} (h : ∀ part ∈ components, part.ReadsStable) :
    (Schema.tuple components).ReadsStable := by
  intro b after value hread
  obtain ⟨values, between, hvalues, hpure⟩ := Reader.exists_of_bind_ok hread
  obtain ⟨rfl, -⟩ := Reader.pure_ok hpure
  obtain ⟨haccepts, hfixed⟩ := ReadsStable.components h hvalues
  have hwrite : (Schema.tuple components).write (.tuple values) = writeComponents components values :=
    if_pos (length_readComponents hvalues)
  refine ⟨?_, congrArg Value.tuple hfixed⟩
  rw [Accepts, hwrite]
  exact haccepts

theorem ReadsStable.variant {variants : List (String × Option Schema)} (hnodup : (Entries.names variants).Nodup)
    (h : ∀ part ∈ variants.filterMap Prod.snd, part.ReadsStable) {index count skip : Nat} {b after : Buffer}
    {value : Value} (hread : readVariant index count variants skip b = (.ok value, after)) :
    (∀ start, (writeUnion variants start value).error? = none) ∧ (union variants).recovered value = value := by
  induction variants generalizing skip with
  | nil => cases hread
  | cons variant rest ih =>
    obtain ⟨tag, entry⟩ := variant
    obtain ⟨hfresh, hnodup⟩ := List.nodup_cons.1 hnodup
    cases skip with
    | zero =>
      cases entry with
      | none =>
        obtain ⟨rfl, -⟩ := Reader.pure_ok hread
        refine ⟨fun start => ?_, rfl⟩
        rw [writeUnion_unit]
        rfl
      | some schema =>
        obtain ⟨payload, between, hpayload, hpure⟩ := Reader.exists_of_bind_ok hread
        obtain ⟨rfl, -⟩ := Reader.pure_ok hpure
        have hstable := h schema List.mem_cons_self hpayload
        refine ⟨fun start => ?_, ?_⟩
        · rw [writeUnion_tagged]
          exact hstable.accepted
        · rw [recovered_union_tagged, hstable.fixed]
    | succ skip =>
      have hnext : readVariant index count rest skip b = (.ok value, after) := by cases entry <;> exact hread
      have hparts : ∀ part ∈ rest.filterMap Prod.snd, part.ReadsStable := fun part hpart =>
        h part (List.filterMap_subset _ (List.subset_cons_self _ _) hpart)
      have hne : value.variant? ≠ some tag := by
        obtain ⟨other, hother, hvalue⟩ := variant?_readVariant hnext
        rw [hvalue]
        rintro ⟨⟩
        exact hfresh hother
      obtain ⟨haccepts, hfixed⟩ := ih hnodup hparts hnext
      refine ⟨fun start => ?_, ?_⟩
      · rw [writeUnion_cons hne]
        exact haccepts _
      · rw [recovered_union_cons hne, hfixed]

theorem readsStable_union {variants : List (String × Option Schema)} (hnodup : (Entries.names variants).Nodup)
    (h : ∀ part ∈ variants.filterMap Prod.snd, part.ReadsStable) : (Schema.union variants).ReadsStable := by
  intro b after value hread
  obtain ⟨index, between, -, hvariant⟩ := Reader.exists_of_bind_ok hread
  obtain ⟨haccepts, hfixed⟩ := ReadsStable.variant hnodup h hvariant
  refine ⟨?_, hfixed⟩
  rw [Accepts, write_union]
  exact haccepts 0

theorem readsStable_vec {element : Schema} (h : element.ReadsStable) : (Schema.vec element).ReadsStable := by
  intro b after value hread
  obtain ⟨values, between, hseq, hpure⟩ := Reader.exists_of_bind_ok hread
  obtain ⟨rfl, -⟩ := Reader.pure_ok hpure
  obtain ⟨count, between', -, htimes⟩ := Reader.exists_of_bind_ok hseq
  have hitems := Reader.exists_of_times_ok htimes
  have hstable : ∀ item ∈ values, element.Stable item := fun item hitem => by
    obtain ⟨before, behind, hitem⟩ := hitems item hitem
    exact h hitem
  constructor
  · show (Written.all (values.map element.write)).error? = none
    rw [Written.error?_all_eq_none_iff, List.forall_mem_map]
    exact fun item hitem => (hstable item hitem).accepted
  · have hfixed : values.map element.recovered = values.map id := List.map_congr_left fun item hitem =>
      (hstable item hitem).fixed
    rw [recovered, hfixed, List.map_id]

theorem Stable.option {element : Schema} {value inner : Value} (h : element.Stable inner)
    (hoffered : value.present? = some inner) (hpresented : element.presented inner = value) :
    (Schema.option element).Stable value := by
  constructor
  · rw [Accepts, write_option_eq, hoffered]
    exact h.accepted
  · rw [recovered, hoffered]
    exact (congrArg element.presented h.fixed).trans hpresented

/-- Of what is read as present, only an absence is taken for an absence again, which it then is. -/
theorem readsStable_option {element : Schema} (hclear : (Schema.option element).Clear) (h : element.ReadsStable) :
    (Schema.option element).ReadsStable := by
  intro b after value hread
  obtain ⟨inner, between, hopt, hnext⟩ := Reader.exists_of_bind_ok hread
  obtain ⟨c, between', -, ⟨-, a, rfl, ha⟩ | ⟨-, rfl, -⟩⟩ := Reader.opt_ok hopt
  · obtain ⟨rfl, -⟩ := Reader.pure_ok hnext
    have hinner := h ha
    by_cases htag : element.tag = .option
    · have hpresent : element.presented a = .present a := by rw [presented_eq, if_pos htag]
      rw [hpresent]
      exact hinner.option rfl hpresent
    have hbare : element.presented a = a := by rw [presented_eq, if_neg htag]
    rw [hbare]
    by_cases habsent : a.kind = .undefined
    · cases a with
      | undefined => exact ⟨rfl, rfl⟩
      | _ => cases habsent
    · have hmarked := hclear.not_marked htag (element.read_shows ha)
      exact hinner.option (Value.present?_eq_some habsent hmarked) hbare
  · obtain ⟨rfl, -⟩ := Reader.pure_ok hnext
    exact ⟨rfl, rfl⟩

theorem readsStable_nullable {element : Schema} (h : element.ReadsStable) :
    (Schema.nullable element).ReadsStable := by
  intro b after value hread
  obtain ⟨inner, between, hopt, hpure⟩ := Reader.exists_of_bind_ok hread
  obtain ⟨rfl, -⟩ := Reader.pure_ok hpure
  obtain ⟨c, between', -, ⟨-, a, rfl, ha⟩ | ⟨-, rfl, -⟩⟩ := Reader.opt_ok hopt
  · have hinner := h ha
    by_cases hnull : a.kind = .null
    · cases a with
      | null => exact ⟨rfl, rfl⟩
      | _ => cases hnull
    · have hoffered : a.nonNull? = some a := Value.nonNull?_eq_some hnull
      constructor
      · rw [Accepts, Option.getD_some, write_nullable_eq, hoffered]
        exact hinner.accepted
      · rw [Option.getD_some, recovered, hoffered]
        exact hinner.fixed
  · exact ⟨rfl, rfl⟩

/-- By induction on the schema: what holds of the parts holds of what is read from them. -/
theorem readsStable (schema : Schema) (hkeyed : schema.Keyed) (hclear : schema.Clear) : schema.ReadsStable := by
  induction schema using induction_on_parts with
  | step schema ih =>
    have hparts : ∀ part ∈ schema.parts, part.ReadsStable := fun part hpart =>
      ih part hpart (hkeyed.part hpart) (hclear.part hpart)
    cases schema with
    | bool | str | f64 => exact readsStable_of_map rfl fun _ => ⟨rfl, rfl⟩
    | u8 | u16 | u32 =>
      exact readsStable_of_map rfl fun n => stable_unsigned (by decide) n.toNat_lt (fun _ => rfl) fun _ => rfl
    | i32 => exact readsStable_of_map rfl stable_signed
    | f32 => exact readsStable_of_map rfl fun x => ⟨rfl, congrArg Value.float (widen_narrow_widen x)⟩
    | enum names => exact readsStable_enum names
    | struct fields => exact readsStable_struct hkeyed.1 hparts
    | tuple components => exact readsStable_tuple hparts
    | union variants => exact readsStable_union hkeyed.1 hparts
    | vec element => exact readsStable_vec (hparts element List.mem_cons_self)
    | option element => exact readsStable_option hclear (hparts element List.mem_cons_self)
    | nullable element => exact readsStable_nullable (hparts element List.mem_cons_self)

-- Of the two marks the outer optional takes one away, each time that it is written.
example : (option (nullable (option (option .u8)))).recovered (.present (.present .undefined)) = .present .undefined ∧
    (option (nullable (option (option .u8)))).recovered (.present .undefined) = .undefined := ⟨rfl, rfl⟩

end Schema

end WireFormat
