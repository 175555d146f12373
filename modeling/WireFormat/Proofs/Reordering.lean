import Mathlib.Algebra.BigOperators.Group.List.Basic
import Mathlib.Data.ENat.Basic
import Mathlib.Data.List.Forall2
import Mathlib.Data.List.Nodup
import WireFormat.Schema.Equality
import WireFormat.Proofs.Acceptance

/-!
# Schemas that are equal up to order

Equality looks fields and variants up by name, at every depth, and so takes reordered schemas for equal. Main statement:
such schemas accept the same values and write each in the same number of bytes.
-/
namespace WireFormat

namespace Entries

variable {α : Type} {related related' : α → α → Prop} {as bs : List (String × α)}

/-- There are as many entries in both lists, and every one of the first is bound to a related item in the second. -/
def Matches (related : α → α → Prop) (as bs : List (String × α)) : Prop :=
  as.length = bs.length ∧ ∀ entry ∈ as, ∃ b, bs.lookup entry.1 = some b ∧ related entry.2 b

theorem Matches.mono (h : Matches related as bs)
    (himp : ∀ a ∈ as.map Prod.snd, ∀ b, related a b → related' a b) : Matches related' as bs := by
  refine ⟨h.1, fun entry hentry => ?_⟩
  obtain ⟨b, hb, hrelated⟩ := h.2 entry hentry
  exact ⟨b, hb, himp entry.2 (List.mem_map_of_mem hentry) b hrelated⟩

/-- Where an item may be left out, only the items that are there matter. -/
theorem Matches.mono_some {as bs : List (String × Option α)} (h : Matches (Option.Rel related) as bs)
    (himp : ∀ a ∈ as.filterMap Prod.snd, ∀ b, related a b → related' a b) : Matches (Option.Rel related') as bs := by
  refine ⟨h.1, fun entry hentry => ?_⟩
  obtain ⟨other, hother, hrelated⟩ := h.2 entry hentry
  refine ⟨other, hother, ?_⟩
  obtain ⟨name, item⟩ := entry
  cases hrelated with
  | none => exact .none
  | @some a b hab => exact .some (himp a (List.mem_filterMap.2 ⟨_, hentry, rfl⟩) b hab)

/-- The entries of the second list that the first one names, in its order. -/
def arranged (as bs : List (String × α)) : List (String × α) :=
  as.map fun entry => (entry.1, (bs.lookup entry.1).getD entry.2)

theorem Matches.forall₂_arranged (h : Matches related as bs) :
    List.Forall₂ (fun entry other => entry.1 = other.1 ∧ related entry.2 other.2) as (arranged as bs) := by
  rw [arranged, List.forall₂_map_right_iff, List.forall₂_same]
  intro entry hentry
  obtain ⟨b, hb, hrelated⟩ := h.2 entry hentry
  rw [hb]
  exact ⟨rfl, hrelated⟩

/-- Where no name occurs twice, arranging leaves no entry out. -/
theorem Matches.arranged_perm (h : Matches related as bs) (hnodup : (names as).Nodup) : (arranged as bs).Perm bs := by
  have hdistinct : (arranged as bs).Nodup := by
    apply List.Nodup.of_map Prod.fst
    rwa [arranged, List.map_map]
  have hsubset : arranged as bs ⊆ bs := by
    intro other hother
    obtain ⟨entry, hentry, rfl⟩ := List.mem_map.1 hother
    obtain ⟨b, hb, -⟩ := h.2 entry hentry
    rw [hb]
    exact mem_of_lookup hb
  refine (List.subperm_of_subset hdistinct hsubset).perm_of_length_le ?_
  rw [arranged, List.length_map, h.1]

theorem Matches.names_perm (h : Matches related as bs) (hnodup : (names as).Nodup) : (names as).Perm (names bs) := by
  have hnames : names (arranged as bs) = names as := List.map_map
  exact hnames ▸ (h.arranged_perm hnodup).map Prod.fst

/-- The lists bind the same names. -/
theorem Matches.lookup (h : Matches related as bs) (hnodup : (names as).Nodup) (name : String) :
    Option.Rel related (as.lookup name) (bs.lookup name) := by
  cases hitem : as.lookup name with
  | some a =>
    obtain ⟨b, hb, hrelated⟩ := h.2 _ (mem_of_lookup hitem)
    rw [hb]
    exact .some hrelated
  | none =>
    have hmissing : name ∉ names bs := by
      intro hmem
      obtain ⟨⟨other, a⟩, hentry, rfl⟩ := List.mem_map.1 ((h.names_perm hnodup).mem_iff.2 hmem)
      rw [lookup_of_mem hnodup hentry] at hitem
      cases hitem
    rw [lookup_eq_none hmissing]
    exact .none

/-- Where the first names agree, what is behind them still matches. -/
theorem Matches.tail {name : String} {a b : α} (h : Matches related ((name, a) :: as) ((name, b) :: bs))
    (hfresh : name ∉ names as) : related a b ∧ Matches related as bs := by
  obtain ⟨hlength, hentries⟩ := h
  obtain ⟨⟨held, hheld, hrelated⟩, hrest⟩ := List.forall_mem_cons.1 hentries
  rw [List.lookup_cons_self] at hheld
  cases hheld
  refine ⟨hrelated, Nat.succ.inj hlength, fun entry hentry => ?_⟩
  obtain ⟨item, hitem, hrelated⟩ := hrest entry hentry
  have hne : entry.1 ≠ name := fun heq => hfresh (heq ▸ List.mem_map_of_mem hentry)
  rw [List.lookup_cons, beq_false_of_ne hne] at hitem
  exact ⟨item, hitem, hrelated⟩

/-- Whatever related items contribute alike adds up to the same. -/
theorem Matches.sum_eq {M : Type} [AddCommMonoid M] {f : String × α → M} (h : Matches related as bs)
    (hnodup : (names as).Nodup) (hf : ∀ name a b, related a b → f (name, a) = f (name, b)) :
    (as.map f).sum = (bs.map f).sum := by
  have hmap : as.map f = (arranged as bs).map f := by
    rw [← List.forall₂_eq_eq_eq, List.forall₂_map_left_iff, List.forall₂_map_right_iff]
    refine h.forall₂_arranged.imp ?_
    rintro ⟨name, a⟩ ⟨other, b⟩ ⟨rfl, hrelated⟩
    exact hf name a b hrelated
  rw [hmap]
  exact ((h.arranged_perm hnodup).map f).sum_eq

end Entries

namespace Written

/-- The number of bytes that an attempt takes; one that fails takes no finite number. -/
def size (attempt : Written) : ℕ∞ :=
  match attempt.error? with
  | none => lengthOf attempt.pieces
  | some _ => ⊤

@[simp] theorem size_done (pieces : List Piece) : (done pieces).size = lengthOf pieces := rfl

@[simp] theorem size_refused (error : WriteError) : (refused error).size = ⊤ := rfl

@[simp] theorem size_after (front : List Piece) (attempt : Written) :
    (attempt.after front).size = lengthOf front + attempt.size := by
  obtain ⟨pieces, error?⟩ := attempt
  cases error? <;> simp [size, after, lengthOf_append]

@[simp] theorem size_andThen (first second : Written) : (first.andThen second).size = first.size + second.size := by
  obtain ⟨pieces, error?⟩ := first
  cases error? with
  | none => exact second.size_after pieces
  | some error => simp [size, andThen]

@[simp] theorem size_all (attempts : List Written) : (all attempts).size = (attempts.map size).sum := by
  induction attempts with
  | nil => rfl
  | cons attempt attempts ih =>
    obtain ⟨pieces, error?⟩ := attempt
    rw [List.map_cons, List.sum_cons, ← ih]
    cases error? with
    | none => exact (all attempts).size_after pieces
    | some error => simp [size, all]

theorem size_eq_iff (attempt : Written) (n : Nat) : attempt.size = n ↔ attempt.Takes n := by
  obtain ⟨pieces, error?⟩ := attempt
  cases error? <;> simp [size, Takes]

theorem size_eq_top_iff (attempt : Written) : attempt.size = ⊤ ↔ attempt.error? ≠ none := by
  obtain ⟨pieces, error?⟩ := attempt
  cases error? <;> simp [size]

end Written

namespace Schema

theorem sameFields_iff (as bs : List (String × Schema)) :
    sameFields as bs = true ↔ ∀ entry ∈ as, ∃ b, bs.lookup entry.1 = some b ∧ entry.2.same b = true := by
  induction as with
  | nil => simp [sameFields]
  | cons entry rest ih =>
    obtain ⟨name, a⟩ := entry
    rw [sameFields, Bool.and_eq_true, ih, List.forall_mem_cons]
    cases bs.lookup name <;> simp

theorem sameComponents_iff (as bs : List Schema) :
    sameComponents as bs = true ↔ List.Forall₂ (fun a b => a.same b = true) as bs := by
  induction as generalizing bs with
  | nil => cases bs <;> simp [sameComponents]
  | cons a as ih => cases bs <;> simp [sameComponents, ih]

theorem sameVariants_iff (as bs : List (String × Option Schema)) :
    sameVariants as bs = true ↔
      ∀ entry ∈ as, ∃ b, bs.lookup entry.1 = some b ∧ Option.Rel (fun a b => a.same b = true) entry.2 b := by
  induction as with
  | nil => simp [sameVariants]
  | cons entry rest ih =>
    obtain ⟨tag, _ | a⟩ := entry
    · rw [sameVariants, Bool.and_eq_true, ih, List.forall_mem_cons]
      rcases bs.lookup tag with _ | _ | b <;> simp
    · rw [sameVariants, Bool.and_eq_true, ih, List.forall_mem_cons]
      rcases bs.lookup tag with _ | _ | b <;> simp

theorem same_struct_iff (as bs : List (String × Schema)) :
    (struct as).same (struct bs) = true ↔ Entries.Matches (fun a b => a.same b = true) as bs := by
  rw [same, Bool.and_eq_true, beq_iff_eq, sameFields_iff, Entries.Matches]

theorem same_union_iff (as bs : List (String × Option Schema)) :
    (union as).same (union bs) = true ↔ Entries.Matches (Option.Rel fun a b => a.same b = true) as bs := by
  rw [same, Bool.and_eq_true, beq_iff_eq, sameVariants_iff, Entries.Matches]

/-- What holds of equal parts and is kept by every kind of schema holds of equal schemas. -/
@[elab_as_elim]
theorem same_induction {motive : Schema → Schema → Prop} {a b : Schema} (h : a.same b = true)
    (refl : ∀ a, motive a a)
    (struct : ∀ as bs, Entries.Matches (fun a b => a.same b = true ∧ motive a b) as bs →
      motive (struct as) (struct bs))
    (tuple : ∀ as bs, List.Forall₂ (fun a b => a.same b = true ∧ motive a b) as bs → motive (tuple as) (tuple bs))
    (union : ∀ as bs, Entries.Matches (Option.Rel fun a b => a.same b = true ∧ motive a b) as bs →
      motive (union as) (union bs))
    (vec : ∀ a b, a.same b = true → motive a b → motive (vec a) (vec b))
    (option : ∀ a b, a.same b = true → motive a b → motive (option a) (option b))
    (nullable : ∀ a b, a.same b = true → motive a b → motive (nullable a) (nullable b)) : motive a b := by
  induction a using induction_on_parts generalizing b with
  | step a ih =>
    cases a with
    | struct as =>
      cases b with
      | struct bs => exact struct as bs (((same_struct_iff as bs).1 h).mono fun a ha b hb => ⟨hb, ih a ha hb⟩)
      | _ => cases h
    | tuple as =>
      cases b with
      | tuple bs =>
        have hparts : List.Forall₂ (fun a b => a ∈ as ∧ a.same b = true) as bs :=
          (List.forall₂_and_left as bs).2 ⟨fun _ ha => ha, (sameComponents_iff as bs).1 h⟩
        exact tuple as bs (hparts.imp fun a b hab => ⟨hab.2, ih a hab.1 hab.2⟩)
      | _ => cases h
    | union as =>
      cases b with
      | union bs => exact union as bs (((same_union_iff as bs).1 h).mono_some fun a ha b hb => ⟨hb, ih a ha hb⟩)
      | _ => cases h
    | vec a =>
      cases b with
      | vec b => exact vec a b h (ih a List.mem_cons_self h)
      | _ => cases h
    | option a =>
      cases b with
      | option b => exact option a b h (ih a List.mem_cons_self h)
      | _ => cases h
    | nullable a =>
      cases b with
      | nullable b => exact nullable a b h (ih a List.mem_cons_self h)
      | _ => cases h
    | enum as =>
      cases b with
      | enum bs =>
        obtain rfl : as = bs := eq_of_beq h
        exact refl _
      | _ => cases h
    | _ => cases b <;> first | exact refl _ | cases h

theorem tag_eq_of_same {a b : Schema} (h : a.same b = true) : a.tag = b.tag := by
  refine same_induction h ?_ ?_ ?_ ?_ ?_ ?_ ?_ <;> intros <;> rfl

theorem size_writeFields (fields : List (String × Schema)) (values : List (String × Value)) :
    (writeFields fields values).size = (fields.map fun field => (writeField values field).size).sum := by
  induction fields with
  | nil => rfl
  | cons field rest ih => rw [writeFields_eq_andThen, Written.size_andThen, ih, List.map_cons, List.sum_cons]

/-- What one schema accepts the other one accepts, in as many bytes. -/
def SameSize (a b : Schema) : Prop :=
  ∀ value, (a.write value).size = (b.write value).size

theorem SameSize.writeField {a b : Schema} (h : a.SameSize b) (hsame : a.same b = true)
    (values : List (String × Value)) (name : String) :
    (Schema.writeField values (name, a)).size = (Schema.writeField values (name, b)).size := by
  simp only [Schema.writeField, tag_eq_of_same hsame]
  split
  · exact h _
  · exact h _
  · rfl

/-- The order of fields does not change how much is written. -/
theorem size_writeFields_of_matches {as bs : List (String × Schema)} (hnodup : (Entries.names as).Nodup)
    (h : Entries.Matches (fun a b => a.same b = true ∧ a.SameSize b) as bs) (values : List (String × Value)) :
    (writeFields as values).size = (writeFields bs values).size := by
  rw [size_writeFields, size_writeFields]
  exact h.sum_eq hnodup fun name a b hab => hab.2.writeField hab.1 values name

theorem SameSize.writeOpt {a b : Schema} (h : a.SameSize b) (offered : Option Value) :
    (Schema.writeOpt a offered).size = (Schema.writeOpt b offered).size := by
  cases offered with
  | none => rfl
  | some inner => rw [Schema.writeOpt, Schema.writeOpt, Written.size_after, Written.size_after, h]

theorem size_writeComponents {as bs : List Schema} (h : List.Forall₂ SameSize as bs) (values : List Value) :
    (writeComponents as values).size = (writeComponents bs values).size := by
  induction h generalizing values with
  | nil => rfl
  | cons hfirst _ ih =>
    cases values with
    | nil => rfl
    | cons value values => rw [writeComponents, writeComponents, Written.size_andThen, Written.size_andThen, hfirst, ih]

section

variable {variants : List (String × Option Schema)} {tag : String} {value : Value}

/-- Behind the variant of the tag no other variant is looked at. -/
theorem writeUnion_head (htag : value.variant? = some tag) (entry : Option Schema) (start : Nat) :
    writeUnion ((tag, entry) :: variants) start value = writeUnion [(tag, entry)] start value := by
  cases value with
  | unit name | tagged name payload =>
    cases htag
    cases entry <;> simp only [writeUnion, writeVariant, if_true]
  | _ => cases htag

/-- A union writes a value as its variant of that tag alone, at the place where the variant stands. -/
theorem writeUnion_of_lookup {entry : Option Schema} (hlookup : variants.lookup tag = some entry)
    (htag : value.variant? = some tag) (start : Nat) :
    ∃ index, start ≤ index ∧ index < start + variants.length ∧
      writeUnion variants start value = writeUnion [(tag, entry)] index value := by
  have hmem : tag ∈ Entries.names variants := List.mem_map_of_mem (Entries.mem_of_lookup hlookup)
  have hindex : (Entries.names variants).idxOf tag < variants.length := by
    simpa [Entries.names] using List.idxOf_lt_length_of_mem hmem
  refine ⟨start + (Entries.names variants).idxOf tag, Nat.le_add_right _ _, Nat.add_lt_add_left hindex _, ?_⟩
  cases value with
  | unit name | tagged name payload =>
    cases htag
    simp only [writeUnion, writeVariant_eq, hlookup, List.lookup_cons_self, Entries.names, List.map_cons,
      List.idxOf_cons_self, Nat.add_zero]
  | _ => cases htag

theorem writeUnion_of_lookup_none (hlookup : variants.lookup tag = none) (htag : value.variant? = some tag)
    (start : Nat) : writeUnion variants start value = .refused (.unknownVariant .union tag) := by
  cases value with
  | unit name | tagged name payload =>
    cases htag
    rw [writeUnion, writeVariant_eq, hlookup]
  | _ => cases htag

/-- Where the variant stands does not change how much is written. -/
theorem size_writeUnion_single {first second : Option Schema}
    (h : Option.Rel SameSize first second) (index other : Nat) :
    (writeUnion [(tag, first)] index value).size = (writeUnion [(tag, second)] other value).size := by
  by_cases htag : value.variant? = some tag
  · cases value with
    | unit name =>
      cases htag
      cases h with
      | none => rw [writeUnion_unit, writeUnion_unit]; rfl
      | some h => simp [writeUnion, writeVariant]
    | tagged name payload =>
      cases htag
      cases h with
      | none => simp [writeUnion, writeVariant]
      | some h => rw [writeUnion_tagged, writeUnion_tagged, Written.size_after, Written.size_after, h]; rfl
    | _ => cases htag
  · rw [writeUnion_cons htag, writeUnion_cons htag]
    cases value <;> rfl

end

theorem size_writeUnion {as bs : List (String × Option Schema)} (hnodup : (Entries.names as).Nodup)
    (h : Entries.Matches (Option.Rel SameSize) as bs) (start : Nat) (value : Value) :
    (writeUnion as start value).size = (writeUnion bs start value).size := by
  cases htag : value.variant? with
  | none => cases value <;> first | rfl | cases htag
  | some tag =>
    have hlookup := h.lookup hnodup tag
    generalize hfirst : as.lookup tag = first, hsecond : bs.lookup tag = second at hlookup
    cases hlookup with
    | none => rw [writeUnion_of_lookup_none hfirst htag, writeUnion_of_lookup_none hsecond htag]
    | some hentry =>
      obtain ⟨index, -, -, has⟩ := writeUnion_of_lookup hfirst htag start
      obtain ⟨other, -, -, hbs⟩ := writeUnion_of_lookup hsecond htag start
      rw [has, hbs]
      exact size_writeUnion_single hentry index other

/-- By induction on equality. A struct takes what its fields take together, whatever their order, and a variant takes the
same at every index, since all indices have four bytes. -/
theorem sameSize_of_same {a b : Schema} (hsame : a.same b = true) (hkeyed : a.Keyed) : a.SameSize b := by
  revert hkeyed
  refine same_induction hsame ?refl ?struct ?tuple ?union ?vec ?option ?nullable
  case refl => exact fun _ _ _ => rfl
  case struct =>
    intro as bs h hkeyed value
    have hfields : Entries.Matches (fun a b => a.same b = true ∧ a.SameSize b) as bs :=
      h.mono fun a ha b hb => ⟨hb.1, hb.2 (hkeyed.part ha)⟩
    cases value with
    | struct values => exact size_writeFields_of_matches hkeyed.1 hfields values
    | _ => rfl
  case tuple =>
    intro as bs h hkeyed value
    have hlength : as.length = bs.length := h.length_eq
    have hparts : List.Forall₂ SameSize as bs :=
      ((List.forall₂_and_left as bs).2 ⟨(keyedComponents_iff as).1 hkeyed, h⟩).imp fun a b hab => hab.2.2 hab.1
    cases value with
    | tuple values =>
      rw [write, write, hlength]
      split
      · exact size_writeComponents hparts values
      · rfl
    | _ => rfl
  case union =>
    intro as bs h hkeyed value
    have hvariants : Entries.Matches (Option.Rel SameSize) as bs :=
      h.mono_some fun a ha b hb => hb.2 (hkeyed.part ha)
    rw [write_union, write_union]
    exact size_writeUnion hkeyed.1 hvariants 0 value
  case vec =>
    intro a b _ h hkeyed value
    cases value with
    | vec values =>
      have hitems : Written.size ∘ a.write = Written.size ∘ b.write := funext (h hkeyed)
      rw [write, write, Written.size_after, Written.size_after, Written.size_all, Written.size_all, List.map_map,
        List.map_map, hitems]
    | _ => rfl
  case option =>
    intro a b _ h hkeyed value
    rw [write_option_eq, write_option_eq]
    exact (h hkeyed).writeOpt value.present?
  case nullable =>
    intro a b _ h hkeyed value
    rw [write_nullable_eq, write_nullable_eq]
    exact (h hkeyed).writeOpt value.nonNull?

end Schema

end WireFormat
