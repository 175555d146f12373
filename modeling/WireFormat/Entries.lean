/-!
# Named entries

Fields and variants are lists of named entries in a fixed order. `put` replaces the entry of a name where it stands or
adds a new one at the end, so a list built with it has no name twice: each name stands at its first position with its
last item.
-/
namespace WireFormat.Entries

variable {α : Type}

abbrev names (entries : List (String × α)) : List String :=
  entries.map Prod.fst

def put (name : String) (item : α) : List (String × α) → List (String × α)
  | [] => [(name, item)]
  | (other, held) :: rest =>
    if other = name then (name, item) :: rest else (other, held) :: put name item rest

def ofList (entries : List (String × α)) : List (String × α) :=
  entries.foldl (fun kept entry => put entry.1 entry.2 kept) []

/-- The first name that has occurred before, given the names `seen` so far. -/
def repeated? (seen : List String) : List String → Option String
  | [] => none
  | name :: rest => if name ∈ seen then some name else repeated? (name :: seen) rest

theorem names_put (name : String) (item : α) (entries : List (String × α)) :
    names (put name item entries) =
      if name ∈ names entries then names entries else names entries ++ [name] := by
  induction entries with
  | nil => simp [put]
  | cons entry rest ih =>
    obtain ⟨other, held⟩ := entry
    by_cases h : other = name
    · simp [put, h]
    · simp only [names] at ih
      have hn : ¬name = other := fun e => h e.symm
      simp only [put, h, if_false, names, List.map_cons, ih, List.mem_cons, hn, false_or]
      split <;> simp

theorem nodup_put {name : String} {item : α} {entries : List (String × α)} (h : (names entries).Nodup) :
    (names (put name item entries)).Nodup := by
  rw [names_put]
  split
  · exact h
  · refine List.nodup_append.2 ⟨h, by simp, fun a ha b hb => ?_⟩
    rw [List.mem_singleton.1 hb]
    exact fun e => ‹¬name ∈ names entries› (e ▸ ha)

/-- Where no name occurs twice, every entry is the one of its name. -/
theorem lookup_of_mem {entries : List (String × α)} (hnodup : (names entries).Nodup) {entry : String × α}
    (h : entry ∈ entries) : entries.lookup entry.1 = some entry.2 := by
  induction entries with
  | nil => cases h
  | cons other rest ih =>
    obtain ⟨hfresh, hnodup⟩ := List.nodup_cons.1 hnodup
    rcases List.mem_cons.1 h with rfl | h
    · exact List.lookup_cons_self
    · have hne : entry.1 ≠ other.1 := by
        intro heq
        exact hfresh (heq ▸ List.mem_map_of_mem h)
      rw [List.lookup_cons, beq_false_of_ne hne]
      exact ih hnodup h

theorem mem_of_lookup {entries : List (String × α)} {name : String} {item : α} (h : entries.lookup name = some item) :
    (name, item) ∈ entries := by
  obtain ⟨front, back, rfl, -⟩ := List.lookup_eq_some_iff.1 h
  exact List.mem_append_right _ List.mem_cons_self

theorem lookup_eq_none {entries : List (String × α)} {name : String} (h : name ∉ names entries) :
    entries.lookup name = none := by
  cases hitem : entries.lookup name with
  | none => rfl
  | some item => exact absurd (List.mem_map_of_mem (mem_of_lookup hitem)) h

/-- The entry of a name is found wherever it stands among entries of other names. -/
theorem lookup_of_perm {entries others all : List (String × α)} (h : all.Perm (entries ++ others))
    (hnodup : (names entries).Nodup) (hothers : ∀ name ∈ names others, name ∉ names entries) {entry : String × α}
    (hentry : entry ∈ entries) : all.lookup entry.1 = some entry.2 := by
  have hmem : entry ∈ all := h.mem_iff.2 (List.mem_append_left _ hentry)
  cases hfound : all.lookup entry.1 with
  | none => simpa using List.lookup_eq_none_iff.1 hfound entry hmem
  | some item =>
    rcases List.mem_append.1 (h.mem_iff.1 (mem_of_lookup hfound)) with hin | hin
    · rw [← lookup_of_mem hnodup hin, lookup_of_mem hnodup hentry]
    · have hname : entry.1 ∈ names others := List.mem_map.2 ⟨_, hin, rfl⟩
      exact absurd (List.mem_map_of_mem hentry) (hothers entry.1 hname)

/-- No name is reported exactly when all are new and distinct. -/
theorem repeated?_eq_none_iff (seen list : List String) :
    repeated? seen list = none ↔ list.Nodup ∧ ∀ name ∈ list, name ∉ seen := by
  induction list generalizing seen with
  | nil => simp [repeated?]
  | cons name rest ih =>
    by_cases h : name ∈ seen
    · simp [repeated?, h]
    · simp only [repeated?, h, if_false, ih, List.nodup_cons, List.mem_cons, not_or]
      constructor
      · rintro ⟨hd, hs⟩
        exact ⟨⟨fun hm => (hs name hm).1 rfl, hd⟩, fun n hn => by
          rcases hn with rfl | hn
          · exact h
          · exact (hs n hn).2⟩
      · rintro ⟨⟨hm, hd⟩, hs⟩
        exact ⟨hd, fun n hn => ⟨fun e => hm (e ▸ hn), hs n (Or.inr hn)⟩⟩

end WireFormat.Entries
