import Mathlib
import WireFormat.Proofs.Operations

/-!
# What growing costs

A buffer grows where it is asked for more room than there is behind its cursor, and its whole storage is copied then. A
ledger keeps, beside a buffer, every demand that has been made of it: by requests for room and by pushes of any kind.
Main statement: along every history a demand is granted, growing at least doubles the storage and keeps what it holds, and
all that has been copied is within the storage of the end and within twice the furthest offset that was ever asked for.
-/
namespace WireFormat

namespace Buffer

theorem reserve_cases (b : Buffer) (n : Nat) :
    b.reserve n = b ∨
      (b.capacity - b.cursor < n ∧ (b.reserve n).capacity = max (2 * b.capacity) (b.capacity + n)) := by
  by_cases h : n ≤ b.capacity - b.cursor
  · exact .inl (if_pos h)
  · refine .inr ⟨Nat.lt_of_not_le h, ?_⟩
    rw [reserve, if_neg h]
    simp only [capacity, List.length_append, List.length_replicate]
    omega

end Buffer

/-- So many free bytes are asked for behind the cursor of a buffer. -/
structure Demand where
  before : Buffer
  size : Nat

namespace Demand

def granted (d : Demand) : Buffer :=
  d.before.reserve d.size

/-- The end of the bytes that are asked for. -/
def reach (d : Demand) : Nat :=
  d.before.cursor + d.size

def grows (d : Demand) : Bool :=
  d.before.capacity < d.granted.capacity

theorem grows_iff (d : Demand) : d.grows = true ↔ d.before.capacity < d.granted.capacity :=
  decide_eq_true_iff

/-- How much storage is added. -/
def gain (d : Demand) : Nat :=
  d.granted.capacity - d.before.capacity

/-- The demand is granted: with room behind an unmoved cursor and nothing lost, and by no small steps if it takes growth,
and no large ones either. -/
structure Met (d : Demand) : Prop where
  cursor_eq : d.granted.cursor = d.before.cursor
  room : d.size ≤ d.granted.capacity - d.granted.cursor
  kept : d.before.storage <+: d.granted.storage
  doubles : d.grows = true → 2 * d.before.capacity ≤ d.granted.capacity
  within : d.grows = true → d.granted.capacity ≤ 2 * d.reach

theorem capacity_le_granted (d : Demand) : d.before.capacity ≤ d.granted.capacity :=
  d.before.capacity_le_reserve d.size

theorem capacity_granted_of_not_grows {d : Demand} (h : d.grows = false) : d.granted.capacity = d.before.capacity := by
  have hle := d.capacity_le_granted
  have hnot : ¬d.before.capacity < d.granted.capacity := by rw [← grows_iff, h]; exact Bool.false_ne_true
  omega

/-- Growth comes from a demand beyond the storage, so that the end of the demand is further than half of what it grows to. -/
theorem capacity_granted_of_grows {d : Demand} (h : d.grows = true) :
    d.before.capacity - d.before.cursor < d.size ∧
      d.granted.capacity = max (2 * d.before.capacity) (d.before.capacity + d.size) := by
  have hlt := d.grows_iff.1 h
  obtain hsame | hgrown := d.before.reserve_cases d.size
  · rw [granted, hsame] at hlt
    exact absurd hlt (Nat.lt_irrefl _)
  · exact hgrown

theorem met (d : Demand) (h : d.before.InBounds) : d.Met where
  cursor_eq := (Buffer.wrote_reserve h.cursor_le d.size).cursor_eq
  room := (h.reserve d.size).2
  kept := by
    obtain ⟨zeros, hzeros⟩ := d.before.reserve_prefix d.size
    exact ⟨zeros, hzeros.symm⟩
  doubles hgrows := by
    obtain ⟨-, hcapacity⟩ := capacity_granted_of_grows hgrows
    omega
  within hgrows := by
    have hcursor := h.cursor_le
    obtain ⟨hlack, hcapacity⟩ := capacity_granted_of_grows hgrows
    rw [reach]
    omega

end Demand

/-- A buffer and all demands that have been made of it. -/
structure Ledger where
  buffer : Buffer
  demands : List Demand

namespace Ledger

def note (l : Ledger) (n : Nat) (after : Buffer) : Ledger :=
  ⟨after, l.demands ++ [⟨l.buffer, n⟩]⟩

instance : Output Ledger where
  order l := l.buffer.order
  makeRoom l n := l.note n (l.buffer.reserve n)
  push l bs := (l.note bs.length (l.buffer.push bs), bs.length)

def growths (l : Ledger) : List Demand :=
  l.demands.filter Demand.grows

def gained (l : Ledger) : Nat :=
  (l.growths.map Demand.gain).sum

/-- Growing copies what storage there was before. -/
def copied (l : Ledger) : Nat :=
  (l.growths.map fun d => d.before.capacity).sum

/-- The furthest offset that was asked for. -/
def reach (l : Ledger) : Nat :=
  (l.demands.map Demand.reach).foldl max 0

theorem growths_note (l : Ledger) (n : Nat) (after : Buffer) :
    (l.note n after).growths = l.growths ++ if (Demand.mk l.buffer n).grows then [⟨l.buffer, n⟩] else [] := by
  rw [growths, note, List.filter_append, List.filter_cons, List.filter_nil]
  rfl

theorem gained_note (l : Ledger) (n : Nat) (after : Buffer) :
    (l.note n after).gained = l.gained + (Demand.mk l.buffer n).gain := by
  rw [gained, growths_note, List.map_append, List.sum_append]
  cases hgrows : (Demand.mk l.buffer n).grows with
  | false =>
    have hnone : (Demand.mk l.buffer n).gain = 0 := by
      rw [Demand.gain, Demand.capacity_granted_of_not_grows hgrows, Nat.sub_self]
    rw [hnone]
    rfl
  | true => rfl

theorem copied_note (l : Ledger) (n : Nat) (after : Buffer) :
    (l.note n after).copied = l.copied + if (Demand.mk l.buffer n).grows then l.buffer.capacity else 0 := by
  rw [copied, growths_note, List.map_append, List.sum_append]
  cases (Demand.mk l.buffer n).grows <;> rfl

theorem reach_note (l : Ledger) (n : Nat) (after : Buffer) :
    (l.note n after).reach = max l.reach (Demand.mk l.buffer n).reach := by
  simp only [reach, note, List.map_append, List.foldl_append, List.map_cons, List.map_nil, List.foldl_cons, List.foldl_nil]

/-- The account of a buffer that began with the given capacity: it is all that has grown since, and as every growth has
doubled it, the copies add up to no more than it is. -/
structure Amortized (initial : Nat) (l : Ledger) : Prop where
  met : ∀ d ∈ l.demands, d.Met
  capacity_eq : l.buffer.capacity = initial + l.gained
  copied_le : l.copied ≤ l.buffer.capacity
  reached : (l.copied = 0 ∧ l.buffer.capacity = initial) ∨ l.buffer.capacity ≤ 2 * l.reach

variable {initial : Nat} {l : Ledger}

theorem amortized_nil (b : Buffer) : Amortized b.capacity ⟨b, []⟩ where
  met _ h := nomatch h
  capacity_eq := rfl
  copied_le := Nat.zero_le _
  reached := .inl ⟨rfl, rfl⟩

/-- Nothing is to be said where the storage stays as long as it is. -/
theorem Amortized.replace (h : l.Amortized initial) {after : Buffer} (hcapacity : after.capacity = l.buffer.capacity) :
    Amortized initial ⟨after, l.demands⟩ where
  met := h.met
  capacity_eq := hcapacity.trans h.capacity_eq
  copied_le := Nat.le_trans h.copied_le (Nat.le_of_eq hcapacity.symm)
  reached := by
    show (l.copied = 0 ∧ after.capacity = initial) ∨ after.capacity ≤ 2 * l.reach
    rw [hcapacity]
    exact h.reached

/-- One more demand: without growth nothing changes but that it may have asked for more than any before; with it, what is
copied has been storage before, and there is as much of it again. -/
theorem Amortized.note (h : l.Amortized initial) (hbounds : l.buffer.InBounds) {n : Nat} {after : Buffer}
    (hafter : after.capacity = (l.buffer.reserve n).capacity) : (l.note n after).Amortized initial := by
  let d : Demand := ⟨l.buffer, n⟩
  have hmet : d.Met := d.met hbounds
  have hall : ∀ other ∈ (l.note n after).demands, other.Met := by
    intro other hother
    rcases List.mem_append.1 hother with hmem | hmem
    · exact h.met other hmem
    · obtain rfl := List.mem_singleton.1 hmem
      exact hmet
  have hgranted : (l.note n after).buffer.capacity = d.granted.capacity := hafter
  have hgained : (l.note n after).gained = l.gained + (d.granted.capacity - l.buffer.capacity) := l.gained_note n after
  have hcopies : (l.note n after).copied = l.copied + if d.grows then l.buffer.capacity else 0 := l.copied_note n after
  have hreach : (l.note n after).reach = max l.reach d.reach := l.reach_note n after
  have hle : l.buffer.capacity ≤ d.granted.capacity := d.capacity_le_granted
  obtain ⟨-, hcapacity, hcopied, hreached⟩ := h
  cases hgrows : d.grows with
  | false =>
    rw [hgrows, if_neg Bool.false_ne_true] at hcopies
    have hsame : d.granted.capacity = l.buffer.capacity := Demand.capacity_granted_of_not_grows hgrows
    exact ⟨hall, by omega, by omega, by omega⟩
  | true =>
    rw [hgrows, if_pos rfl] at hcopies
    have hdoubles : 2 * l.buffer.capacity ≤ d.granted.capacity := hmet.doubles hgrows
    have hwithin := hmet.within hgrows
    exact ⟨hall, by omega, by omega, by omega⟩

/-- Whatever is emitted, the account goes on, beside the buffer as it would be without one. -/
theorem simulates_buffer (initial : Nat) :
    Output.Simulates fun (l : Ledger) (b : Buffer) => l.buffer = b ∧ b.InBounds ∧ l.Amortized initial where
  order_eq := by
    rintro l _ ⟨rfl, -⟩
    rfl
  makeRoom := by
    rintro l _ n ⟨rfl, hbounds, h⟩
    exact ⟨rfl, (hbounds.reserve n).1, h.note hbounds rfl⟩
  push := by
    rintro l _ bs ⟨rfl, hbounds, h⟩
    exact ⟨rfl, hbounds.push bs, h.note hbounds (Buffer.capacity_push hbounds.cursor_le bs)⟩

end Ledger

namespace History

def ledger : History → Ledger
  | empty order capacity => ⟨.empty order capacity, []⟩
  | ofBytes order bs => ⟨.ofBytes order bs, []⟩
  | next past op => ⟨(op.run past.ledger.buffer).2, (emit past.ledger op.pieces).1.demands⟩

theorem buffer_ledger (h : History) : h.ledger.buffer = h.buffer := by
  induction h with
  | empty order capacity => rfl
  | ofBytes order bs => rfl
  | next past op ih => rw [ledger, buffer, ih]

/-- The capacity that a buffer had in the beginning. -/
def initial : History → Nat
  | empty _ capacity => capacity
  | ofBytes _ bs => bs.length
  | next past _ => past.initial

theorem amortized (h : History) : h.ledger.Amortized h.initial := by
  induction h with
  | empty order capacity =>
    have hnil := Ledger.amortized_nil (.empty order capacity)
    rwa [Buffer.capacity, Buffer.empty, List.length_replicate] at hnil
  | ofBytes order bs => exact Ledger.amortized_nil (.ofBytes order bs)
  | next past op ih =>
    have hbounds : past.ledger.buffer.InBounds := past.buffer_ledger ▸ past.inBounds
    obtain ⟨hbuffer, -, hemitted⟩ := (Ledger.simulates_buffer past.initial).emit ⟨rfl, hbounds, ih⟩ op.pieces
    refine hemitted.replace ?_
    rw [hbuffer]
    obtain ⟨-, hafter⟩ | ⟨-, hpieces, cursor, -, hafter⟩ | ⟨-, hpieces, hafter⟩ := op.effect hbounds
    · rw [hafter]
    · rw [hafter, hpieces]
      rfl
    · rw [hafter, hpieces]
      rfl

/-- After any operations whatever, in which every request and every push is a demand: all demands were met; the capacity
is what it was in the beginning and what was gained by the growths; and what these have copied is no more than there is
storage now, nor, from whatever capacity, than twice the furthest offset that was asked for. -/
theorem growth_amortized (h : History) :
    (∀ n, (h.next (.reserve n)).ledger.demands = h.ledger.demands ++ [⟨h.buffer, n⟩]) ∧
    (∀ bs, (h.next (.push bs)).ledger.demands = h.ledger.demands ++ [⟨h.buffer, bs.length⟩]) ∧
    (∀ d ∈ h.ledger.demands, d.Met) ∧
    h.buffer.capacity = h.initial + h.ledger.gained ∧
    h.ledger.copied ≤ h.buffer.capacity ∧
    h.buffer.capacity ≤ max h.initial (2 * h.ledger.reach) ∧
    h.ledger.copied ≤ 2 * h.ledger.reach := by
  obtain ⟨hmet, hcapacity, hcopied, hreached⟩ := h.amortized
  rw [h.buffer_ledger] at hcapacity hcopied hreached
  refine ⟨fun n => ?_, fun bs => ?_, hmet, hcapacity, hcopied, by omega, by omega⟩
  · rw [← h.buffer_ledger]
    rfl
  · rw [← h.buffer_ledger]
    rfl

/-- From no storage to five bytes, with a byte more to ten, and to a hundred and ten for a hundred bytes ahead. -/
example :
    let h := (((((empty .little 0).next (.push [1, 2, 3, 4, 5])).next (.push [6])).next .reset).next (.moveTo 4)).next
      (.reserve 100)
    (h.ledger.copied, h.buffer.capacity, h.ledger.reach) = (15, 110, 104) := by
  decide

end History

end WireFormat
