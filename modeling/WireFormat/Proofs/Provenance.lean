import WireFormat.Proofs.Operations

/-!
# Where valid bytes come from

Beside a history runs an account of which bytes were supplied since the last reset: the bytes a buffer was made from,
and what was pushed. A push behind a cursor that has passed the mark makes the gap between them valid as well, so the
storage there, stale or never written, can be read. Main statement: the valid bytes are supplied bytes all along a
history exactly when nothing is ever pushed behind such a gap, and then reads depend on supplied bytes only.
-/
namespace WireFormat

namespace Operation

variable {ρ : Type}

/-- Whether an operation pushes anything, be it no bytes. -/
def pushes (op : Operation ρ) : Bool :=
  !op.pieces.all Piece.announces

/-- The bytes supplied after an operation, offset by offset. -/
def supplies (op : Operation ρ) (b : Buffer) (before : Nat → Option UInt8) (i : Nat) : Option UInt8 :=
  if op.clears then none
  else if b.cursor ≤ i then (bytesOf b.order op.pieces)[i - b.cursor]?.or (before i)
  else before i

theorem supplies_of_not_pushes {op : Operation ρ} (hclears : op.clears = false) (h : op.pushes = false) (b : Buffer)
    (before : Nat → Option UInt8) : op.supplies b before = before := by
  have hbytes : bytesOf b.order op.pieces = [] := bytesOf_of_announces (by simpa [pushes] using h)
  funext i
  simp [supplies, hclears, hbytes]

/-- What an operation leaves: what it pushed over the tape, the tape with another cursor, or nothing valid. -/
theorem tape_run (op : Operation ρ) {b : Buffer} (h : b.InBounds) :
    (op.clears = false ∧ op.pushes = true ∧ (op.run b).2.tape = b.tape.push (bytesOf b.order op.pieces)) ∨
      (op.clears = false ∧ op.pushes = false ∧ ∃ cursor, (op.run b).2.tape = { b.tape with cursor := cursor }) ∨
      (op.clears = true ∧ op.pushes = false ∧ (op.run b).2.filled = 0) := by
  obtain ⟨hclears, hafter⟩ | ⟨hclears, hpieces, cursor, -, hafter⟩ | ⟨hclears, hpieces, hafter⟩ := op.effect h
  · have htape := (Buffer.tape_emit h op.pieces).2.1
    rw [Tape.emit_eq, ← hafter] at htape
    cases hpushes : op.pushes with
    | true => exact .inl ⟨hclears, rfl, by rwa [if_neg (by simpa [pushes] using hpushes)] at htape⟩
    | false =>
      rw [if_pos (by simpa [pushes] using hpushes)] at htape
      exact .inr (.inl ⟨hclears, rfl, b.cursor, htape⟩)
  · refine .inr (.inl ⟨hclears, by simp [pushes, hpieces], cursor, ?_⟩)
    rw [hafter]
    rfl
  · refine .inr (.inr ⟨hclears, by simp [pushes, hpieces], ?_⟩)
    rw [hafter]
    rfl

end Operation

namespace History

variable {ρ : Type}

/-- The byte last supplied at each offset since the last reset. -/
def supplied : History → Nat → Option UInt8
  | empty _ _ => fun _ => none
  | ofBytes _ bs => fun i => bs[i]?
  | next past op => op.supplies past.buffer past.supplied

/-- Every valid byte was supplied. -/
def Covered (h : History) : Prop :=
  ∀ i < h.buffer.filled, ∃ x, h.supplied i = some x

/-- Something holds now and at every moment before. -/
def Always (holds : History → Prop) : History → Prop
  | empty order capacity => holds (empty order capacity)
  | ofBytes order bs => holds (ofBytes order bs)
  | next past op => past.Always holds ∧ holds (next past op)

/-- Nothing was ever pushed, not even no bytes, where the cursor had passed the mark. -/
def Contiguous : History → Prop
  | empty _ _ | ofBytes _ _ => True
  | next past op => past.Contiguous ∧ (op.pushes = true → past.buffer.cursor ≤ past.buffer.filled)

/-- What a push supplies is what it leaves on a tape, so both accounts agree wherever they did before. -/
theorem cell_of_supplies {op : Operation ρ} (hclears : op.clears = false) {b after : Buffer}
    (htape : after.tape = b.tape.push (bytesOf b.order op.pieces)) {before : Nat → Option UInt8}
    (hbefore : ∀ i x, before i = some x → i < b.filled ∧ b.tape.cells i = x) {i : Nat} {x : UInt8}
    (hx : op.supplies b before i = some x) : i < after.filled ∧ after.tape.cells i = x := by
  have hfilled : after.filled = max b.filled (b.cursor + (bytesOf b.order op.pieces).length) :=
    congrArg Tape.filled htape
  rw [hfilled, htape]
  simp only [Operation.supplies, hclears, Bool.false_eq_true, if_false] at hx
  simp only [Tape.push, List.getD_eq_getElem?_getD]
  by_cases hcursor : b.cursor ≤ i
  · rw [if_pos hcursor] at hx
    rw [show b.tape.cursor = b.cursor from rfl, if_pos hcursor]
    cases hbyte : (bytesOf b.order op.pieces)[i - b.cursor]? with
    | some y =>
      rw [hbyte] at hx
      obtain ⟨hinside, -⟩ := List.getElem?_eq_some_iff.1 hbyte
      exact ⟨by omega, Option.some.inj hx⟩
    | none =>
      rw [hbyte, Option.none_or] at hx
      obtain ⟨hvalid, hcell⟩ := hbefore i x hx
      exact ⟨by omega, hcell⟩
  · rw [if_neg hcursor] at hx
    rw [show b.tape.cursor = b.cursor from rfl, if_neg hcursor]
    obtain ⟨hvalid, hcell⟩ := hbefore i x hx
    exact ⟨by omega, hcell⟩

/-- A supplied byte is valid and stands in the storage. -/
theorem cell_of_supplied (h : History) {i : Nat} {x : UInt8} (hx : h.supplied i = some x) :
    i < h.buffer.filled ∧ h.buffer.tape.cells i = x := by
  induction h generalizing i x with
  | empty order capacity => cases hx
  | ofBytes order bs =>
    obtain ⟨hi, hx⟩ := List.getElem?_eq_some_iff.1 hx
    refine ⟨hi, ?_⟩
    show bs.getD i 0 = x
    rw [← List.getElem_eq_getD (h := hi), hx]
  | next past op ih =>
    obtain ⟨hclears, -, htape⟩ | ⟨hclears, hpushes, cursor, htape⟩ | ⟨hclears, -, -⟩ := op.tape_run past.inBounds
    · exact cell_of_supplies hclears htape (fun _ _ => ih) hx
    · rw [supplied, op.supplies_of_not_pushes hclears hpushes] at hx
      have hfilled : (op.run past.buffer).2.filled = past.buffer.filled := congrArg Tape.filled htape
      show i < (op.run past.buffer).2.filled ∧ (op.run past.buffer).2.tape.cells i = x
      rw [hfilled, htape]
      exact ih hx
    · simp [supplied, Operation.supplies, hclears] at hx

/-- A push that starts no later than the mark leaves no gap. -/
theorem Covered.next {past : History} (h : past.Covered) {op : Operation ρ}
    (hstart : op.pushes = true → past.buffer.cursor ≤ past.buffer.filled) : (past.next op).Covered := by
  intro i hi
  obtain ⟨hclears, hpushes, htape⟩ | ⟨hclears, hpushes, cursor, htape⟩ | ⟨-, -, hfilled⟩ := op.tape_run past.inBounds
  · have hfilled : (past.next op).buffer.filled =
        max past.buffer.filled (past.buffer.cursor + (bytesOf past.buffer.order op.pieces).length) :=
      congrArg Tape.filled htape
    have hcursor := hstart hpushes
    simp only [supplied, Operation.supplies, hclears, Bool.false_eq_true, if_false]
    split
    · cases hbyte : (bytesOf past.buffer.order op.pieces)[i - past.buffer.cursor]? with
      | some y => exact ⟨y, rfl⟩
      | none =>
        have hpast := List.getElem?_eq_none_iff.1 hbyte
        exact h i (by omega)
    · exact h i (by omega)
  · have hfilled : (past.next op).buffer.filled = past.buffer.filled := congrArg Tape.filled htape
    rw [supplied, op.supplies_of_not_pushes hclears hpushes]
    exact h i (hfilled ▸ hi)
  · have hnothing : (past.next op).buffer.filled = 0 := hfilled
    omega

/-- A push that starts later makes the offset at the old mark valid, where nothing was supplied. -/
theorem not_covered_next {past : History} {op : Operation ρ} (hpushes : op.pushes = true)
    (hgap : past.buffer.filled < past.buffer.cursor) : ¬(past.next op).Covered := by
  intro h
  obtain ⟨hclears, -, htape⟩ | ⟨-, hnone, -⟩ | ⟨-, hnone, -⟩ := op.tape_run past.inBounds
  · have hfilled : (past.next op).buffer.filled =
        max past.buffer.filled (past.buffer.cursor + (bytesOf past.buffer.order op.pieces).length) :=
      congrArg Tape.filled htape
    obtain ⟨x, hx⟩ := h past.buffer.filled (by omega)
    simp only [supplied, Operation.supplies, hclears, Bool.false_eq_true, if_false, if_neg (Nat.not_le_of_lt hgap)] at hx
    exact Nat.lt_irrefl _ (past.cell_of_supplied hx).1
  · simp [hpushes] at hnone
  · simp [hpushes] at hnone

theorem Contiguous.covered {h : History} (hcontiguous : h.Contiguous) : h.Covered := by
  induction h with
  | empty order capacity => exact fun i hi => absurd hi (Nat.not_lt_zero i)
  | ofBytes order bs => exact fun i hi => ⟨bs.get ⟨i, hi⟩, List.getElem?_eq_getElem hi⟩
  | next past op ih => exact (ih hcontiguous.1).next hcontiguous.2

theorem always_covered_iff (h : History) : h.Always Covered ↔ h.Contiguous := by
  induction h with
  | empty order capacity => exact ⟨fun _ => trivial, fun h => Contiguous.covered h⟩
  | ofBytes order bs => exact ⟨fun _ => trivial, fun h => Contiguous.covered h⟩
  | next past op ih =>
    constructor
    · rintro ⟨hpast, hnow⟩
      refine ⟨ih.1 hpast, fun hpushes => ?_⟩
      exact Nat.le_of_not_lt fun hgap => not_covered_next hpushes hgap hnow
    · intro h
      exact ⟨ih.2 h.1, h.covered⟩

theorem Covered.supplied_of_written {h : History} (hcovered : h.Covered) {i : Nat} {x : UInt8}
    (hx : h.buffer.written[i]? = some x) : h.supplied i = some x := by
  rw [Buffer.getElem?_written h.inBounds.filled_le] at hx
  by_cases hi : i < h.buffer.filled
  · obtain ⟨y, hy⟩ := hcovered i hi
    rw [if_pos hi, (h.cell_of_supplied hy).2] at hx
    rw [hy, hx]
  · rw [if_neg hi] at hx
    cases hx

/-- The supplied bytes tell where the mark is. -/
theorem Covered.filled_le {g h : History} (hg : g.Covered) (heq : g.supplied = h.supplied) :
    g.buffer.filled ≤ h.buffer.filled := by
  refine Nat.le_of_not_lt fun hlt => ?_
  obtain ⟨x, hx⟩ := hg h.buffer.filled hlt
  exact Nat.lt_irrefl _ (h.cell_of_supplied (heq ▸ hx)).1

theorem Covered.sameValid {g h : History} (hg : g.Covered) (hh : h.Covered) (heq : g.supplied = h.supplied)
    (horder : g.buffer.order = h.buffer.order) (hcursor : g.buffer.cursor = h.buffer.cursor) :
    g.buffer.SameValid h.buffer where
  order_eq := horder
  cursor_eq := hcursor
  filled_eq := Nat.le_antisymm (hg.filled_le heq) (hh.filled_le heq.symm)
  written_eq := by
    have hfilled := Nat.le_antisymm (hg.filled_le heq) (hh.filled_le heq.symm)
    refine List.ext_getElem? fun i => ?_
    rw [Buffer.getElem?_written g.inBounds.filled_le, Buffer.getElem?_written h.inBounds.filled_le, hfilled]
    by_cases hi : i < h.buffer.filled
    · obtain ⟨x, hx⟩ := hh i hi
      rw [if_pos hi, if_pos hi, (h.cell_of_supplied hx).2, (g.cell_of_supplied (heq ▸ hx)).2]
    · rw [if_neg hi, if_neg hi]

/-- Valid bytes were supplied all along a history exactly when nothing was pushed behind a gap. Then what is read was
supplied, and readers find the same wherever the same was supplied, whatever else the storages hold. -/
theorem valid_supplied_iff (h : History) :
    (h.Always Covered ↔ h.Contiguous) ∧
      (h.Contiguous →
        (∀ i x, h.buffer.written[i]? = some x → h.supplied i = some x) ∧
        (∀ n bs after, h.buffer.take n = (.ok bs, after) →
          ∀ k x, bs[k]? = some x → h.supplied (h.buffer.cursor + k) = some x) ∧
        ∀ g : History, g.Contiguous → g.supplied = h.supplied → g.buffer.order = h.buffer.order →
          g.buffer.cursor = h.buffer.cursor →
          ∀ {α : Type} (reader : Reader α), reader.Composed → (reader g.buffer).1 = (reader h.buffer).1) := by
  refine ⟨h.always_covered_iff, fun hcontiguous => ⟨?_, ?_, ?_⟩⟩
  · intro i x hx
    exact hcontiguous.covered.supplied_of_written hx
  · intro n bs after htake k x hx
    obtain ⟨-, ⟨rest, hnext⟩, -⟩ := Buffer.take_ok h.inBounds.filled_le htake
    have hwritten : h.buffer.written[h.buffer.cursor + k]? = some x := by
      obtain ⟨hk, -⟩ := List.getElem?_eq_some_iff.1 hx
      rw [← List.getElem?_drop, show h.buffer.written.drop h.buffer.cursor = bs ++ rest from hnext.symm,
        List.getElem?_append_left hk, hx]
    exact hcontiguous.covered.supplied_of_written hwritten
  · intro g hg heq horder hcursor α reader hreader
    exact (hreader.respects (hg.covered.sameValid hcontiguous.covered heq horder hcursor)).1

/-- Three bytes of which the second is patched, in storage that is used again, beside a buffer made from the outcome. -/
theorem valid_supplied_iff_patched :
    let used := ((empty .little 0).next (.push [9, 9, 9, 9, 9])).next .reset
    let h := ((used.next (.push [1, 2, 3])).next (.moveTo 1)).next (.push [7])
    let g := (ofBytes .little [1, 7, 3]).next (.moveTo 2)
    h.Contiguous ∧ h.Always Covered ∧ h.buffer.written[1]? = some 7 ∧ h.supplied 1 = some 7 ∧ g.Contiguous ∧
      g.supplied = h.supplied ∧ (Reader.u8 g.buffer).1 = (Reader.u8 h.buffer).1 := by
  intro used h g
  have hh : h.Contiguous :=
    ⟨⟨⟨⟨⟨trivial, fun _ => by decide⟩, fun _ => by decide⟩, fun _ => by decide⟩, fun _ => by decide⟩, fun _ => by decide⟩
  have hg : g.Contiguous := ⟨trivial, fun _ => by decide⟩
  have hsupplied : g.supplied = h.supplied := by
    funext i
    match i with
    | 0 | 1 | 2 => rfl
    | i + 3 => rfl
  have hseven : h.buffer.written[1]? = some 7 := by decide
  have horder : g.buffer.order = h.buffer.order := by decide
  have hcursor : g.buffer.cursor = h.buffer.cursor := by decide
  obtain ⟨halways, hreads⟩ := valid_supplied_iff h
  obtain ⟨hwritten, -, hsame⟩ := hreads hh
  exact ⟨hh, halways.2 hh, hseven, hwritten 1 7 hseven, hg, hsupplied,
    hsame g hg hsupplied horder hcursor Reader.u8 Reader.composed_closed.u8⟩

/-- Behind a gap a push makes bytes from before the reset valid, and a push of nothing storage that was never written. -/
theorem gap_becomes_valid :
    let stale := ((((empty .little 2).next (.push [0x61, 0x62])).next .reset).next (.moveTo 1)).next (.push [7])
    let unwritten := ((empty .little 2).next (.moveTo 2)).next (.push [])
    (stale.buffer.written = [0x61, 7] ∧ stale.supplied 0 = none ∧
      ((stale.next .rewind).buffer.take 1).1 = .ok [0x61] ∧ ¬stale.Covered) ∧
      unwritten.buffer.written = [0, 0] ∧ unwritten.supplied 0 = none ∧ ¬unwritten.Covered := by
  intro stale unwritten
  have hstale : stale.supplied 0 = none := rfl
  have hunwritten : unwritten.supplied 0 = none := rfl
  refine ⟨⟨rfl, hstale, rfl, fun h => ?_⟩, rfl, hunwritten, fun h => ?_⟩
  · obtain ⟨x, hx⟩ := h 0 (by decide)
    cases hstale.symm.trans hx
  · obtain ⟨x, hx⟩ := h 0 (by decide)
    cases hunwritten.symm.trans hx

end History

end WireFormat
