import WireFormat.Proofs.ByteOrders

/-!
# How deep values nest

A recursive layout reads a value inside a value only after the length frame of the sequence around it. So of untrusted
bytes, too, there are no more levels than frames that have been passed over, and reading ends. Main statement: the
recursion of a layout that refers to itself only below sequences has one solution; it nests no deeper than one level more
than the bytes that it consumes; and it takes every value back from what was written for it.
-/
namespace WireFormat
open Reader Chunk

namespace Reader

variable {α β : Type} {e : ReadError} {reader other : Reader α}

/-- The reader does the same as the other one, unless it fails with the given error. -/
def Exposes (e : ReadError) (reader other : Reader α) : Prop :=
  ∀ b, reader b = other b ∨ ∃ after, reader b = (.error e, after)

theorem exposes_refl (e : ReadError) (reader : Reader α) : Exposes e reader reader :=
  fun _ => .inl rfl

theorem exposes_fail (e : ReadError) (other : Reader α) : Exposes e (fail e) other :=
  fun b => .inr ⟨b, rfl⟩

/-- A failure of what comes first is the failure of the whole. -/
theorem Exposes.bind {next next' : α → Reader β} (h : Exposes e reader other)
    (hnext : ∀ a, Exposes e (next a) (next' a)) : Exposes e (reader >>= next) (other >>= next') := by
  intro b
  obtain hsame | ⟨after, herror⟩ := h b
  · rcases hother : other b with ⟨result, between⟩
    rw [hother] at hsame
    cases result with
    | ok a =>
      rw [bind_ok hsame, bind_ok hother]
      exact hnext a between
    | error e' => exact .inl ((bind_error hsame).trans (bind_error hother).symm)
  · exact .inr ⟨after, bind_error herror⟩

theorem Exposes.map (h : Exposes e reader other) (f : α → β) :
    Exposes e (reader >>= fun a => pure (f a)) (other >>= fun a => pure (f a)) :=
  h.bind fun a => exposes_refl e (pure (f a))

theorem Exposes.times (h : Exposes e reader other) (n : Nat) : Exposes e (times reader n) (times other n) := by
  induction n with
  | zero => exact exposes_refl e (pure [])
  | succ n ih => exact h.bind fun a => ih.map (a :: ·)

theorem Exposes.seq (h : Exposes e reader other) : Exposes e (seq reader) (seq other) :=
  (exposes_refl e frame).bind h.times

theorem Exposes.opt (h : Exposes e reader other) : Exposes e (opt reader) (opt other) := by
  refine (exposes_refl e mark).bind ?_
  intro present
  cases present with
  | false => exact exposes_refl e (pure none)
  | true => exact h.map some

end Reader

variable {Self : Type} {e : ReadError} {self other : Reader Self}

mutual

/-- By induction on the layout: wherever `self` is read, its failure comes through. -/
theorem Layout.exposes {α : Type} (hself : Exposes e self other) :
    (layout : Layout Self α) → Exposes e (layout.read self) (layout.read other)
  | .bool | .str | .u8 | .u16 | .u32 | .i32 | .f32 | .f64 | .enumeration _ => exposes_refl e _
  | .record _ fields => fields.exposes hself
  | .tuple parts => parts.exposes hself
  | .union _ variants _ => (exposes_refl e _).bind fun _ => variants.exposes hself _ _
  | .vector element => (element.exposes hself).seq
  | .optional element => (element.exposes hself).opt
  | .nullable element => (element.exposes hself).opt.map Nullable.ofOption
  | .retyped host base => (base.exposes hself).map host.make
  | .self => hself

theorem Parts.exposes {α : Type} (hself : Exposes e self other) :
    (parts : Parts Self α) → Exposes e (parts.read self) (parts.read other)
  | .pair first second => (first.exposes hself).bind fun _ => (second.exposes hself).map _
  | .cons first rest => (first.exposes hself).bind fun _ => (rest.exposes hself).map _

theorem Fields.exposes {names : List String} {α : Type} (hself : Exposes e self other) :
    (fields : Fields Self names α) → Exposes e (fields.read self) (fields.read other)
  | .nil => exposes_refl e (pure ())
  | .cons _ layout rest _ => (layout.exposes hself).bind fun _ => (rest.exposes hself).map _

theorem Variants.exposes {tags : List String} {α : Type} (hself : Exposes e self other) (beyond : ReadError) :
    (variants : Variants Self tags α) → (skip : Nat) →
      Exposes e (variants.read self beyond skip) (variants.read other beyond skip)
  | .nil, _ => exposes_refl e _
  | .unit _ _ _, 0 => exposes_refl e _
  | .unit _ rest _, skip + 1 => (rest.exposes hself beyond skip).map Sum.inr
  | .payload _ layout _ _, 0 => (layout.exposes hself).map Sum.inl
  | .payload _ _ rest _, skip + 1 => (rest.exposes hself beyond skip).map Sum.inr

end

namespace Recursive

variable {α : Type} (layout : Recursive α)

/-- A value is read below that many levels: whatever it fails with there is what reading fails with. -/
def Reaches (b : Buffer) (levels : Nat) : Prop :=
  ∀ e, ∃ after, layout.readWithin (fail e) levels b = (.error e, after)

/-- No value is read below that many levels: it does not matter what would read it. -/
def StaysWithin (b : Buffer) (levels : Nat) : Prop :=
  ∀ bottom : Reader α, layout.readWithin bottom levels b = layout.read b

/-- Values are read inside one another down to this level, and no deeper. -/
structure Nests (b : Buffer) (depth : Nat) : Prop where
  reaches : ∀ levels < depth, layout.Reaches b levels
  staysWithin : ∀ levels ≥ depth, layout.StaysWithin b levels

/-- The lowest level may as well be opened up once more. -/
theorem readWithin_succ (bottom : Reader α) (levels : Nat) :
    layout.readWithin bottom (levels + 1) = layout.readWithin (layout.body.read bottom) levels := by
  induction levels with
  | zero => rfl
  | succ levels ih => exact congrArg layout.body.read ih

theorem StaysWithin.mono {layout : Recursive α} {b : Buffer} {levels more : Nat} (h : layout.StaysWithin b levels)
    (hle : levels ≤ more) : layout.StaysWithin b more := by
  induction hle with
  | refl => exact h
  | step _ ih =>
    intro bottom
    rw [readWithin_succ]
    exact ih _

/-- A solution of the recursion may stand in for any number of its own levels. -/
theorem readWithin_solution {reader : Reader α} (h : layout.body.read reader = reader) (levels : Nat) :
    layout.readWithin reader levels = reader := by
  induction levels with
  | zero => rfl
  | succ levels ih => exact (congrArg layout.body.read ih).trans h

/-- It is the reader, as with so many levels the bottom is not reached. -/
theorem read_unique {reader : Reader α} (h : layout.body.read reader = reader) : reader = layout.read := by
  funext b
  rw [← layout.readWithin_eq_read reader (Nat.lt_succ_self b.remaining), layout.readWithin_solution h]

theorem readWithin_exposes (e : ReadError) (other : Reader α) (levels : Nat) :
    Exposes e (layout.readWithin (fail e) levels) (layout.readWithin other levels) := by
  induction levels with
  | zero => exact exposes_fail e other
  | succ levels ih => exact layout.body.exposes ih

/-- If some reader in that place makes a difference, then what stands there is read. -/
theorem reaches_of_not_staysWithin {b : Buffer} {levels : Nat} (h : ¬layout.StaysWithin b levels) :
    layout.Reaches b levels := by
  obtain ⟨bottom, hne⟩ := not_forall.1 h
  intro e
  obtain hread | herror := layout.readWithin_exposes e layout.read levels b
  · obtain hbottom | herror := layout.readWithin_exposes e bottom levels b
    · rw [layout.readWithin_solution layout.read_eq.symm] at hread
      exact absurd (hbottom.symm.trans hread) hne
    · exact herror
  · exact herror

/-- Every level below the first has taken up the eight bytes of a frame. -/
theorem staysWithin_consumed (b : Buffer) {consumed : Nat} (h : (layout.read b).2 = b.skip consumed) :
    layout.StaysWithin b (1 + consumed / 8) := by
  intro bottom
  refine (layout.read_tracks bottom (1 + consumed / 8) b).2 ?_
  rw [h]
  show b.cursor + consumed < b.cursor + 8 * (1 + consumed / 8)
  omega

theorem exists_nests {b : Buffer} {levels : Nat} (h : layout.StaysWithin b levels) :
    ∃ depth ≤ levels, layout.Nests b depth := by
  classical
  have hexists : ∃ levels, layout.StaysWithin b levels := ⟨levels, h⟩
  refine ⟨Nat.find hexists, Nat.find_min' hexists h, ?_, fun more => (Nat.find_spec hexists).mono⟩
  exact fun fewer hlt => layout.reaches_of_not_staysWithin (Nat.find_min hexists hlt)

theorem yields_pieces {value : α} (h : AllFit (layout.chunks value)) : layout.read.Yields (layout.pieces value) value :=
  layout.yields_within (Nat.lt_succ_self _) h

end Recursive

/-- Reading a type that refers to itself only below sequences is a recursion that ends. Exactly one reader fits its
equation; on any bytes, valid or not, it goes no deeper than one level and one more for every eight bytes that it
consumes. A value whose lengths are not cut off is read back from what was written for it, by as many bytes. -/
theorem Recursive.bounded_nesting_and_round_trip {α : Type} (layout : Recursive α) :
    (∀ reader : Reader α, layout.body.read reader = reader ↔ reader = layout.codec.read) ∧
    (∀ b : Buffer, ∃ consumed depth, (layout.codec.read b).2 = b.skip consumed ∧ layout.Nests b depth ∧
      depth ≤ 1 + consumed / 8) ∧
    ∀ value, AllFit (layout.chunks value) →
      (∀ b : Buffer, b.cursor ≤ b.capacity →
        ∃ after n back, layout.codec.writeTo b value = (after, n) ∧ n = layout.codec.encodedLength value ∧
          after.moveTo b.cursor = .ok back ∧ layout.codec.read back = (.ok value, back.skip n)) ∧
      ∀ leftover, layout.codec.decode leftover (layout.codec.encode value) = .ok value := by
  refine ⟨?_, ?_, ?_⟩
  · intro reader
    refine ⟨layout.read_unique, ?_⟩
    rintro rfl
    exact layout.read_eq.symm
  · intro b
    obtain ⟨cursor, hafter, hforwards, -⟩ := layout.read_moves b
    have hconsumed : (layout.read b).2 = b.skip (cursor - b.cursor) := by
      rw [hafter, Buffer.skip, Nat.add_sub_cancel' hforwards]
    obtain ⟨depth, hdepth, hnests⟩ := layout.exists_nests (layout.staysWithin_consumed b hconsumed)
    exact ⟨_, depth, hconsumed, hnests, hdepth⟩
  · intro value hfit
    refine ⟨?_, ?_⟩
    · intro b inside
      obtain ⟨hwrote, hcount⟩ := Buffer.wrote_emit inside (layout.pieces value)
      obtain ⟨back, hmove, -, hnext⟩ := hwrote.moved_back inside
      have hread := layout.yields_pieces hfit back hnext
      rw [← hcount] at hread
      refine ⟨_, _, back, rfl, ?_, hmove, hread⟩
      rw [Codec.encodedLength_eq]
      exact hcount
    · intro leftover
      rw [Codec.encode_eq]
      exact (layout.yields_pieces hfit).decode leftover

/-- A number, and any number of trees. -/
inductive Tree where
  | node (val : Int32) (kids : List Tree)

namespace Tree

def toRow : Tree → Int32 × List Tree × Unit
  | node val kids => (val, kids, ())

def ofRow : Int32 × List Tree × Unit → Tree
  | (val, kids, _) => node val kids

mutual

def rank : Tree → Nat
  | node _ kids => rankAll kids + 1

def rankAll : List Tree → Nat
  | [] => 0
  | kid :: kids => max kid.rank (rankAll kids)

end

theorem rank_le {kid : Tree} {kids : List Tree} (h : kid ∈ kids) : kid.rank ≤ rankAll kids := by
  induction kids with
  | nil => cases h
  | cons other kids ih =>
    rcases List.mem_cons.1 h with rfl | h
    · exact Nat.le_max_left _ _
    · exact Nat.le_trans (ih h) (Nat.le_max_right _ _)

def layout : Recursive Tree where
  body := .retyped ⟨some "Tree", ofRow, toRow, fun _ => rfl, fun | node _ _ => rfl⟩
    (.record "Tree" (.cons "val" .i32 (.cons "kids" (.vector .self) .nil)))
  guarded := rfl
  rank := rank
  rank_lt := by
    rintro ⟨val, kids⟩ kid h
    have hkid : kid ∈ kids := by
      simpa [Layout.selves, Fields.selves, toRow] using h
    exact Nat.lt_succ_of_le (rank_le hkid)

end Tree

/-- A tree with a tree inside that announces four thousand million more, of which nothing is there; and a tree of three
levels, written over the last bytes of a buffer and beyond them. -/
theorem Recursive.bounded_nesting_and_round_trip_tree :
    let hostile : Buffer := .ofBytes .little
      [7, 0, 0, 0, 1, 0, 0, 0, 0, 0, 0, 0, 8, 0, 0, 0, 255, 255, 255, 255, 0, 0, 0, 0]
    let tree : Tree := .node 1 [.node (-2) [.node 3 []], .node 4 []]
    let b : Buffer := ⟨[1, 2, 3], 1, 3, .big⟩
    Tree.layout.codec.read hostile = (.error (.unexpectedEnd 24 4 0), hostile.skip 24) ∧
      Tree.layout.Nests hostile 3 ∧ AllFit (Tree.layout.chunks tree) ∧ b.cursor ≤ b.capacity ∧
      (∃ after back, Tree.layout.codec.writeTo b tree = (after, 48) ∧ after.moveTo 1 = .ok back ∧
        Tree.layout.codec.read back = (.ok tree, back.skip 48)) ∧
      Tree.layout.codec.decode .rejected (Tree.layout.codec.encode tree) = .ok tree := by
  intro hostile tree b
  have hread : Tree.layout.codec.read hostile = (.error (.unexpectedEnd 24 4 0), hostile.skip 24) := by cbv
  have hwithin : Tree.layout.readWithin (fail (.wideLength 0)) 3 hostile =
      (.error (.unexpectedEnd 24 4 0), hostile.skip 24) := by cbv
  have hbelow : Tree.layout.readWithin (fail (.wideLength 0)) 2 hostile =
      (.error (.wideLength 0), hostile.skip 24) := by cbv
  obtain ⟨-, hnesting, hback⟩ := Recursive.bounded_nesting_and_round_trip Tree.layout
  obtain ⟨-, depth, -, hnests, -⟩ := hnesting hostile
  have hle : depth ≤ 3 := by
    by_contra hlt
    obtain ⟨after, hreached⟩ := hnests.reaches 3 (by omega) (.wideLength 0)
    cases hreached.symm.trans hwithin
  have hge : 3 ≤ depth := by
    by_contra hlt
    have hstays := hnests.staysWithin 2 (by omega) (fail (.wideLength 0))
    cases hbelow.symm.trans (hstays.trans hread)
  obtain rfl : depth = 3 := Nat.le_antisymm hle hge
  have hfit : AllFit (Tree.layout.chunks tree) := by decide
  have inside : b.cursor ≤ b.capacity := by decide
  obtain ⟨hwritten, hdecode⟩ := hback tree hfit
  obtain ⟨after, n, back, hwrite, hn, hmove, hvalue⟩ := hwritten b inside
  obtain rfl : n = 48 := hn.trans (by decide)
  exact ⟨hread, hnests, hfit, inside, ⟨after, back, hwrite, hmove, hvalue⟩, hdecode .rejected⟩

end WireFormat
