import WireFormat.Proofs.Closure
import WireFormat.Proofs.Reading

/-!
# Levels of nesting

A recursive layout is read and written level by level, but the levels are not seen from outside. Main statements: where
reading passes over fewer than eight bytes a level, what is read depends neither on the number of levels nor on what
stands at the bottom, because a length frame is read before every level below; with more levels than the rank of a value,
what is written does not depend on their number either.
-/
namespace WireFormat

namespace Reader

variable {α β : Type} {reader other : Reader α} {k : Nat}

theorem take_eq_ok {b after : Buffer} {n : Nat} {bs : List UInt8} (h : take n b = (.ok bs, after)) :
    b.cursor + n ≤ b.filled ∧ after = b.skip n := by
  simp only [take, Buffer.take] at h
  split at h
  · cases h
    exact ⟨‹_›, rfl⟩
  · cases h

theorem number_eq_ok {b after : Buffer} {width n : Nat} (h : number width b = (.ok n, after)) :
    b.cursor + width ≤ b.filled ∧ after = b.skip width := by
  rcases htake : take width b with ⟨result, between⟩
  simp only [number, show b.take width = _ from htake] at h
  cases result with
  | ok bs =>
    cases h
    exact take_eq_ok htake
  | error e => cases h

theorem number_eq (width : Nat) (b : Buffer) :
    number width b = ((b.take width).1.map b.order.number, (b.take width).2) := by
  rcases htake : b.take width with ⟨result, after⟩
  cases result <;> simp only [number, htake, Except.map]

/-- The reader moves the cursor forwards, not beyond the mark, and touches nothing else. -/
def Moves (reader : Reader α) : Prop :=
  ∀ b, ∃ cursor, (reader b).2 = { b with cursor := cursor } ∧ b.cursor ≤ cursor ∧ cursor ≤ max b.cursor b.filled

theorem moves_still {reader : Reader α} (h : ∀ b, (reader b).2 = b) : reader.Moves :=
  fun b => ⟨b.cursor, h b, Nat.le_refl _, Nat.le_max_left _ _⟩

theorem moves_take (n : Nat) : (take n).Moves := by
  intro b
  simp only [take, Buffer.take]
  split
  · exact ⟨b.cursor + n, rfl, Nat.le_add_right _ _, by omega⟩
  · exact ⟨b.cursor, rfl, Nat.le_refl _, Nat.le_max_left _ _⟩

theorem moves_number (width : Nat) : (number width).Moves := by
  intro b
  rw [number_eq]
  exact moves_take width b

theorem Moves.bind {next : α → Reader β} (h : reader.Moves) (hnext : ∀ a, (next a).Moves) :
    (reader >>= next).Moves := by
  intro b
  obtain ⟨between, hbetween, hge, hle⟩ := h b
  rcases hreader : reader b with ⟨result, after⟩
  rw [hreader] at hbetween
  subst hbetween
  cases result with
  | ok a =>
    obtain ⟨cursor, hcursor, hge', hle'⟩ := hnext a { b with cursor := between }
    simp only at hge' hle'
    rw [bind_ok hreader]
    exact ⟨cursor, hcursor, by omega, by omega⟩
  | error e =>
    rw [bind_error hreader]
    exact ⟨between, rfl, hge, hle⟩

theorem moves_frame : frame.Moves := by
  refine (moves_number 8).bind ?_
  intro n
  split <;> exact moves_still fun _ => rfl

theorem moves_closed : Closed @Moves where
  pure _ := moves_still fun _ => rfl
  fail _ := moves_still fun _ => rfl
  bind := Moves.bind
  number _ := moves_number _
  framed := moves_frame.bind moves_take

theorem Moves.le_cursor (h : reader.Moves) (b : Buffer) : b.cursor ≤ (reader b).2.cursor := by
  obtain ⟨cursor, hafter, hge, -⟩ := h b
  rwa [hafter]

/-- The cursor is left behind no more bytes than there were to read. -/
theorem Moves.cursor_le (h : reader.Moves) (b : Buffer) : (reader b).2.cursor ≤ b.cursor + b.remaining := by
  obtain ⟨cursor, hafter, -, hle⟩ := h b
  rw [hafter, Buffer.remaining]
  show cursor ≤ b.cursor + (b.filled - b.cursor)
  omega

/-- Wherever the reader passes over fewer than `k` bytes, the other one does the same as it. -/
def Tracks (k : Nat) (reader other : Reader α) : Prop :=
  ∀ b, b.cursor ≤ (reader b).2.cursor ∧ ((reader b).2.cursor < b.cursor + k → other b = reader b)

theorem Moves.tracks (h : reader.Moves) (k : Nat) : Tracks k reader reader :=
  fun b => ⟨h.le_cursor b, fun _ => rfl⟩

/-- Fewer than no bytes are never passed over. -/
theorem Moves.tracks_zero (h : reader.Moves) (other : Reader α) : Tracks 0 reader other :=
  fun b => ⟨h.le_cursor b, fun hlt => absurd (h.le_cursor b) (Nat.not_le_of_lt hlt)⟩

theorem tracks_pure (k : Nat) (a : α) : Tracks k (pure a) (pure a) :=
  (moves_closed.pure a).tracks k

theorem Tracks.mono {j : Nat} (h : Tracks k reader other) (hle : j ≤ k) : Tracks j reader other :=
  fun b => ⟨(h b).1, fun hlt => (h b).2 (Nat.lt_of_lt_of_le hlt (Nat.add_le_add_left hle _))⟩

/-- Both parts of what follows one another pass over no more bytes than the whole. -/
theorem Tracks.bind {next next' : α → Reader β} (h : Tracks k reader other) (hnext : ∀ a, Tracks k (next a) (next' a)) :
    Tracks k (reader >>= next) (other >>= next') := by
  intro b
  obtain ⟨hforwards, hsame⟩ := h b
  rcases hreader : reader b with ⟨result, between⟩
  rw [hreader] at hforwards hsame
  cases result with
  | ok a =>
    obtain ⟨hforwards', hsame'⟩ := hnext a between
    rw [bind_ok hreader]
    refine ⟨Nat.le_trans hforwards hforwards', fun hlt => ?_⟩
    rw [bind_ok (hsame (Nat.lt_of_le_of_lt hforwards' hlt))]
    exact hsame' (Nat.lt_of_lt_of_le hlt (Nat.add_le_add_right hforwards k))
  | error e =>
    rw [bind_error hreader]
    exact ⟨hforwards, fun hlt => bind_error (hsame hlt)⟩

theorem Tracks.map (h : Tracks k reader other) (f : α → β) :
    Tracks k (reader >>= fun a => pure (f a)) (other >>= fun a => pure (f a)) :=
  h.bind fun a => tracks_pure k (f a)

theorem Tracks.times (h : Tracks k reader other) (n : Nat) : Tracks k (times reader n) (times other n) := by
  induction n with
  | zero => exact tracks_pure k []
  | succ n ih => exact h.bind fun a => ih.map (a :: ·)

theorem Tracks.opt (h : Tracks k reader other) : Tracks k (opt reader) (opt other) := by
  refine (moves_closed.mark.tracks k).bind ?_
  intro present
  cases present with
  | false => exact tracks_pure k none
  | true => exact h.map some

theorem frame_eq_ok {b after : Buffer} {n : Nat} (h : frame b = (.ok n, after)) :
    b.cursor + 8 ≤ b.filled ∧ after = b.skip 8 := by
  obtain ⟨m, between, hnumber, hnext⟩ := exists_of_bind_ok h
  split at hnext
  · obtain ⟨-, rfl⟩ := pure_ok hnext
    exact number_eq_ok hnumber
  · cases hnext

/-- Elements are read only after the eight bytes of a frame. -/
theorem Tracks.seq (h : Tracks k reader other) : Tracks (k + 8) (seq reader) (seq other) := by
  intro b
  have hforwards := moves_frame.le_cursor b
  rcases hframe : frame b with ⟨result, between⟩
  rw [hframe] at hforwards
  cases result with
  | ok count =>
    obtain ⟨-, hbetween⟩ := frame_eq_ok hframe
    have hcursor : between.cursor = b.cursor + 8 := congrArg Buffer.cursor hbetween
    obtain ⟨hforwards', hsame⟩ := h.times count between
    rw [Reader.seq, Reader.seq, bind_ok hframe, bind_ok hframe]
    exact ⟨Nat.le_trans hforwards hforwards', fun hlt => hsame (by omega)⟩
  | error e =>
    rw [Reader.seq, Reader.seq, bind_error hframe, bind_error hframe]
    exact ⟨hforwards, fun _ => rfl⟩

end Reader

open Reader

variable {Self : Type} {self other : Reader Self} {k : Nat}

theorem le_toNat_and {m n : Nat} {a b : Bool} (h : n ≤ m * (a && b).toNat) : n ≤ m * a.toNat ∧ n ≤ m * b.toNat := by
  cases a <;> cases b <;> simp_all

mutual

/-- By induction on the layout. A guarded layout looks at `self` a frame later than others, so it tracks for eight bytes
more; `extra` says whether this is made use of, as it is not below a sequence, where `self` may stand by itself. -/
theorem Layout.tracks {α : Type} (hself : Tracks k self other) :
    (layout : Layout Self α) → (extra : Nat) → extra ≤ 8 * layout.guarded.toNat →
      Tracks (k + extra) (layout.read self) (layout.read other)
  | .bool, _, _ => moves_closed.mark.tracks _
  | .str, _, _ => moves_closed.str.tracks _
  | .u8, _, _ => moves_closed.u8.tracks _
  | .u16, _, _ => moves_closed.u16.tracks _
  | .u32, _, _ => moves_closed.u32.tracks _
  | .i32, _, _ => moves_closed.i32.tracks _
  | .f32, _, _ => moves_closed.f32.tracks _
  | .f64, _, _ => moves_closed.f64.tracks _
  | .enumeration e, _, _ => by
    refine (moves_closed.u32.tracks _).bind ?_
    intro index
    split
    · exact tracks_pure _ _
    · exact Moves.tracks (moves_closed.fail _) _
  | .record _ fields, extra, h => fields.tracks hself extra h
  | .tuple parts, extra, h => parts.tracks hself extra h
  | .union _ variants _, extra, h => (moves_closed.u32.tracks _).bind fun _ => variants.tracks hself _ _ extra h
  | .vector element, _, h => by
    have helement : Tracks k (element.read self) (element.read other) := element.tracks hself 0 (Nat.zero_le _)
    exact helement.seq.mono (Nat.add_le_add_left h k)
  | .optional element, extra, h => (element.tracks hself extra h).opt
  | .nullable element, extra, h => (element.tracks hself extra h).opt.map Nullable.ofOption
  | .retyped host base, extra, h => (base.tracks hself extra h).map host.make
  | .self, _, h => hself.mono (Nat.add_le_add_left h k)

theorem Parts.tracks {α : Type} (hself : Tracks k self other) :
    (parts : Parts Self α) → (extra : Nat) → extra ≤ 8 * parts.guarded.toNat →
      Tracks (k + extra) (parts.read self) (parts.read other)
  | .pair first second, extra, h => by
    obtain ⟨hfirst, hsecond⟩ := le_toNat_and h
    exact (first.tracks hself extra hfirst).bind fun _ => (second.tracks hself extra hsecond).map _
  | .cons first rest, extra, h => by
    obtain ⟨hfirst, hrest⟩ := le_toNat_and h
    exact (first.tracks hself extra hfirst).bind fun _ => (rest.tracks hself extra hrest).map _

theorem Fields.tracks {names : List String} {α : Type} (hself : Tracks k self other) :
    (fields : Fields Self names α) → (extra : Nat) → extra ≤ 8 * fields.guarded.toNat →
      Tracks (k + extra) (fields.read self) (fields.read other)
  | .nil, _, _ => tracks_pure _ ()
  | .cons _ layout rest _, extra, h => by
    obtain ⟨hlayout, hrest⟩ := le_toNat_and h
    exact (layout.tracks hself extra hlayout).bind fun _ => (rest.tracks hself extra hrest).map _

theorem Variants.tracks {tags : List String} {α : Type} (hself : Tracks k self other) (beyond : ReadError) :
    (variants : Variants Self tags α) → (skip extra : Nat) → extra ≤ 8 * variants.guarded.toNat →
      Tracks (k + extra) (variants.read self beyond skip) (variants.read other beyond skip)
  | .nil, _, _, _ => Moves.tracks (moves_closed.fail beyond) _
  | .unit _ _ _, 0, _, _ => tracks_pure _ _
  | .unit _ rest _, skip + 1, extra, h => (rest.tracks hself beyond skip extra h).map Sum.inr
  | .payload _ layout _ _, 0, extra, h => (layout.tracks hself extra (le_toNat_and h).1).map Sum.inl
  | .payload _ _ rest _, skip + 1, extra, h => (rest.tracks hself beyond skip extra (le_toNat_and h).2).map Sum.inr

end

mutual

/-- What is written for the places of `self` is all that matters of how `self` is written. -/
theorem Layout.pieces_congr {α : Type} {f g : Self → List Piece} :
    (layout : Layout Self α) → (value : α) → (∀ inner ∈ layout.selves value, f inner = g inner) →
      layout.pieces f value = layout.pieces g value
  | .bool, _, _ | .str, _, _ | .u8, _, _ | .u16, _, _ | .u32, _, _ | .i32, _, _ | .f32, _, _ | .f64, _, _
  | .enumeration _, _, _ => rfl
  | .record _ fields, value, h => fields.pieces_congr value h
  | .tuple parts, value, h => parts.pieces_congr value h
  | .union _ variants _, value, h => congrArg _ (variants.payloadPieces_congr value h)
  | .vector element, items, h => by
    have hitems : ∀ a ∈ items, element.pieces f a = element.pieces g a := by
      intro a ha
      exact element.pieces_congr a fun inner hinner => h inner (List.mem_flatMap.2 ⟨a, ha, hinner⟩)
    simp only [Layout.pieces, Piece.seq, List.flatMap, List.map_congr_left hitems]
  | .optional element, value, h => by
    cases value with
    | none => rfl
    | some a =>
      have ha := element.pieces_congr a fun inner hinner => h inner (by simpa [Layout.selves] using hinner)
      simp only [Layout.pieces, Piece.opt, ha]
  | .nullable element, value, h => by
    cases value with
    | null => rfl
    | value a =>
      have ha := element.pieces_congr a fun inner hinner =>
        h inner (by simpa [Layout.selves, Nullable.toOption] using hinner)
      simp only [Layout.pieces, Nullable.toOption, Piece.opt, ha]
  | .retyped host base, value, h => base.pieces_congr (host.view value) h
  | .self, value, h => h value List.mem_cons_self

theorem Parts.pieces_congr {α : Type} {f g : Self → List Piece} :
    (parts : Parts Self α) → (value : α) → (∀ inner ∈ parts.selves value, f inner = g inner) →
      parts.pieces f value = parts.pieces g value
  | .pair first second, (a, b), h => by
    have ha := first.pieces_congr a fun inner hinner => h inner (List.mem_append_left _ hinner)
    have hb := second.pieces_congr b fun inner hinner => h inner (List.mem_append_right _ hinner)
    simp only [Parts.pieces, ha, hb]
  | .cons first rest, (a, b), h => by
    have ha := first.pieces_congr a fun inner hinner => h inner (List.mem_append_left _ hinner)
    have hb := rest.pieces_congr b fun inner hinner => h inner (List.mem_append_right _ hinner)
    simp only [Parts.pieces, ha, hb]

theorem Fields.pieces_congr {names : List String} {α : Type} {f g : Self → List Piece} :
    (fields : Fields Self names α) → (value : α) → (∀ inner ∈ fields.selves value, f inner = g inner) →
      fields.pieces f value = fields.pieces g value
  | .nil, _, _ => rfl
  | .cons _ layout rest _, (a, b), h => by
    have ha := layout.pieces_congr a fun inner hinner => h inner (List.mem_append_left _ hinner)
    have hb := rest.pieces_congr b fun inner hinner => h inner (List.mem_append_right _ hinner)
    simp only [Fields.pieces, ha, hb]

theorem Variants.payloadPieces_congr {tags : List String} {α : Type} {f g : Self → List Piece} :
    (variants : Variants Self tags α) → (value : α) → (∀ inner ∈ variants.selves value, f inner = g inner) →
      variants.payloadPieces f value = variants.payloadPieces g value
  | .unit _ _ _, .inl _, _ => rfl
  | .unit _ rest _, .inr b, h => rest.payloadPieces_congr b h
  | .payload _ layout _ _, .inl a, h => layout.pieces_congr a h
  | .payload _ _ rest _, .inr b, h => rest.payloadPieces_congr b h

end

namespace Recursive

variable {α : Type} (layout : Recursive α)

theorem readWithin_moves (e : ReadError) (levels : Nat) : (layout.readWithin (fail e) levels).Moves :=
  layout.readWithin_closed moves_closed e levels

theorem readWithin_tracks (e e' : ReadError) (k : Nat) {levels levels' : Nat} (h : k ≤ levels) (h' : k ≤ levels') :
    Tracks (8 * k) (layout.readWithin (fail e) levels) (layout.readWithin (fail e') levels') := by
  induction k generalizing levels levels' with
  | zero => exact (layout.readWithin_moves e levels).tracks_zero _
  | succ k ih =>
    obtain ⟨levels, rfl⟩ := Nat.exists_eq_add_of_le' h
    obtain ⟨levels', rfl⟩ := Nat.exists_eq_add_of_le' h'
    have hinner : Tracks (8 * k) (layout.readWithin (fail e) (levels + k)) (layout.readWithin (fail e') (levels' + k)) :=
      ih (Nat.le_add_left k levels) (Nat.le_add_left k levels')
    exact layout.body.tracks hinner 8 (by simp [layout.guarded])

/-- The levels that reading is given are always enough for the bytes that are left. -/
theorem readWithin_tracks_read (e : ReadError) (levels : Nat) :
    Tracks (8 * levels) (layout.readWithin (fail e) levels) layout.read := by
  intro b
  have hmoves := layout.readWithin_moves e levels
  have hle := hmoves.cursor_le b
  refine ⟨hmoves.le_cursor b, fun hlt => ?_⟩
  have htracks := layout.readWithin_tracks e (.unexpectedEnd b.filled 1 0) (min levels (b.remaining + 1))
    (Nat.min_le_left _ _) (Nat.min_le_right _ _) b
  exact htracks.2 (by omega)

theorem read_moves : layout.read.Moves :=
  fun b => layout.readWithin_moves _ _ b

/-- Below the first level a value is read like any other. -/
theorem read_eq : layout.read = layout.body.read layout.read := by
  funext b
  have hinner := layout.readWithin_tracks_read (.unexpectedEnd b.filled 1 0) b.remaining
  have hle := layout.read_moves.cursor_le b
  exact ((layout.body.tracks hinner 8 (by simp [layout.guarded]) b).2 (Nat.lt_of_le_of_lt hle (by omega))).symm

/-- With a level for every eight bytes that are passed over, their number and the bottom do not matter. -/
theorem read_tracks (bottom : Reader α) (levels : Nat) :
    Tracks (8 * levels) layout.read (layout.readWithin bottom levels) := by
  induction levels with
  | zero => exact layout.read_moves.tracks_zero bottom
  | succ levels ih =>
    rw [layout.read_eq]
    exact layout.body.tracks ih 8 (by simp [layout.guarded])

theorem readWithin_eq_read (bottom : Reader α) {levels : Nat} {b : Buffer} (h : b.remaining < levels) :
    layout.readWithin bottom levels b = layout.read b := by
  have hle := layout.read_moves.cursor_le b
  exact (layout.read_tracks bottom levels b).2 (by omega)

theorem piecesWithin_congr {levels levels' : Nat} {value : α} (h : layout.rank value < levels)
    (h' : layout.rank value < levels') : layout.piecesWithin levels value = layout.piecesWithin levels' value := by
  induction levels generalizing levels' value with
  | zero => exact absurd h (Nat.not_lt_zero _)
  | succ levels ih =>
    obtain ⟨levels', rfl⟩ := Nat.exists_eq_add_of_lt h'
    refine layout.body.pieces_congr value fun inner hinner => ?_
    have hlt := layout.rank_lt value inner hinner
    exact ih (by omega) (by omega)

/-- Below the first level the values are written like any others. -/
theorem pieces_eq (value : α) : layout.pieces value = layout.body.pieces layout.pieces value := by
  refine layout.body.pieces_congr value fun inner hinner => ?_
  exact layout.piecesWithin_congr (layout.rank_lt value inner hinner) (Nat.lt_succ_self _)

end Recursive

/-- The codecs that layouts have, with the codec of another layout or of a recursive one in the place of `self`. -/
inductive Codec.OfLayout : {α : Type} → Codec α → Prop
  | unit : OfLayout Codec.unit
  | layout {Self α : Type} {self : Codec Self} (h : OfLayout self) (layout : Layout Self α) :
    OfLayout (layout.codecWith self)
  | recursive {α : Type} (layout : Recursive α) : OfLayout layout.codec

theorem Descriptor.ofLayout {α : Type} (d : Descriptor α) : d.codec.OfLayout := by
  induction d with
  | unit => exact .unit
  | layout self body ih => exact .layout ih body
  | recursive whole => exact .recursive whole

end WireFormat
