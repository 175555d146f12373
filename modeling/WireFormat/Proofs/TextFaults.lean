import Mathlib
import WireFormat.Proofs.Reading

/-!
# Where bytes stop being text

Bytes are well-formed text if they are the encodings of some characters, one after the other. Everything that is said of
a fault is said in terms of these encodings, not of the decoder. Main statement: a string is read exactly if the bytes
behind its frame are well formed; otherwise the fault lies behind the longest well-formed part, where the bytes end inside
a character or where, with no more than three bytes that could begin one, no character can come of them.
-/
namespace WireFormat

namespace Utf8

def WellFormed (bs : List UInt8) : Prop :=
  ∃ s, encode s = bs

/-- Some character begins with these bytes. -/
def Begins (bs : List UInt8) : Prop :=
  ∃ c : Char, bs <+: String.utf8EncodeChar c

/-- The fault is where the bytes stop being text. Behind the longest part of them that is well formed, either they end
before a character does, or the longest run of bytes that a character can begin with is followed by another byte. -/
structure Fault.Locates (fault : Fault) (bs : List UInt8) : Prop where
  index_greatest : IsGreatest {n | n ≤ bs.length ∧ WellFormed (bs.take n)} fault.index
  ends_iff : fault.length = none ↔ bs.drop fault.index ≠ [] ∧
    ∃ c, bs.drop fault.index <+: String.utf8EncodeChar c ∧ bs.drop fault.index ≠ String.utf8EncodeChar c
  length_greatest : ∀ k, fault.length = some k → 1 ≤ k ∧ k ≤ 3 ∧
    ∃ r, IsGreatest {r | r ≤ (bs.drop fault.index).length ∧ Begins ((bs.drop fault.index).take r)} r ∧ k = max 1 r

theorem wellFormed_iff {bs : List UInt8} : WellFormed bs ↔ ∃ cs : List Char, cs.flatMap String.utf8EncodeChar = bs := by
  refine ⟨fun ⟨s, hs⟩ => ⟨s.toList, hs⟩, fun ⟨cs, hcs⟩ => ⟨String.ofList cs, ?_⟩⟩
  rw [encode, String.toList_ofList]
  exact hcs

theorem begins_nil : Begins [] :=
  ⟨'a', List.nil_prefix⟩

theorem Begins.mono {xs ys : List UInt8} (h : Begins ys) (hle : xs <+: ys) : Begins xs := by
  obtain ⟨c, hc⟩ := h
  exact ⟨c, hle.trans hc⟩

theorem decodeFrom_char (c : Char) : decodeFrom (.between 0) (String.utf8EncodeChar c) = .ok [c] := by
  have h := decodeFrom_utf8EncodeChar c 0 []
  rwa [List.append_nil] at h

/-- No character begins with another one. -/
theorem eq_of_utf8EncodeChar_prefix {c d : Char} (h : String.utf8EncodeChar c <+: String.utf8EncodeChar d) : c = d := by
  obtain ⟨rest, hrest⟩ := h
  have hd := decodeFrom_char d
  rw [← hrest, decodeFrom_utf8EncodeChar] at hd
  obtain ⟨cs, -, hcs⟩ := exists_of_map_eq_ok hd
  exact (List.cons.inj hcs).1

theorem decodeFrom_flatMap_append (cs : List Char) (index : Nat) (rest : List UInt8) :
    decodeFrom (.between index) (cs.flatMap String.utf8EncodeChar ++ rest) =
      (decodeFrom (.between (index + (cs.flatMap String.utf8EncodeChar).length)) rest).map (cs ++ ·) := by
  induction cs generalizing index with
  | nil => cases h : decodeFrom (.between index) rest <;> simp [h, Except.map]
  | cons c cs ih =>
    rw [List.flatMap_cons, List.append_assoc, decodeFrom_utf8EncodeChar, ih, List.length_append, Nat.add_assoc]
    cases decodeFrom _ rest <;> rfl

/-- Behind well-formed text, what is well formed goes on with a character. -/
theorem WellFormed.exists_char {cs : List Char} {rest : List UInt8}
    (h : WellFormed (cs.flatMap String.utf8EncodeChar ++ rest)) (hne : rest ≠ []) :
    ∃ c, String.utf8EncodeChar c <+: rest := by
  obtain ⟨all, hall⟩ := wellFormed_iff.1 h
  have hdecode := decodeFrom_flatMap all 0
  rw [hall, decodeFrom_flatMap_append] at hdecode
  obtain ⟨more, hmore, -⟩ := exists_of_map_eq_ok hdecode
  have hrest : more.flatMap String.utf8EncodeChar = rest :=
    flatMap_of_decodeFrom (show (Progress.between _).Holds [] from rfl) hmore
  cases more with
  | nil => exact absurd hrest.symm hne
  | cons c more => exact ⟨c, hrest ▸ List.prefix_append _ _⟩

/-- No range of bytes that may follow is empty. -/
theorem contains_low_of_followers {lead : UInt8} {ranges : List ByteRange} (h : followers lead = some ranges) :
    ∀ range ∈ ranges, range.contains range.low = true := by
  unfold followers at h
  split_ifs at h <;> cases h <;> decide

namespace Begun

variable {seen : List UInt8} {code : Nat} {due : ByteRange} {later : List ByteRange}

theorem contains_low (h : Begun seen code due later) : ∀ range ∈ due :: later, range.contains range.low = true := by
  induction h with
  | lead h => exact contains_low_of_followers h
  | next prior h ih => exact fun range hrange => ih range (List.mem_cons_of_mem _ hrange)

theorem length_pos (h : Begun seen code due later) : 0 < seen.length := by
  cases h <;> simp

/-- What has begun can be completed, by the lowest byte of every range that is due. -/
theorem exists_char (h : Begun seen code due later) :
    ∃ c, seen <+: String.utf8EncodeChar c ∧ seen ≠ String.utf8EncodeChar c := by
  induction later generalizing seen code due with
  | nil =>
    have hchar := h.utf8EncodeChar (h.contains_low due List.mem_cons_self)
    refine ⟨_, hchar ▸ List.prefix_append _ _, ?_⟩
    rw [hchar]
    simp
  | cons next later ih =>
    obtain ⟨c, hc, -⟩ := ih (h.next (h.contains_low due List.mem_cons_self))
    have hlt := hc.length_le
    rw [List.length_append, List.length_singleton] at hlt
    refine ⟨c, (List.prefix_append _ _).trans hc, fun heq => ?_⟩
    rw [← heq] at hlt
    omega

/-- The decoder comes to where the character is begun. -/
theorem decodeFrom_append (h : Begun seen code due later) (index : Nat) (rest : List UInt8) :
    decodeFrom (.between index) (seen ++ rest) = decodeFrom (.inside index seen.length code due later) rest := by
  induction h generalizing rest with
  | lead h => simp only [List.cons_append, List.nil_append, decodeFrom, h, List.length_singleton]
  | next prior h ih =>
    rw [List.append_assoc, ih, List.singleton_append, decodeFrom_inside_next h, List.length_append]
    rfl

theorem not_begins_append (h : Begun seen code due later) {b : UInt8} (hb : due.contains b = false) :
    ¬Begins (seen ++ [b]) := by
  rintro ⟨c, rest, hrest⟩
  have hc := decodeFrom_char c
  rw [← hrest, List.append_assoc, h.decodeFrom_append, List.singleton_append, decodeFrom, hb] at hc
  cases hc

end Begun

theorem not_begins_singleton {b : UInt8} (h : followers b = none) : ¬Begins [b] := by
  rintro ⟨c, rest, hrest⟩
  have hc := decodeFrom_char c
  rw [← hrest, List.singleton_append, decodeFrom, h] at hc
  cases hc

/-- Bytes that the decoder does not get through a first character of, with the length it reports. -/
inductive Stuck : List UInt8 → Option Nat → Prop where
  | lead {b : UInt8} (rest : List UInt8) (h : followers b = none) : Stuck (b :: rest) (some 1)
  | broken {seen : List UInt8} {code : Nat} {due : ByteRange} {later : List ByteRange} {b : UInt8} (rest : List UInt8)
      (h : Begun seen code due later) (hb : due.contains b = false) : Stuck (seen ++ b :: rest) (some seen.length)
  | ended {seen : List UInt8} {code : Nat} {due : ByteRange} {later : List ByteRange} (h : Begun seen code due later) :
      Stuck seen none

namespace Stuck

variable {tail : List UInt8} {length : Option Nat}

theorem ne_nil (h : Stuck tail length) : tail ≠ [] := by
  cases h with
  | lead rest h => exact List.cons_ne_nil _ _
  | broken rest h hb => simp
  | ended h => exact List.ne_nil_of_length_pos h.length_pos

/-- A byte that cannot come next is preceded by the longest beginning of a character. -/
theorem isGreatest_begins {seen : List UInt8} {b : UInt8} (rest : List UInt8) (h : Begins seen)
    (hnot : ¬Begins (seen ++ [b])) :
    IsGreatest {r | r ≤ (seen ++ b :: rest).length ∧ Begins ((seen ++ b :: rest).take r)} seen.length := by
  refine ⟨⟨by simp, by rwa [List.take_left]⟩, ?_⟩
  rintro r ⟨-, hr⟩
  by_contra hlt
  refine hnot (hr.mono ?_)
  have hsplit : seen ++ b :: rest = seen ++ [b] ++ rest := by simp
  rw [hsplit]
  exact List.prefix_take_iff.2 ⟨List.prefix_append _ _, by simp; omega⟩

theorem exists_longest {k : Nat} (h : Stuck tail (some k)) : 1 ≤ k ∧ k ≤ 3 ∧
    ∃ r, IsGreatest {r | r ≤ tail.length ∧ Begins (tail.take r)} r ∧ k = max 1 r := by
  cases h with
  | lead rest h => exact ⟨Nat.le_refl 1, by decide, 0, isGreatest_begins rest begins_nil (not_begins_singleton h), rfl⟩
  | broken rest h hb =>
    have hpos := h.length_pos
    have hle := h.length_le
    obtain ⟨c, hc, -⟩ := h.exists_char
    exact ⟨hpos, by omega, _, isGreatest_begins rest ⟨c, hc⟩ (h.not_begins_append hb), by omega⟩

theorem ends_iff (h : Stuck tail length) : length = none ↔
    tail ≠ [] ∧ ∃ c, tail <+: String.utf8EncodeChar c ∧ tail ≠ String.utf8EncodeChar c := by
  cases h with
  | lead rest h =>
    refine ⟨nofun, ?_⟩
    rintro ⟨-, c, hc, -⟩
    exact absurd ⟨c, (List.prefix_append [_] rest).trans hc⟩ (not_begins_singleton h)
  | broken rest h hb =>
    refine ⟨nofun, ?_⟩
    rintro ⟨-, c, hc, -⟩
    refine absurd ⟨c, List.IsPrefix.trans ?_ hc⟩ (h.not_begins_append hb)
    exact ⟨rest, by simp⟩
  | ended h => exact ⟨fun _ => ⟨(ended h).ne_nil, h.exists_char⟩, fun _ => rfl⟩

/-- No character is complete there. -/
theorem not_char_prefix (h : Stuck tail length) (c : Char) : ¬String.utf8EncodeChar c <+: tail := by
  intro hc
  -- Neither inside what has begun, as no character begins with another one, nor with the byte behind it.
  have hinside : ∀ {seen code due later}, Begun seen code due later → ¬String.utf8EncodeChar c <+: seen := by
    intro seen code due later h hc
    obtain ⟨d, hd, hne⟩ := h.exists_char
    obtain rfl := eq_of_utf8EncodeChar_prefix (hc.trans hd)
    exact hne (hd.eq_of_length_le hc.length_le)
  cases h with
  | lead rest h =>
    cases hbytes : String.utf8EncodeChar c with
    | nil => exact absurd hbytes String.utf8EncodeChar_ne_nil
    | cons b bs =>
      rw [hbytes] at hc
      obtain ⟨rfl, -⟩ := List.cons_prefix_cons.1 hc
      exact not_begins_singleton h ⟨c, hbytes ▸ List.prefix_append [b] bs⟩
  | @broken seen _ _ _ b rest h hb =>
    have hsplit : seen ++ b :: rest = seen ++ [b] ++ rest := by simp
    rw [hsplit] at hc
    rcases List.prefix_or_prefix_of_prefix hc (List.prefix_append (seen ++ [b]) rest) with hle | hle
    · rcases List.prefix_concat_iff.1 hle with heq | hle
      · exact h.not_begins_append hb ⟨c, heq ▸ List.prefix_rfl⟩
      · exact hinside h hle
    · exact h.not_begins_append hb ⟨c, hle⟩
  | ended h => exact hinside h hc

end Stuck

/-- Some whole characters are followed by the place that the fault tells of, counted from `start`. -/
def StopsAt (start : Nat) (bs : List UInt8) (fault : Fault) : Prop :=
  ∃ (cs : List Char) (tail : List UInt8), bs = cs.flatMap String.utf8EncodeChar ++ tail ∧
    fault.index = start + (cs.flatMap String.utf8EncodeChar).length ∧ Stuck tail fault.length

theorem Stuck.stopsAt {start : Nat} {tail : List UInt8} {length : Option Nat} (h : Stuck tail length) :
    StopsAt start tail ⟨start, length⟩ :=
  ⟨[], tail, rfl, rfl, h⟩

theorem StopsAt.cons {start : Nat} {c : Char} {rest : List UInt8} {fault : Fault}
    (h : StopsAt (start + (String.utf8EncodeChar c).length) rest fault) :
    StopsAt start (String.utf8EncodeChar c ++ rest) fault := by
  obtain ⟨cs, tail, rfl, hindex, hstuck⟩ := h
  refine ⟨c :: cs, tail, ?_, ?_, hstuck⟩
  · rw [List.flatMap_cons, List.append_assoc]
  · rw [List.flatMap_cons, List.length_append, hindex, Nat.add_assoc]

theorem StopsAt.locates {bs : List UInt8} {fault : Fault} (h : StopsAt 0 bs fault) : fault.Locates bs := by
  obtain ⟨cs, tail, rfl, hindex, hstuck⟩ := h
  rw [Nat.zero_add] at hindex
  have htail : (cs.flatMap String.utf8EncodeChar ++ tail).drop fault.index = tail := by rw [hindex, List.drop_left]
  refine ⟨⟨⟨?_, ?_⟩, ?_⟩, ?_, ?_⟩
  · rw [hindex, List.length_append]
    exact Nat.le_add_right _ _
  · rw [hindex, List.take_left]
    exact wellFormed_iff.2 ⟨cs, rfl⟩
  · rintro n ⟨hn, hwell⟩
    by_contra hlt
    obtain ⟨more, rfl⟩ := Nat.exists_eq_add_of_lt (Nat.lt_of_not_le hlt)
    rw [hindex, Nat.add_assoc, List.take_length_add_append] at hwell
    obtain ⟨c, hc⟩ := hwell.exists_char (by simp [hstuck.ne_nil])
    exact hstuck.not_char_prefix c (hc.trans (List.take_prefix _ _))
  · rw [htail]
    exact hstuck.ends_iff
  · rw [htail]
    intro k hk
    exact (hk ▸ hstuck).exists_longest

/-- Where the character that the decoder is at has begun. -/
def Progress.start : Progress → Nat
  | .between index => index
  | .inside start _ _ _ _ => start

/-- The bytes that are counted are those of the begun character. -/
def Progress.Counts : Progress → List UInt8 → Prop
  | .between _, _ => True
  | .inside _ count _ _ _, seen => count = seen.length

theorem error_of_map_eq_error {ε α β : Type} {f : α → β} {x : Except ε α} {e : ε} (h : x.map f = .error e) :
    x = .error e := by
  cases x with
  | error e' => exact congrArg Except.error (Except.error.inj h)
  | ok a => cases h

/-- By the steps of the decoder: a byte goes on with the begun character, completes it, or cannot come next. -/
theorem stopsAt_of_decodeFrom {progress : Progress} {bs seen : List UInt8} {fault : Fault} (hp : progress.Holds seen)
    (hcount : progress.Counts seen) (h : decodeFrom progress bs = .error fault) :
    StopsAt progress.start (seen ++ bs) fault := by
  fun_induction decodeFrom progress bs generalizing seen with
  | case1 index => cases h
  | case2 index b rest hf =>
    cases h
    obtain rfl : seen = [] := hp
    exact (Stuck.lead rest hf).stopsAt
  | case3 index b rest hf ih =>
    obtain rfl : seen = [] := hp
    have hchar := utf8EncodeChar_ascii hf
    have hrest : StopsAt (index + [b].length) rest fault := ih rfl trivial (error_of_map_eq_error h)
    rw [← hchar] at hrest
    rw [List.nil_append, ← List.singleton_append, ← hchar]
    exact hrest.cons
  | case4 index b rest due later hf ih =>
    obtain rfl : seen = [] := hp
    exact ih (.lead hf) rfl h
  | case5 start count code due later =>
    cases h
    rw [List.append_nil]
    exact (Stuck.ended hp).stopsAt
  | case6 start count code due b rest hb =>
    rename_i ih
    obtain rfl : count = seen.length := hcount
    have hchar := Begun.utf8EncodeChar hp hb
    have hrest : StopsAt (start + (seen ++ [b]).length) rest fault := by
      rw [List.length_append, List.length_singleton, ← Nat.add_assoc]
      exact ih rfl trivial (error_of_map_eq_error h)
    rw [← hchar] at hrest
    have hsplit : seen ++ b :: rest = seen ++ [b] ++ rest := by simp
    rw [hsplit, ← hchar]
    exact hrest.cons
  | case7 start count code due b rest hb =>
    rename_i ih
    obtain rfl : count = seen.length := hcount
    have hsplit : seen ++ b :: rest = seen ++ [b] ++ rest := by simp
    rw [hsplit]
    exact ih (Begun.next hp hb) (by simp [Progress.Counts]) h
  | case8 start count code due later b rest hb =>
    cases h
    obtain rfl : count = seen.length := hcount
    exact (Stuck.broken rest hp (Bool.eq_false_iff.2 hb)).stopsAt

/-- What is not well formed is refused, at the fault. -/
theorem decode_of_not_wellFormed {bs : List UInt8} (h : ¬WellFormed bs) :
    ∃ fault, decode bs = .error fault ∧ fault.Locates bs := by
  have hbetween : (Progress.between 0).Holds [] := rfl
  cases hdecode : decodeFrom (.between 0) bs with
  | ok cs => exact absurd (wellFormed_iff.2 ⟨cs, flatMap_of_decodeFrom hbetween hdecode⟩) h
  | error fault =>
    have hstops := stopsAt_of_decodeFrom hbetween trivial hdecode
    refine ⟨fault, ?_, hstops.locates⟩
    rw [decode, hdecode]
    rfl

theorem decode_eq_ok_iff {bs : List UInt8} {s : String} : decode bs = .ok s ↔ encode s = bs :=
  ⟨encode_of_decode, fun h => h ▸ decode_encode s⟩

end Utf8

/-- Where a length frame counts the bytes behind it, a string is read if they are well-formed text, and is the one that
they encode; and if not, the error says where they stop being so. In either case all of them are consumed. -/
theorem Reader.str_reads_text (b : Buffer) (bs : List UInt8) (hlength : bs.length < 2 ^ 32)
    (hnext : b.order.bytes 8 bs.length ++ bs <+: b.unread) :
    (str b).2 = b.skip (8 + bs.length) ∧
    (∀ s, (str b).1 = .ok s ↔ Utf8.encode s = bs) ∧
    (¬Utf8.WellFormed bs → ∃ fault, (str b).1 = .error (.invalidUtf8 fault) ∧ fault.Locates bs) := by
  rw [str_behind_frame hlength hnext]
  refine ⟨rfl, fun s => ?_, fun h => ?_⟩
  · rw [← Utf8.decode_eq_ok_iff]
    cases Utf8.decode bs <;> simp [Except.mapError]
  · obtain ⟨fault, hdecode, hlocates⟩ := Utf8.decode_of_not_wellFormed h
    rw [hdecode]
    exact ⟨fault, rfl, hlocates⟩

/-- Bytes that end inside their second character, a third character with a letter in the place of its last byte, and text;
each of them behind its frame and in front of another byte. -/
theorem Reader.str_reads_text_cut_off :
    let framed (bs : List UInt8) : Buffer := .ofBytes .big (ByteOrder.big.bytes 8 bs.length ++ bs ++ [7])
    let ended : List UInt8 := [0x61, 0xE2, 0x82]
    let broken : List UInt8 := [0xC3, 0xA9, 0x61, 0xF0, 0x90, 0x80, 0x41]
    (str (framed ended)).1 = .error (.invalidUtf8 ⟨1, none⟩) ∧ Utf8.Fault.Locates ⟨1, none⟩ ended ∧
      (str (framed broken)).1 = .error (.invalidUtf8 ⟨3, some 3⟩) ∧ Utf8.Fault.Locates ⟨3, some 3⟩ broken ∧
      (str (framed broken)).2 = (framed broken).skip 15 ∧
      (str (framed [0xC3, 0xA9])).1 = .ok "é" := by
  intro framed ended broken
  have hnext : ∀ bs : List UInt8, ByteOrder.big.bytes 8 bs.length ++ bs <+: (framed bs).unread := by
    intro bs
    have hunread : (framed bs).unread = ByteOrder.big.bytes 8 bs.length ++ bs ++ [7] := List.take_length
    exact hunread ▸ List.prefix_append _ _
  have hlocates : ∀ (bs : List UInt8) (fault : Utf8.Fault), bs.length < 2 ^ 32 →
      (str (framed bs)).1 = .error (.invalidUtf8 fault) → fault.Locates bs := by
    intro bs fault hlength herror
    obtain ⟨-, htext, hfault⟩ := str_reads_text (framed bs) bs hlength (hnext bs)
    obtain ⟨other, hother, hlocates⟩ := hfault (by
      rintro ⟨s, hs⟩
      cases herror.symm.trans ((htext s).2 hs))
    cases herror.symm.trans hother
    exact hlocates
  have hended : (str (framed ended)).1 = .error (.invalidUtf8 ⟨1, none⟩) := by cbv
  have hbroken : (str (framed broken)).1 = .error (.invalidUtf8 ⟨3, some 3⟩) := by cbv
  have htext := str_reads_text (framed [0xC3, 0xA9]) [0xC3, 0xA9] (by decide) (hnext _)
  refine ⟨hended, hlocates ended _ (by decide) hended, hbroken, hlocates broken _ (by decide) hbroken, ?_, ?_⟩
  · exact (str_reads_text (framed broken) broken (by decide) (hnext broken)).1
  · exact (htext.2.1 "é").2 (by decide)

end WireFormat
