import MerlionTsdb.Encoding.Prefixed
import MerlionTsdb.Wal.Record
import Mathlib.Logic.Relation

/-!
# Decoding any bytes

What the record decoders do with bytes that no encoder wrote.  The length of a string is added to the
offset in `size_t` before it is compared with the end of the buffer, and the number of labels goes
to `reserve` before anything is checked; `Hostile` says where a record makes use of either.
-/

namespace MerlionTsdb.Wal.Record

open Encoding Model Relation

/-! ## Staying inside a record -/

/-- The decoder returns a list or one of its errors. -/
def Settles {α : Type} (r : Except DecodeFault α) : Prop :=
  (∃ a, r = .ok a) ∨ ∃ e, r = .error (.error e)

/-- The decoder after any reads from the start of a record. -/
inductive Reached (record : Bytes) : Decoder → Prop
  | start : Reached record { buf := record }
  | byte {d : Decoder} (h : Reached record d) : Reached record d.readByte.2
  | be64 {d : Decoder} (h : Reached record d) : Reached record d.readBe64.2
  | uvarint {d : Decoder} (h : Reached record d) : Reached record d.readUvarint.2
  | varint {d : Decoder} (h : Reached record d) : Reached record d.readVarint.2
  | str {d d' : Decoder} {s : Bytes} (h : Reached record d) (hstr : d.readUvarintStr = .ok (s, d')) :
    Reached record d'

/-- The offset is inside the record, and so is a string read there. -/
structure Confined (record : Bytes) (d : Decoder) : Prop where
  buf_eq : d.buf = record
  offset_le : d.offset ≤ record.length
  str_inside : ∀ {s d'}, d.readUvarintStr = .ok (s, d') →
    ∃ pos, pos + s.length ≤ record.length ∧ s = (record.drop pos).take s.length

/-- Both decoders settle, and whatever they read is inside the record. -/
def StaysInside (memory : Nat) (record : Bytes) : Prop :=
  Settles (decodeSeries record memory) ∧ Settles (decodeSamplesV2 record) ∧
    ∀ d, Reached record d → Confined record d

/-! ## Reads stay inside -/

namespace Decoder

variable {d : Decoder}

theorem readByte_inside (h : d.offset ≤ d.buf.length) :
    d.readByte.2.buf = d.buf ∧ d.readByte.2.offset ≤ d.buf.length := by
  unfold readByte
  split
  · exact ⟨rfl, h⟩
  · refine ⟨rfl, ?_⟩
    dsimp only
    omega

theorem readBe64_inside (h : d.offset ≤ d.buf.length) :
    d.readBe64.2.buf = d.buf ∧ d.readBe64.2.offset ≤ d.buf.length := by
  unfold readBe64
  split
  · exact ⟨rfl, h⟩
  · refine ⟨rfl, ?_⟩
    dsimp only
    omega

theorem readUvarint_inside (h : d.offset ≤ d.buf.length) :
    d.readUvarint.2.buf = d.buf ∧ d.readUvarint.2.offset ≤ d.buf.length := by
  unfold readUvarint
  split
  · exact ⟨rfl, h⟩
  · rename_i x n hread
    have hcount := (Varint.readUvarint_count hread).2
    rw [List.length_drop] at hcount
    refine ⟨rfl, ?_⟩
    dsimp only
    omega

theorem readVarint_inside (h : d.offset ≤ d.buf.length) :
    d.readVarint.2.buf = d.buf ∧ d.readVarint.2.offset ≤ d.buf.length := by
  have hpos := readUvarint_inside h
  unfold readUvarint at hpos
  unfold readVarint Varint.readVarint
  cases hread : Varint.readUvarint (d.buf.drop d.offset) with
  | error e => exact ⟨rfl, h⟩
  | ok found =>
    rw [hread] at hpos
    exact hpos

/-- A string that is formed is a slice of the buffer, and the offset moves behind it. -/
theorem readUvarintStr_inside (h : d.offset ≤ d.buf.length) {s : Bytes} {d' : Decoder}
    (hstr : d.readUvarintStr = .ok (s, d')) :
    d'.buf = d.buf ∧ d'.offset ≤ d.buf.length ∧
      ∃ pos, pos + s.length ≤ d.buf.length ∧ s = (d.buf.drop pos).take s.length := by
  obtain ⟨hbuf, hle⟩ := readUvarint_inside h
  have hempty : ∃ pos, pos + ([] : Bytes).length ≤ d.buf.length ∧
      ([] : Bytes) = (d.buf.drop pos).take ([] : Bytes).length :=
    ⟨0, Nat.zero_le _, rfl⟩
  unfold readUvarintStr at hstr
  dsimp only at hstr
  split at hstr
  · cases hstr
    exact ⟨hbuf, hle, hempty⟩
  split at hstr
  · cases hstr
    exact ⟨hbuf, hle, hempty⟩
  split at hstr
  · cases hstr
  · rename_i hend
    cases hstr
    rw [hbuf] at hend ⊢
    refine ⟨rfl, ?_, d.readUvarint.2.offset, ?_, ?_⟩
    · dsimp only
      omega
    · rw [List.length_take, List.length_drop]
      omega
    · rw [List.length_take, List.length_drop, Nat.min_eq_left (by omega)]

end Decoder

/-- Whatever is read, in whatever order, the offset stays inside the record. -/
theorem confined_of_reached {record : Bytes} {d : Decoder} (h : Reached record d) :
    Confined record d := by
  have hinside : d.buf = record ∧ d.offset ≤ d.buf.length := by
    induction h with
    | start => exact ⟨rfl, Nat.zero_le _⟩
    | byte _ ih =>
      obtain ⟨hbuf, hle⟩ := Decoder.readByte_inside ih.2
      exact ⟨hbuf.trans ih.1, hbuf ▸ hle⟩
    | be64 _ ih =>
      obtain ⟨hbuf, hle⟩ := Decoder.readBe64_inside ih.2
      exact ⟨hbuf.trans ih.1, hbuf ▸ hle⟩
    | uvarint _ ih =>
      obtain ⟨hbuf, hle⟩ := Decoder.readUvarint_inside ih.2
      exact ⟨hbuf.trans ih.1, hbuf ▸ hle⟩
    | varint _ ih =>
      obtain ⟨hbuf, hle⟩ := Decoder.readVarint_inside ih.2
      exact ⟨hbuf.trans ih.1, hbuf ▸ hle⟩
    | str _ hstr ih =>
      obtain ⟨hbuf, hle, -⟩ := Decoder.readUvarintStr_inside ih.2 hstr
      exact ⟨hbuf.trans ih.1, hbuf ▸ hle⟩
  obtain ⟨rfl, hle⟩ := hinside
  exact ⟨rfl, hle, fun hstr ↦ (Decoder.readUvarintStr_inside hle hstr).2.2⟩

/-! ## Sample records -/

theorem settles_ok {α : Type} (a : α) : Settles (.ok a : Except DecodeFault α) := .inl ⟨a, rfl⟩

theorem settles_error {α : Type} (e : RecordError) :
    Settles (.error (.error e) : Except DecodeFault α) :=
  .inr ⟨e, rfl⟩

theorem not_settles_overrun {α : Type} : ¬ Settles (.error .overrun : Except DecodeFault α) := by
  rintro (⟨a, h⟩ | ⟨e, h⟩) <;> cases h

theorem not_settles_thrown {α : Type} : ¬ Settles (.error .thrown : Except DecodeFault α) := by
  rintro (⟨a, h⟩ | ⟨e, h⟩) <;> cases h

theorem readSampleHead_settles (d : Decoder) (prev : Option RefSample) (firstT firstSt : Int64) :
    Settles (readSampleHead d prev firstT firstSt) := by
  unfold readSampleHead
  cases prev with
  | none => exact settles_ok _
  | some prev =>
    dsimp only
    unfold readSt
    dsimp only
    split
    · rename_i e hst
      -- The errors of the marker are the record's own.
      split at hst
      · cases hst
        exact settles_error _
      · split at hst
        · cases hst
        · split at hst
          · cases hst
          · split at hst
            · cases hst
            · cases hst
              exact settles_error _
    · exact settles_ok _

theorem decodeSamplesLoop_settles (fuel : Nat) (d : Decoder) (prev : Option RefSample)
    (firstT firstSt : Int64) : Settles (decodeSamplesLoop fuel d prev firstT firstSt) := by
  induction fuel generalizing d prev firstT firstSt with
  | zero => exact settles_error _
  | succ fuel ih =>
    unfold decodeSamplesLoop
    split
    · rcases readSampleHead_settles d prev firstT firstSt with ⟨⟨sample, d'⟩, hhead⟩ | ⟨e, hhead⟩
      · rw [hhead]
        dsimp only
        split
        · exact settles_error _
        · generalize (if prev.isNone then _ else (firstT, firstSt) : Int64 × Int64) = first
          rcases ih d'.readBe64.2 (some { sample with v := d'.readBe64.1 }) first.1 first.2 with
            ⟨samples, hrest⟩ | ⟨e, hrest⟩
          · rw [hrest]
            exact settles_ok _
          · rw [hrest]
            exact settles_error _
      · rw [hhead]
        exact settles_error _
    · split
      · exact settles_error _
      · split
        · exact settles_error _
        · exact settles_ok _

/-- Sample records hold no lengths, and any bytes decode to a list or to an error. -/
theorem decodeSamplesV2_settles (record : Bytes) : Settles (decodeSamplesV2 record) := by
  unfold decodeSamplesV2
  dsimp only
  split
  · exact settles_error _
  · split
    · split
      · exact settles_error _
      · exact settles_ok _
    · exact decodeSamplesLoop_settles _ _ _ _ _

/-! ## Where a series record goes wrong -/

/-- `n` strings, one behind the other, from `i` to `j`. -/
inductive StringsAt (record : Bytes) : Nat → Nat → Nat → Prop
  | nil (i : Nat) : StringsAt record 0 i i
  | cons {n i k j : Nat} (head : StringAt record i k) (rest : StringsAt record n k j) :
    StringsAt record (n + 1) i j

/-- One of the `n` strings from `i` on has a length that wraps around; those in front of it are
whole. -/
inductive Slips (record : Bytes) : Nat → Nat → Prop
  | here {n i : Nat} (slip : SlipAt record i) : Slips record (n + 1) i
  | later {n i k : Nat} (head : StringAt record i k) (rest : Slips record n k) :
    Slips record (n + 1) i

/-- A series at `i` has a reference and `count` labels, whose strings start at `k`. -/
def SeriesHead (record : Bytes) (i : Nat) (count : UInt64) (k : Nat) : Prop :=
  i + 8 ≤ record.length ∧ UvarintAt record (i + 8) count k

/-- A whole series from `i` to `j`. -/
def SeriesAt (record : Bytes) (i j : Nat) : Prop :=
  ∃ count k, SeriesHead record i count k ∧ StringsAt record (2 * count.toNat) k j

/-- Where the label count of a series at `i` is read: behind the reference, or in its place when fewer than
eight bytes are left. -/
def countPos (record : Bytes) (i : Nat) : Nat := if i + 8 ≤ record.length then i + 8 else i

/-- The series at `i` announces more labels than a vector gets room for, or it has a string whose length
wraps around. -/
def Hostile (memory : Nat) (record : Bytes) (i : Nat) : Prop :=
  (∃ count k, UvarintAt record (countPos record i) count k ∧ ¬ Reserves memory 64 count.toNat) ∨
    ∃ count k, SeriesHead record i count k ∧ Slips record (2 * count.toNat) k

variable {memory : Nat} {record : Bytes} {n i j k : Nat}

theorem StringsAt.bounds (h : StringsAt record n i j) (hi : i ≤ record.length) :
    i ≤ j ∧ j ≤ record.length := by
  induction h with
  | nil => exact ⟨le_rfl, hi⟩
  | cons hhead _ ih =>
    have hbounds := hhead.bounds
    have hrest := ih hbounds.2
    omega

theorem StringsAt.unique (h : StringsAt record n i j) (h' : StringsAt record n i k) : j = k := by
  induction h with
  | nil =>
    cases h'
    rfl
  | cons hhead _ ih =>
    cases h' with
    | cons hhead' hrest' =>
      cases hhead.unique hhead'
      exact ih hrest'

/-- Behind a whole string, what goes wrong is in the strings that follow it. -/
theorem slips_iff_of_stringAt (hsize : record.length ≤ kMaxSize) (h : StringAt record i k) :
    Slips record (n + 1) i ↔ Slips record n k := by
  constructor
  · intro hslips
    cases hslips with
    | here hslip => exact absurd hslip (h.not_slipAt hsize)
    | later h' hrest =>
      cases h.unique h'
      exact hrest
  · exact .later h

theorem stringsAt_iff_of_stringAt (h : StringAt record i k) :
    StringsAt record (n + 1) i j ↔ StringsAt record n k j := by
  constructor
  · intro hstrings
    cases hstrings with
    | cons h' hrest =>
      cases h.unique h'
      exact hrest
  · exact .cons h

theorem slips_iff_of_none (h : ∀ k, ¬ StringAt record i k) :
    Slips record (n + 1) i ↔ SlipAt record i := by
  constructor
  · intro hslips
    cases hslips with
    | here hslip => exact hslip
    | later h' _ => exact absurd h' (h _)
  · exact .here

theorem not_stringsAt_of_none (h : ∀ k, ¬ StringAt record i k) : ¬ StringsAt record (n + 1) i j := by
  intro hstrings
  cases hstrings with
  | cons h' _ => exact h _ h'

theorem StringsAt.not_slips (h : StringsAt record n i j) (hsize : record.length ≤ kMaxSize) :
    ¬ Slips record n i := by
  induction h with
  | nil =>
    intro hslips
    cases hslips
  | cons hhead _ ih =>
    rw [slips_iff_of_stringAt hsize hhead]
    exact ih

theorem countPos_of_le (h : i + 8 ≤ record.length) : countPos record i = i + 8 := if_pos h

theorem countPos_of_lt (h : record.length < i + 8) : countPos record i = i := if_neg (Nat.not_le.mpr h)

theorem SeriesAt.unique (h : SeriesAt record i j) (h' : SeriesAt record i k) : j = k := by
  obtain ⟨count, m, ⟨-, hcount⟩, hstrings⟩ := h
  obtain ⟨count', m', ⟨-, hcount'⟩, hstrings'⟩ := h'
  obtain ⟨rfl, rfl⟩ := hcount.unique hcount'
  exact hstrings.unique hstrings'

/-- With a head, the count is the one in it. -/
theorem SeriesHead.hostile_iff {count : UInt64} (h : SeriesHead record i count k) :
    Hostile memory record i ↔
      ¬ Reserves memory 64 count.toNat ∨ Slips record (2 * count.toNat) k := by
  unfold Hostile SeriesHead
  rw [countPos_of_le h.1, h.2.exists_iff]
  apply or_congr_right
  constructor
  · rintro ⟨count', k', ⟨-, hcount⟩, hslips⟩
    obtain ⟨rfl, rfl⟩ := h.2.unique hcount
    exact hslips
  · exact fun hslips ↦ ⟨count, k, h, hslips⟩

/-- Without one, only the count can do harm. -/
theorem hostile_of_headless (h : ∀ count k, ¬ SeriesHead record i count k) :
    Hostile memory record i ↔
      ∃ count k, UvarintAt record (countPos record i) count k ∧ ¬ Reserves memory 64 count.toNat := by
  constructor
  · rintro (hcount | ⟨count, k, hhead, -⟩)
    · exact hcount
    · exact absurd hhead (h count k)
  · exact .inl

/-! ## The decoder of a series -/

/-- A string is read whole, its length slips out of the buffer, or the decoder notes an error. -/
theorem readUvarintStr_cases {d : Decoder} (herr : d.err = false)
    (hsize : d.buf.length ≤ kMaxSize) (hoff : d.offset ≤ d.buf.length) :
    (∃ s j, StringAt d.buf d.offset j ∧ s.length ≤ d.buf.length ∧
        d.readUvarintStr = .ok (s, { d with offset := j })) ∨
      (SlipAt d.buf d.offset ∧ d.readUvarintStr = .error .overrun) ∨
      (¬ SlipAt d.buf d.offset ∧ (∀ j, ¬ StringAt d.buf d.offset j) ∧
        ∃ s d', d.readUvarintStr = .ok (s, d') ∧ d'.err = true) := by
  unfold kMaxSize at hsize
  unfold Decoder.readUvarintStr Decoder.readUvarint
  cases hread : Varint.readUvarint (d.buf.drop d.offset) with
  | error e =>
    right; right
    refine ⟨?_, ?_, [], _, rfl, rfl⟩
    · rintro ⟨len, k, ⟨n, hlen, -⟩, -⟩
      rw [hread] at hlen
      cases hlen
    · rintro j ⟨len, k, ⟨n, hlen, -⟩, -⟩
      rw [hread] at hlen
      cases hlen
  | ok found =>
    obtain ⟨len, n⟩ := found
    have hlen : UvarintAt d.buf d.offset len (d.offset + n) := ⟨n, hread, rfl⟩
    have hbounds := hlen.bounds
    have hlt := len.toNat_lt
    dsimp only
    rw [if_neg (by rw [herr]; exact Bool.false_ne_true)]
    by_cases hslip : 2 ^ 64 ≤ d.offset + n + len.toNat
    · -- The wrapped sum lies in front of the string.
      right; left
      refine ⟨⟨len, _, hlen, hslip⟩, ?_⟩
      rw [if_neg (by omega), if_pos (by omega)]
    · -- The end does not wrap, so the code compares the real one.
      rw [Nat.mod_eq_of_lt (by omega)]
      have hnot : ¬ SlipAt d.buf d.offset := by
        rintro ⟨len', k', hlen', hslip'⟩
        obtain ⟨rfl, rfl⟩ := hlen.unique hlen'
        exact hslip hslip'
      by_cases hend : d.buf.length < d.offset + n + len.toNat
      · right; right
        refine ⟨hnot, ?_, ?_⟩
        · rintro j ⟨len', k', hlen', rfl, hle⟩
          obtain ⟨rfl, rfl⟩ := hlen.unique hlen'
          omega
        · rw [if_pos hend]
          exact ⟨_, _, rfl, rfl⟩
      · left
        refine ⟨(d.buf.drop (d.offset + n)).take len.toNat, _, ⟨len, _, hlen, rfl, by omega⟩, ?_, ?_⟩
        · rw [List.length_take, List.length_drop]
          omega
        · rw [if_neg hend, if_neg hend]

/-- A decoder that has noted an error keeps it. -/
theorem readUvarintStr_of_err {d : Decoder} (herr : d.err = true) :
    ∃ s d', d.readUvarintStr = .ok (s, d') ∧ d'.err = true := by
  have hkept : d.readUvarint.2.err = true := by
    unfold Decoder.readUvarint
    split
    · rfl
    · exact herr
  refine ⟨[], d.readUvarint.2, ?_, hkept⟩
  unfold Decoder.readUvarintStr
  dsimp only
  rw [if_pos hkept]

/-- The labels are whole, the length of one of them slips, or the record ends too early. -/
theorem readLabels_cases (n : Nat) {d : Decoder} (herr : d.err = false)
    (hsize : d.buf.length ≤ kMaxSize) (hoff : d.offset ≤ d.buf.length) :
    (∃ labels j, StringsAt d.buf (2 * n) d.offset j ∧ labels.length = n ∧
        readLabels n d = .ok (labels, { d with offset := j })) ∨
      (Slips d.buf (2 * n) d.offset ∧ readLabels n d = .error .overrun) ∨
      (¬ Slips d.buf (2 * n) d.offset ∧ (∀ j, ¬ StringsAt d.buf (2 * n) d.offset j) ∧
        readLabels n d = .error (.error .unexpectedEnd)) := by
  induction n generalizing d with
  | zero => exact .inl ⟨[], d.offset, .nil _, rfl, rfl⟩
  | succ n ih =>
    rw [show 2 * (n + 1) = 2 * n + 1 + 1 by omega, readLabels]
    -- The name.
    rcases readUvarintStr_cases herr hsize hoff with
      ⟨name, k, hname, hnameLen, hread⟩ | ⟨hslip, hread⟩ | ⟨hnot, hnone, name, d', hread, herr'⟩
    · rw [hread, slips_iff_of_stringAt hsize hname]
      simp only [stringsAt_iff_of_stringAt hname]
      -- The value.
      rcases @readUvarintStr_cases { d with offset := k } herr hsize hname.bounds.2 with
        ⟨value, m, hvalue, hvalueLen, hread'⟩ | ⟨hslip, hread'⟩ |
        ⟨hnot, hnone, value, d', hread', herr'⟩
      · dsimp only at hvalue hvalueLen
        have hstrs : Str.ofBytes name = some ⟨name, hnameLen.trans hsize⟩ ∧
            Str.ofBytes value = some ⟨value, hvalueLen.trans hsize⟩ :=
          ⟨dif_pos _, dif_pos _⟩
        rw [hread', slips_iff_of_stringAt hsize hvalue]
        simp only [stringsAt_iff_of_stringAt hvalue]
        rw [if_neg (by rw [herr]; exact Bool.false_ne_true), hstrs.1, hstrs.2]
        dsimp only
        rcases @ih { d with offset := m } herr hsize hvalue.bounds.2 with
          ⟨labels, j, hrest, hlength, hlabels⟩ | ⟨hslips, hlabels⟩ | ⟨hnot, hnone, hlabels⟩
        · rw [hlabels]
          exact .inl ⟨_, j, hrest, congrArg (· + 1) hlength, rfl⟩
        · rw [hlabels]
          exact .inr (.inl ⟨hslips, rfl⟩)
        · rw [hlabels]
          exact .inr (.inr ⟨hnot, hnone, rfl⟩)
      · rw [hread']
        exact .inr (.inl ⟨.here hslip, rfl⟩)
      · dsimp only at hnot hnone
        rw [hread', slips_iff_of_none hnone]
        dsimp only
        rw [if_pos herr']
        exact .inr (.inr ⟨hnot, fun j ↦ not_stringsAt_of_none hnone, rfl⟩)
    · rw [hread]
      exact .inr (.inl ⟨.here hslip, rfl⟩)
    · obtain ⟨value, d'', hread', herr''⟩ := readUvarintStr_of_err herr'
      rw [hread, slips_iff_of_none hnone]
      dsimp only
      rw [hread']
      dsimp only
      rw [if_pos herr'']
      exact .inr (.inr ⟨hnot, fun j ↦ not_stringsAt_of_none hnone, rfl⟩)

/-! ## The loop over the series -/

/-- What holds at every series on the way holds at the first and at those behind it. -/
theorem forall_reached_iff {P : Nat → Prop} (h : SeriesAt record i j) :
    (∀ k, ReflTransGen (SeriesAt record) i k → P k) ↔
      P i ∧ ∀ k, ReflTransGen (SeriesAt record) j k → P k := by
  constructor
  · intro hall
    exact ⟨hall i .refl, fun k hk ↦ hall k (.head h hk)⟩
  · rintro ⟨hi, hrest⟩ k hk
    rcases ReflTransGen.cases_head hk with rfl | ⟨j', hstep, hk⟩
    · exact hi
    · cases h.unique hstep
      exact hrest k hk

theorem forall_reached_of_none {P : Nat → Prop} (h : ∀ j, ¬ SeriesAt record i j) :
    (∀ k, ReflTransGen (SeriesAt record) i k → P k) ↔ P i := by
  constructor
  · exact fun hall ↦ hall i .refl
  · intro hi k hk
    rcases ReflTransGen.cases_head hk with rfl | ⟨j, hstep, -⟩
    · exact hi
    · exact absurd hstep (h j)

/-- Behind an error flag the labels are not read, and the flag stays. -/
theorem readLabels_of_err (n : Nat) {d : Decoder} (herr : d.err = true) :
    (∃ labels d', readLabels n d = .ok (labels, d') ∧ d'.err = true) ∨
      readLabels n d = .error (.error .unexpectedEnd) := by
  cases n with
  | zero => exact .inl ⟨[], d, rfl, herr⟩
  | succ n =>
    right
    obtain ⟨name, d₁, hname, herr₁⟩ := readUvarintStr_of_err herr
    obtain ⟨value, d₂, hvalue, herr₂⟩ := readUvarintStr_of_err herr₁
    rw [readLabels, hname]
    dsimp only
    rw [hvalue]
    dsimp only
    rw [if_pos herr₂]

/-- With fewer than eight bytes left the reference is missing, and a count is read in its place. -/
theorem short_head {d : Decoder} (herr : d.err = false) (hmore : d.offset < d.buf.length)
    (hshort : d.buf.length < d.offset + 8) (fuel : Nat) :
    Settles (decodeSeriesLoop memory (fuel + 1) d) ↔
      ¬ ∃ count k, UvarintAt d.buf d.offset count k ∧ ¬ Reserves memory 64 count.toNat := by
  have hhas : d.hasMore = true := by
    unfold Decoder.hasMore
    simp [herr, hmore]
  obtain ⟨count, d', hread, herr', hcount⟩ : ∃ count d',
      ({ d with err := true } : Decoder).readUvarint = (count, d') ∧ d'.err = true ∧
        ((¬ ∃ count k, UvarintAt d.buf d.offset count k ∧ ¬ Reserves memory 64 count.toNat) ↔
          Reserves memory 64 count.toNat) := by
    unfold Decoder.readUvarint
    dsimp only
    cases hread : Varint.readUvarint (d.buf.drop d.offset) with
    | error e =>
      -- No count is a count of zero.
      refine ⟨0, _, rfl, rfl, iff_of_true ?_ ⟨Nat.zero_le _, Nat.zero_le _⟩⟩
      rintro ⟨count, k, ⟨n, hcount, -⟩, -⟩
      rw [hread] at hcount
      cases hcount
    | ok found =>
      obtain ⟨count, n⟩ := found
      have hcount : UvarintAt d.buf d.offset count (d.offset + n) := ⟨n, hread, rfl⟩
      refine ⟨count, _, rfl, rfl, ?_⟩
      rw [hcount.exists_iff, not_not]
  rw [decodeSeriesLoop, if_pos hhas, Decoder.readBe64, if_pos hshort, hcount]
  dsimp only
  rw [hread]
  dsimp only
  by_cases hroom : Reserves memory 64 count.toNat
  · -- Behind the count, the flag of the missing reference is found.
    apply iff_of_true _ hroom
    rw [if_pos hroom]
    rcases readLabels_of_err count.toNat herr' with ⟨labels, d'', hlabels, herr''⟩ | hlabels
    · rw [hlabels]
      dsimp only
      rw [if_pos herr'']
      exact settles_error _
    · rw [hlabels]
      exact settles_error _
  · rw [if_neg hroom]
    exact iff_of_false not_settles_thrown hroom

/-- The loop settles exactly when it meets no hostile series. -/
theorem decodeSeriesLoop_settles_iff {fuel : Nat} {d : Decoder} (herr : d.err = false)
    (hsize : d.buf.length ≤ kMaxSize) (hoff : d.offset ≤ d.buf.length)
    (hfuel : d.buf.length - d.offset < fuel) :
    Settles (decodeSeriesLoop memory fuel d) ↔
      ∀ i, ReflTransGen (SeriesAt d.buf) d.offset i → ¬ Hostile memory d.buf i := by
  induction fuel generalizing d with
  | zero => omega
  | succ fuel ih =>
    -- Without a head there is no series here, and only a count can do harm.
    have hheadless : (∀ count k, ¬ SeriesHead d.buf d.offset count k) →
        ((∀ i, ReflTransGen (SeriesAt d.buf) d.offset i → ¬ Hostile memory d.buf i) ↔
          ¬ ∃ count k, UvarintAt d.buf (countPos d.buf d.offset) count k ∧
            ¬ Reserves memory 64 count.toNat) := by
      intro hnone
      rw [forall_reached_of_none, hostile_of_headless hnone]
      rintro j ⟨count, k, hhead, -⟩
      exact hnone count k hhead
    by_cases hmore : d.offset < d.buf.length
    · by_cases hshort : d.buf.length < d.offset + 8
      · rw [short_head herr hmore hshort,
          hheadless fun count k hhead ↦ Nat.not_le.mpr hshort hhead.1, countPos_of_lt hshort]
      have hhas : d.hasMore = true := by
        unfold Decoder.hasMore
        simp [herr, hmore]
      rw [decodeSeriesLoop, if_pos hhas, Decoder.readBe64, if_neg hshort]
      dsimp only
      unfold Decoder.readUvarint
      dsimp only
      cases hread : Varint.readUvarint (d.buf.drop (d.offset + 8)) with
      | error e =>
        have hnone : ∀ count k, ¬ UvarintAt d.buf (d.offset + 8) count k := by
          rintro count k ⟨n, hcount, -⟩
          rw [hread] at hcount
          cases hcount
        dsimp only
        rw [hheadless fun count k hhead ↦ hnone count k hhead.2,
          countPos_of_le (Nat.le_of_not_lt hshort)]
        apply iff_of_true
        · rw [if_pos ⟨Nat.zero_le _, Nat.zero_le _⟩]
          exact settles_error _
        · rintro ⟨count, k, hcount, -⟩
          exact hnone count k hcount
      | ok found =>
        obtain ⟨count, n⟩ := found
        have hhead : SeriesHead d.buf d.offset count (d.offset + 8 + n) :=
          ⟨Nat.le_of_not_lt hshort, n, hread, rfl⟩
        dsimp only
        by_cases hroom : Reserves memory 64 count.toNat
        swap
        · rw [if_neg hroom]
          apply iff_of_false not_settles_thrown
          exact fun hall ↦ hall _ .refl (hhead.hostile_iff.mpr (.inl hroom))
        rw [if_pos hroom]
        rcases @readLabels_cases count.toNat { d with offset := d.offset + 8 + n } herr hsize
            hhead.2.bounds.2 with
          ⟨labels, j, hstrings, hlength, hlabels⟩ | ⟨hslips, hlabels⟩ | ⟨hnot, hnone, hlabels⟩
        · have hseries : SeriesAt d.buf d.offset j := ⟨count, _, hhead, hstrings⟩
          have hbounds := hstrings.bounds hhead.2.bounds.2
          dsimp only at hbounds
          have hrest := @ih { d with offset := j } herr hsize hbounds.2 (by dsimp only; omega)
          rw [forall_reached_iff hseries, ← hrest, hlabels]
          dsimp only
          rw [if_neg (by rw [herr]; exact Bool.false_ne_true), dif_pos (hlength ▸ labels_le_of_reserves hroom)]
          generalize decodeSeriesLoop memory fuel { d with offset := j } = later
          have hfirst : ¬ Hostile memory d.buf d.offset := by
            rw [hhead.hostile_iff]
            exact fun hbad ↦ hbad.elim (fun hno ↦ hno hroom) (hstrings.not_slips hsize)
          rcases later with (e | _ | _) | series <;>
            simp [hfirst, Settles]
        · rw [hlabels]
          apply iff_of_false not_settles_overrun
          exact fun hall ↦ hall _ .refl (hhead.hostile_iff.mpr (.inr hslips))
        · rw [hlabels]
          apply iff_of_true (settles_error _)
          rw [forall_reached_of_none, hhead.hostile_iff]
          · exact fun hbad ↦ hbad.elim (fun hno ↦ hno hroom) hnot
          · rintro j ⟨count', k, hhead', hstrings⟩
            obtain ⟨rfl, rfl⟩ := hhead.2.unique hhead'.2
            exact hnone j hstrings
    · have hnone : ∀ count k, ¬ UvarintAt d.buf d.offset count k := by
        intro count k hcount
        have hbounds := hcount.bounds
        omega
      rw [hheadless fun count k hhead ↦ hmore (by have hle := hhead.1; omega),
        countPos_of_lt (by omega)]
      apply iff_of_true
      · rw [decodeSeriesLoop, if_neg (by unfold Decoder.hasMore; simp [hmore])]
        split
        · exact settles_error _
        · split
          · exact settles_error _
          · exact settles_ok _
      · rintro ⟨count, k, hcount, -⟩
        exact hnone count k hcount

/-- The decoder of series settles just if no entry that it gets to is hostile. -/
theorem decodeSeries_settles_iff {bytes : Bytes} (hsize : bytes.length ≤ kMaxSize) :
    Settles (decodeSeries bytes memory) ↔
      (bytes.head? = some kSeries →
        ∀ i, ReflTransGen (SeriesAt bytes) 1 i → ¬ Hostile memory bytes i) := by
  unfold decodeSeries
  cases bytes with
  | nil => exact iff_of_true (settles_error _) fun h ↦ by cases h
  | cons b rest =>
    rw [show ({ buf := b :: rest } : Decoder).readByte = (b, { buf := b :: rest, offset := 1 })
      from rfl]
    dsimp only
    by_cases hb : b = kSeries
    · -- The loop starts behind the type, with fuel for every byte.
      rw [if_neg (not_not_intro hb)]
      refine (decodeSeriesLoop_settles_iff rfl hsize (by simp) ?_).trans ?_
      · rw [List.length_cons]
        omega
      · simp [hb]
    · rw [if_pos hb]
      apply iff_of_true (settles_error _)
      intro hhead
      exact absurd (Option.some_inj.mp hhead) hb

/-- A record is decoded inside its bytes exactly when no series on the way through it is hostile: its
number of labels gets room in a vector, and no length of a name or value wraps the offset around. -/
theorem staysInside_iff (record : Str) (memory : Nat) :
    StaysInside memory record.bytes ↔
      (record.bytes.head? = some kSeries →
        ∀ i, ReflTransGen (SeriesAt record.bytes) 1 i → ¬ Hostile memory record.bytes i) := by
  have hsamples := decodeSamplesV2_settles record.bytes
  have hconfined : ∀ d, Reached record.bytes d → Confined record.bytes d :=
    fun d hd ↦ confined_of_reached hd
  unfold StaysInside
  rw [decodeSeries_settles_iff record.length_le]
  exact ⟨fun h ↦ h.1, fun h ↦ ⟨h, hsamples, hconfined⟩⟩

/-- Seven bytes where the reference should be, read as a count of 2^49 - 1 labels. -/
example : decodeSeries [1, 255, 255, 255, 255, 255, 255, 127] (2 ^ 54) = .error .thrown := by decide

/-- A series with one label, whose name of 2^64 - 20 bytes seems to end where the record starts. -/
def slippingRecord : Bytes :=
  kSeries :: (putBe64 1 ++ Varint.putUvarint 1 ++ Varint.putUvarint (UInt64.ofNat (2 ^ 64 - 20)))

/-- The name is taken to be inside the record, and its view reaches far behind the buffer, however much
memory there is. -/
theorem slippingRecord_overruns :
    decodeSeries slippingRecord = .error .overrun ∧ ¬ StaysInside kMaxSize slippingRecord := by
  have hoverrun : decodeSeries slippingRecord = .error .overrun := by decide
  refine ⟨hoverrun, fun h ↦ ?_⟩
  have hsettles := h.1
  rw [hoverrun] at hsettles
  exact not_settles_overrun hsettles

end MerlionTsdb.Wal.Record
