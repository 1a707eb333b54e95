import MerlionTsdb.Wal.Record

/-!
# WAL records read back

`Decoder.At d rest` says that `rest` is what a decoder still has to read.  Each read has one lemma
that moves it over what the matching writer put there.
-/

namespace MerlionTsdb.Wal.Record

open Encoding Model

/-! ## One read at a time -/

/-- A decoder without error in front of `rest`, in a buffer that a span can hold. -/
structure Decoder.At (d : Decoder) (rest : Bytes) : Prop where
  err : d.err = false
  ahead : d.buf.drop d.offset = rest
  offset_le : d.offset ≤ d.buf.length
  length_le : d.buf.length ≤ kMaxSize

namespace Decoder

def skip (d : Decoder) (n : Nat) : Decoder := { d with offset := d.offset + n }

variable {d : Decoder} {rest : Bytes}

theorem At.not_err (h : d.At rest) : ¬ d.err = true := by
  rw [h.err]
  exact Bool.false_ne_true

theorem At.length (h : d.At rest) : d.buf.length = d.offset + rest.length := by
  have hlen := congrArg List.length h.ahead
  have hle := h.offset_le
  rw [List.length_drop] at hlen
  omega

theorem At.skip {bytes : Bytes} (h : d.At (bytes ++ rest)) : (d.skip bytes.length).At rest where
  err := h.err
  ahead := by
    rw [Decoder.skip, ← List.drop_drop, h.ahead, List.drop_left' rfl]
  offset_le := by
    have hlen := h.length
    rw [List.length_append] at hlen
    rw [Decoder.skip]
    dsimp only
    omega
  length_le := h.length_le

theorem At.skip_one {b : UInt8} (h : d.At (b :: rest)) : (d.skip 1).At rest := by
  have happend : d.At ([b] ++ rest) := h
  exact happend.skip

theorem At.hasMore (h : d.At rest) : d.hasMore = !rest.isEmpty := by
  have hlen := h.length
  unfold Decoder.hasMore
  rw [h.err, hlen]
  cases rest <;> simp

theorem At.remaining (h : d.At []) : d.remaining = 0 := by
  have hlen := h.length
  unfold Decoder.remaining
  rw [List.length_nil] at hlen
  split <;> omega

theorem At.readByte {b : UInt8} (h : d.At (b :: rest)) : d.readByte = (b, d.skip 1) := by
  have hlen := h.length
  rw [List.length_cons] at hlen
  have hget : d.buf.getD d.offset 0 = b := by
    have hhead := congrArg (fun bytes ↦ bytes.getD 0 0) h.ahead
    simpa [List.getD_eq_getElem?_getD, List.getElem?_drop] using hhead
  unfold Decoder.readByte
  rw [if_neg (by omega), hget]
  rfl

theorem At.readBe64 {x : UInt64} (h : d.At (putBe64 x ++ rest)) :
    d.readBe64 = (x, d.skip (putBe64 x).length) := by
  have hlen := h.length
  rw [List.length_append, length_putBe64] at hlen
  unfold Decoder.readBe64
  rw [if_neg (by omega), h.ahead, readBe64_putBe64]
  rfl

theorem At.readUvarint {x : UInt64} (h : d.At (Varint.putUvarint x ++ rest)) :
    d.readUvarint = (x, d.skip (Varint.putUvarint x).length) := by
  unfold Decoder.readUvarint
  rw [h.ahead, Varint.readUvarint_putUvarint]
  rfl

theorem At.readVarint {x : Int64} (h : d.At (Varint.putVarint x ++ rest)) :
    d.readVarint = (x, d.skip (Varint.putVarint x).length) := by
  unfold Decoder.readVarint
  rw [h.ahead, Varint.readVarint_putVarint]
  rfl

theorem At.readUvarintStr {s : Str} (h : d.At (encodeUvarintStr s ++ rest)) :
    ∃ d' : Decoder, d.readUvarintStr = .ok (s.bytes, d') ∧ d'.At rest := by
  rw [encodeUvarintStr, List.append_assoc] at h
  have hskip := h.skip
  have hlen := hskip.length
  have hmax := hskip.length_le
  rw [List.length_append] at hlen
  have hsize : (UInt64.ofNat s.bytes.length).toNat = s.bytes.length := by
    have hs := s.length_le
    apply UInt64.toNat_ofNat_of_lt'
    unfold kMaxSize at hs
    rw [UInt64.size]
    omega
  unfold kMaxSize at hmax
  refine ⟨_, ?_, hskip.skip⟩
  unfold Decoder.readUvarintStr
  rw [h.readUvarint]
  dsimp only
  rw [if_neg hskip.not_err, hsize, Nat.mod_eq_of_lt (by omega), if_neg (by omega),
    if_neg (by omega), hskip.ahead, List.take_left' rfl]
  rfl

end Decoder

/-! ## Series records -/

theorem readLabels_encode (labels : List Label) {d : Decoder} {rest : Bytes}
    (h : d.At (labels.flatMap encodeLabel ++ rest)) :
    ∃ d' : Decoder, readLabels labels.length d = .ok (labels, d') ∧ d'.At rest := by
  induction labels generalizing d with
  | nil => exact ⟨d, rfl, h⟩
  | cons l labels ih =>
    rw [List.flatMap_cons, encodeLabel, List.append_assoc, List.append_assoc] at h
    obtain ⟨d₁, hname, h₁⟩ := h.readUvarintStr
    obtain ⟨d₂, hvalue, h₂⟩ := h₁.readUvarintStr
    obtain ⟨d₃, hlabels, h₃⟩ := ih h₂
    refine ⟨d₃, ?_, h₃⟩
    rw [List.length_cons, readLabels, hname]
    dsimp only
    rw [hvalue]
    dsimp only
    rw [if_neg h₂.not_err, Str.ofBytes_bytes, Str.ofBytes_bytes]
    dsimp only
    rw [hlabels]

theorem encodeRefSeries_ne_nil (s : RefSeries) : encodeRefSeries s ≠ [] := by
  unfold encodeRefSeries
  intro h
  have hlen := congrArg List.length h
  simp at hlen

theorem decodeSeriesLoop_encode (series : List RefSeries) {d : Decoder} {fuel : Nat}
    (h : d.At (series.flatMap encodeRefSeries))
    (hfuel : (series.flatMap encodeRefSeries).length < fuel) :
    decodeSeriesLoop kMaxSize fuel d = .ok series := by
  induction series generalizing d fuel with
  | nil =>
    obtain ⟨fuel, rfl⟩ : ∃ f, fuel = f + 1 := ⟨fuel - 1, by omega⟩
    rw [decodeSeriesLoop, h.hasMore, h.err, h.remaining]
    rfl
  | cons s series ih =>
    obtain ⟨fuel, rfl⟩ : ∃ f, fuel = f + 1 := ⟨fuel - 1, by omega⟩
    have hpos : 0 < (encodeRefSeries s).length :=
      List.length_pos_iff.mpr (encodeRefSeries_ne_nil s)
    rw [List.flatMap_cons, List.length_append] at hfuel
    have hmore : d.hasMore = true := by
      rw [h.hasMore]
      simp [encodeRefSeries_ne_nil]
    rw [List.flatMap_cons, encodeRefSeries, List.append_assoc, List.append_assoc] at h
    -- The reference, the number of labels, and then the labels.
    have h₁ := h.skip
    have h₂ := h₁.skip
    obtain ⟨d₃, hlabels, h₃⟩ := readLabels_encode s.labels h₂
    have hcount : (UInt64.ofNat s.labels.length).toNat = s.labels.length := by
      have hs := s.length_le
      apply UInt64.toNat_ofNat_of_lt'
      unfold kMaxLabels kMaxSize at hs
      rw [UInt64.size]
      omega
    rw [decodeSeriesLoop, if_pos hmore, h.readBe64]
    dsimp only
    rw [h₁.readUvarint]
    dsimp only
    rw [hcount, if_pos (reserves_labels.mpr s.length_le), hlabels]
    dsimp only
    rw [if_neg h₃.not_err, dif_pos s.length_le, ih h₃ (by omega)]

/-- A series record that a vector can hold decodes to what was encoded. -/
theorem decodeSeries_encodeSeries (series : List RefSeries)
    (hlen : (encodeSeries series).length ≤ kMaxSize) :
    decodeSeries (encodeSeries series) = .ok series := by
  have hstart : ({ buf := encodeSeries series } : Decoder).At
      (kSeries :: series.flatMap encodeRefSeries) :=
    ⟨rfl, rfl, Nat.zero_le _, hlen⟩
  unfold decodeSeries
  rw [hstart.readByte]
  dsimp only
  rw [if_neg (not_not_intro rfl)]
  apply decodeSeriesLoop_encode
  · exact hstart.skip_one
  · rw [encodeSeries, List.length_cons]
    omega

/-! ## Sample records -/

theorem add_sub_cancel_left (a b : Int64) : a + (b - a) = b := by
  rw [Int64.add_comm, Int64.sub_add_cancel]

theorem readSt_encode {d : Decoder} {rest : Bytes} {st firstSt prevSt : Int64}
    (h : d.At (writeStMarker st firstSt prevSt ++ rest)) :
    ∃ d' : Decoder, readSt d firstSt prevSt = .ok (st, d') ∧ d'.At rest := by
  unfold writeStMarker at h
  unfold readSt
  split at h
  · -- No start timestamp.
    rename_i hzero
    have hskip := h.skip_one
    refine ⟨_, ?_, hskip⟩
    rw [h.readByte]
    dsimp only
    rw [if_neg hskip.not_err, if_pos rfl, hzero]
  split at h
  · rename_i hsame
    have hskip := h.skip_one
    refine ⟨_, ?_, hskip⟩
    rw [h.readByte]
    dsimp only
    rw [if_neg hskip.not_err, if_neg (by decide), if_pos rfl, hsame]
  · rw [List.cons_append] at h
    have hskip := h.skip_one
    refine ⟨_, ?_, hskip.skip⟩
    rw [h.readByte]
    dsimp only
    rw [if_neg hskip.not_err, if_neg (by decide), if_neg (by decide), if_pos rfl,
      hskip.readVarint]
    dsimp only
    rw [add_sub_cancel_left]

theorem readSampleHead_encode {d : Decoder} {rest : Bytes} (first prev s : RefSample)
    (h : d.At (Varint.putVarint (s.ref.toInt64 - prev.ref.toInt64) ++
      (Varint.putVarint (s.t - first.t) ++ (writeStMarker s.st first.st prev.st ++ rest)))) :
    ∃ d' : Decoder, readSampleHead d (some prev) first.t first.st =
        .ok ({ ref := s.ref, t := s.t, st := s.st }, d') ∧ d'.At rest := by
  have h₁ := h.skip
  obtain ⟨d', hst, h₃⟩ := readSt_encode h₁.skip
  refine ⟨d', ?_, h₃⟩
  unfold readSampleHead
  dsimp only
  rw [h.readVarint]
  dsimp only
  rw [h₁.readVarint]
  dsimp only
  rw [hst]
  dsimp only
  rw [add_sub_cancel_left, add_sub_cancel_left, UInt64.toUInt64_toInt64]

theorem decodeSamplesLoop_rest (first prev : RefSample) (samples : List RefSample) {d : Decoder}
    {fuel : Nat} (h : d.At (encodeSamplesRest first prev samples))
    (hfuel : samples.length < fuel) :
    decodeSamplesLoop fuel d (some prev) first.t first.st = .ok samples := by
  induction samples generalizing d fuel prev with
  | nil =>
    obtain ⟨fuel, rfl⟩ : ∃ f, fuel = f + 1 := ⟨fuel - 1, by omega⟩
    rw [decodeSamplesLoop, h.hasMore, h.err, h.remaining]
    rfl
  | cons s samples ih =>
    obtain ⟨fuel, rfl⟩ : ∃ f, fuel = f + 1 := ⟨fuel - 1, by omega⟩
    rw [List.length_cons] at hfuel
    have hmore : d.hasMore = true := by
      rw [h.hasMore]
      simp [encodeSamplesRest, Varint.putVarint, Varint.putUvarint_ne_nil]
    simp only [encodeSamplesRest, List.append_assoc] at h
    obtain ⟨d₁, hhead, h₁⟩ := readSampleHead_encode first prev s h
    rw [decodeSamplesLoop, if_pos hmore, hhead]
    dsimp only
    rw [h₁.readBe64]
    dsimp only
    rw [if_neg h₁.skip.not_err]
    dsimp only [Option.isNone_some]
    rw [if_neg Bool.false_ne_true]
    dsimp only
    rw [ih s h₁.skip (by omega)]

theorem length_le_encodeSamplesRest (first prev : RefSample) (samples : List RefSample) :
    samples.length ≤ (encodeSamplesRest first prev samples).length := by
  induction samples generalizing prev with
  | nil => exact Nat.zero_le _
  | cons s samples ih =>
    have hrest := ih s
    simp only [encodeSamplesRest, List.length_append, List.length_cons, length_putBe64]
    omega

/-- A sample record that a vector can hold decodes to what was encoded. -/
theorem decodeSamplesV2_encodeSamplesV2 (samples : List RefSample)
    (hlen : (encodeSamplesV2 samples).length ≤ kMaxSize) :
    decodeSamplesV2 (encodeSamplesV2 samples) = .ok samples := by
  have hstart : ({ buf := encodeSamplesV2 samples } : Decoder).At (encodeSamplesV2 samples) :=
    ⟨rfl, rfl, Nat.zero_le _, hlen⟩
  unfold decodeSamplesV2
  cases samples with
  | nil => rfl
  | cons first samples =>
    have hbody := hstart.skip_one
    simp only [List.append_assoc] at hbody
    have hmore : (({ buf := encodeSamplesV2 (first :: samples) } : Decoder).skip 1).hasMore =
        true := by
      rw [hbody.hasMore]
      simp [Varint.putVarint, Varint.putUvarint_ne_nil]
    -- The decoder stands behind each field of the first sample in turn.
    have h₁ := hbody.skip
    have h₂ := h₁.skip
    have h₃ := h₂.skip
    have hcount := length_le_encodeSamplesRest first first samples
    -- Every sample takes bytes, so the length is fuel enough.
    have hfuel : samples.length < (encodeSamplesV2 (first :: samples)).length := by
      simp only [encodeSamplesV2, List.length_cons, List.length_append, length_putBe64]
      omega
    have hrest := decodeSamplesLoop_rest first first samples h₃.skip hfuel
    rw [hstart.readByte]
    dsimp only
    rw [if_neg (not_not_intro rfl), hmore]
    rw [Bool.not_true, if_neg Bool.false_ne_true, decodeSamplesLoop, if_pos hmore, readSampleHead]
    dsimp only
    rw [hbody.readVarint]
    dsimp only
    rw [h₁.readVarint]
    dsimp only
    rw [h₂.readVarint]
    dsimp only
    rw [h₃.readBe64]
    dsimp only
    rw [if_neg h₃.skip.not_err, Option.isNone_none, if_pos rfl]
    dsimp only
    rw [UInt64.toUInt64_toInt64, hrest]

/-! ## Both record types -/

/-- Records that a vector can hold decode to what was encoded, and neither decoder reports an
error. -/
theorem records_roundtrip (series : List RefSeries) (samples : List RefSample)
    (hseries : (encodeSeries series).length ≤ kMaxSize)
    (hsamples : (encodeSamplesV2 samples).length ≤ kMaxSize) :
    decodeSeries (encodeSeries series) = .ok series ∧
      decodeSamplesV2 (encodeSamplesV2 samples) = .ok samples := by
  constructor
  · exact decodeSeries_encodeSeries series hseries
  · exact decodeSamplesV2_encodeSamplesV2 samples hsamples

/-- Series with labels, some of them empty and out of order, and one without; references and times at the ends
of their ranges, with all three start time markers. -/
theorem records_roundtrip_extreme :
    let series : List RefSeries :=
      [{ ref := 0xFFFFFFFFFFFFFFFF, length_le := by decide, labels :=
          [⟨.single 98, .single 120⟩, ⟨.single 97, Str.empty⟩, ⟨Str.empty, .single 0⟩,
            ⟨⟨[95, 95], by decide⟩, ⟨[255, 0, 128], by decide⟩⟩] },
        { ref := 0, labels := [], length_le := by decide },
        { ref := 7, labels := [⟨.single 97, .single 98⟩], length_le := by decide }]
    let samples : List RefSample :=
      [{ ref := 0xFFFFFFFFFFFFFFFF, t := Int64.minValue, st := 5 },
        { ref := 0, t := Int64.maxValue, st := 5, v := 1 },
        { ref := 7, t := 0, st := Int64.minValue, v := 2 }, { ref := 7 }]
    decodeSeries (encodeSeries series) = .ok series ∧
      decodeSamplesV2 (encodeSamplesV2 samples) = .ok samples :=
  records_roundtrip _ _ (by decide) (by decide)

end MerlionTsdb.Wal.Record
