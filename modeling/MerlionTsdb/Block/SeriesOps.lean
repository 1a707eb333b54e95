import MerlionTsdb.Block.Stored
import MerlionTsdb.Lib.SignedRange

/-!
# Signed arithmetic of index entries

The exact results of the signed additions and subtractions over the chunks of a series.  What the decoder
adds up is what the writer has subtracted, so both stay within 64 bits together.
-/

namespace MerlionTsdb.Block

open Encoding Model

/-! ## What is computed -/

def chunkDeltasOps : Int64 → Int64 → List ChunkMeta → List Int
  | _, _, [] => []
  | t0, ref0, c :: metas =>
    (c.minTime.toInt - t0.toInt) :: (c.maxTime.toInt - c.minTime.toInt) ::
      (c.ref.toInt64.toInt - ref0.toInt) :: chunkDeltasOps c.maxTime c.ref.toInt64 metas

/-- The subtractions of `add_series`. -/
def addSeriesOps : List ChunkMeta → List Int
  | [] => []
  | c :: metas => (c.maxTime.toInt - c.minTime.toInt) :: chunkDeltasOps c.maxTime c.ref.toInt64 metas

def decodeChunksOps (payload : Bytes) : Nat → Nat → Int64 → Int64 → List Int
  | 0, _, _, _ => []
  | left + 1, pos, t0, signedRef =>
    match readUv payload pos with
    | .error _ => []
    | .ok (mintDelta, n) =>
      let mint := mintDelta.toInt64 + t0
      (mintDelta.toInt64.toInt + t0.toInt) ::
        match readUv payload (pos + n) with
        | .error _ => []
        | .ok (maxtDelta, m) =>
          let maxt := maxtDelta.toInt64 + mint
          (maxtDelta.toInt64.toInt + mint.toInt) ::
            match readV payload (pos + n + m) with
            | .error _ => []
            | .ok (refDelta, k) =>
              (signedRef.toInt + refDelta.toInt) ::
                decodeChunksOps payload left (pos + n + m + k) maxt (signedRef + refDelta)

/-- The additions for the chunks in the payload of a series, from the position of their count on. -/
def decodeChunkListOps (payload : Bytes) (pos : Nat) : List Int :=
  match readUv payload pos with
  | .error _ => []
  | .ok (k, n) =>
    let pos := pos + n
    if k = 0 then []
    else if kMaxChunkMetas < k.toNat then []
    else
      match readV payload pos with
      | .error _ => []
      | .ok (t0, n) =>
        match readUv payload (pos + n) with
        | .error _ => []
        | .ok (maxtDelta, m) =>
          (maxtDelta.toInt64.toInt + t0.toInt) ::
            match readUv payload (pos + n + m) with
            | .error _ => []
            | .ok (ref0, l) =>
              decodeChunksOps payload (k.toNat - 1) (pos + n + m + l) (maxtDelta.toInt64 + t0) ref0.toInt64

/-- The additions of `decode_series_payload`. -/
def decodeSeriesPayloadOps (payload : Bytes) (symbols : IndexSymbolTable) : List Int :=
  match readUv payload 0 with
  | .error _ => []
  | .ok (k, pos) =>
    if kMaxLabels < k.toNat then []
    else
      match decodeLabels payload symbols k.toNat pos with
      | .error _ => []
      | .ok (labels, pos) => if labels.length ≤ kMaxLabels then decodeChunkListOps payload pos else []

def IndexReader.seriesOps (r : IndexReader) (id : UInt64) : List Int :=
  let offset := if r.version = kIndexFormatV1 then id.toNat else id.toNat * 16 % 2 ^ 64
  match readUvarintSectionPayload r.data offset with
  | .error _ => []
  | .ok payload => decodeSeriesPayloadOps payload r.symbols

/-! ## The decoder -/

/-- A sum in the order of the source. -/
theorem inInt64_add_comm {a d : Int64} (h : InInt64 ((d + a).toInt - a.toInt)) :
    InInt64 (d.toInt + a.toInt) := by
  rw [Int.add_comm]
  exact inInt64_add (Int64.add_comm a d) h

theorem allIn_decodeChunks {payload : Bytes} {left pos : Nat} {t0 signedRef : Int64}
    {metas : List ChunkMeta} (h : decodeChunks payload left pos t0 signedRef = .ok metas)
    (hops : AllIn (chunkDeltasOps t0 signedRef metas)) :
    AllIn (decodeChunksOps payload left pos t0 signedRef) := by
  induction left generalizing pos t0 signedRef metas with
  | zero => exact allIn_nil
  | succ left ih =>
    rw [decodeChunks] at h
    obtain ⟨⟨mintDelta, n⟩, hmint, h⟩ := bind_ok h
    obtain ⟨⟨maxtDelta, m⟩, hmaxt, h⟩ := bind_ok h
    obtain ⟨⟨refDelta, k⟩, href, h⟩ := bind_ok h
    obtain ⟨chunks, hchunks, h⟩ := bind_ok h
    cases h
    rw [chunkDeltasOps] at hops
    simp only [allIn_cons, Int64.toInt64_toUInt64] at hops
    obtain ⟨hmintIn, hmaxtIn, hrefIn, hrest⟩ := hops
    rw [decodeChunksOps, hmint]
    dsimp only
    rw [hmaxt]
    dsimp only
    rw [href]
    simp only [allIn_cons]
    exact ⟨inInt64_add_comm hmintIn, inInt64_add_comm hmaxtIn, inInt64_add rfl hrefIn,
      ih hchunks hrest⟩

/-- Decoding the chunks of a series whose differences are within 64 bits. -/
theorem allIn_decodeSeriesPayload {payload : Bytes} {symbols : IndexSymbolTable} {se : SeriesEntry}
    (h : decodeSeriesPayload payload symbols = .ok se) (hops : AllIn (addSeriesOps se.chunks)) :
    AllIn (decodeSeriesPayloadOps payload symbols) := by
  unfold decodeSeriesPayload at h
  obtain ⟨⟨k, pos⟩, hcount, h⟩ := bind_ok h
  unfold decodeSeriesPayloadOps
  rw [hcount]
  dsimp only at h ⊢
  obtain ⟨hroom, h⟩ := reserve_bind_ok.mp h
  rw [if_neg (Nat.not_lt.mpr (labels_le_of_reserves hroom))]
  obtain ⟨⟨labels, pos'⟩, hlabels, h⟩ := bind_ok h
  rw [hlabels]
  dsimp only at h ⊢
  split at h
  · rename_i hlen
    -- Behind the labels, the operations are those of the chunk list.
    rw [if_pos hlen]
    unfold decodeChunkListOps
    obtain ⟨⟨k', n⟩, hcount', h⟩ := bind_ok h
    rw [hcount']
    dsimp only at h ⊢
    split at h
    · rename_i hzero
      rw [if_pos hzero]
      exact allIn_nil
    rename_i hzero
    rw [if_neg hzero]
    obtain ⟨hroom', h⟩ := reserve_bind_ok.mp h
    rw [if_neg (Nat.not_lt.mpr (reserves_chunkMetas.mp hroom'))]
    obtain ⟨⟨t0, n'⟩, ht0, h⟩ := bind_ok h
    obtain ⟨⟨maxtDelta, m⟩, hmaxt, h⟩ := bind_ok h
    obtain ⟨⟨ref0, l⟩, href, h⟩ := bind_ok h
    obtain ⟨chunks, hchunks, h⟩ := bind_ok h
    cases h
    -- The reader adds up what the writer has subtracted.
    rw [addSeriesOps, allIn_cons] at hops
    rw [ht0]
    dsimp only
    rw [hmaxt]
    dsimp only
    rw [href]
    rw [allIn_cons]
    exact ⟨inInt64_add_comm hops.1, allIn_decodeChunks hchunks hops.2⟩
  · cases h

theorem IndexReader.allIn_series {r : IndexReader} {id : UInt64} {se : SeriesEntry}
    (h : r.series id = .ok se) (hops : AllIn (addSeriesOps se.chunks)) : AllIn (r.seriesOps id) := by
  unfold IndexReader.series at h
  obtain ⟨payload, hpayload, h⟩ := bind_ok h
  unfold IndexReader.seriesOps
  dsimp only
  rw [hpayload]
  exact allIn_decodeSeriesPayload h hops

/-! ## The writer -/

/-- References into few segments. -/
def SmallRef (m : ChunkMeta) : Prop := m.ref.toNat < 2 ^ 63

theorem SmallRef.inInt64_sub {m m' : ChunkMeta} (h : SmallRef m) (h' : SmallRef m') :
    InInt64 (m'.ref.toInt64.toInt - m.ref.toInt64.toInt) := by
  have hnonneg := toInt_toInt64_nonneg h
  have hnonneg' := toInt_toInt64_nonneg h'
  have hin := inInt64_toInt m.ref.toInt64
  have hin' := inInt64_toInt m'.ref.toInt64
  unfold InInt64 at *
  omega

/-- Two times of chunks that follow each other. -/
def Close (t t' : Int64) : Prop := InInt64 (t'.toInt - t.toInt)

instance (t t' : Int64) : Decidable (Close t t') := inferInstanceAs (Decidable (InInt64 _))

/-- Every chunk spans less than 2^63, and so does the gap to the next. -/
def CloseTimes (times : List (Int64 × Int64)) : Prop :=
  (∀ c ∈ times, Close c.1 c.2) ∧ times.IsChain fun c c' ↦ Close c.2 c'.1

instance (times : List (Int64 × Int64)) : Decidable (CloseTimes times) :=
  -- Not by a search through all pairs.
  @instDecidableAnd _ _ (List.decidableBAll _ times) inferInstance

def ChunkMeta.times (m : ChunkMeta) : Int64 × Int64 := (m.minTime, m.maxTime)

theorem allIn_chunkDeltas {m : ChunkMeta} {metas : List ChunkMeta} (hm : SmallRef m)
    (hrefs : ∀ m' ∈ metas, SmallRef m') (hclose : CloseTimes ((m :: metas).map ChunkMeta.times)) :
    AllIn (chunkDeltasOps m.maxTime m.ref.toInt64 metas) := by
  induction metas generalizing m with
  | nil => exact allIn_nil
  | cons m' metas ih =>
    obtain ⟨hspan, hchain⟩ := hclose
    obtain ⟨hgap, hchain'⟩ := List.isChain_cons_cons.mp hchain
    have hm' := hrefs m' List.mem_cons_self
    have hrest := ih hm' (fun m'' hmem ↦ hrefs m'' (List.mem_cons_of_mem _ hmem))
      ⟨fun c hc ↦ hspan c (List.mem_cons_of_mem _ hc), hchain'⟩
    have hspan' : Close m'.minTime m'.maxTime := hspan m'.times (by simp)
    rw [chunkDeltasOps]
    simp only [allIn_cons]
    exact ⟨hgap, hspan', hm.inInt64_sub hm', hrest⟩

/-- Adding a series whose chunks are close to each other. -/
theorem allIn_addSeries {metas : List ChunkMeta} (hrefs : ∀ m ∈ metas, SmallRef m)
    (hclose : CloseTimes (metas.map ChunkMeta.times)) : AllIn (addSeriesOps metas) := by
  cases metas with
  | nil => exact allIn_nil
  | cons m metas =>
    have hspan : Close m.minTime m.maxTime := hclose.1 m.times (by simp)
    rw [addSeriesOps, allIn_cons]
    exact ⟨hspan, allIn_chunkDeltas (hrefs m List.mem_cons_self)
      (fun m' hm' ↦ hrefs m' (List.mem_cons_of_mem _ hm')) hclose⟩

/-- What a new block writes refers to fewer segments than a reference can name. -/
theorem writeSegments_smallRef {calls : CreateCalls} {series : List SeriesInput}
    {prepared : List PreparedSeries} {st : ChunkStage}
    (hok : writeSegments calls series = .ok (prepared, st))
    (hfew : (packChunks kDefaultChunksSegmentSize (payloads series)).length < 999999) :
    ∀ ps ∈ prepared, ∀ m ∈ ps.chunkMetas, SmallRef m := by
  intro ps hps m hm
  obtain ⟨hmetas, -⟩ := writeSegments_located hok hfew
  obtain ⟨chk, -, -, -, ref, href, hmem⟩ := Related.exists_left (hmetas ps hps) hm
  obtain ⟨i, chunks, hget, hmem⟩ := mem_locate.mp hmem
  obtain ⟨-, -, -, hseq, -⟩ := mem_locateFrom.mp hmem
  obtain ⟨hi, -⟩ := List.getElem?_eq_some_iff.mp hget
  have hoffset := ref.offset.toNat_lt
  have hseq' : ref.seq = UInt32.ofNat (0 + i) := hseq
  unfold SmallRef
  rw [href, BlockChunkRef.toNat_toU64, hseq', UInt32.toNat_ofNat_of_lt' (by rw [UInt32.size]; omega)]
  omega

end MerlionTsdb.Block
