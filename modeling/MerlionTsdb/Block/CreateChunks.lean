import MerlionTsdb.Block.ChunksRoundtrip
import MerlionTsdb.Block.Create

/-!
# The chunks of a new block

What a successful first step of `create_from_series` has put into the segments.
-/

namespace MerlionTsdb.Block

open Encoding Wal

/-! ## Writes that succeeded -/

namespace ChunkWriter

variable {w w' : ChunkWriter} {files files' : Files}

/-- Whatever the calls answered, a write that succeeded has written everything. -/
theorem writeFd_ok {calls : List WriteResult} {data : Bytes}
    (h : w.writeFd files calls data = (true, files')) : w.writeFd files [] data = (true, files') := by
  unfold writeFd at h ⊢
  cases hfd : w.fd with
  | none =>
    rw [hfd] at h
    cases h
  | some name =>
    rw [hfd] at h
    dsimp only at h ⊢
    rcases hwrite : Wal.writeAll calls data with ⟨ok, written⟩
    rw [hwrite] at h
    dsimp only at h
    rw [Prod.mk.injEq] at h
    obtain ⟨rfl, rfl⟩ := h
    rw [writeAll_of_succeeds (by simp), writeAll_true hwrite]

theorem cutNewSegment_ok {calls : ChunkCutCalls}
    (h : w.cutNewSegment files calls = (true, w', files')) :
    w.cutNewSegment files {} = (true, w', files') := by
  unfold cutNewSegment at h ⊢
  split at h
  · cases h
  · split at h
    · cases h
    · dsimp only at h
      split at h
      · cases h
      · rw [if_neg (by simp), if_neg (by simp)]
        dsimp only
        rw [if_neg (by simp)]
        split at h
        · cases h
        · rename_i files₁ hwrite
          rw [writeFd_ok hwrite]
          exact h

theorem openDir_ok {size : Nat} {calls : ChunkCutCalls}
    (h : openDir files size calls = (.ok w', files')) :
    openDir files size {} = (.ok w', files') := by
  unfold openDir at h ⊢
  split at h
  · cases h
  · rename_i hnew
    rw [if_neg hnew]
    split at h
    · cases h
    · rename_i w₁ files₁ hcut
      rw [cutNewSegment_ok hcut]
      exact h

theorem write_ok {c : ChunkPayload} {calls : ChunkCalls} {ref : BlockChunkRef}
    (h : w.write files c calls = (.ok ref, w', files')) :
    w.write files c {} = (.ok ref, w', files') := by
  unfold write at h ⊢
  split at h
  · cases h
  · rename_i hopen
    rw [if_neg hopen]
    split at h
    · cases h
    · rename_i w₁ files₁ hstart
      have hstart' : (if w.rollsOver c.data.length then w.cutNewSegment files {}
          else (true, w, files)) = (true, w₁, files₁) := by
        by_cases hroll : w.rollsOver c.data.length = true
        · rw [if_pos hroll] at hstart ⊢
          exact cutNewSegment_ok hstart
        · rw [if_neg hroll] at hstart ⊢
          exact hstart
      rw [hstart']
      dsimp only at h ⊢
      split at h
      · cases h
      · rename_i files₂ hwrite
        rw [writeFd_ok hwrite]
        exact h

end ChunkWriter

/-! ## The loops -/

/-- A chunk of a series, and the chunks behind it. -/
theorem ChunkStage.writeAll_cons_iff {st st' : ChunkStage} {chk : ChunkInput}
    {chunks : List ChunkInput} {metas : List ChunkMeta} :
    st.writeAll (chk :: chunks) = .ok (metas, st') ↔
      ∃ cm st₁ metas', st.write chk = .ok (cm, st₁) ∧ st₁.writeAll chunks = .ok (metas', st') ∧
        metas = cm :: metas' := by
  rw [ChunkStage.writeAll]
  constructor
  · intro hok
    split at hok
    · cases hok
    · rename_i cm st₁ hwrite
      split at hok
      · cases hok
      · rename_i metas' st₂ hrest
        cases hok
        exact ⟨cm, st₁, metas', hwrite, hrest, rfl⟩
  · rintro ⟨cm, st₁, metas', hwrite, hrest, rfl⟩
    rw [hwrite]
    dsimp only
    rw [hrest]

theorem ChunkStage.prepare_cons_empty {s : SeriesInput} (h : s.chunks = []) (st : ChunkStage)
    (series : List SeriesInput) : st.prepare (s :: series) = st.prepare series := by
  rw [ChunkStage.prepare, if_pos (List.isEmpty_iff.mpr h)]

/-- A series with chunks, and the series behind it. -/
theorem ChunkStage.prepare_cons_iff {st st' : ChunkStage} {s : SeriesInput} (h : s.chunks ≠ [])
    {series : List SeriesInput} {prepared : List PreparedSeries} :
    st.prepare (s :: series) = .ok (prepared, st') ↔
      ∃ metas st₁ prepared', st.writeAll s.chunks = .ok (metas, st₁) ∧
        st₁.prepare series = .ok (prepared', st') ∧ prepared = ⟨s, metas⟩ :: prepared' := by
  rw [ChunkStage.prepare, if_neg (mt List.isEmpty_iff.mp h)]
  constructor
  · intro hok
    split at hok
    · cases hok
    · rename_i metas st₁ hchunks
      split at hok
      · cases hok
      · rename_i prepared' st₂ hrest
        cases hok
        exact ⟨metas, st₁, prepared', hchunks, hrest, rfl⟩
  · rintro ⟨metas, st₁, prepared', hchunks, hrest, rfl⟩
    rw [hchunks]
    dsimp only
    rw [hrest]

theorem writeSegments_iff {calls : CreateCalls} {series : List SeriesInput}
    {prepared : List PreparedSeries} {st : ChunkStage} :
    writeSegments calls series = .ok (prepared, st) ↔
      ∃ writer files, ChunkWriter.openDir Files.empty kDefaultChunksSegmentSize calls.cut =
          (.ok writer, files) ∧
        ChunkStage.prepare { writer := writer, files := files, calls := calls.write } series =
          .ok (prepared, st) ∧
        (st.writer.close calls.fsyncChunks calls.closeChunks).1 = true := by
  rw [writeSegments]
  constructor
  · intro hok
    split at hok
    · cases hok
    · rename_i writer files hopen
      split at hok
      · cases hok
      · rename_i prepared' st' hprepare
        split at hok
        · rename_i hclose
          cases hok
          exact ⟨writer, files, hopen, hprepare, hclose⟩
        · cases hok
  · rintro ⟨writer, files, hopen, hprepare, hclose⟩
    rw [hopen]
    dsimp only
    rw [hprepare]
    exact if_pos hclose

/-- The payload that a chunk is written as. -/
def ChunkInput.payload (chk : ChunkInput) : ChunkPayload := ⟨.xor, chk.bytes.bytes⟩

/-- The meta of a chunk: its times, and a reference that the located chunks know. -/
def MetaOf (located : List (BlockChunkRef × ChunkPayload)) (chk : ChunkInput) (cm : ChunkMeta) :
    Prop :=
  cm.minTime = chk.minTime ∧ cm.maxTime = chk.maxTime ∧
    ∃ ref : BlockChunkRef, cm.ref = ref.toU64 ∧ (ref, chk.payload) ∈ located

theorem MetaOf.mono {located located' : List (BlockChunkRef × ChunkPayload)} {chk : ChunkInput}
    {cm : ChunkMeta} (h : MetaOf located chk cm) (hsub : located ⊆ located') :
    MetaOf located' chk cm := by
  obtain ⟨hmin, hmax, ref, href, hmem⟩ := h
  exact ⟨hmin, hmax, ref, href, hsub hmem⟩

/-- The chunks that a list of series brings to the writer, in their order. -/
def payloads (series : List SeriesInput) : List ChunkPayload :=
  series.flatMap fun s ↦ s.chunks.map ChunkInput.payload

section

variable {size : Nat} {st st' : ChunkStage} {done : List (List ChunkPayload)}
  {cur : List ChunkPayload}

/-- One chunk: the split goes on, and the totals with it. -/
theorem write_written (h : Written size st.writer st.files done cur) {chk : ChunkInput}
    {cm : ChunkMeta} (hok : st.write chk = .ok (cm, st'))
    (hfew : (packChunk size (done, cur) chk.payload).1.length < 999999) :
    st'.totals = st.totals.add chk ∧
      Written size st'.writer st'.files (packChunk size (done, cur) chk.payload).1
        (packChunk size (done, cur) chk.payload).2 ∧
      locate 0 (done ++ [cur]) ⊆ locate 0 ((packChunk size (done, cur) chk.payload).1 ++
        [(packChunk size (done, cur) chk.payload).2]) ∧
      MetaOf (locate 0 ((packChunk size (done, cur) chk.payload).1 ++
        [(packChunk size (done, cur) chk.payload).2])) chk cm := by
  have hsucceeds : ChunkCalls.Succeeds {} := ⟨⟨rfl, rfl, rfl, by simp⟩, by simp⟩
  obtain ⟨ref, w', files', hwrite, hwritten, hlocate⟩ := h.write hsucceeds chk.payload hfew
  unfold ChunkStage.write at hok
  split at hok
  · cases hok
  · rename_i ref' writer files hwrite'
    have hdefault := ChunkWriter.write_ok hwrite'
    rw [show (⟨.xor, chk.bytes.bytes⟩ : ChunkPayload) = chk.payload from rfl, hwrite] at hdefault
    cases hdefault
    cases hok
    refine ⟨rfl, hwritten, ?_, rfl, rfl, ref, rfl, ?_⟩
    · rw [hlocate]
      exact List.subset_append_left _ _
    · rw [hlocate]
      exact List.mem_append_right _ (List.mem_singleton_self _)

/-- The chunks of one series. -/
theorem writeAll_written (h : Written size st.writer st.files done cur) {chunks : List ChunkInput}
    {metas : List ChunkMeta} (hok : st.writeAll chunks = .ok (metas, st'))
    (hfew : ((chunks.map ChunkInput.payload).foldl (packChunk size) (done, cur)).1.length <
      999999) :
    let segs := (chunks.map ChunkInput.payload).foldl (packChunk size) (done, cur)
    Written size st'.writer st'.files segs.1 segs.2 ∧
      locate 0 (done ++ [cur]) ⊆ locate 0 (segs.1 ++ [segs.2]) ∧
      List.Forall₂ (MetaOf (locate 0 (segs.1 ++ [segs.2]))) chunks metas := by
  induction chunks generalizing st done cur metas with
  | nil =>
    cases hok
    exact ⟨h, List.Subset.refl _, List.Forall₂.nil⟩
  | cons chk chunks ih =>
    obtain ⟨cm, st₁, metas', hwrite, hrest, rfl⟩ := ChunkStage.writeAll_cons_iff.mp hok
    rw [List.map_cons, List.foldl_cons] at hfew ⊢
    have hstep := lt_of_le_of_lt (length_foldl_packChunk size _ _) hfew
    obtain ⟨-, h₁, hsub, hmeta⟩ := write_written h hwrite hstep
    obtain ⟨h₂, hsub', hmetas⟩ := ih h₁ hrest hfew
    exact ⟨h₂, List.Subset.trans hsub hsub', List.Forall₂.cons (hmeta.mono hsub') hmetas⟩

/-- The series loop. -/
theorem prepare_written (h : Written size st.writer st.files done cur) {series : List SeriesInput}
    {prepared : List PreparedSeries} (hok : st.prepare series = .ok (prepared, st'))
    (hfew : ((payloads series).foldl (packChunk size) (done, cur)).1.length < 999999) :
    let segs := (payloads series).foldl (packChunk size) (done, cur)
    Written size st'.writer st'.files segs.1 segs.2 ∧
      locate 0 (done ++ [cur]) ⊆ locate 0 (segs.1 ++ [segs.2]) ∧
      ∀ ps ∈ prepared,
        List.Forall₂ (MetaOf (locate 0 (segs.1 ++ [segs.2]))) ps.input.chunks ps.chunkMetas := by
  induction series generalizing st done cur prepared with
  | nil =>
    cases hok
    exact ⟨h, List.Subset.refl _, by simp⟩
  | cons s series ih =>
    have hpayloads : payloads (s :: series) = s.chunks.map ChunkInput.payload ++ payloads series := by
      unfold payloads
      rw [List.flatMap_cons]
    rw [hpayloads, List.foldl_append] at hfew ⊢
    by_cases hempty : s.chunks = []
    · rw [ChunkStage.prepare_cons_empty hempty] at hok
      rw [hempty] at hfew ⊢
      exact ih h hok hfew
    · obtain ⟨metas, st₁, prepared', hchunks, hrest, rfl⟩ :=
        (ChunkStage.prepare_cons_iff hempty).mp hok
      have hstep := lt_of_le_of_lt (length_foldl_packChunk size _ _) hfew
      obtain ⟨h₁, hsub, hmetas⟩ := writeAll_written h hchunks hstep
      obtain ⟨h₂, hsub', hprepared⟩ := ih h₁ hrest hfew
      refine ⟨h₂, List.Subset.trans hsub hsub', ?_⟩
      intro ps hps
      rcases List.mem_cons.mp hps with rfl | hps
      · exact hmetas.imp fun _ _ hm ↦ hm.mono hsub'
      · exact hprepared ps hps

end

/-! ## What a writer returns, whatever it writes -/

section

variable {st st' : ChunkStage}

theorem writeAll_totals {chunks : List ChunkInput} {metas : List ChunkMeta}
    (hok : st.writeAll chunks = .ok (metas, st')) :
    st'.totals = chunks.foldl Totals.add st.totals ∧
      List.Forall₂ (fun chk cm ↦ cm.minTime = chk.minTime ∧ cm.maxTime = chk.maxTime) chunks metas := by
  induction chunks generalizing st metas with
  | nil =>
    cases hok
    exact ⟨rfl, List.Forall₂.nil⟩
  | cons chk chunks ih =>
    obtain ⟨cm, st₁, metas', hwrite, hrest, rfl⟩ := ChunkStage.writeAll_cons_iff.mp hok
    obtain ⟨htotals, hmetas⟩ := ih hrest
    unfold ChunkStage.write at hwrite
    split at hwrite
    · cases hwrite
    · cases hwrite
      exact ⟨htotals, List.Forall₂.cons ⟨rfl, rfl⟩ hmetas⟩

/-- A series that `create_from_series` stores. -/
def SeriesInput.kept (s : SeriesInput) : Bool := !s.chunks.isEmpty

/-- The prepared series are the inputs with chunks, each with the times of its chunks. -/
theorem prepare_totals {series : List SeriesInput} {prepared : List PreparedSeries}
    (hok : st.prepare series = .ok (prepared, st')) :
    prepared.map PreparedSeries.input = series.filter SeriesInput.kept ∧
      st'.totals = (series.flatMap SeriesInput.chunks).foldl Totals.add st.totals ∧
      ∀ ps ∈ prepared, List.Forall₂
        (fun chk cm ↦ cm.minTime = chk.minTime ∧ cm.maxTime = chk.maxTime)
        ps.input.chunks ps.chunkMetas := by
  induction series generalizing st prepared with
  | nil =>
    cases hok
    exact ⟨rfl, rfl, by simp⟩
  | cons s series ih =>
    by_cases hempty : s.chunks = []
    · rw [ChunkStage.prepare_cons_empty hempty] at hok
      obtain ⟨hinputs, htotals, hmetas⟩ := ih hok
      rw [List.filter_cons_of_neg (by simp [SeriesInput.kept, hempty]), List.flatMap_cons, hempty]
      exact ⟨hinputs, htotals, hmetas⟩
    · obtain ⟨metas, st₁, prepared', hchunks, hrest, rfl⟩ :=
        (ChunkStage.prepare_cons_iff hempty).mp hok
      obtain ⟨htotals, hmetas⟩ := writeAll_totals hchunks
      obtain ⟨hinputs, htotals', hmetas'⟩ := ih hrest
      rw [List.filter_cons_of_pos (by simpa [SeriesInput.kept] using hempty), List.flatMap_cons,
        List.foldl_append, ← htotals]
      refine ⟨by rw [List.map_cons, hinputs], htotals', ?_⟩
      intro ps hps
      rcases List.mem_cons.mp hps with rfl | hps
      · exact hmetas
      · exact hmetas' ps hps

end

/-! ## The first step -/

/-- What a successful first step says without a look at the files. -/
theorem writeSegments_totals {calls : CreateCalls} {series : List SeriesInput}
    {prepared : List PreparedSeries} {st : ChunkStage}
    (hok : writeSegments calls series = .ok (prepared, st)) :
    prepared.map PreparedSeries.input = series.filter SeriesInput.kept ∧
      st.totals = (series.flatMap SeriesInput.chunks).foldl Totals.add {} ∧
      ∀ ps ∈ prepared, List.Forall₂
        (fun chk cm ↦ cm.minTime = chk.minTime ∧ cm.maxTime = chk.maxTime)
        ps.input.chunks ps.chunkMetas := by
  obtain ⟨writer, files, -, hprepare, -⟩ := writeSegments_iff.mp hok
  exact prepare_totals hprepare

/-- The split keeps every chunk. -/
theorem flatten_foldl_packChunk (size : Nat) (chunks : List ChunkPayload)
    (segs : List (List ChunkPayload) × List ChunkPayload) :
    let segs' := chunks.foldl (packChunk size) segs
    (segs'.1 ++ [segs'.2]).flatten = (segs.1 ++ [segs.2]).flatten ++ chunks := by
  induction chunks generalizing segs with
  | nil => simp
  | cons c chunks ih =>
    have hstep : ((packChunk size segs c).1 ++ [(packChunk size segs c).2]).flatten =
        (segs.1 ++ [segs.2]).flatten ++ [c] := by
      unfold packChunk
      dsimp only
      split <;> simp
    rw [List.foldl_cons]
    have hrest := ih (packChunk size segs c)
    rw [hstep, List.append_assoc] at hrest
    exact hrest

/-- Every meta refers to a located chunk, and a reader of the segments finds all of these. -/
theorem writeSegments_located {calls : CreateCalls} {series : List SeriesInput}
    {prepared : List PreparedSeries} {st : ChunkStage}
    (hok : writeSegments calls series = .ok (prepared, st))
    (hfew : (packChunks kDefaultChunksSegmentSize (payloads series)).length < 999999) :
    (∀ ps ∈ prepared, List.Forall₂
      (MetaOf (locate 0 (packChunks kDefaultChunksSegmentSize (payloads series))))
        ps.input.chunks ps.chunkMetas) ∧
      ∀ x ∈ locate 0 (packChunks kDefaultChunksSegmentSize (payloads series)),
        ((ChunkReader.openDir st.files).read x.1).1 = .ok x.2 := by
  have hsucceeds : ChunkCutCalls.Succeeds {} := ⟨rfl, rfl, rfl, by simp⟩
  -- The calls that succeed are those of an empty directory.
  obtain ⟨w₀, files₀, hopen₀, h₀⟩ :=
    @written_openDir Files.empty rfl kDefaultChunksSegmentSize _ hsucceeds
  obtain ⟨writer, files, hopen, hprepare, -⟩ := writeSegments_iff.mp hok
  have hdefault := ChunkWriter.openDir_ok hopen
  rw [hopen₀] at hdefault
  cases hdefault
  have hfold : ((payloads series).foldl (packChunk kDefaultChunksSegmentSize) ([], [])).1.length <
      999999 := by
    unfold packChunks at hfew
    rw [List.length_append] at hfew
    omega
  obtain ⟨hwritten, -, hmetas⟩ := prepare_written h₀ hprepare hfold
  have hsegs : chunkSegments st.files =
      (packChunks kDefaultChunksSegmentSize (payloads series)).map segmentBytes :=
    hwritten.chunkSegments
  have hpacked := packed_packChunks kDefaultChunksSegmentSize (payloads series)
  -- A chunk to be written is one of the input.
  have hdata : ∀ chunks ∈ packChunks kDefaultChunksSegmentSize (payloads series),
      ∀ c ∈ chunks, c.data.length ≤ kMaxSize := by
    intro chunks hchunks c hc
    have hmem := List.mem_flatten.mpr ⟨chunks, hchunks, hc⟩
    have hflat := flatten_foldl_packChunk kDefaultChunksSegmentSize (payloads series) ([], [])
    unfold packChunks at hmem
    rw [hflat] at hmem
    obtain ⟨s, -, hs⟩ := List.mem_flatMap.mp hmem
    obtain ⟨chk, -, rfl⟩ := List.mem_map.mp hs
    exact chk.bytes.length_le
  obtain ⟨hread, -⟩ := read_located (by decide) hpacked (by omega) hdata []
  refine ⟨hmetas, fun x hx ↦ ?_⟩
  unfold ChunkReader.openDir
  rw [hsegs]
  exact hread x hx

/-- A reader of the segments finds every chunk under the reference in its meta. -/
theorem writeSegments_reads {calls : CreateCalls} {series : List SeriesInput}
    {prepared : List PreparedSeries} {st : ChunkStage}
    (hok : writeSegments calls series = .ok (prepared, st))
    (hfew : (packChunks kDefaultChunksSegmentSize (payloads series)).length < 999999) :
    ∀ ps ∈ prepared, List.Forall₂ (fun chk cm ↦ cm.minTime = chk.minTime ∧ cm.maxTime = chk.maxTime ∧
      ((ChunkReader.openDir st.files).read cm.chunkRef).1 = .ok chk.payload)
        ps.input.chunks ps.chunkMetas := by
  obtain ⟨hmetas, hread⟩ := writeSegments_located hok hfew
  intro ps hps
  apply (hmetas ps hps).imp
  rintro chk cm ⟨hmin, hmax, ref, href, hmem⟩
  refine ⟨hmin, hmax, ?_⟩
  unfold ChunkMeta.chunkRef
  rw [href, BlockChunkRef.fromU64_toU64]
  exact hread (ref, chk.payload) hmem

end MerlionTsdb.Block
