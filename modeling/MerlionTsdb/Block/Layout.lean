import MerlionTsdb.Block.IndexDamage
import MerlionTsdb.Block.Produced

/-!
# The layout of a block

What stands where in the files of a block directory: the sections of its index, and the chunks of its
segments.  Every directory that the program produced within the format has one.
-/

namespace MerlionTsdb.Block

open Ascending Chunkenc Crc32c Encoding Head Model Wal

/-- The sections of the index, and the chunks of each segment. -/
structure BlockLayout where
  index : IndexLayout
  segments : List (List ChunkPayload)

/-- The files of the directory are laid out so, and the index refers to the chunks where they stand. -/
structure BlockLayout.Describes (l : BlockLayout) (dir : BlockDir) : Prop where
  proper : l.index.Proper
  index : ∃ bytes, dir.index = some bytes ∧ l.index.In Intact bytes
  segments_eq : chunkSegments dir.chunks = l.segments.map segmentBytes
  packed : Packed kDefaultChunksSegmentSize l.segments
  few : l.segments.length ≤ 2 ^ 32
  data_le : ∀ chunks ∈ l.segments, ∀ c ∈ chunks, c.data.length ≤ kMaxSize
  located : ∀ s ∈ l.index.contents.series, ∀ cm ∈ s.chunkMetas,
    ∃ c, (cm.chunkRef, c) ∈ locate 0 l.segments

/-! ## The index -/

/-- The sections of a closed file. -/
theorem SectionsLaid.closed {w w' : IndexWriter} {x : IndexContents} (h : SectionsLaid w x)
    {file file' : Option Bytes} {calls : IndexCloseCalls}
    (hclose : w.close file calls = (.ok (), w', file')) :
    ∃ bytes toc, file' = some bytes ∧ toc.symbols = 5 ∧
      IndexLayout.In ⟨toc, w.pendingPostings, x⟩ Intact bytes := by
  obtain ⟨-, -, rfl, hmax⟩ := IndexWriter.close_ok hclose
  obtain ⟨toc, hsyms, htbl, hbuf⟩ := IndexWriter.appendTables_buf w
  have hend := h.symbols.end_le
  have htocLen : toc.bytes.length = 48 := rfl
  have htableOff : toc.postingsTable.toNat = w.buf.length := by
    have hk : kMaxSize = 2 ^ 63 - 1 := rfl
    rw [hbuf, List.length_append] at hmax
    rw [htbl, UInt64.toNat_ofNat_of_lt']
    rw [UInt64.size]
    omega
  rw [hbuf] at hmax ⊢
  refine ⟨_, toc, rfl, hsyms.trans h.off_eq, ?_⟩
  constructor
  · exact hmax
  · simp only [length_section32, List.length_append, htocLen, length_putBe32, kIndexHeaderSize,
      kIndexTocSize] at hend ⊢
    omega
  · exact h.header.append _
  · exact ⟨w.buf ++ section32 (tablePayload w.pendingPostings), _, rfl, by rw [List.append_assoc]; rfl⟩
  · exact ⟨_, rfl, h.symbols.append _⟩
  · refine ⟨_, rfl, ?_⟩
    rw [htableOff]
    exact Placed.intro _ _ _
  · exact fun s hs ↦ ⟨_, rfl, ((h.series s hs).append _).2⟩
  · apply h.postings.imp
    rintro e p ⟨-, -, -, off, hoff, hplaced⟩
    have hle := hplaced.end_le
    have hoff' : e.offset.toNat = off := by
      have hk : kMaxSize = 2 ^ 63 - 1 := rfl
      rw [List.length_append] at hmax
      rw [hoff, UInt64.toNat_ofNat_of_lt']
      rw [UInt64.size]
      omega
    refine ⟨_, rfl, ?_⟩
    rw [hoff']
    exact hplaced.append _

/-- The layout of an index that was written, and its series, which are those that were prepared. -/
theorem writeIndex_laid {calls : IndexCloseCalls} {prepared : List PreparedSeries}
    {file : Option Bytes} (hok : writeIndex calls prepared = .ok file)
    (hmetas : ∀ ps ∈ prepared, ps.chunkMetas.length ≤ kMaxChunkMetas) (hfits : IndexFits prepared) :
    ∃ bytes, ∃ l : IndexLayout, file = some bytes ∧ l.In Intact bytes ∧ l.Proper ∧
      List.Forall₂ (WrittenAs l.contents.symbols) prepared l.contents.series := by
  obtain ⟨w, w', hbuild, hclose⟩ := writeIndex_iff.mp hok
  have htable := hfits.table hbuild
  obtain ⟨refs, w₁, ids, w₂, w₃, hstart, hseries, hfinish, hlists⟩ := buildIndex_iff.mp hbuild
  have hpostings := hfits.postings hstart hseries
  obtain ⟨h₁, hstage₁, hrefs, -⟩ := startIndex_ok hstart hfits.symbols
  obtain ⟨written, h₂, hstage₂, hwritten, rfl⟩ := addAllSeries_ok h₁ hstage₁ hrefs hseries hmetas
    fun hsplit hfront ↦ hfits.series hsplit hstart hfront
  have h₃ := h₂.finishSeries hfinish
  have h₄ := addAllPostings_ok h₃ hlists hpostings
  obtain ⟨bytes, toc, hfile, hoff, hin⟩ := h₄.closed hclose
  refine ⟨bytes, _, hfile, hin, ?_, hwritten⟩
  constructor
  · exact hoff
  · exact h₄.symbols_lt
  · exact htable
  · exact fun s hs ↦ (h₄.series s hs).1
  · intro s hs
    obtain ⟨ps, -, -, hlabels⟩ := Related.exists_left hwritten hs
    exact ⟨ps.input.labels, hlabels⟩
  · intro p hp
    obtain ⟨e, -, -, -, hlt, -⟩ := Related.exists_left h₄.postings hp
    exact hlt
  · -- Only ids of series that were written go to the lists.
    intro p hp id hid
    change p ∈ (postingLists (labelIds prepared (written.map SeriesWritten.id))).map postingsWritten at hp
    rw [labelIds_eq] at hp
    obtain ⟨label, -, rfl⟩ := mem_listsOf.mp hp
    obtain ⟨r, hr, -, rfl⟩ := (mem_pick StoredSeries.id).mp hid
    obtain ⟨-, hids, -⟩ := rows_of_written hwritten
    have hmem := List.mem_map_of_mem (f := StoredSeries.id) hr
    rw [hids] at hmem
    exact List.mem_map.mp hmem

/-! ## The segments -/

/-- The segments that were written hold the chunks as they were packed. -/
theorem writeSegments_segments {calls : CreateCalls} {series : List SeriesInput}
    {prepared : List PreparedSeries} {st : ChunkStage}
    (hok : writeSegments calls series = .ok (prepared, st))
    (hfew : (packChunks kDefaultChunksSegmentSize (payloads series)).length < 999999) :
    chunkSegments st.files =
      (packChunks kDefaultChunksSegmentSize (payloads series)).map segmentBytes := by
  have hsucceeds : ChunkCutCalls.Succeeds {} := ⟨rfl, rfl, rfl, by simp⟩
  obtain ⟨w₀, files₀, hopen₀, h₀⟩ :=
    @written_openDir Files.empty rfl kDefaultChunksSegmentSize _ hsucceeds
  obtain ⟨writer, files, hopen, hprepare, -⟩ := writeSegments_iff.mp hok
  have hdefault := ChunkWriter.openDir_ok hopen
  rw [hopen₀] at hdefault
  cases hdefault
  have hfold : ((payloads series).foldl (packChunk kDefaultChunksSegmentSize) ([], [])).1.length <
      999999 := by
    unfold packChunks at hfew
    rw [List.length_append] at hfew
    omega
  obtain ⟨hwritten, -, -⟩ := prepare_written h₀ hprepare hfold
  exact hwritten.chunkSegments

/-- A chunk in a segment is one of the input. -/
theorem length_le_of_packed {series : List SeriesInput} {chunks : List ChunkPayload}
    (hchunks : chunks ∈ packChunks kDefaultChunksSegmentSize (payloads series)) {c : ChunkPayload}
    (hc : c ∈ chunks) : c.data.length ≤ kMaxSize := by
  have hmem := List.mem_flatten.mpr ⟨chunks, hchunks, hc⟩
  have hflat := flatten_foldl_packChunk kDefaultChunksSegmentSize (payloads series) ([], [])
  unfold packChunks at hmem
  rw [hflat] at hmem
  obtain ⟨s, -, hs⟩ := List.mem_flatMap.mp hmem
  obtain ⟨chk, -, rfl⟩ := List.mem_map.mp hs
  exact chk.bytes.length_le

/-! ## The directory -/

theorem createFromSeries_described {text : JsonText} {calls : CreateCalls} {series : List SeriesInput}
    {dir : BlockDir} (hok : createFromSeries text calls series = .ok dir)
    (hfits : WithinFormat calls series) : ∃ l : BlockLayout, l.Describes dir := by
  obtain ⟨prepared, st, hsegments, hindex, hchunks, -⟩ := createFromSeries_ok hok
  obtain ⟨hlocated, -⟩ := writeSegments_located hsegments hfits.segments
  obtain ⟨bytes, l, hfile, hin, hproper, hwritten⟩ :=
    writeIndex_laid hindex (writeSegments_metas hsegments) (hfits.index hsegments)
  have hfew := hfits.segments
  refine ⟨⟨l, packChunks kDefaultChunksSegmentSize (payloads series)⟩, ?_⟩
  constructor
  · exact hproper
  · exact ⟨bytes, hfile, hin⟩
  · rw [hchunks]
    exact writeSegments_segments hsegments hfew
  · exact packed_packChunks _ _
  · show (packChunks kDefaultChunksSegmentSize (payloads series)).length ≤ _
    omega
  · exact fun chunks hchunks c hc ↦ length_le_of_packed hchunks hc
  · -- The metas of a series are those of the prepared one.
    intro s hs cm hcm
    obtain ⟨ps, hps, hsame, -⟩ := Related.exists_left hwritten hs
    rw [hsame] at hcm
    obtain ⟨chk, -, -, -, ref, href, hmem⟩ := Related.exists_left (hlocated ps hps) hcm
    refine ⟨chk.payload, ?_⟩
    unfold ChunkMeta.chunkRef
    rw [href, BlockChunkRef.fromU64_toU64]
    exact hmem

/-- The layout does not speak of the metadata, which `compact` writes again. -/
theorem BlockLayout.Describes.patched {l : BlockLayout} {dir : BlockDir} (h : l.Describes dir)
    (metaJson : Option Bytes) : l.Describes { dir with metaJson := metaJson } :=
  ⟨h.proper, h.index, h.segments_eq, h.packed, h.few, h.data_le, h.located⟩

theorem Produced.described {text : JsonText} {dir : BlockDir} {series : List SeriesInput}
    (h : Produced text dir series) : ∃ l : BlockLayout, l.Describes dir := by
  cases h with
  | series hok hfits _ => exact createFromSeries_described hok hfits
  | head _ hinputs hok hfits _ =>
    unfold createFromHead at hok
    rw [hinputs] at hok
    exact createFromSeries_described hok hfits
  | compact _ hrun hfits _ _ =>
    obtain ⟨l, hl⟩ := createFromSeries_described hrun.create_ok hfits
    rw [hrun.dir_eq]
    exact ⟨l, hl.patched _⟩

/-! ## Opening -/

theorem createFromSeries_index {text : JsonText} {calls : CreateCalls} {series : List SeriesInput}
    {dir : BlockDir} (hok : createFromSeries text calls series = .ok dir)
    (hfits : WithinFormat calls series) : ∃ r, IndexReader.openFile dir.index = .ok r := by
  obtain ⟨prepared, st, hsegments, hindex, -, -⟩ := createFromSeries_ok hok
  obtain ⟨r, -, hopen, -⟩ :=
    writeIndex_ok hindex (writeSegments_metas hsegments) (hfits.index hsegments)
  exact ⟨r, hopen⟩

/-- A directory with its metadata and its index opens. -/
theorem exists_openDir {text : JsonText} {dir : BlockDir} {m : BlockMeta} {r : IndexReader}
    (hmeta : readMeta text dir = .ok m) (hindex : IndexReader.openFile dir.index = .ok r) :
    ∃ blk, openDir text (some dir) = .ok blk := by
  unfold openDir
  dsimp only
  rw [hmeta, hindex]
  exact ⟨_, rfl⟩

/-- What the program produced within the format, it opens. -/
theorem Produced.opens {text : JsonText} {dir : BlockDir} {series : List SeriesInput}
    (h : Produced text dir series) : ∃ blk, openDir text (some dir) = .ok blk := by
  cases h with
  | series hok hfits hkeeps =>
    obtain ⟨prepared, st, -, hmeta⟩ := readMeta_created hok hkeeps
    obtain ⟨r, hindex⟩ := createFromSeries_index hok hfits
    exact exists_openDir hmeta hindex
  | head _ hinputs hok hfits hkeeps =>
    unfold createFromHead at hok
    rw [hinputs] at hok
    obtain ⟨prepared, st, -, hmeta⟩ := readMeta_created hok hkeeps
    obtain ⟨r, hindex⟩ := createFromSeries_index hok hfits
    exact exists_openDir hmeta hindex
  | @compact _ _ blocks _ created _ m _ hrun hfits hkeeps hpatched =>
    obtain ⟨r, hindex⟩ := createFromSeries_index hrun.create_ok hfits
    have hversion : (patchMeta blocks m).version = kMetaVersion1 := by
      obtain ⟨prepared, st, -, hnew⟩ := readMeta_created hrun.create_ok hkeeps
      rw [hrun.meta_ok] at hnew
      rw [Except.ok.inj hnew]
      rfl
    have hmeta : readMeta text { created with
        metaJson := some (encodeMetaJson text (patchMeta blocks m)) } = .ok (patchMeta blocks m) :=
      decodeMetaJson_encode hpatched hversion
    rw [hrun.dir_eq]
    exact exists_openDir hmeta hindex

end MerlionTsdb.Block
