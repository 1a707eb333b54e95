import MerlionTsdb.Block.CreateSelect
import MerlionTsdb.Block.Layout
import MerlionTsdb.Block.WornQuery

/-!
# A damaged block tells no lies

Wherever the checked parts of a block are damaged, `open` refuses the block or it is opened, and then every
query is refused or answered as before.
-/

namespace MerlionTsdb.Block

open Chunkenc Encoding Model Wal

/-- What is left of the files in a directory that was laid out so: worn sections and worn segments. -/
structure BlockLayout.LeftIn (l : BlockLayout) (dir : BlockDir) : Prop where
  index : ∃ bytes, dir.index = some bytes ∧ l.index.In Crc32c.Worn bytes
  segments : List.Forall₂ WornSegment l.segments (chunkSegments dir.chunks)

/-- What was not damaged is left. -/
theorem BlockLayout.Describes.leftIn {l : BlockLayout} {dir : BlockDir} (h : l.Describes dir) :
    l.LeftIn dir := by
  obtain ⟨bytes, hbytes, hin⟩ := h.index
  refine ⟨⟨bytes, hbytes, hin.worn⟩, ?_⟩
  rw [h.segments_eq, List.forall₂_map_right_iff]
  exact List.forall₂_same.mpr fun chunks _ ↦ wornSegment_segmentBytes chunks

/-! ## Loading -/

/-- The chunks of one series, when every read is as expected or refused. -/
theorem loadChunks_worn {chunks chunks' : ChunkReader} (mint maxt : Int64) {metas : List ChunkMeta}
    (h : ∀ cm ∈ metas, OrError malformed (chunks'.read cm.chunkRef).1 (chunks.read cm.chunkRef).1) :
    OrError malformed (loadChunks chunks' mint maxt metas) (loadChunks chunks mint maxt metas) := by
  induction metas with
  | nil => exact .refl _
  | cons cm metas ih =>
    have hrest := ih fun cm' hcm' ↦ h cm' (List.mem_cons_of_mem _ hcm')
    unfold loadChunks
    split
    · exact hrest
    · apply (h cm List.mem_cons_self).bind
      intro payload _
      split
      · exact .refl _
      · exact hrest.bind_same _

section

variable {l : BlockLayout} {dir dir' : BlockDir}

/-- A reader of worn segments, whatever it was asked before, beside a reader of the segments before. -/
theorem read_left (h : l.Describes dir) (h' : l.LeftIn dir') (history : List ChunkCall)
    {ref : BlockChunkRef} {c : ChunkPayload} (hmem : (ref, c) ∈ locate 0 l.segments) :
    OrError malformed ((afterCalls (ChunkReader.openDir dir'.chunks) history).read ref).1
      ((ChunkReader.openDir dir.chunks).read ref).1 := by
  obtain ⟨hread, -⟩ := read_located (by decide) h.packed h.few h.data_le []
  have hsound := hread (ref, c) hmem
  have hworn := read_worn (by decide) h.packed h.few h.data_le h'.segments history hmem
  unfold ChunkReader.openDir
  rw [h.segments_eq]
  change ((ChunkReader.ofSegments _).read ref).1 = .ok c at hsound
  rw [hsound]
  exact hworn

theorem loadSeries_worn (h : l.Describes dir) (h' : l.LeftIn dir') (history : List ChunkCall)
    {blk blk' : Block} (hindex : WornReader l.index blk.index blk'.index)
    (hchunks : blk.chunks = ChunkReader.openDir dir.chunks)
    (hchunks' : blk'.chunks = afterCalls (ChunkReader.openDir dir'.chunks) history) (mint maxt : Int64)
    {ids : List UInt32} (hids : AllListed blk.index ids) :
    OrError malformed (loadSeries blk' mint maxt ids) (loadSeries blk mint maxt ids) := by
  induction ids with
  | nil => exact .refl _
  | cons id ids ih =>
    have hrest := ih fun id' hid' ↦ hids id' (List.mem_cons_of_mem _ hid')
    obtain ⟨s, hs, labels, hsound, hworn⟩ := hindex.series id (hids id List.mem_cons_self)
    unfold loadSeries
    rw [hsound]
    apply hworn.bind
    rintro _ ⟨⟩
    -- Every chunk of a listed series stands where its meta says.
    have hload : OrError malformed (loadChunks blk'.chunks mint maxt s.chunkMetas)
        (loadChunks blk.chunks mint maxt s.chunkMetas) := by
      apply loadChunks_worn
      intro cm hcm
      obtain ⟨c, hc⟩ := h.located s hs cm hcm
      rw [hchunks, hchunks']
      exact read_left h h' history hc
    exact hload.bind fun found _ ↦ hrest.bind_same _

theorem select_worn (h : l.Describes dir) (h' : l.LeftIn dir') (history : List ChunkCall)
    {blk blk' : Block} (hindex : WornReader l.index blk.index blk'.index)
    (hchunks : blk.chunks = ChunkReader.openDir dir.chunks)
    (hchunks' : blk'.chunks = afterCalls (ChunkReader.openDir dir'.chunks) history)
    (matchers : List Matcher) (mint maxt : Int64) :
    OrError malformed (blk'.select matchers mint maxt) (blk.select matchers mint maxt) := by
  cases matchers with
  | nil => exact .refl _
  | cons m matchers =>
    apply (hindex.postingsForMatcher m).bind
    intro first hfirst
    apply (hindex.intersectMatchers first matchers).bind
    intro ids hfound
    have hids := listed_intersectMatchers (listed_postingsForMatcher hindex.table_new hfirst) hfound
    exact loadSeries_worn h h' history hindex hchunks hchunks' mint maxt hids

end

/-- The block, after its chunk reader was asked other things. -/
def asked (blk : Block) (history : List ChunkCall) : Block :=
  { blk with chunks := afterCalls blk.chunks history }

/-- Opening what is left of a directory, and asking it. -/
theorem openDir_worn {text : JsonText} {l : BlockLayout} {dir dir' : BlockDir} (h : l.Describes dir)
    (h' : l.LeftIn dir') (hmeta : dir'.metaJson = dir.metaJson) {blk : Block}
    (hopen : openDir text (some dir) = .ok blk) :
    openDir text (some dir') = .error malformed ∨
      ∃ blk', openDir text (some dir') = .ok blk' ∧ blk'.blockMeta = blk.blockMeta ∧
        ∀ history matchers mint maxt, OrError malformed ((asked blk' history).select matchers mint maxt)
          (blk.select matchers mint maxt) := by
  obtain ⟨hread, hopenIndex, hchunks⟩ := openDir_ok hopen
  obtain ⟨bytes, hbytes, hin⟩ := h.index
  obtain ⟨bytes', hbytes', hin'⟩ := h'.index
  rw [hbytes] at hopenIndex
  have hread' : readMeta text dir' = .ok blk.blockMeta := by
    rw [← hread, readMeta, readMeta, hmeta]
  unfold openDir
  dsimp only
  rw [hread', hbytes']
  rcases wornReader_of_open h.proper hin hin' hopenIndex with hrefused | ⟨r', hopen', hworn⟩
  · left
    rw [hrefused]
    rfl
  · right
    rw [hopen']
    refine ⟨_, rfl, rfl, fun history matchers mint maxt ↦ ?_⟩
    exact select_worn h h' history hworn hchunks rfl matchers mint maxt

/-- Damage the checked parts of a directory that the program produced, by a wrong checksum or in up to four
consecutive bytes each, and anything around them but their lengths: the block is not opened, or a query on
it is refused or has the answer that it had before, whatever was asked in between. -/
theorem select_damaged {text : JsonText} {dir : BlockDir} {series : List SeriesInput}
    (hproduced : Produced text dir series) :
    (∃ l : BlockLayout, l.Describes dir) ∧
      ∀ (l : BlockLayout) (dir' : BlockDir), l.Describes dir → l.LeftIn dir' →
        dir'.metaJson = dir.metaJson → ∀ blk, openDir text (some dir) = .ok blk →
          openDir text (some dir') = .error malformed ∨
            ∃ blk', openDir text (some dir') = .ok blk' ∧ blk'.blockMeta = blk.blockMeta ∧
              ∀ history matchers mint maxt,
                (asked blk' history).select matchers mint maxt = blk.select matchers mint maxt ∨
                  (asked blk' history).select matchers mint maxt = .error malformed :=
  ⟨hproduced.described, fun _ _ hl hleft hmeta _ hopen ↦ openDir_worn hl hleft hmeta hopen⟩

/-- The headers of the segments, overwritten. -/
def clearHeader (bytes : Bytes) : Bytes :=
  List.replicate kChunksSegmentHeaderSize 0 ++ bytes.drop kChunksSegmentHeaderSize

/-- A segment that has lost its header is left of a directory that had it. -/
theorem leftIn_clearHeader {l : BlockLayout} {dir : BlockDir} (h : l.Describes dir) {chunks : Files}
    (hchunks : chunkSegments chunks = (chunkSegments dir.chunks).map clearHeader) :
    l.LeftIn { dir with chunks := chunks } := by
  refine ⟨h.leftIn.index, ?_⟩
  show List.Forall₂ WornSegment l.segments (chunkSegments chunks)
  rw [hchunks, h.segments_eq, List.map_map, List.forall₂_map_right_iff]
  exact List.forall₂_same.mpr fun segment _ ↦
    (wornSegment_segmentBytes segment).header List.length_replicate

/-- A block whose only segment has lost its header opens, and refuses a query. -/
theorem exists_cleared :
    ∃ dir chunks blk blk' l, Produced (JsonText.of [narrowMeta]) dir [narrowSeries] ∧
      openDir (JsonText.of [narrowMeta]) (some dir) = .ok blk ∧ BlockLayout.Describes l dir ∧
      l.LeftIn { dir with chunks := chunks } ∧
      openDir (JsonText.of [narrowMeta]) (some { dir with chunks := chunks }) = .ok blk' ∧
      blk'.blockMeta = narrowMeta ∧ (asked blk' []).select [narrowMatcher] 0 5 = .error malformed := by
  let cleared (dir : BlockDir) : Files := dir.chunks.set (formatSegmentName 1)
    (clearHeader (chunkSegments dir.chunks).flatten)
  have hall : (do
      let dir ← createFromSeries (JsonText.of [narrowMeta]) { ulid := Str.empty } [narrowSeries]
      let blk ← openDir (JsonText.of [narrowMeta]) (some dir)
      let blk' ← openDir (JsonText.of [narrowMeta]) (some { dir with chunks := cleared dir })
      if (blk'.blockMeta = narrowMeta ∧ (asked blk' []).select [narrowMatcher] 0 5 = .error malformed) ∧
          chunkSegments (cleared dir) = (chunkSegments dir.chunks).map clearHeader then .ok blk
      else .error .thrown : Except Failure Block).isOk = true := by decide +kernel
  obtain ⟨found, hall⟩ := exists_of_isOk hall
  obtain ⟨dir, hok, hall⟩ := bind_ok hall
  obtain ⟨blk, hopen, hall⟩ := bind_ok hall
  obtain ⟨blk', hopen', hall⟩ := bind_ok hall
  split at hall
  · rename_i hchecked
    obtain ⟨hselect, hsegments⟩ := hchecked
    have hproduced := Produced.series hok withinFormat_narrow
      (keepsNew_of (by decide) (JsonText.keeps_singleton narrowMeta))
    obtain ⟨l, hl⟩ := hproduced.described
    exact ⟨dir, cleared dir, blk, blk', l, hproduced, hopen, hl, leftIn_clearHeader hl hsegments, hopen',
      hselect⟩
  · cases hall

/-- The queries on that block. -/
theorem select_damaged_header :
    ∃ dir chunks blk blk', Produced (JsonText.of [narrowMeta]) dir [narrowSeries] ∧
      openDir (JsonText.of [narrowMeta]) (some dir) = .ok blk ∧
      openDir (JsonText.of [narrowMeta]) (some { dir with chunks := chunks }) = .ok blk' ∧
      (asked blk' []).select [narrowMatcher] 0 5 = .error malformed ∧
      ∀ history matchers mint maxt,
        (asked blk' history).select matchers mint maxt = blk.select matchers mint maxt ∨
          (asked blk' history).select matchers mint maxt = .error malformed := by
  obtain ⟨dir, chunks, blk, blk', l, hproduced, hopen, hdescribes, hleft, hopen', -, hselect⟩ :=
    exists_cleared
  obtain ⟨-, hdamaged⟩ := select_damaged hproduced
  rcases hdamaged l _ hdescribes hleft rfl blk hopen with hrefused | ⟨blk'', hopen'', -, hqueries⟩
  · rw [hopen'] at hrefused
    cases hrefused
  · rw [hopen'] at hopen''
    cases hopen''
    exact ⟨dir, chunks, blk, blk', hproduced, hopen, hopen', hselect, hqueries⟩

end MerlionTsdb.Block
