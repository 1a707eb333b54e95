import MerlionTsdb.Block.Compact
import MerlionTsdb.Block.Stored
import MerlionTsdb.Head.Reach

/-!
# Blocks that the program produces

A block comes from `create_from_series`, `create_from_head` or `compact`.  Within the format, a reader of it
finds the series that were written, and metadata with their totals.
-/

namespace MerlionTsdb.Block

open Ascending Chunkenc Encoding Head Model

/-! ## Totals -/

namespace Totals

/-- The times of the totals are the first and the last of the chunks. -/
structure Spans (t : Totals) (chunks : List ChunkInput) : Prop where
  min_le : ∀ c ∈ chunks, t.minTime ≤ c.minTime
  le_max : ∀ c ∈ chunks, c.maxTime ≤ t.maxTime
  min_mem : chunks ≠ [] → ∃ c ∈ chunks, t.minTime = c.minTime
  max_mem : chunks ≠ [] → ∃ c ∈ chunks, t.maxTime = c.maxTime
  min_nil : chunks = [] → t.minTime = Int64.maxValue
  max_nil : chunks = [] → t.maxTime = Int64.minValue

theorem spans_nil : Spans {} [] := by
  constructor <;> simp

theorem add_minTime (t : Totals) (c : ChunkInput) :
    (t.add c).minTime = min c.minTime t.minTime := by
  unfold Totals.add
  dsimp only
  split
  · rename_i hlt
    rw [min_eq_left (le_of_lt hlt)]
  · rename_i hle
    rw [min_eq_right (not_lt.mp hle)]

theorem add_maxTime (t : Totals) (c : ChunkInput) :
    (t.add c).maxTime = max c.maxTime t.maxTime := by
  unfold Totals.add
  dsimp only
  split
  · rename_i hlt
    rw [max_eq_left (le_of_lt hlt)]
  · rename_i hle
    rw [max_eq_right (not_lt.mp hle)]

theorem Spans.add {t : Totals} {chunks : List ChunkInput} (h : t.Spans chunks) (c : ChunkInput) :
    (t.add c).Spans (chunks ++ [c]) := by
  constructor
  · intro c' hc'
    rw [add_minTime]
    rcases List.mem_append.mp hc' with hold | hnew
    · exact (min_le_right _ _).trans (h.min_le c' hold)
    · rw [List.mem_singleton.mp hnew]
      exact min_le_left _ _
  · intro c' hc'
    rw [add_maxTime]
    rcases List.mem_append.mp hc' with hold | hnew
    · exact (h.le_max c' hold).trans (le_max_right _ _)
    · rw [List.mem_singleton.mp hnew]
      exact le_max_left _ _
  · -- The least time belongs to the new chunk, or to one of those before.
    intro _
    rw [add_minTime]
    by_cases hlt : c.minTime ≤ t.minTime
    · exact ⟨c, by simp, min_eq_left hlt⟩
    · rw [min_eq_right (le_of_lt (not_le.mp hlt))]
      by_cases hnil : chunks = []
      · -- Nothing is behind the greatest time.
        rw [h.min_nil hnil, Int64.le_iff_toInt_le] at hlt
        exact absurd (Int64.toInt_le c.minTime) hlt
      · obtain ⟨c', hc', heq⟩ := h.min_mem hnil
        exact ⟨c', List.mem_append_left _ hc', heq⟩
  · -- The greatest in the same way.
    intro _
    rw [add_maxTime]
    by_cases hlt : t.maxTime ≤ c.maxTime
    · exact ⟨c, by simp, max_eq_left hlt⟩
    · rw [max_eq_right (le_of_lt (not_le.mp hlt))]
      by_cases hnil : chunks = []
      · rw [h.max_nil hnil, Int64.le_iff_toInt_le] at hlt
        exact absurd (Int64.le_toInt c.maxTime) hlt
      · obtain ⟨c', hc', heq⟩ := h.max_mem hnil
        exact ⟨c', List.mem_append_left _ hc', heq⟩
  · simp
  · simp

/-- The loop over all chunks. -/
theorem Spans.foldl {t : Totals} {seen : List ChunkInput} (h : t.Spans seen)
    (chunks : List ChunkInput) : (chunks.foldl Totals.add t).Spans (seen ++ chunks) := by
  induction chunks generalizing t seen with
  | nil =>
    rw [List.append_nil]
    exact h
  | cons c chunks ih =>
    have hall := ih (h.add c)
    rw [List.append_assoc] at hall
    exact hall

end Totals

/-! ## A run of `compact` -/

/-- What a successful `compact` has done. -/
structure CompactRun (text : JsonText) (calls : CompactCalls) (dirs : List (Option BlockDir))
    (blocks : List Block) (inputs : List SeriesInput) (created : BlockDir) (m : BlockMeta)
    (dir : BlockDir) : Prop where
  dirs_ne : dirs ≠ []
  open_ok : openAll text dirs = .ok blocks
  inputs_ok : ∃ merged, collectBlocks [] blocks = .ok merged ∧
    mergeAll (calls.order.order merged) = .ok inputs
  create_ok : createFromSeries text calls.create inputs = .ok created
  meta_ok : readMeta text created = .ok m
  dir_eq : dir = { created with metaJson := some (encodeMetaJson text (patchMeta blocks m)) }

theorem compact_run {text : JsonText} {calls : CompactCalls} {dirs : List (Option BlockDir)}
    {dir : BlockDir} (hok : compact text calls dirs = .ok dir) :
    ∃ blocks inputs created m, CompactRun text calls dirs blocks inputs created m dir := by
  unfold compact at hok
  split at hok
  · cases hok
  · rename_i hne
    obtain ⟨blocks, hopen, hok⟩ := bind_ok hok
    obtain ⟨merged, hmerged, hok⟩ := bind_ok hok
    obtain ⟨inputs, hinputs, hok⟩ := bind_ok hok
    obtain ⟨created, hcreate, hok⟩ := bind_ok hok
    obtain ⟨m, hmeta, hok⟩ := bind_ok hok
    split at hok
    · cases hok
    · cases hok
      exact ⟨blocks, inputs, created, m, by simpa using hne, hopen, ⟨merged, hmerged, hinputs⟩, hcreate,
        lift_ok hmeta, rfl⟩

/-! ## Blocks -/

/-- The JSON library keeps the metadata of the new block. -/
def KeepsNew (text : JsonText) (calls : CreateCalls) (series : List SeriesInput) : Prop :=
  ∀ {prepared st}, writeSegments calls series = .ok (prepared, st) →
    text.Keeps (newMeta calls.ulid prepared st.totals)

/-- The totals of all chunks. -/
def totalsOf (series : List SeriesInput) : Totals :=
  (series.flatMap SeriesInput.chunks).foldl Totals.add {}

/-- The metadata depends on the kept series and the totals, not on the files. -/
theorem keepsNew_of {text : JsonText} {calls : CreateCalls} {series : List SeriesInput} {m : BlockMeta}
    (hm : newMeta calls.ulid ((series.filter SeriesInput.kept).map fun si ↦ ⟨si, []⟩) (totalsOf series) = m)
    (hkeeps : text.Keeps m) : KeepsNew text calls series := by
  intro prepared st hsegments
  obtain ⟨hinputs, htotals, -⟩ := writeSegments_totals hsegments
  change st.totals = totalsOf series at htotals
  have hsame : newMeta calls.ulid prepared st.totals = m := by
    rw [← hm, ← hinputs, htotals]
    unfold newMeta
    simp only [List.isEmpty_map, List.length_map]
  rw [hsame]
  exact hkeeps

/-- The directory was produced within the format, and the series are what was written to it. -/
inductive Produced (text : JsonText) : BlockDir → List SeriesInput → Prop
  | series {calls : CreateCalls} {series : List SeriesInput} {dir : BlockDir}
      (hok : createFromSeries text calls series = .ok dir) (hfits : WithinFormat calls series)
      (hkeeps : KeepsNew text calls series) : Produced text dir series
  | head {W L S K : Type} {ops : WalOps W L S K} {h : Head W} {content : Labels → List Sample}
      {calls : CreateCalls} {inputs : List SeriesInput} {dir : BlockDir}
      (hreach : Reaches ops h content) (hinputs : headInputs h.series.allSeries = .ok inputs)
      (hok : createFromHead text calls h = .ok dir) (hfits : WithinFormat calls inputs)
      (hkeeps : KeepsNew text calls inputs) : Produced text dir inputs
  | compact {calls : CompactCalls} {dirs : List (Option BlockDir)} {blocks : List Block}
      {inputs : List SeriesInput} {created dir : BlockDir} {m : BlockMeta}
      (hok : compact text calls dirs = .ok dir)
      (hrun : CompactRun text calls dirs blocks inputs created m dir)
      (hfits : WithinFormat calls.create inputs) (hkeeps : KeepsNew text calls.create inputs)
      (hpatched : text.Keeps (patchMeta blocks m)) : Produced text dir inputs

/-- What a reader finds in the block: the series, in rows, and their totals. -/
structure Opened (blk : Block) (series : List SeriesInput) (rows : List StoredSeries) : Prop where
  stores : Stores blk rows
  inputs_eq : rows.map (fun r ↦ r.prepared.input) = series.filter SeriesInput.kept
  minTime_eq : blk.blockMeta.minTime = if rows.isEmpty then 0 else (totalsOf series).minTime
  maxTime_eq : blk.blockMeta.maxTime = if rows.isEmpty then 0 else (totalsOf series).maxTime
  stats_eq : blk.blockMeta.stats = {
    numSamples := (totalsOf series).samples
    numSeries := UInt64.ofNat rows.length
    numChunks := (totalsOf series).chunks }

/-- The metadata of a new directory is read back. -/
theorem readMeta_created {text : JsonText} {calls : CreateCalls} {series : List SeriesInput}
    {dir : BlockDir} (hok : createFromSeries text calls series = .ok dir)
    (hkeeps : KeepsNew text calls series) :
    ∃ prepared st, writeSegments calls series = .ok (prepared, st) ∧
      readMeta text dir = .ok (newMeta calls.ulid prepared st.totals) := by
  obtain ⟨prepared, st, hsegments, -, -, hmeta⟩ := createFromSeries_ok hok
  refine ⟨prepared, st, hsegments, ?_⟩
  unfold readMeta
  rw [hmeta]
  exact decodeMetaJson_encode (hkeeps hsegments) rfl

/-- A directory that `create_from_series` left. -/
theorem createFromSeries_opened {text : JsonText} {calls : CreateCalls} {series : List SeriesInput}
    {dir : BlockDir} {blk : Block} (hok : createFromSeries text calls series = .ok dir)
    (hfits : WithinFormat calls series) (hkeeps : KeepsNew text calls series)
    (hopen : openDir text (some dir) = .ok blk) :
    (∃ rows, Opened blk series rows) ∧ blk.blockMeta.compaction = { level := 1, sources := [calls.ulid] } := by
  obtain ⟨prepared, st, hsegments, hindex, hchunks, -⟩ := createFromSeries_ok hok
  obtain ⟨hread, hopenIndex, hreader⟩ := openDir_ok hopen
  rw [hchunks] at hreader
  obtain ⟨rows, hstores, hprepared⟩ :=
    stores_of_written hsegments hindex hfits hopenIndex hreader
  obtain ⟨hinputs, htotals, -⟩ := writeSegments_totals hsegments
  -- The metadata that was read is the one that was written.
  have hblockMeta : blk.blockMeta = newMeta calls.ulid prepared st.totals := by
    obtain ⟨prepared', st', hsegments', hread'⟩ := readMeta_created hok hkeeps
    rw [hsegments] at hsegments'
    cases hsegments'
    rw [hread] at hread'
    exact Except.ok.inj hread'
  have hempty : prepared.isEmpty = rows.isEmpty := by
    rw [← hprepared, List.isEmpty_map]
  change st.totals = totalsOf series at htotals
  refine ⟨⟨rows, hstores, ?_, ?_, ?_, ?_⟩, ?_⟩
  · calc
      _ = (rows.map StoredSeries.prepared).map PreparedSeries.input := List.map_map.symm
      _ = series.filter SeriesInput.kept := by rw [hprepared, hinputs]
  · rw [hblockMeta, ← hempty, ← htotals]
    rfl
  · rw [hblockMeta, ← hempty, ← htotals]
    rfl
  · rw [hblockMeta, ← htotals, ← List.length_map StoredSeries.prepared, hprepared]
    rfl
  · rw [hblockMeta]
    rfl

/-- A directory that `compact` left: its metadata is patched, its files are those of the new block. -/
theorem CompactRun.opened {text : JsonText} {calls : CompactCalls} {dirs : List (Option BlockDir)}
    {blocks : List Block} {inputs : List SeriesInput} {created dir : BlockDir} {m : BlockMeta} {blk : Block}
    (hrun : CompactRun text calls dirs blocks inputs created m dir)
    (hfits : WithinFormat calls.create inputs) (hkeeps : KeepsNew text calls.create inputs)
    (hpatched : text.Keeps (patchMeta blocks m)) (hopen : openDir text (some dir) = .ok blk) :
    (∃ rows, Opened blk inputs rows) ∧
      blk.blockMeta.compaction.level = maxLevel blocks + 1 ∧
      blk.blockMeta.compaction.sources = aggregatedSources blocks := by
  obtain ⟨hread, hopenIndex, hreader⟩ := openDir_ok hopen
  rw [hrun.dir_eq] at hread hopenIndex hreader
  -- The new block as it was before the patch.
  have hcreated : openDir text (some created) = .ok { blk with blockMeta := m } := by
    unfold openDir
    dsimp only
    rw [hrun.meta_ok]
    show (IndexReader.openFile created.index >>= _) = _
    rw [hopenIndex, ok_bind, ← hreader]
  obtain ⟨⟨rows, hopened⟩, -⟩ := createFromSeries_opened hrun.create_ok hfits hkeeps hcreated
  have hversion : (patchMeta blocks m).version = kMetaVersion1 := by
    obtain ⟨prepared, st, -, hnew⟩ := readMeta_created hrun.create_ok hkeeps
    rw [hrun.meta_ok] at hnew
    rw [Except.ok.inj hnew]
    rfl
  have hblockMeta : blk.blockMeta = patchMeta blocks m := by
    unfold readMeta at hread
    dsimp only at hread
    rw [decodeMetaJson_encode hpatched hversion] at hread
    exact (Except.ok.inj hread).symm
  refine ⟨⟨rows, ?_, hopened.inputs_eq, ?_, ?_, ?_⟩, ?_, ?_⟩
  · exact ⟨hopened.stores.ids, hopened.stores.series, hopened.stores.chunks, hopened.stores.postings,
      hopened.stores.lists⟩
  · rw [hblockMeta]
    exact hopened.minTime_eq
  · rw [hblockMeta]
    exact hopened.maxTime_eq
  · rw [hblockMeta]
    exact hopened.stats_eq
  · rw [hblockMeta]
    rfl
  · rw [hblockMeta]
    rfl

/-- A reader finds what was produced. -/
theorem Produced.opened {text : JsonText} {dir : BlockDir} {series : List SeriesInput} {blk : Block}
    (h : Produced text dir series) (hopen : openDir text (some dir) = .ok blk) :
    ∃ rows, Opened blk series rows := by
  cases h with
  | series hok hfits hkeeps => exact (createFromSeries_opened hok hfits hkeeps hopen).1
  | head _ hinputs hok hfits hkeeps =>
    unfold createFromHead at hok
    rw [hinputs] at hok
    exact (createFromSeries_opened hok hfits hkeeps hopen).1
  | compact _ hrun hfits hkeeps hpatched => exact (hrun.opened hfits hkeeps hpatched hopen).1

/-! ## The range of a block -/

theorem flatMap_kept (series : List SeriesInput) :
    (series.filter SeriesInput.kept).flatMap SeriesInput.chunks = series.flatMap SeriesInput.chunks := by
  induction series with
  | nil => rfl
  | cons s series ih =>
    unfold SeriesInput.kept at ih ⊢
    rw [List.filter_cons]
    split
    · rw [List.flatMap_cons, List.flatMap_cons, ih]
    · rename_i hempty
      have hnil : s.chunks = [] := by simpa using hempty
      rw [List.flatMap_cons, hnil, List.nil_append, ih]

/-- The range in the metadata covers every chunk. -/
theorem Opened.covers {blk : Block} {series : List SeriesInput} {rows : List StoredSeries}
    (h : Opened blk series rows) {r : StoredSeries} (hr : r ∈ rows) {ci : ChunkInput}
    (hci : ci ∈ r.chunks) : blk.blockMeta.minTime ≤ ci.minTime ∧ ci.maxTime ≤ blk.blockMeta.maxTime := by
  have hspans := Totals.spans_nil.foldl (series.flatMap SeriesInput.chunks)
  change (totalsOf series).Spans _ at hspans
  rw [List.nil_append] at hspans
  have hmem : ci ∈ series.flatMap SeriesInput.chunks := by
    rw [← flatMap_kept, ← h.inputs_eq]
    exact List.mem_flatMap.mpr ⟨r.prepared.input, List.mem_map_of_mem hr, hci⟩
  have hsome : rows.isEmpty = false := by
    cases rows with
    | nil => cases hr
    | cons r rows => rfl
  rw [h.minTime_eq, h.maxTime_eq, hsome, if_neg Bool.false_ne_true, if_neg Bool.false_ne_true]
  exact ⟨hspans.min_le ci hmem, hspans.le_max ci hmem⟩

end MerlionTsdb.Block
