import MerlionTsdb.Block.CreateIndex
import MerlionTsdb.Block.PostingLookup
import MerlionTsdb.Block.Select
import MerlionTsdb.Lib.Related

/-!
# What a block stores

The series of a new block under their ids, and what its index and its chunks say about them.  Everything
a query reads is stated over these rows.
-/

namespace MerlionTsdb.Block

open Ascending Chunkenc Encoding Model

/-! ## Rows -/

/-- A series under the id it has in the index. -/
structure StoredSeries where
  id : UInt32
  prepared : PreparedSeries

namespace StoredSeries

def labels (r : StoredSeries) : Labels := r.prepared.input.labels

def chunks (r : StoredSeries) : List ChunkInput := r.prepared.input.chunks

def chunkMetas (r : StoredSeries) : List ChunkMeta := r.prepared.chunkMetas

def has (l : Label) (r : StoredSeries) : Bool := l ∈ r.labels.entries

end StoredSeries

/-- The ids of the rows that `p` accepts. -/
abbrev idsWhere (rows : List StoredSeries) (p : StoredSeries → Bool) : List UInt32 :=
  pick StoredSeries.id rows p

/-- The ids pushed for the labels of the rows. -/
def pushedIds (rows : List StoredSeries) : List (PostingKey × UInt32) :=
  rows.flatMap fun r ↦ r.labels.entries.map fun l ↦ (Label.postingKey l, r.id)

/-- The posting lists of the rows. -/
def listsOf (rows : List StoredSeries) : List PostingsWritten :=
  (postingLists (pushedIds rows)).map postingsWritten

/-- The label of a key. -/
def keyLabel (key : PostingKey) : Label := ⟨(ofLex key).1, (ofLex key).2⟩

theorem postingKey_eq {l : Label} {key : PostingKey} : Label.postingKey l = key ↔ l = keyLabel key := by
  constructor
  · rintro rfl
    rfl
  · rintro rfl
    rfl

/-- A label set has every label at most once. -/
theorem filter_labels (labels : Labels) (l : Label) :
    labels.entries.filter (fun l' ↦ l' = l) = if l ∈ labels.entries then [l] else [] := by
  have hnodup : labels.entries.Nodup := labels.sorted.imp fun {a b} hlt heq ↦ by
    rw [heq] at hlt
    exact lt_irrefl _ hlt
  rw [List.filter_eq]
  split
  · rename_i hmem
    rw [List.count_eq_one_of_mem hnodup hmem]
    rfl
  · rename_i hmem
    rw [List.count_eq_zero_of_not_mem hmem]
    rfl

/-- Under a key stand the rows with its label. -/
theorem filter_pushedIds (rows : List StoredSeries) (key : PostingKey) :
    ((pushedIds rows).filter fun p ↦ p.1 = key).map Prod.snd =
      idsWhere rows (StoredSeries.has (keyLabel key)) := by
  induction rows with
  | nil => rfl
  | cons r rows ih =>
    have hrow : ((r.labels.entries.map fun l ↦ (Label.postingKey l, r.id)).filter
        fun p ↦ p.1 = key).map Prod.snd = if r.has (keyLabel key) then [r.id] else [] := by
      have hfilter := filter_labels r.labels (keyLabel key)
      rw [List.filter_map, List.map_map]
      have hcongr : (r.labels.entries.filter ((fun p : PostingKey × UInt32 ↦ decide (p.1 = key)) ∘
          fun l ↦ (Label.postingKey l, r.id))) = r.labels.entries.filter fun l ↦ l = keyLabel key := by
        apply List.filter_congr
        intro l _
        simp only [Function.comp_apply, postingKey_eq]
      rw [hcongr, hfilter]
      unfold StoredSeries.has
      by_cases hmem : keyLabel key ∈ r.labels.entries
      · rw [if_pos hmem, if_pos (decide_eq_true hmem)]
        rfl
      · rw [if_neg hmem, if_neg (by simpa using hmem)]
        rfl
    unfold pushedIds at ih ⊢
    unfold idsWhere pick at ih ⊢
    rw [List.flatMap_cons, List.filter_append, List.map_append, hrow, ih, List.filter_cons]
    split <;> rfl

theorem mem_listsOf {rows : List StoredSeries} {p : PostingsWritten} :
    p ∈ listsOf rows ↔ ∃ l, (∃ r ∈ rows, r.has l = true) ∧
      p = ⟨l.name, l.value, idsWhere rows (StoredSeries.has l)⟩ := by
  unfold listsOf postingLists
  rw [List.mem_map]
  constructor
  · rintro ⟨q, hq, rfl⟩
    obtain ⟨key, hkey, rfl⟩ := List.mem_map.mp hq
    rw [mem_sortUnique] at hkey
    obtain ⟨e, he, rfl⟩ := List.mem_map.mp hkey
    obtain ⟨r, hr, hmap⟩ := List.mem_flatMap.mp he
    obtain ⟨l, hl, rfl⟩ := List.mem_map.mp hmap
    refine ⟨l, ⟨r, hr, decide_eq_true hl⟩, ?_⟩
    unfold postingsWritten
    rw [filter_pushedIds]
    rfl
  · rintro ⟨l, ⟨r, hr, hl⟩, rfl⟩
    refine ⟨(Label.postingKey l, ((pushedIds rows).filter fun p ↦ p.1 = Label.postingKey l).map Prod.snd),
      List.mem_map.mpr ⟨Label.postingKey l, ?_, rfl⟩, ?_⟩
    · rw [mem_sortUnique]
      apply List.mem_map.mpr
      refine ⟨(Label.postingKey l, r.id), List.mem_flatMap.mpr ⟨r, hr, ?_⟩, rfl⟩
      exact List.mem_map.mpr ⟨l, of_decide_eq_true hl, rfl⟩
    · unfold postingsWritten
      rw [filter_pushedIds]
      rfl

/-! ## Stored rows -/

/-- The block stores the rows: every series is found under its id, every chunk under the reference in its
meta, and the posting lists are those of the rows. -/
structure Stores (blk : Block) (rows : List StoredSeries) : Prop where
  ids : rows.Pairwise fun r s ↦ r.id < s.id
  series : ∀ r ∈ rows,
    blk.index.series r.id.toUInt64 = .ok { labels := r.labels, chunks := r.chunkMetas }
  chunks : ∀ r ∈ rows, List.Forall₂ (fun chk cm ↦ cm.minTime = chk.minTime ∧
    cm.maxTime = chk.maxTime ∧ (blk.chunks.read cm.chunkRef).1 = .ok chk.payload) r.chunks r.chunkMetas
  postings : ∀ name value, blk.index.postings name value =
    .ok (match (listsOf rows).find? fun p ↦ joinedKey p.name p.value = joinedKey name value with
      | some p => p.seriesIds
      | none => [])
  lists : List.Forall₂ (fun e p ↦ e.name = p.name ∧ e.value = p.value ∧
    readPostingList blk.index.data e.offset = .ok p.seriesIds) blk.index.postingsTable.entries
      (listsOf rows)

/-- The series and the index of a new block keep within the widths of the format. -/
structure WithinFormat (calls : CreateCalls) (series : List SeriesInput) : Prop where
  segments : (packChunks kDefaultChunksSegmentSize (payloads series)).length < 999999
  index : ∀ {prepared st}, writeSegments calls series = .ok (prepared, st) → IndexFits prepared

/-- What a successful `create_from_series` has done. -/
theorem createFromSeries_ok {text : JsonText} {calls : CreateCalls} {series : List SeriesInput}
    {dir : BlockDir} (hok : createFromSeries text calls series = .ok dir) :
    ∃ prepared st, writeSegments calls series = .ok (prepared, st) ∧
      writeIndex calls.index prepared = .ok dir.index ∧ dir.chunks = st.files ∧
      dir.metaJson = some (encodeMetaJson text (newMeta calls.ulid prepared st.totals)) := by
  unfold createFromSeries at hok
  split at hok
  · cases hok
  · split at hok
    · cases hok
    · split at hok
      · cases hok
      · split at hok
        · cases hok
        · obtain ⟨⟨prepared, st⟩, hsegments, hok⟩ := bind_ok hok
          obtain ⟨index, hindex, hok⟩ := bind_ok hok
          split at hok
          · cases hok
          · split at hok
            · cases hok
            · cases hok
              exact ⟨prepared, st, lift_ok hsegments, hindex, rfl, rfl⟩

/-- What a successful `open` has read. -/
theorem openDir_ok {text : JsonText} {dir : BlockDir} {blk : Block}
    (hok : openDir text (some dir) = .ok blk) :
    readMeta text dir = .ok blk.blockMeta ∧ IndexReader.openFile dir.index = .ok blk.index ∧
      blk.chunks = ChunkReader.openDir dir.chunks := by
  unfold openDir at hok
  obtain ⟨m, hmeta, hok⟩ := bind_ok hok
  obtain ⟨index, hindex, hok⟩ := bind_ok hok
  cases hok
  exact ⟨lift_ok hmeta, hindex, rfl⟩

/-- Pushing ids series by series is pushing them row by row. -/
theorem labelIds_eq (prepared : List PreparedSeries) (ids : List UInt32) :
    labelIds prepared ids = pushedIds (List.zipWith StoredSeries.mk ids prepared) := by
  unfold labelIds pushedIds
  induction prepared generalizing ids with
  | nil => cases ids <;> rfl
  | cons ps prepared ih =>
    cases ids with
    | nil => rfl
    | cons id ids =>
      rw [List.zip_cons_cons, List.zipWith_cons_cons, List.flatMap_cons, List.flatMap_cons, ih]
      rfl

/-- The rows of the series of an index. -/
theorem rows_of_written {symbols : List Str} {prepared : List PreparedSeries}
    {written : List SeriesWritten} (h : List.Forall₂ (WrittenAs symbols) prepared written) :
    let rows := List.zipWith StoredSeries.mk (written.map SeriesWritten.id) prepared
    rows.map StoredSeries.prepared = prepared ∧ rows.map StoredSeries.id = written.map SeriesWritten.id ∧
      List.Forall₂ (fun r s ↦ r.id = s.id ∧ WrittenAs symbols r.prepared s) rows written := by
  induction h with
  | nil => exact ⟨rfl, rfl, List.Forall₂.nil⟩
  | cons hps _ ih =>
    obtain ⟨hprepared, hids, hrows⟩ := ih
    simp only [List.map_cons, List.zipWith_cons_cons]
    exact ⟨by rw [hprepared], by rw [hids], List.Forall₂.cons ⟨rfl, hps⟩ hrows⟩

/-- No series gets more metas than its entry can count. -/
theorem writeSegments_metas {calls : CreateCalls} {series : List SeriesInput}
    {prepared : List PreparedSeries} {st : ChunkStage}
    (hok : writeSegments calls series = .ok (prepared, st)) :
    ∀ ps ∈ prepared, ps.chunkMetas.length ≤ kMaxChunkMetas := by
  intro ps hps
  obtain ⟨-, -, htimes⟩ := writeSegments_totals hok
  have hle := ps.input.length_le
  rw [(htimes ps hps).length_eq] at hle
  exact hle.trans (by decide)

/-- A reader of the files of a block finds the prepared series, in their order. -/
theorem stores_of_written {calls : CreateCalls} {series : List SeriesInput}
    {prepared : List PreparedSeries} {st : ChunkStage} {file : Option Bytes} {blk : Block}
    (hsegments : writeSegments calls series = .ok (prepared, st))
    (hindex : writeIndex calls.index prepared = .ok file) (hfits : WithinFormat calls series)
    (hopen : IndexReader.openFile file = .ok blk.index)
    (hreader : blk.chunks = ChunkReader.openDir st.files) :
    ∃ rows, Stores blk rows ∧ rows.map StoredSeries.prepared = prepared := by
  obtain ⟨r, written, hopen', hserves, hwritten⟩ :=
    writeIndex_ok hindex (writeSegments_metas hsegments) (hfits.index hsegments)
  rw [hopen] at hopen'
  cases hopen'
  rw [labelIds_eq] at hserves
  obtain ⟨hprepared, hids, hrows⟩ := rows_of_written hwritten
  -- The rows are the prepared series under the ids that the index gave them.
  refine ⟨List.zipWith StoredSeries.mk (written.map SeriesWritten.id) prepared, ?_, hprepared⟩
  constructor
  · apply List.pairwise_map.mp
    rw [hids]
    exact List.pairwise_map.mpr hserves.ids
  · intro row hrow
    obtain ⟨s, hs, hid, hmetas, hlabels⟩ := Related.exists_right hrows hrow
    rw [hid]
    have hread := hserves.series s hs row.labels hlabels
    rw [hmetas] at hread
    exact hread
  · intro row hrow
    have hmem : row.prepared ∈ prepared := by
      rw [← hprepared]
      exact List.mem_map_of_mem hrow
    rw [hreader]
    exact writeSegments_reads hsegments hfits.segments row.prepared hmem
  · intro name value
    rw [hserves.postings_eq]
    rfl
  · exact hserves.postings

/-- A block created within the format stores the series that have chunks, in their order. -/
theorem createFromSeries_stores {text : JsonText} {calls : CreateCalls} {series : List SeriesInput}
    {dir : BlockDir} {blk : Block} (hok : createFromSeries text calls series = .ok dir)
    (hfits : WithinFormat calls series) (hopen : openDir text (some dir) = .ok blk) :
    ∃ rows, Stores blk rows ∧
      rows.map (fun r ↦ r.prepared.input) = series.filter SeriesInput.kept := by
  obtain ⟨prepared, st, hsegments, hindex, hchunks, -⟩ := createFromSeries_ok hok
  obtain ⟨-, hopenIndex, hreader⟩ := openDir_ok hopen
  rw [hchunks] at hreader
  obtain ⟨rows, hstores, hprepared⟩ :=
    stores_of_written hsegments hindex hfits hopenIndex hreader
  obtain ⟨hinputs, -, -⟩ := writeSegments_totals hsegments
  refine ⟨rows, hstores, ?_⟩
  calc
    _ = (rows.map StoredSeries.prepared).map PreparedSeries.input := List.map_map.symm
    _ = series.filter SeriesInput.kept := by rw [hprepared, hinputs]

end MerlionTsdb.Block
