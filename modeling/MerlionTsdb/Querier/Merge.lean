import MerlionTsdb.Block.CreateSelect
import MerlionTsdb.Block.Produced
import MerlionTsdb.Head.SelectExact
import MerlionTsdb.Querier.Querier

/-!
# The querier loses nothing

The blocks that the querier skips have nothing to answer, as long as they keep within the format.  The
result is then the merge of the answers of all sources.
-/

namespace MerlionTsdb.Querier

open Ascending Block Chunkenc Encoding Head IndexSort Model

/-! ## Ids in the answers of an index -/

section

variable {blk : Block} {rows : List StoredSeries}

/-- All of the ids are those of rows. -/
def Known (rows : List StoredSeries) (ids : List UInt32) : Prop := ids ⊆ rows.map StoredSeries.id

theorem known_idsWhere (p : StoredSeries → Bool) : Known rows (idsWhere rows p) := by
  intro id hid
  obtain ⟨r, hr, -, rfl⟩ := (mem_pick StoredSeries.id).mp hid
  exact List.mem_map_of_mem hr

theorem known_postings (h : Stores blk rows) {name value : Str} {ids : List UInt32}
    (hok : blk.index.postings name value = .ok ids) : Known rows ids := by
  rw [h.postings] at hok
  cases hok
  split
  · rename_i p hfind
    obtain ⟨l, -, rfl⟩ := mem_listsOf.mp (List.mem_of_find?_eq_some hfind)
    exact known_idsWhere _
  · exact List.nil_subset _

theorem known_acceptedPostings (h : Stores blk rows) {name : Str} {pred : Str → Bool}
    {values : List Str} {ids : List UInt32}
    (hok : acceptedPostings blk.index name pred values = .ok ids) : Known rows ids := by
  induction values generalizing ids with
  | nil =>
    cases hok
    exact List.nil_subset _
  | cons v values ih =>
    unfold acceptedPostings at hok
    split at hok
    · exact ih hok
    · obtain ⟨found, hfound, hok⟩ := bind_ok hok
      obtain ⟨rest, hrest, hok⟩ := bind_ok hok
      cases hok
      exact List.append_subset.mpr ⟨known_postings h hfound, ih hrest⟩

theorem known_predPostings (h : Stores blk rows) {name : Str} {pred : Str → Bool}
    {ids : List UInt32} (hok : predPostings blk.index name pred = .ok ids) : Known rows ids := by
  unfold predPostings at hok
  obtain ⟨out, hout, hok⟩ := bind_ok hok
  have hknown := known_acceptedPostings h hout
  split at hok
  · obtain ⟨without, hwithout, hok⟩ := bind_ok hok
    cases hok
    rw [h.withoutName_eq] at hwithout
    cases hwithout
    intro id hid
    rcases List.mem_append.mp (mem_sortUnique.mp hid) with hid | hid
    · exact hknown hid
    · exact known_idsWhere _ hid
  · cases hok
    exact fun id hid ↦ hknown (mem_sortUnique.mp hid)

theorem known_postingsForMatcher (h : Stores blk rows) {m : Matcher} {ids : List UInt32}
    (hok : postingsForMatcher blk.index m = .ok ids) : Known rows ids := by
  -- A complement is taken of the ids of rows.
  have hdifference : ∀ {taken}, Known rows (difference (idsWhere rows StoredSeries.labeled) taken) :=
    fun {taken} id hid ↦ known_idsWhere _ ((difference_sublist _ taken).subset hid)
  unfold postingsForMatcher at hok
  split at hok
  · split at hok
    · rw [h.withoutName_eq] at hok
      cases hok
      exact known_idsWhere _
    · exact known_postings h hok
  · split at hok
    · rw [h.postingsForName_eq] at hok
      cases hok
      exact known_idsWhere _
    · rw [h.allPostings_eq, ok_bind] at hok
      obtain ⟨taken, -, hok⟩ := bind_ok hok
      cases hok
      exact hdifference
  · exact known_predPostings h hok
  · obtain ⟨taken, -, hok⟩ := bind_ok hok
    rw [h.allPostings_eq, ok_bind] at hok
    cases hok
    exact hdifference

theorem known_intersectMatchers {ids found : List UInt32} (h : Known rows ids)
    {matchers : List Matcher} (hok : intersectMatchers blk.index ids matchers = .ok found) :
    Known rows found := by
  induction matchers generalizing ids with
  | nil =>
    cases hok
    exact h
  | cons m matchers ih =>
    unfold intersectMatchers at hok
    split at hok
    · cases hok
      exact h
    · obtain ⟨next, -, hok⟩ := bind_ok hok
      exact ih (fun id hid ↦ h ((intersection_sublist ids next).subset hid)) hok

end

/-! ## Skipped blocks -/

section

variable {blk : Block} {series : List SeriesInput} {rows : List StoredSeries} {mint maxt : Int64}

/-- No chunk of a skipped block is in the range. -/
theorem inRange_of_outside (h : Opened blk series rows) (hout : outside blk mint maxt = true)
    {r : StoredSeries} (hr : r ∈ rows) : inRange mint maxt r.chunks = [] := by
  unfold inRange
  rw [List.filter_eq_nil_iff]
  intro ci hci
  obtain ⟨hmin, hmax⟩ := h.covers hr hci
  unfold outside at hout
  unfold overlaps
  rw [Bool.or_eq_true, decide_eq_true_iff, decide_eq_true_iff] at hout
  rw [Bool.not_eq_true, Bool.not_eq_false', Bool.or_eq_true, decide_eq_true_iff, decide_eq_true_iff]
  rcases hout with hlate | hearly
  · exact Or.inl (lt_of_lt_of_le hlate hmin)
  · exact Or.inr (lt_of_le_of_lt hmax hearly)

theorem loadSeries_of_outside (h : Opened blk series rows) (hout : outside blk mint maxt = true)
    {ids : List UInt32} (hknown : Known rows ids) : loadSeries blk mint maxt ids = .ok [] := by
  induction ids with
  | nil => rfl
  | cons id ids ih =>
    obtain ⟨r, hr, rfl⟩ := List.mem_map.mp (hknown List.mem_cons_self)
    obtain ⟨found, hfound, hcarries⟩ := loadChunks_eq (h.stores.chunks r hr) mint maxt
    have hchunks := (hcarries r.labels).chunks_eq
    rw [inRange_of_outside h hout hr] at hchunks
    have hnil : found = [] := List.map_eq_nil_iff.mp hchunks
    rw [hnil] at hfound
    unfold loadSeries
    rw [h.stores.series r hr]
    show (loadChunks blk.chunks mint maxt r.chunkMetas >>= _) = _
    rw [hfound, ok_bind, ih fun id' hid' ↦ hknown (List.mem_cons_of_mem _ hid')]
    rfl

/-- A skipped block has no answer. -/
theorem select_of_outside (h : Opened blk series rows) (hout : outside blk mint maxt = true)
    {matchers : List Matcher} {results : List QueryResult}
    (hok : blk.select matchers mint maxt = .ok results) : results = [] := by
  cases matchers with
  | nil => cases hok
  | cons m matchers =>
    unfold Block.select at hok
    obtain ⟨first, hfirst, hok⟩ := bind_ok hok
    obtain ⟨ids, hids, hok⟩ := bind_ok hok
    have hknown := known_intersectMatchers (known_postingsForMatcher h.stores hfirst) hids
    rw [loadSeries_of_outside h hout hknown] at hok
    exact (Except.ok.inj hok).symm

end

/-! ## Parallel vectors -/

/-- Every chunk has its meta. -/
def Parallel (results : List QueryResult) : Prop :=
  ∀ qr ∈ results, qr.chunks.length = qr.chunkMetas.length

theorem parallel_cons {qr : QueryResult} {results : List QueryResult}
    (h : qr.chunks.length = qr.chunkMetas.length) (hrest : Parallel results) :
    Parallel (qr :: results) := by
  intro qr' hqr'
  rcases List.mem_cons.mp hqr' with rfl | hmem
  · exact h
  · exact hrest qr' hmem

theorem parallel_loadSeries {blk : Block} {mint maxt : Int64} {ids : List UInt32}
    {results : List QueryResult} (hok : loadSeries blk mint maxt ids = .ok results) :
    Parallel results := by
  induction ids generalizing results with
  | nil =>
    cases hok
    exact fun _ hqr ↦ absurd hqr List.not_mem_nil
  | cons id ids ih =>
    unfold loadSeries at hok
    obtain ⟨se, -, hok⟩ := bind_ok hok
    obtain ⟨found, -, hok⟩ := bind_ok hok
    obtain ⟨rest, hrest, hok⟩ := bind_ok hok
    cases hok
    split
    · exact ih hrest
    · exact parallel_cons (by rw [List.length_map, List.length_map]) (ih hrest)

theorem parallel_blockSelect {blk : Block} {matchers : List Matcher} {mint maxt : Int64}
    {results : List QueryResult} (hok : blk.select matchers mint maxt = .ok results) :
    Parallel results := by
  cases matchers with
  | nil => cases hok
  | cons m matchers =>
    unfold Block.select at hok
    obtain ⟨first, -, hok⟩ := bind_ok hok
    obtain ⟨ids, -, hok⟩ := bind_ok hok
    exact parallel_loadSeries hok

theorem parallel_selectSeries {matchers : List Matcher} {mint maxt : Int64} {series : List MemSeries}
    {results : List QueryResult} (hok : selectSeries matchers mint maxt series = .ok results) :
    Parallel results := by
  induction series generalizing results with
  | nil =>
    cases hok
    exact fun _ hqr ↦ absurd hqr List.not_mem_nil
  | cons s series ih =>
    unfold selectSeries at hok
    split at hok
    · exact ih hok
    · split at hok
      · exact ih hok
      · split at hok
        · cases hok
        · exact ih hok
        · split at hok
          · cases hok
          · rename_i rest hrest
            cases hok
            exact parallel_cons (by rw [List.length_map, List.length_map]) (ih hrest)

theorem Answers.parallel {W : Type} {q : Querier W} {matchers : List Matcher} {mint maxt : Int64}
    {results : List QueryResult} (h : Answers q matchers mint maxt results) : Parallel results := by
  obtain ⟨perBlock, perHead, hblocks, hheads, rfl⟩ := h.sources
  intro qr hqr
  rcases List.mem_append.mp hqr with hqr | hqr
  · obtain ⟨found, hfound, hqr⟩ := List.mem_flatten.mp hqr
    obtain ⟨blk, -, hselect⟩ := Related.exists_left hblocks hfound
    exact parallel_blockSelect hselect qr hqr
  · obtain ⟨found, hfound, hqr⟩ := List.mem_flatten.mp hqr
    obtain ⟨hd, -, hselect⟩ := Related.exists_left hheads hfound
    unfold Head.select at hselect
    split at hselect
    · cases hselect
    · exact parallel_selectSeries hselect qr hqr

/-! ## The querier -/

/-- A query over blocks that were produced within the format, and over any heads, is the merge of the answers
of all sources; and a skipped block has no answer. -/
theorem select_merges {W : Type} {q : Querier W} {text : JsonText}
    (hblocks : ∀ blk ∈ q.blocks.reduceOption, ∃ dir series,
      Produced text dir series ∧ openDir text (some dir) = .ok blk)
    {matchers : List Matcher} (hne : matchers ≠ []) {mint maxt : Int64} {results : List QueryResult}
    (h : Answers q matchers mint maxt results)
    (hashOrder : Buckets.HashOrder (Labels × List (XORChunk × ChunkMeta))) (sorter : Sorter Int64) :
    (∃ merged, q.select hashOrder sorter matchers mint maxt = .ok merged ∧ MergeOf results merged) ∧
      Parallel results ∧
      ∀ blk ∈ q.blocks.reduceOption, outside blk mint maxt = true →
        blk.select matchers mint maxt = .ok [] := by
  have hskip : ∀ blk ∈ q.blocks.reduceOption, outside blk mint maxt = true →
      blk.select matchers mint maxt = .ok [] := by
    intro blk hblk hout
    obtain ⟨dir, series, hproduced, hopen⟩ := hblocks blk hblk
    obtain ⟨rows, hopened⟩ := hproduced.opened hopen
    obtain ⟨perBlock, -, hfound, -⟩ := h.sources
    obtain ⟨found, -, hselect⟩ := Related.exists_right hfound hblk
    rw [hselect, select_of_outside hopened hout hselect]
  exact ⟨select_of_answers hne h hskip hashOrder sorter, h.parallel, hskip⟩

/-- The metadata of the block with one series. -/
theorem keepsNew_narrow : KeepsNew (JsonText.of [narrowMeta]) { ulid := Str.empty } [narrowSeries] :=
  keepsNew_of (by decide) (JsonText.keeps_singleton narrowMeta)

/-- That block, a null pointer, and a head with one sample. -/
theorem select_merges_narrow :
    ∃ (q : Querier (List Bytes)) (results : List QueryResult) (merged : List MergedSeries),
      q.blocks.length = 2 ∧ q.heads.length = 1 ∧ Answers q [narrowMatcher] 0 5 results ∧
      q.select (.inserted _) (.stable Int64) [narrowMatcher] 0 5 = .ok merged ∧
      MergeOf results merged := by
  obtain ⟨dir, blk, found, hok, hopen, hselect⟩ := exists_narrow
  obtain ⟨hd, hfilled⟩ := exists_filled 1
  have hheads := hfilled.reaches.contains.select (List.cons_ne_nil narrowMatcher []) 0 5
  have hproduced := Produced.series hok withinFormat_narrow keepsNew_narrow
  let q : Querier (List Bytes) := { blocks := [some blk, none], heads := [some hd] }
  have hanswers : Answers q [narrowMatcher] 0 5 _ :=
    ⟨[found], _, .cons hselect .nil, .cons hheads .nil, rfl⟩
  have hblocks : ∀ blk' ∈ q.blocks.reduceOption, ∃ dir series,
      Produced (JsonText.of [narrowMeta]) dir series ∧
        openDir (JsonText.of [narrowMeta]) (some dir) = .ok blk' := by
    intro blk' hblk'
    rw [List.mem_singleton.mp hblk']
    exact ⟨dir, _, hproduced, hopen⟩
  have hall := select_merges hblocks (List.cons_ne_nil narrowMatcher []) hanswers (.inserted _)
    (.stable Int64)
  obtain ⟨⟨merged, hmerged, hmerge⟩, -⟩ := hall
  exact ⟨q, _, merged, rfl, rfl, hanswers, hmerged, hmerge⟩

/-- Behind 64 GiB of index, a block that is skipped may have an answer. -/
theorem select_merges_wrapped :
    ∃ text calls series dir blk m qr,
      createFromSeries text calls series = .ok dir ∧ openDir text (some dir) = .ok blk ∧
      outside blk 0 0 = true ∧ blk.select [m] 0 0 = .ok [qr] ∧
      ∀ hashOrder sorter, Querier.select { blocks := [some blk], heads := ([] : List (Option (Head Bytes))) }
        hashOrder sorter [m] 0 0 = .ok [] := by
  obtain ⟨n, h, text, dir, blk, hok, hopen, hselect, hmin, hmax⟩ := exists_hiding
  have hout : outside blk 0 0 = true := by
    unfold outside
    rw [hmin, hmax]
    decide
  refine ⟨text, _, _, dir, blk, _, _, hok, hopen, hout, hselect, fun hashOrder sorter ↦ ?_⟩
  unfold Querier.select
  rw [if_neg (by decide)]
  unfold addBlocks
  rw [hout]
  show Except.ok ((hashOrder.order []).map (sortSeries sorter)) = _
  rw [List.perm_nil.mp (hashOrder.perm [])]
  rfl

end MerlionTsdb.Querier
