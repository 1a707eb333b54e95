import MerlionTsdb.Block.CreateSelect

/-!
# Queries for one pair

`Block::query` looks one label pair up and returns every series of its list with all of its chunks.
On any block it is the general query with the one equality matcher: the general query clips the
same results to its range, and over the full range also fails as the direct one does.
-/

-- The class of `block.hpp` keeps its name inside the namespace of its directory.
set_option linter.dupNamespace false

namespace MerlionTsdb.Block

open Chunkenc Encoding Model

/-- The chunk loop of `query`. -/
def loadAllChunks (chunks : ChunkReader) : List ChunkMeta → Except Failure (List XORChunk)
  | [] => .ok []
  | cm :: metas => do
    let payload ← (chunks.read cm.chunkRef).1
    if payload.encoding ≠ .xor then .error (.error .notSupported)
    else do
      let rest ← loadAllChunks chunks metas
      .ok (.fromBytes payload.data :: rest)

/-- The series loop of `query`. -/
def loadAllSeries (blk : Block) : List UInt32 → Except Failure (List QueryResult)
  | [] => .ok []
  | id :: ids => do
    let se ← blk.index.series id.toUInt64
    let chunks ← loadAllChunks blk.chunks se.chunks
    let rest ← loadAllSeries blk ids
    .ok ({ labels := se.labels, chunks := chunks, chunkMetas := se.chunks } :: rest)

/-- `Block::query`. -/
def Block.query (blk : Block) (name value : Str) : Except Failure (List QueryResult) := do
  let ids ← blk.index.postings name value
  loadAllSeries blk ids

/-! ## Clipping to a range -/

/-- The chunks of the range, with their metas. -/
def clipChunks (mint maxt : Int64) (found : List (XORChunk × ChunkMeta)) :
    List (XORChunk × ChunkMeta) :=
  found.filter fun p ↦ overlaps p.2.minTime p.2.maxTime mint maxt

/-- A result clipped to a range, unless no chunk is left. -/
def QueryResult.clip (mint maxt : Int64) (q : QueryResult) : Option QueryResult :=
  let kept := clipChunks mint maxt (q.chunks.zip q.chunkMetas)
  if kept.isEmpty then none
  else some { labels := q.labels, chunks := kept.map Prod.fst, chunkMetas := kept.map Prod.snd }

theorem overlaps_full (cmin cmax : Int64) :
    overlaps cmin cmax Int64.minValue Int64.maxValue = true := by
  have hmax := Int64.le_maxValue cmin
  have hmin := Int64.minValue_le cmax
  simp [overlaps, Int64.not_lt.mpr hmax, Int64.not_lt.mpr hmin]

example : overlaps 3 5 5 9 = true ∧ overlaps 3 5 6 9 = false := by decide

theorem clipChunks_full (found : List (XORChunk × ChunkMeta)) :
    clipChunks Int64.minValue Int64.maxValue found = found :=
  List.filter_eq_self.mpr fun _ _ ↦ overlaps_full _ _

/-! ### Chunks -/

/-- What the direct loop loads, the general one loads and clips. -/
theorem loadChunks_of_ok {chunks : ChunkReader} {metas : List ChunkMeta} {all : List XORChunk}
    (h : loadAllChunks chunks metas = .ok all) (mint maxt : Int64) :
    loadChunks chunks mint maxt metas = .ok (clipChunks mint maxt (all.zip metas)) := by
  induction metas generalizing all with
  | nil =>
    cases h
    rfl
  | cons cm metas ih =>
    rw [loadAllChunks] at h
    obtain ⟨payload, hread, h⟩ := bind_ok h
    by_cases hxor : payload.encoding = .xor
    · rw [if_neg (not_not_intro hxor)] at h
      obtain ⟨rest, hrest, h⟩ := bind_ok h
      cases h
      rw [loadChunks, List.zip_cons_cons, clipChunks, List.filter_cons]
      cases hover : overlaps cm.minTime cm.maxTime mint maxt with
      | false =>
        -- Out of the range: the general loop does not even read the chunk.
        rw [if_pos (by rfl), if_neg Bool.false_ne_true]
        exact ih hrest
      | true =>
        rw [if_neg (by decide), if_pos rfl, hread]
        show (if payload.encoding ≠ .xor then _ else _) = _
        rw [if_neg (not_not_intro hxor), ih hrest]
        rfl
    · rw [if_pos hxor] at h
      cases h

/-- Over the full range both loops do the same. -/
theorem loadChunks_full (chunks : ChunkReader) (metas : List ChunkMeta) :
    loadChunks chunks Int64.minValue Int64.maxValue metas =
      (loadAllChunks chunks metas).map fun all ↦ all.zip metas := by
  induction metas with
  | nil => rfl
  | cons cm metas ih =>
    rw [loadChunks, overlaps_full, if_neg (by decide), loadAllChunks]
    cases (chunks.read cm.chunkRef).1 with
    | error e => rfl
    | ok payload =>
      show (if payload.encoding ≠ .xor then _ else _) =
        Except.map _ (if payload.encoding ≠ .xor then _ else _)
      by_cases hxor : payload.encoding ≠ .xor
      · rw [if_pos hxor, if_pos hxor]
        rfl
      · rw [if_neg hxor, if_neg hxor, ih]
        cases loadAllChunks chunks metas <;> rfl

/-! ### Series -/

theorem loadSeries_of_ok {blk : Block} {ids : List UInt32} {results : List QueryResult}
    (h : loadAllSeries blk ids = .ok results) (mint maxt : Int64) :
    loadSeries blk mint maxt ids = .ok (results.filterMap (QueryResult.clip mint maxt)) := by
  induction ids generalizing results with
  | nil =>
    cases h
    rfl
  | cons id ids ih =>
    rw [loadAllSeries] at h
    obtain ⟨se, hseries, h⟩ := bind_ok h
    obtain ⟨all, hall, h⟩ := bind_ok h
    obtain ⟨rest, hrest, h⟩ := bind_ok h
    cases h
    rw [loadSeries, hseries]
    show (loadChunks blk.chunks mint maxt se.chunks >>= _) = _
    rw [loadChunks_of_ok hall mint maxt]
    show (loadSeries blk mint maxt ids >>= _) = _
    rw [ih hrest, List.filterMap_cons, QueryResult.clip]
    dsimp only
    show Except.ok _ = _
    by_cases hnone : (clipChunks mint maxt (all.zip se.chunks)).isEmpty = true
    · rw [if_pos hnone, if_pos hnone]
    · rw [if_neg hnone, if_neg hnone]

theorem loadSeries_full (blk : Block) (ids : List UInt32) :
    loadSeries blk Int64.minValue Int64.maxValue ids =
      (loadAllSeries blk ids).map
        (List.filterMap (QueryResult.clip Int64.minValue Int64.maxValue)) := by
  induction ids with
  | nil => rfl
  | cons id ids ih =>
    rw [loadSeries, loadAllSeries]
    cases blk.index.series id.toUInt64 with
    | error e => rfl
    | ok se =>
      show (loadChunks blk.chunks _ _ se.chunks >>= _) =
        Except.map _ (loadAllChunks blk.chunks se.chunks >>= _)
      rw [loadChunks_full, ih]
      cases loadAllChunks blk.chunks se.chunks with
      | error e => rfl
      | ok all =>
        cases loadAllSeries blk ids with
        | error e => rfl
        | ok rest =>
          show Except.ok _ = Except.ok _
          rw [List.filterMap_cons, QueryResult.clip]
          dsimp only
          rw [clipChunks_full]
          by_cases hnone : (all.zip se.chunks).isEmpty = true
          · rw [if_pos hnone, if_pos hnone]
          · rw [if_neg hnone, if_neg hnone]

/-- The list of a pair is what its equality matcher selects. -/
theorem postingsForMatcher_equal (idx : IndexReader) {name value : Str}
    (hvalue : value ≠ Str.empty) :
    postingsForMatcher idx (.equal name value) = idx.postings name value := by
  unfold postingsForMatcher Matcher.equal
  dsimp only
  rw [if_neg hvalue]

theorem select_equal (blk : Block) {name value : Str} (hvalue : value ≠ Str.empty)
    (mint maxt : Int64) :
    blk.select [.equal name value] mint maxt =
      blk.index.postings name value >>= loadSeries blk mint maxt := by
  unfold Block.select
  dsimp only
  rw [postingsForMatcher_equal blk.index hvalue]
  cases blk.index.postings name value <;> rfl

/-- On any block, whatever its files hold: when the direct query answers, the general one with the
same pair gives its results clipped to the range; and over the full range the two answer, or fail,
alike. -/
theorem select_clips_query (blk : Block) (name value : Str) (hvalue : value ≠ Str.empty) :
    (∀ results, blk.query name value = .ok results → ∀ mint maxt,
      blk.select [.equal name value] mint maxt =
        .ok (results.filterMap (QueryResult.clip mint maxt))) ∧
    blk.select [.equal name value] Int64.minValue Int64.maxValue =
      (blk.query name value).map
        (List.filterMap (QueryResult.clip Int64.minValue Int64.maxValue)) := by
  constructor
  · intro results hquery mint maxt
    unfold Block.query at hquery
    obtain ⟨ids, hids, hload⟩ := bind_ok hquery
    rw [select_equal blk hvalue, hids]
    exact loadSeries_of_ok hload mint maxt
  · rw [select_equal blk hvalue, Block.query]
    cases blk.index.postings name value with
    | error e => rfl
    | ok ids => exact loadSeries_full blk ids

/-- Both queries on a block of one series. -/
theorem select_clips_query_narrow :
    ∃ dir blk results,
      createFromSeries (JsonText.of [narrowMeta]) { ulid := Str.empty } [narrowSeries] = .ok dir ∧
      openDir (JsonText.of [narrowMeta]) (some dir) = .ok blk ∧
      blk.query (.single 97) (.single 98) = .ok results ∧ results.length = 1 ∧
      blk.select [narrowMatcher] 0 5 = .ok (results.filterMap (QueryResult.clip 0 5)) := by
  have hall : (do
      let dir ← createFromSeries (JsonText.of [narrowMeta]) { ulid := Str.empty } [narrowSeries]
      let blk ← openDir (JsonText.of [narrowMeta]) (some dir)
      let results ← blk.query (.single 97) (.single 98)
      if results.length = 1 then .ok () else .error .overrun).isOk = true := by decide +kernel
  obtain ⟨_, hall⟩ := exists_of_isOk hall
  obtain ⟨dir, hok, hall⟩ := bind_ok hall
  obtain ⟨blk, hopen, hall⟩ := bind_ok hall
  obtain ⟨results, hquery, hall⟩ := bind_ok hall
  refine ⟨dir, blk, results, hok, hopen, hquery, ?_, ?_⟩
  · by_contra hlength
    rw [if_neg hlength] at hall
    cases hall
  · exact (select_clips_query blk (.single 97) (.single 98) (by decide)).1 results hquery 0 5

end MerlionTsdb.Block
