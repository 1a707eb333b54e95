import MerlionTsdb.Block.StoredPostings

/-!
# Queries on stored rows

`Block::select` is a filter over the rows that the block stores, as long as the posting lists are exact for
the names in the query.
-/

namespace MerlionTsdb.Block

open Ascending Chunkenc Encoding Model

/-! ## Chunks in the range -/

/-- The chunks of the input in the range. -/
def inRange (mint maxt : Int64) (chunks : List ChunkInput) : List ChunkInput :=
  chunks.filter fun ci ↦ overlaps ci.minTime ci.maxTime mint maxt

/-- A result carries the chunks: their bytes, in their order, and metas with their times, which refer to
the chunks in the files of the block. -/
structure Carries (blk : Block) (chunks : List ChunkInput) (q : QueryResult) : Prop where
  chunks_eq : q.chunks = chunks.map fun ci ↦ .fromBytes ci.bytes.bytes
  metas : List.Forall₂ (fun ci cm ↦ cm.minTime = ci.minTime ∧ cm.maxTime = ci.maxTime ∧
    (blk.chunks.read cm.chunkRef).1 = .ok ci.payload) chunks q.chunkMetas

/-- The answer for a series of the input. -/
structure AnswersFor (blk : Block) (mint maxt : Int64) (s : SeriesInput) (q : QueryResult) : Prop where
  labels_eq : q.labels = s.labels
  carries : Carries blk (inRange mint maxt s.chunks) q

/-- The chunk loop is a filter. -/
theorem loadChunks_eq {blk : Block} {chunks : List ChunkInput} {metas : List ChunkMeta}
    (h : List.Forall₂ (fun chk cm ↦ cm.minTime = chk.minTime ∧ cm.maxTime = chk.maxTime ∧
      (blk.chunks.read cm.chunkRef).1 = .ok chk.payload) chunks metas) (mint maxt : Int64) :
    ∃ found, loadChunks blk.chunks mint maxt metas = .ok found ∧
      ∀ labels, Carries blk (inRange mint maxt chunks)
        { labels := labels, chunks := found.map Prod.fst, chunkMetas := found.map Prod.snd } := by
  induction h with
  | nil => exact ⟨[], rfl, fun labels ↦ ⟨rfl, List.Forall₂.nil⟩⟩
  | @cons ci cm chunks metas hcm _ ih =>
    obtain ⟨found, hok, hcarries⟩ := ih
    obtain ⟨hmin, hmax, hread⟩ := hcm
    unfold loadChunks inRange
    rw [hmin, hmax, List.filter_cons]
    by_cases hin : overlaps ci.minTime ci.maxTime mint maxt = true
    · rw [if_neg (by simp [hin]), if_pos hin, hread]
      refine ⟨(.fromBytes ci.bytes.bytes, cm) :: found, ?_, fun labels ↦ ?_⟩
      · show (loadChunks blk.chunks mint maxt metas >>= fun rest ↦
          .ok ((.fromBytes ci.payload.data, cm) :: rest)) = _
        rw [hok]
        rfl
      · obtain ⟨hchunks, hmetas⟩ := hcarries labels
        constructor
        · exact congrArg (List.cons _) hchunks
        · exact List.Forall₂.cons ⟨hmin, hmax, hread⟩ hmetas
    · rw [if_pos (by simpa using hin), if_neg hin]
      exact ⟨found, hok, hcarries⟩

/-! ## Rows in the result -/

/-- One of the chunks is in the range. -/
def SeriesInput.meets (mint maxt : Int64) (s : SeriesInput) : Bool :=
  s.chunks.any fun ci ↦ overlaps ci.minTime ci.maxTime mint maxt

theorem inRange_eq_nil {mint maxt : Int64} {s : SeriesInput} :
    inRange mint maxt s.chunks = [] ↔ s.meets mint maxt = false := by
  unfold inRange SeriesInput.meets
  rw [List.filter_eq_nil_iff, List.any_eq_false]

namespace Stores

variable {blk : Block} {rows : List StoredSeries}

/-- The series loop over the ids of rows. -/
theorem loadSeries_eq (h : Stores blk rows) (mint maxt : Int64) {picked : List StoredSeries}
    (hpicked : picked ⊆ rows) :
    ∃ results, loadSeries blk mint maxt (picked.map StoredSeries.id) = .ok results ∧
      List.Forall₂ (AnswersFor blk mint maxt)
        ((picked.map fun r ↦ r.prepared.input).filter (SeriesInput.meets mint maxt)) results := by
  induction picked with
  | nil => exact ⟨[], rfl, List.Forall₂.nil⟩
  | cons r picked ih =>
    obtain ⟨results, hok, hresults⟩ := ih (List.subset_of_cons_subset hpicked)
    have hr : r ∈ rows := hpicked List.mem_cons_self
    obtain ⟨found, hfound, hcarries⟩ := loadChunks_eq (h.chunks r hr) mint maxt
    have hload : loadSeries blk mint maxt ((r :: picked).map StoredSeries.id) =
        .ok (if found.isEmpty then results else
          { labels := r.labels
            chunks := found.map Prod.fst
            chunkMetas := found.map Prod.snd } :: results) := by
      rw [List.map_cons]
      unfold loadSeries
      rw [h.series r hr]
      show (loadChunks blk.chunks mint maxt r.chunkMetas >>= _) = _
      rw [hfound, hok]
      rfl
    rw [hload, List.map_cons]
    -- No chunk was found when none is in the range.
    have hnil : found.isEmpty = true ↔ r.prepared.input.meets mint maxt = false := by
      rw [← inRange_eq_nil, List.isEmpty_iff]
      have hchunks := congrArg List.length (hcarries r.labels).chunks_eq
      rw [List.length_map, List.length_map] at hchunks
      rw [← List.length_eq_zero_iff, hchunks, List.length_eq_zero_iff]
      rfl
    cases hmeets : r.prepared.input.meets mint maxt with
    | true =>
      rw [List.filter_cons_of_pos hmeets, if_neg (by rw [hnil, hmeets]; decide)]
      exact ⟨_, rfl, List.Forall₂.cons ⟨rfl, hcarries r.labels⟩ hresults⟩
    | false =>
      rw [List.filter_cons_of_neg (by rw [hmeets]; exact Bool.false_ne_true), if_pos (hnil.mpr hmeets)]
      exact ⟨results, rfl, hresults⟩

/-- A query answers for the rows that all matchers accept and that have a chunk in the range. -/
theorem select_eq (h : Stores blk rows) (ho : Ordinary rows) {matchers : List Matcher}
    (hne : matchers ≠ []) (hexact : ∀ m ∈ matchers, ExactFor blk rows m.name) (mint maxt : Int64) :
    ∃ results, blk.select matchers mint maxt = .ok results ∧
      List.Forall₂ (AnswersFor blk mint maxt)
        ((rows.map fun r ↦ r.prepared.input).filter fun s ↦
          labelsMatchAll s.labels matchers && s.meets mint maxt) results := by
  cases matchers with
  | nil => exact absurd rfl hne
  | cons m matchers =>
    have hids := h.intersectMatchers_eq ho (fun m' hm' ↦ hexact m' (List.mem_cons_of_mem _ hm'))
      fun r ↦ m.accepts (r.labels.valueOf m.name)
    have hsub : (rows.filter fun r ↦ labelsMatchAll r.labels (m :: matchers)) ⊆ rows :=
      fun r hr ↦ (List.mem_filter.mp hr).1
    obtain ⟨results, hok, hresults⟩ := h.loadSeries_eq mint maxt hsub
    refine ⟨results, ?_, ?_⟩
    · unfold Block.select
      dsimp only
      rw [h.postingsForMatcher_eq ho (hexact m List.mem_cons_self)]
      show (intersectMatchers blk.index _ matchers >>= _) = _
      rw [hids]
      exact hok
    · -- The matchers filter first, and the range then.
      have hsplit : (rows.map fun r ↦ r.prepared.input).filter (fun s ↦
          labelsMatchAll s.labels (m :: matchers) && s.meets mint maxt) =
          ((rows.filter fun r ↦ labelsMatchAll r.labels (m :: matchers)).map fun r ↦
            r.prepared.input).filter (SeriesInput.meets mint maxt) := by
        rw [List.filter_map, List.filter_map, List.filter_filter]
        apply congrArg
        apply List.filter_congr
        intro r _
        exact Bool.and_comm _ _
      rw [hsplit]
      exact hresults

end Stores

/-! ## Joined keys -/

/-- The list of a joined key is exact for a name when its rows are those of every label with the key. -/
theorem exactFor_of_joined {blk : Block} {rows : List StoredSeries} (h : Stores blk rows) {name : Str}
    (hrows : ∀ value, value ≠ Str.empty → ∀ r ∈ rows, ∀ l ∈ r.labels.entries,
      joinedKey l.name l.value = joinedKey name value → ∀ r' ∈ rows, r'.has l = r'.has ⟨name, value⟩) :
    ExactFor blk rows name := by
  intro value hvalue
  rw [h.postings]
  apply congrArg Except.ok
  cases hfind : (listsOf rows).find? fun p ↦ joinedKey p.name p.value = joinedKey name value with
  | some p =>
    have hkey : joinedKey p.name p.value = joinedKey name value := by
      simpa using List.find?_some hfind
    obtain ⟨l, ⟨r, hr, hhas⟩, rfl⟩ := mem_listsOf.mp (List.mem_of_find?_eq_some hfind)
    exact Stores.idsWhere_congr (hrows value hvalue r hr l (StoredSeries.has_iff.mp hhas) hkey)
  | none =>
    symm
    apply List.eq_nil_iff_forall_not_mem.mpr
    intro id hid
    obtain ⟨r, hr, hhas, -⟩ := (mem_pick StoredSeries.id).mp hid
    have hlist := mem_listsOf.mpr ⟨⟨name, value⟩, ⟨r, hr, hhas⟩, rfl⟩
    have hout := List.find?_eq_none.mp hfind _ hlist
    exact hout (decide_eq_true rfl)

/-- When no stored name holds a NUL byte, the lists of such a name are exact. -/
theorem exactFor_of_nul {blk : Block} {rows : List StoredSeries} (h : Stores blk rows) {name : Str}
    (hname : 0 ∉ name.bytes) (hrows : ∀ r ∈ rows, ∀ l ∈ r.labels.entries, 0 ∉ l.name.bytes) :
    ExactFor blk rows name := by
  apply exactFor_of_joined h
  intro value _ r hr l hl hkey r' _
  have hsame := joinedKey_inj (hrows r hr l hl) hname hkey
  rw [← hsame.1, ← hsame.2]

end MerlionTsdb.Block
