import MerlionTsdb.Block.Stored
import Mathlib.Algebra.Order.BigOperators.Group.List

/-!
# Input within the format

An upper bound on what the series of a block take in its files.  Input of less than 16 MiB by this measure
keeps within every width of the format.
-/

namespace MerlionTsdb.Block

open Ascending Chunkenc Encoding Model

/-! ## The measure -/

/-- What a label takes: in the symbols, in the entry of its series, in the table. -/
def labelWeight (l : Label) : Nat := 64 + l.name.bytes.length + l.value.bytes.length

/-- What a series takes. -/
def SeriesInput.weight (s : SeriesInput) : Nat :=
  64 + (s.labels.entries.map labelWeight).sum + 32 * s.chunks.length

def weight (series : List SeriesInput) : Nat := (series.map SeriesInput.weight).sum

theorem sum_labelWeight_le (s : SeriesInput) : (s.labels.entries.map labelWeight).sum ≤ s.weight := by
  unfold SeriesInput.weight
  omega

/-! ## Sums -/

theorem sum_map_unique_le {α : Type} [LinearOrder α] (f : α → Nat) (as : List α) :
    ((unique as).map f).sum ≤ (as.map f).sum := by
  induction as with
  | nil => exact le_rfl
  | cons a as ih =>
    unfold unique
    rw [List.map_cons, List.sum_cons]
    split
    · omega
    · rw [List.map_cons, List.sum_cons]
      omega

theorem sum_map_sortUnique_le {α : Type} [LinearOrder α] (f : α → Nat) (as : List α) :
    ((sortUnique as).map f).sum ≤ (as.map f).sum := by
  have hsort : ((as.insertionSort (· ≤ ·)).map f).sum = (as.map f).sum :=
    ((List.perm_insertionSort _ as).map f).sum_eq
  rw [← hsort]
  exact sum_map_unique_le f _

/-- What is bounded element by element is bounded as a whole. -/
theorem length_flatMap_le {α β : Type} {f : α → List β} {g : α → Nat} {as : List α}
    (h : ∀ a ∈ as, (f a).length ≤ g a) : (as.flatMap f).length ≤ (as.map g).sum := by
  rw [List.length_flatMap]
  exact List.sum_le_sum h

theorem sum_filter_le {α : Type} (f : α → Nat) (p : α → Bool) (as : List α) :
    ((as.filter p).map f).sum ≤ (as.map f).sum :=
  (List.filter_sublist.map f).sum_le_sum fun _ _ ↦ Nat.zero_le _

/-! ## Symbols -/

theorem length_putUvarintStr_le (s : Str) : (putUvarintStr s).length ≤ 10 + s.bytes.length := by
  have hlen := Varint.putUvarint_length_le (UInt64.ofNat s.bytes.length)
  unfold putUvarintStr Varint.maxVarintLen64 at *
  rw [List.length_append]
  omega

/-- What the labels of the prepared series take. -/
def preparedWeight (prepared : List PreparedSeries) : Nat :=
  weight (prepared.map PreparedSeries.input)

theorem sum_symbols_le (prepared : List PreparedSeries) :
    ((prepared.flatMap fun ps ↦ ps.input.labels.entries.flatMap fun l ↦ [l.name, l.value]).map
      fun s ↦ 10 + s.bytes.length).sum ≤ preparedWeight prepared := by
  unfold preparedWeight weight
  induction prepared with
  | nil => exact le_rfl
  | cons ps prepared ih =>
    have hlabels : ((ps.input.labels.entries.flatMap fun l ↦ [l.name, l.value]).map
        fun s ↦ 10 + s.bytes.length).sum ≤ (ps.input.labels.entries.map labelWeight).sum := by
      generalize ps.input.labels.entries = entries
      induction entries with
      | nil => exact le_rfl
      | cons l entries ih =>
        have hl : ([l.name, l.value].map fun s ↦ 10 + s.bytes.length).sum ≤ labelWeight l := by
          simp only [List.map_cons, List.map_nil, List.sum_cons, List.sum_nil, labelWeight]
          omega
        rw [List.flatMap_cons, List.map_append, List.sum_append]
        exact Nat.add_le_add hl ih
    have hweight := sum_labelWeight_le ps.input
    rw [List.flatMap_cons, List.map_append, List.sum_append]
    exact Nat.add_le_add (hlabels.trans hweight) ih

theorem length_symbolsPayload_le (prepared : List PreparedSeries) :
    (symbolsPayload (symbolsOf prepared)).length ≤ 14 + preparedWeight prepared := by
  have hsection : ((symbolsOf prepared).flatMap putUvarintStr).length ≤
      ((symbolsOf prepared).map fun s ↦ 10 + s.bytes.length).sum :=
    length_flatMap_le fun s _ ↦ length_putUvarintStr_le s
  have hsort := sum_map_sortUnique_le (fun s : Str ↦ 10 + s.bytes.length)
    (Str.empty :: prepared.flatMap fun ps ↦
      ps.input.labels.entries.flatMap fun l ↦ [l.name, l.value])
  have hall := sum_symbols_le prepared
  have hfirst : (Str.empty.bytes).length = 0 := rfl
  rw [List.map_cons, List.sum_cons, hfirst] at hsort
  unfold symbolsPayload
  rw [List.length_append, length_putBe32]
  unfold symbolsOf at hsection ⊢
  omega

/-! ## Series -/

theorem length_chunkDeltas_le (t0 ref0 : Int64) (metas : List ChunkMeta) :
    (chunkDeltas t0 ref0 metas).length ≤ 30 * metas.length := by
  induction metas generalizing t0 ref0 with
  | nil => exact le_rfl
  | cons c metas ih =>
    have hgap := Varint.putUvarint_length_le (c.minTime - t0).toUInt64
    have hspan := Varint.putUvarint_length_le (c.maxTime - c.minTime).toUInt64
    have href : (Varint.putVarint (c.ref.toInt64 - ref0)).length ≤ 10 := Varint.putUvarint_length_le _
    have hrest := ih c.maxTime c.ref.toInt64
    unfold Varint.maxVarintLen64 at hgap hspan
    unfold chunkDeltas
    simp only [List.length_append, List.length_cons]
    omega

theorem length_seriesPayload_le (labelRefs : List (UInt32 × UInt32)) (metas : List ChunkMeta) :
    (seriesPayload labelRefs metas).length ≤ 20 + 20 * labelRefs.length + 30 * metas.length := by
  have hcount := Varint.putUvarint_length_le (UInt64.ofNat labelRefs.length)
  have hcount' := Varint.putUvarint_length_le (UInt64.ofNat metas.length)
  have hlabels : (labelRefsBytes labelRefs).length ≤ 20 * labelRefs.length := by
    unfold labelRefsBytes
    apply (length_flatMap_le (g := fun _ ↦ 20) fun r _ ↦ ?_).trans
    · rw [List.map_const', List.sum_replicate_nat, Nat.mul_comm]
    · have hname := Varint.putUvarint_length_le r.1.toUInt64
      have hvalue := Varint.putUvarint_length_le r.2.toUInt64
      unfold Varint.maxVarintLen64 at hname hvalue
      rw [List.length_append]
      omega
  have hmetas : (chunkMetasBytes metas).length ≤ 30 * metas.length := by
    cases metas with
    | nil => exact le_rfl
    | cons c metas =>
      have hmin : (Varint.putVarint c.minTime).length ≤ 10 := Varint.putUvarint_length_le _
      have hspan := Varint.putUvarint_length_le (c.maxTime - c.minTime).toUInt64
      have href := Varint.putUvarint_length_le c.ref
      have hrest := length_chunkDeltas_le c.maxTime c.ref.toInt64 metas
      unfold Varint.maxVarintLen64 at hspan href
      unfold chunkMetasBytes
      simp only [List.length_append, List.length_cons]
      omega
  unfold Varint.maxVarintLen64 at hcount hcount'
  unfold seriesPayload
  simp only [List.length_append]
  omega

theorem length_labelRefsOf {refs : List (Str × UInt32)} {labels : List Label}
    {labelRefs : List (UInt32 × UInt32)} (hok : labelRefsOf refs labels = .ok labelRefs) :
    labelRefs.length = labels.length := by
  induction labels generalizing labelRefs with
  | nil =>
    cases hok
    rfl
  | cons l labels ih =>
    unfold labelRefsOf at hok
    obtain ⟨name, -, hok⟩ := bind_ok hok
    obtain ⟨value, -, hok⟩ := bind_ok hok
    obtain ⟨rest, hrest, hok⟩ := bind_ok hok
    cases hok
    rw [List.length_cons, List.length_cons, ih hrest]

theorem le_sum_labelWeight (labels : List Label) : 64 * labels.length ≤ (labels.map labelWeight).sum := by
  induction labels with
  | nil => exact le_rfl
  | cons l labels ih =>
    have hl : 64 ≤ labelWeight l := by
      unfold labelWeight
      omega
    rw [List.map_cons, List.sum_cons, List.length_cons]
    omega

/-- The series loop adds no more than the measure of its series. -/
theorem length_addAllSeries_le {refs : List (Str × UInt32)} {w w' : IndexWriter}
    {prepared : List PreparedSeries} {ids : List UInt32}
    (hmetas : ∀ ps ∈ prepared, ps.chunkMetas.length = ps.input.chunks.length)
    (hok : addAllSeries refs w prepared = .ok (ids, w')) :
    w'.buf.length ≤ w.buf.length + preparedWeight prepared := by
  induction prepared generalizing w ids with
  | nil =>
    cases hok
    exact Nat.le_add_right _ _
  | cons ps prepared ih =>
    obtain ⟨labelRefs, id, w₁, ids', hlabels, hadd, hrest, rfl⟩ := addAllSeries_cons_iff.mp hok
    have hrest := ih (fun ps' hps' ↦ hmetas ps' (List.mem_cons_of_mem _ hps')) hrest
    obtain ⟨off, heq⟩ := IndexWriter.addSeries_eq (addSeries_stage hadd).1 labelRefs ps.chunkMetas
    rw [hadd, Prod.mk.injEq] at heq
    have hbuf := congrArg (fun w : IndexWriter ↦ w.buf.length) heq.2
    have hpad := length_padTo_le w.buf kIndexSeriesAlign
    have hpayload := length_seriesPayload_le labelRefs ps.chunkMetas
    have hlen := Varint.putUvarint_length_le
      (UInt64.ofNat (seriesPayload labelRefs ps.chunkMetas).length)
    have hweight := le_sum_labelWeight ps.input.labels.entries
    have halign : kIndexSeriesAlign = 16 := rfl
    rw [length_labelRefsOf hlabels, hmetas ps List.mem_cons_self] at hpayload
    unfold Varint.maxVarintLen64 at hlen
    simp only [sectionUv, List.length_append, length_putBe32] at hbuf
    simp only [preparedWeight, weight, List.map_cons, List.sum_cons, SeriesInput.weight] at hrest ⊢
    omega

/-! ## Posting lists -/

theorem length_labelIds_le (prepared : List PreparedSeries) (ids : List UInt32) :
    ((labelIds prepared ids).map fun p ↦ 64 + (ofLex p.1).1.bytes.length +
      (ofLex p.1).2.bytes.length).sum ≤ preparedWeight prepared := by
  unfold labelIds preparedWeight weight
  induction prepared generalizing ids with
  | nil => exact Nat.zero_le _
  | cons ps prepared ih =>
    cases ids with
    | nil => exact Nat.zero_le _
    | cons id ids =>
      have hrest := ih ids
      rw [List.zip_cons_cons, List.flatMap_cons, List.map_append, List.sum_append, List.map_map,
        List.map_cons, List.map_cons, List.sum_cons]
      have hweight := sum_labelWeight_le ps.input
      show (ps.input.labels.entries.map labelWeight).sum + _ ≤ _
      omega

theorem length_postingList_le {prepared : List PreparedSeries} {ids : List UInt32}
    {p : PostingKey × List UInt32} (hp : p ∈ postingLists (labelIds prepared ids)) :
    64 * p.2.length ≤ preparedWeight prepared := by
  have hall := length_labelIds_le prepared ids
  obtain ⟨key, -, rfl⟩ := List.mem_map.mp hp
  dsimp only
  rw [List.length_map]
  have hfilter := List.length_filter_le (fun q ↦ decide (q.1 = key)) (labelIds prepared ids)
  have hcount : 64 * (labelIds prepared ids).length ≤ ((labelIds prepared ids).map fun p ↦
      64 + (ofLex p.1).1.bytes.length + (ofLex p.1).2.bytes.length).sum := by
    generalize labelIds prepared ids = pushed
    induction pushed with
    | nil => exact le_rfl
    | cons q pushed ih =>
      rw [List.map_cons, List.sum_cons, List.length_cons]
      omega
  omega

/-- The table has an entry for each label. -/
theorem length_tablePayload_le {buf : Bytes} {entries : List PendingEntry}
    {prepared : List PreparedSeries} {ids : List UInt32}
    (h : List.Forall₂ (EntryLaid buf) entries
      ((postingLists (labelIds prepared ids)).map postingsWritten)) :
    (tablePayload entries).length ≤ 4 + preparedWeight prepared := by
  -- The bytes of an entry are at most what its key weighs.
  have hentries : (entries.flatMap PendingEntry.bytes).length ≤
      ((postingLists (labelIds prepared ids)).map fun p ↦ 64 + (ofLex p.1).1.bytes.length +
        (ofLex p.1).2.bytes.length).sum := by
    generalize postingLists (labelIds prepared ids) = lists at h
    rw [List.forall₂_map_right_iff] at h
    induction h with
    | nil => exact le_rfl
    | @cons e p entries lists he _ ih =>
      have hname := length_putUvarintStr_le e.name
      have hvalue := length_putUvarintStr_le e.value
      have hoff := Varint.putUvarint_length_le e.offset
      have htwo : (Varint.putUvarint 2).length = 1 := by decide
      rw [he.1] at hname
      rw [he.2.1] at hvalue
      unfold postingsWritten at hname hvalue
      dsimp only at hname hvalue
      unfold Varint.maxVarintLen64 at hoff
      rw [List.flatMap_cons, List.length_append, List.map_cons, List.sum_cons]
      simp only [PendingEntry.bytes, List.length_append, htwo, he.1, he.2.1, postingsWritten]
      omega
  -- The keys are those of the labels, each counted once.
  have hkeys := sum_map_sortUnique_le
    (fun key : PostingKey ↦ 64 + (ofLex key).1.bytes.length + (ofLex key).2.bytes.length)
    ((labelIds prepared ids).map Prod.fst)
  have hpushed := length_labelIds_le prepared ids
  unfold postingLists at hentries
  rw [List.map_map] at hentries hkeys
  unfold tablePayload
  rw [List.length_append, length_putBe32]
  exact Nat.add_le_add_left (hentries.trans (hkeys.trans hpushed)) 4

/-! ## The format -/

/-- Prepared series of less than 16 MiB have an index within the format. -/
theorem indexFits_of_weight {prepared : List PreparedSeries}
    (hmetas : ∀ ps ∈ prepared, ps.chunkMetas.length = ps.input.chunks.length)
    (hmax : ∀ ps ∈ prepared, ps.chunkMetas.length ≤ kMaxChunkMetas)
    (h : preparedWeight prepared < 2 ^ 24) : IndexFits prepared := by
  have hsymbols := length_symbolsPayload_le prepared
  -- The header and the symbols take 27 bytes and what the symbols weigh.
  have hstart : ∀ {refs w₁}, startIndex prepared = .ok (refs, w₁) →
      w₁.buf.length ≤ 27 + preparedWeight prepared := by
    intro refs w₁ hok
    obtain ⟨-, -, -, hbuf⟩ := startIndex_ok hok (by omega)
    have hheader : indexHeader.length = 5 := rfl
    rw [hbuf, List.length_append, length_section32, hheader]
    omega
  -- So every series starts below 64 GiB, and its reference has 32 bits.
  have hseries : ∀ {front ps back refs w₁ ids w}, prepared = front ++ ps :: back →
      startIndex prepared = .ok (refs, w₁) → addAllSeries refs w₁ front = .ok (ids, w) →
        (padTo w.buf kIndexSeriesAlign).length < 2 ^ 36 := by
    intro front ps back refs w₁ ids w hsplit hok hfront
    have hlen := length_addAllSeries_le (fun ps' hps' ↦ hmetas ps' (by
      rw [hsplit]
      exact List.mem_append_left _ hps')) hfront
    have hpart : preparedWeight front ≤ preparedWeight prepared := by
      rw [hsplit]
      simp only [preparedWeight, weight, List.map_append, List.sum_append]
      omega
    have hpad := length_padTo_le w.buf kIndexSeriesAlign
    have hfirst := hstart hok
    have halign : kIndexSeriesAlign = 16 := rfl
    omega
  have hpostings : ∀ {ids : List UInt32}, ∀ p ∈ postingLists (labelIds prepared ids),
      4 + 4 * p.2.length < 2 ^ 32 := by
    intro ids p hp
    have hlen := length_postingList_le hp
    omega
  constructor
  · omega
  · exact hseries
  · exact fun _ _ ↦ hpostings
  · -- The table stands behind whatever the run has written.
    intro w hbuild
    obtain ⟨refs, w₁, ids, w₂, w₃, hok, hall, hfinish, hlists⟩ := buildIndex_iff.mp hbuild
    obtain ⟨h₁, hstage₁, hrefs, -⟩ := startIndex_ok hok (by omega)
    obtain ⟨written, h₂, hstage₂, -, rfl⟩ := addAllSeries_ok h₁ hstage₁ hrefs hall hmax
      fun hsplit hfront ↦ hseries hsplit hok hfront
    have h₃ := h₂.finishSeries hfinish
    have h₄ := addAllPostings_ok h₃ hlists hpostings
    have htable := length_tablePayload_le h₄.postings
    omega

theorem length_payloads_le (series : List SeriesInput) :
    32 * (payloads series).length ≤ weight series := by
  unfold payloads weight
  induction series with
  | nil => exact Nat.zero_le _
  | cons s series ih =>
    have hs : 32 * s.chunks.length ≤ s.weight := Nat.le_add_left _ _
    rw [List.flatMap_cons, List.length_append, List.length_map, List.map_cons, List.sum_cons]
    omega

/-- Input of less than 16 MiB keeps within the format. -/
theorem withinFormat_of_weight {series : List SeriesInput} (calls : CreateCalls)
    (h : weight series < 2 ^ 24) : WithinFormat calls series := by
  constructor
  · -- There are no more segments than chunks, and one.
    have hpacked := length_packChunks_le kDefaultChunksSegmentSize (payloads series)
    have hpayloads := length_payloads_le series
    omega
  · intro prepared st hok
    obtain ⟨hinputs, -, htimes⟩ := writeSegments_totals hok
    have hmetas : ∀ ps ∈ prepared, ps.chunkMetas.length = ps.input.chunks.length :=
      fun ps hps ↦ (htimes ps hps).length_eq.symm
    apply indexFits_of_weight hmetas
    · intro ps hps
      rw [hmetas ps hps]
      exact ps.input.length_le.trans (by decide)
    · unfold preparedWeight
      rw [hinputs]
      unfold weight at h ⊢
      exact lt_of_le_of_lt (sum_filter_le _ _ series) h

end MerlionTsdb.Block
