import MerlionTsdb.Block.Produced
import MerlionTsdb.Block.VerticalMerge

/-!
# Times and counts in the metadata

The chunks that `create_from_head` and `compact` write encode runs in the order of their times.  The metas
in the index and the metadata of the block say which times these are, and how much there is.
-/

namespace MerlionTsdb.Block

open Chunkenc Encoding Head Model

/-! ## Runs in order -/

/-- The chunks encode runs of samples, with `before` between the times of any two samples in order. -/
def Runs (before : Int64 → Int64 → Prop) (chunks : List ChunkInput) : Prop :=
  ∃ runs, List.Forall₂ ChunkInput.Encodes chunks runs ∧
    runs.flatten.Pairwise fun x y ↦ before x.t y.t

theorem ofChunks_ok {labels : Labels} {chunks : List ChunkInput} {si : SeriesInput}
    (hok : SeriesInput.ofChunks labels chunks = .ok si) : si.labels = labels ∧ si.chunks = chunks := by
  unfold SeriesInput.ofChunks at hok
  split at hok
  · cases hok
    exact ⟨rfl, rfl⟩
  · cases hok

/-- The series loop of `create_from_head`, for a property of the chunks of a series. -/
theorem headInputs_forall {P : List ChunkInput → Prop} {series : List MemSeries}
    {inputs : List SeriesInput} (h : ∀ s ∈ series, ∀ out, headChunks s.chunks = .ok out → P out)
    (hok : headInputs series = .ok inputs) : ∀ si ∈ inputs, P si.chunks := by
  induction series generalizing inputs with
  | nil =>
    cases hok
    exact fun _ hsi ↦ absurd hsi List.not_mem_nil
  | cons s series ih =>
    have hrest := fun s' hs' ↦ h s' (List.mem_cons_of_mem _ hs')
    unfold headInputs at hok
    split at hok
    · exact ih hrest hok
    · obtain ⟨chunks, hchunks, hok⟩ := bind_ok hok
      obtain ⟨si, hsi, hok⟩ := bind_ok hok
      obtain ⟨rest, hloop, hok⟩ := bind_ok hok
      cases hok
      have hfirst : P si.chunks := by
        rw [(ofChunks_ok hsi).2]
        exact h s List.mem_cons_self chunks hchunks
      split
      · exact ih hrest hloop
      · intro si' hsi'
        rcases List.mem_cons.mp hsi' with rfl | hmem
        · exact hfirst
        · exact ih hrest hloop si' hmem

theorem headInputs_runs {series : List MemSeries} {inputs : List SeriesInput}
    (h : ∀ s ∈ series, ∃ xs, s.Holds xs) (hok : headInputs series = .ok inputs) :
    ∀ si ∈ inputs, Runs (· ≤ ·) si.chunks := by
  apply headInputs_forall (P := Runs (· ≤ ·)) _ hok
  intro s hs out hout
  obtain ⟨xs, hholds⟩ := h s hs
  obtain ⟨runs, hruns, hflat⟩ := hholds.runs
  obtain ⟨out', hout', -, hencodes, -⟩ := headChunks_eq hruns hholds.sized
  rw [hout] at hout'
  cases hout'
  refine ⟨runs, hencodes, ?_⟩
  rw [hflat]
  exact hholds.ordered

theorem decodeInputs_errs {chunks : List ChunkInput} {samples : List Sample}
    (hok : decodeInputs chunks = .ok samples) : ∀ ci ∈ chunks, ci.decode.2.err = none := by
  induction chunks generalizing samples with
  | nil => exact fun _ hci ↦ absurd hci List.not_mem_nil
  | cons ci chunks ih =>
    unfold decodeInputs at hok
    split at hok
    · cases hok
    · rename_i herr
      obtain ⟨rest, hrest, -⟩ := bind_ok hok
      intro ci' hci'
      rcases List.mem_cons.mp hci' with rfl | hmem
      · simpa using herr
      · exact ih hrest ci' hmem

/-- A merge that succeeds has decoded all of its chunks. -/
theorem verticalMerge_ok {labels : Labels} {chunks out : List ChunkInput}
    (hok : verticalMerge labels chunks = .ok out) :
    (∀ ci ∈ chunks, ci.decode.2.err = none) ∧ ∃ runs, List.Forall₂ ChunkInput.Encodes out runs ∧
      runs.flatten = dedupe (decoded chunks) := by
  have herrs : ∀ ci ∈ chunks, ci.decode.2.err = none := by
    unfold verticalMerge at hok
    obtain ⟨samples, hsamples, -⟩ := bind_ok hok
    exact decodeInputs_errs hsamples
  obtain ⟨out', runs, hok', hencodes, hflat⟩ := verticalMerge_runs labels herrs
  rw [hok] at hok'
  cases hok'
  exact ⟨herrs, runs, hencodes, hflat⟩

theorem mergeAll_cons_ok {entry : Labels × List ChunkInput} {merged : List (Labels × List ChunkInput)}
    {inputs : List SeriesInput} (hok : mergeAll (entry :: merged) = .ok inputs) :
    ∃ out si rest, verticalMerge entry.1 entry.2 = .ok out ∧
      SeriesInput.ofChunks entry.1 out = .ok si ∧ mergeAll merged = .ok rest ∧ inputs = si :: rest := by
  unfold mergeAll at hok
  obtain ⟨out, hout, hok⟩ := bind_ok hok
  obtain ⟨si, hsi, hok⟩ := bind_ok hok
  obtain ⟨rest, hrest, hok⟩ := bind_ok hok
  cases hok
  exact ⟨out, si, rest, hout, hsi, hrest, rfl⟩

/-- The loop over `merged` in `compact`. -/
theorem mergeAll_runs {merged : List (Labels × List ChunkInput)} {inputs : List SeriesInput}
    (hok : mergeAll merged = .ok inputs) : ∀ si ∈ inputs, Runs (· < ·) si.chunks := by
  induction merged generalizing inputs with
  | nil =>
    cases hok
    exact fun _ hsi ↦ absurd hsi List.not_mem_nil
  | cons entry merged ih =>
    obtain ⟨out, si, rest, hout, hsi, hrest, rfl⟩ := mergeAll_cons_ok hok
    obtain ⟨-, runs, hencodes, hflat⟩ := verticalMerge_ok hout
    intro si' hsi'
    rcases List.mem_cons.mp hsi' with rfl | hmem
    · rw [(ofChunks_ok hsi).2]
      refine ⟨runs, hencodes, ?_⟩
      rw [hflat]
      exact (merges_dedupe _).ascending
    · exact ih hrest si' hmem

/-! ## Counts -/

theorem Totals.foldl_counts (t : Totals) {chunks : List ChunkInput}
    (h : ∀ ci ∈ chunks, ∃ run, ci.Encodes run) :
    (chunks.foldl Totals.add t).samples = t.samples + UInt64.ofNat (decoded chunks).length ∧
      (chunks.foldl Totals.add t).chunks = t.chunks + UInt64.ofNat chunks.length := by
  induction chunks generalizing t with
  | nil =>
    show t.samples = t.samples + 0 ∧ t.chunks = t.chunks + 0
    simp
  | cons ci chunks ih =>
    obtain ⟨run, hci⟩ := h ci List.mem_cons_self
    obtain ⟨hsamples, hchunks⟩ := ih (t.add ci) fun ci' hci' ↦ h ci' (List.mem_cons_of_mem _ hci')
    have hdecoded : (decoded (ci :: chunks)).length = run.length + (decoded chunks).length := by
      unfold decoded
      rw [List.flatMap_cons, List.length_append, hci.decode_eq]
    have hadd : (t.add ci).samples = t.samples + UInt64.ofNat run.length := by
      unfold Totals.add
      dsimp only
      rw [if_pos hci.length_ge, hci.count_eq]
    rw [List.foldl_cons, hsamples, hchunks, hadd, hdecoded, UInt64.ofNat_add, List.length_cons,
      Nat.add_comm chunks.length 1, UInt64.ofNat_add]
    constructor
    · rw [UInt64.add_assoc]
    · show t.chunks + 1 + UInt64.ofNat chunks.length = _
      rw [UInt64.add_assoc]
      rfl

/-! ## What the index holds -/

theorem length_seriesPayload_ge (labelRefs : List (UInt32 × UInt32)) (metas : List ChunkMeta) :
    metas.length ≤ (seriesPayload labelRefs metas).length := by
  have hdeltas : ∀ (metas : List ChunkMeta) (t0 ref0 : Int64),
      metas.length ≤ (chunkDeltas t0 ref0 metas).length := by
    intro metas
    induction metas with
    | nil => exact fun _ _ ↦ le_rfl
    | cons c metas ih =>
      intro t0 ref0
      have hgap := List.length_pos_of_ne_nil (Varint.putUvarint_ne_nil (c.minTime - t0).toUInt64)
      have hrest := ih c.maxTime c.ref.toInt64
      unfold chunkDeltas
      simp only [List.length_append, List.length_cons]
      omega
  unfold seriesPayload
  simp only [List.length_append]
  cases metas with
  | nil => exact Nat.zero_le _
  | cons c metas =>
    have hspan := List.length_pos_of_ne_nil (Varint.putUvarint_ne_nil (c.maxTime - c.minTime).toUInt64)
    have hrest := hdeltas metas c.maxTime c.ref.toInt64
    unfold chunkMetasBytes
    simp only [List.length_append, List.length_cons]
    omega

theorem length_padTo_ge (buf : Bytes) (align : Nat) : buf.length ≤ (padTo buf align).length := by
  obtain ⟨zeros, hzeros⟩ := padTo_eq buf align
  rw [hzeros, List.length_append]
  exact Nat.le_add_right _ _

/-- Every series takes a byte of the index, and every meta. -/
theorem length_addAllSeries_ge {refs : List (Str × UInt32)} {w w' : IndexWriter}
    {prepared : List PreparedSeries} {ids : List UInt32}
    (hok : addAllSeries refs w prepared = .ok (ids, w')) :
    w.buf.length + (prepared.length + (prepared.flatMap PreparedSeries.chunkMetas).length) ≤
      w'.buf.length := by
  induction prepared generalizing w ids with
  | nil =>
    cases hok
    exact le_rfl
  | cons ps prepared ih =>
    obtain ⟨labelRefs, id, w₁, ids', -, hadd, hrest, rfl⟩ := addAllSeries_cons_iff.mp hok
    have hrest := ih hrest
    obtain ⟨off, heq⟩ := IndexWriter.addSeries_eq (addSeries_stage hadd).1 labelRefs ps.chunkMetas
    rw [hadd, Prod.mk.injEq] at heq
    have hbuf := congrArg (fun w : IndexWriter ↦ w.buf.length) heq.2
    have hpad := length_padTo_ge w.buf kIndexSeriesAlign
    have hpayload := length_seriesPayload_ge labelRefs ps.chunkMetas
    simp only [sectionUv, List.length_append, length_putBe32] at hbuf
    rw [List.length_cons, List.flatMap_cons, List.length_append]
    omega

theorem length_addAllPostings_ge {w w' : IndexWriter} {lists : List (PostingKey × List UInt32)}
    (hok : addAllPostings w lists = .ok w') : w.buf.length ≤ w'.buf.length := by
  induction lists generalizing w with
  | nil =>
    cases hok
    exact le_rfl
  | cons p lists ih =>
    obtain ⟨w₁, hadd, hok⟩ := addAllPostings_cons_iff.mp hok
    apply le_trans _ (ih hok)
    have hstage : w.stage = .postings := by
      rcases IndexWriter.addPostings_cases hadd with ⟨-, hstage⟩ | ⟨e, he, -⟩
      · exact hstage
      · cases he
    by_cases hids : IndexWriter.ascending p.2 = true
    · rw [IndexWriter.addPostings_eq hstage hids, Prod.mk.injEq] at hadd
      rw [← hadd.2]
      dsimp only
      rw [List.length_append]
      exact (length_padTo_ge w.buf 4).trans (Nat.le_add_right _ _)
    · unfold IndexWriter.addPostings at hadd
      rw [if_neg (not_not.mpr hstage), if_pos (by simpa using hids)] at hadd
      cases hadd

/-- An index is a vector of bytes, so it does not hold more than that. -/
theorem writeIndex_counts {calls : IndexCloseCalls} {prepared : List PreparedSeries}
    {file : Option Bytes} (hok : writeIndex calls prepared = .ok file) :
    prepared.length + (prepared.flatMap PreparedSeries.chunkMetas).length ≤ kMaxSize := by
  obtain ⟨w, w', hbuild, hclose⟩ := writeIndex_iff.mp hok
  obtain ⟨refs, w₁, ids, w₂, w₃, -, hseries, hfinish, hlists⟩ := buildIndex_iff.mp hbuild
  have hpostings := length_addAllPostings_ge hlists
  have hlen := length_addAllSeries_ge hseries
  have hpad : w₂.buf.length ≤ w₃.buf.length := by
    rcases IndexWriter.finishSeries_cases hfinish with ⟨-, -, hbuf, -⟩ | ⟨e, he, -⟩
    · rw [hbuf]
      exact length_padTo_ge _ _
    · cases he
  obtain ⟨-, -, -, hmax⟩ := IndexWriter.close_ok hclose
  obtain ⟨toc, -, -, hbuf⟩ := w.appendTables_buf
  rw [hbuf, List.length_append] at hmax
  omega

/-! ## Exact times -/

/-- The samples of all stored series. -/
def storedSamples (prepared : List PreparedSeries) : List Sample :=
  decoded (prepared.flatMap fun ps ↦ ps.input.chunks)

/-- The times of the meta are those of the first and the last sample of the chunk. -/
def MetaExact (ci : ChunkInput) (cm : ChunkMeta) : Prop :=
  ci.decode.1.head?.map Sample.t = some cm.minTime ∧ ci.decode.1.getLast?.map Sample.t = some cm.maxTime

/-- The metas of the stored series and the metadata of their block are exact; the number of samples is one
modulo 2 ^ 64. -/
structure TimesExact (before : Int64 → Int64 → Prop) (prepared : List PreparedSeries)
    (m : BlockMeta) : Prop where
  metas : ∀ ps ∈ prepared, List.Forall₂ MetaExact ps.input.chunks ps.chunkMetas
  consecutive : ∀ ps ∈ prepared, ps.chunkMetas.Pairwise fun a b ↦ before a.maxTime b.minTime
  empty : storedSamples prepared = [] → m.minTime = 0 ∧ m.maxTime = 0
  minTime : storedSamples prepared ≠ [] →
    (∃ x ∈ storedSamples prepared, x.t = m.minTime) ∧ ∀ x ∈ storedSamples prepared, m.minTime ≤ x.t
  maxTime : storedSamples prepared ≠ [] →
    (∃ x ∈ storedSamples prepared, x.t = m.maxTime) ∧ ∀ x ∈ storedSamples prepared, x.t ≤ m.maxTime
  numSamples : m.stats.numSamples = UInt64.ofNat (storedSamples prepared).length
  numChunks : m.stats.numChunks.toNat = (prepared.flatMap PreparedSeries.chunkMetas).length
  numSeries : m.stats.numSeries.toNat = prepared.length

/-- The first and the last sample of a run. -/
theorem ChunkInput.Encodes.ends {ci : ChunkInput} {run : List Sample} (h : ci.Encodes run) :
    (∃ x ∈ run, x.t = ci.minTime) ∧ ∃ x ∈ run, x.t = ci.maxTime := by
  obtain ⟨x, hx, hmin⟩ := Option.map_eq_some_iff.mp h.first_eq
  obtain ⟨y, hy, hmax⟩ := Option.map_eq_some_iff.mp h.last_eq
  exact ⟨⟨x, List.mem_of_head? hx, hmin⟩, ⟨y, List.mem_of_getLast? hy, hmax⟩⟩

/-- All samples of a run in order are between its ends. -/
theorem ChunkInput.Encodes.between {ci : ChunkInput} {run : List Sample} (h : ci.Encodes run)
    (hordered : run.Pairwise fun x y ↦ x.t ≤ y.t) {x : Sample} (hx : x ∈ run) :
    ci.minTime ≤ x.t ∧ x.t ≤ ci.maxTime := by
  have hne := h.ne_nil
  constructor
  · have hfirst := h.first_eq
    cases run with
    | nil => cases hx
    | cons y run =>
      rw [← Option.some_inj.mp hfirst]
      rcases List.mem_cons.mp hx with rfl | hmem
      · exact le_rfl
      · exact (List.pairwise_cons.mp hordered).1 x hmem
  · have hlast := h.last_eq
    rw [List.getLast?_eq_some_getLast hne] at hlast
    rw [← Option.some_inj.mp hlast]
    exact EncodesRun.le_last hne hordered x hx

/-- Each chunk starts behind the ones before it. -/
theorem Runs.pairwise {before : Int64 → Int64 → Prop} {chunks : List ChunkInput}
    (h : Runs before chunks) : chunks.Pairwise fun a b ↦ before a.maxTime b.minTime := by
  obtain ⟨runs, hencodes, hordered⟩ := h
  apply Related.pairwise_left hencodes _ (List.pairwise_flatten.mp hordered).2
  intro a run b run' ha hb hbetween
  obtain ⟨x, hx, hmax⟩ := ha.ends.2
  obtain ⟨y, hy, hmin⟩ := hb.ends.1
  rw [← hmax, ← hmin]
  exact hbetween x hx y hy

/-- Every chunk encodes a run in order. -/
theorem Runs.encodes {before : Int64 → Int64 → Prop} (hle : ∀ a b, before a b → a ≤ b)
    {chunks : List ChunkInput} (h : Runs before chunks) {ci : ChunkInput} (hci : ci ∈ chunks) :
    ∃ run, ci.Encodes run ∧ run.Pairwise fun x y ↦ x.t ≤ y.t := by
  obtain ⟨runs, hencodes, hordered⟩ := h
  obtain ⟨run, hrun, hencodes⟩ := Related.exists_right hencodes hci
  exact ⟨run, hencodes, ((List.pairwise_flatten.mp hordered).1 run hrun).imp fun hlt ↦ hle _ _ hlt⟩

/-- Series whose chunks encode runs in order are written with exact times. -/
theorem timesExact_of_runs {before : Int64 → Int64 → Prop} (hle : ∀ a b, before a b → a ≤ b)
    {calls : CreateCalls} {series : List SeriesInput} {prepared : List PreparedSeries}
    {st : ChunkStage} {file : Option Bytes} (h : ∀ s ∈ series, Runs before s.chunks)
    (hsegments : writeSegments calls series = .ok (prepared, st))
    (hindex : writeIndex calls.index prepared = .ok file) (ulid : Str) :
    TimesExact before prepared (newMeta ulid prepared st.totals) := by
  obtain ⟨hinputs, htotals, htimes⟩ := writeSegments_totals hsegments
  have hcounts := writeIndex_counts hindex
  have hmax : kMaxSize < 2 ^ 64 := by decide
  have hruns : ∀ ps ∈ prepared, Runs before ps.input.chunks := by
    intro ps hps
    have hmem : ps.input ∈ series.filter SeriesInput.kept := by
      rw [← hinputs]
      exact List.mem_map_of_mem hps
    exact h _ (List.mem_filter.mp hmem).1
  have hchunks : (prepared.flatMap fun ps ↦ ps.input.chunks) = series.flatMap SeriesInput.chunks := by
    rw [← flatMap_kept, ← hinputs, List.flatMap_map]
  have hencodes : ∀ ci ∈ prepared.flatMap fun ps ↦ ps.input.chunks,
      ∃ run, ci.Encodes run ∧ run.Pairwise fun x y ↦ x.t ≤ y.t := by
    intro ci hci
    obtain ⟨ps, hps, hci⟩ := List.mem_flatMap.mp hci
    exact (hruns ps hps).encodes hle hci
  have hspans := Totals.spans_nil.foldl (series.flatMap SeriesInput.chunks)
  obtain ⟨hsamples, hnumber⟩ := Totals.foldl_counts {} fun ci hci ↦
    (hencodes ci hci).imp fun _ hrun ↦ hrun.1
  rw [← htotals, List.nil_append] at hspans
  rw [hchunks, ← htotals] at hsamples hnumber
  rw [← hchunks] at hspans
  have hlength : (prepared.flatMap PreparedSeries.chunkMetas).length =
      (series.flatMap SeriesInput.chunks).length := by
    rw [← hchunks, List.length_flatMap, List.length_flatMap]
    apply congrArg
    exact List.map_congr_left fun ps hps ↦ (htimes ps hps).length_eq.symm
  -- A block with samples has chunks, and a block with series has samples.
  have hempty : storedSamples prepared ≠ [] ↔ prepared.isEmpty = false := by
    rw [List.isEmpty_eq_false_iff]
    constructor
    · rintro hne rfl
      exact hne rfl
    · intro hne
      obtain ⟨ps, hps⟩ := List.exists_mem_of_ne_nil _ hne
      have hkept : ps.input ∈ series.filter SeriesInput.kept := by
        rw [← hinputs]
        exact List.mem_map_of_mem hps
      have hsome : ps.input.chunks ≠ [] := by
        simpa [SeriesInput.kept] using (List.mem_filter.mp hkept).2
      obtain ⟨ci, hci⟩ := List.exists_mem_of_ne_nil _ hsome
      have hmem : ci ∈ prepared.flatMap fun ps ↦ ps.input.chunks :=
        List.mem_flatMap.mpr ⟨ps, hps, hci⟩
      obtain ⟨run, hrun, -⟩ := hencodes ci hmem
      obtain ⟨x, hx, -⟩ := hrun.ends.1
      rw [← hrun.decode_eq] at hx
      exact List.ne_nil_of_mem (List.mem_flatMap.mpr ⟨ci, hmem, hx⟩)
  have hchunkOf : ∀ x ∈ storedSamples prepared, ∃ ci ∈ prepared.flatMap (fun ps ↦ ps.input.chunks),
      ci.minTime ≤ x.t ∧ x.t ≤ ci.maxTime := by
    intro x hx
    obtain ⟨ci, hci, hx⟩ := List.mem_flatMap.mp hx
    obtain ⟨run, hrun, hordered⟩ := hencodes ci hci
    rw [hrun.decode_eq] at hx
    exact ⟨ci, hci, hrun.between hordered hx⟩
  have hsampleOf : ∀ ci ∈ prepared.flatMap (fun ps ↦ ps.input.chunks),
      (∃ x ∈ storedSamples prepared, x.t = ci.minTime) ∧ ∃ x ∈ storedSamples prepared, x.t = ci.maxTime := by
    intro ci hci
    obtain ⟨run, hrun, -⟩ := hencodes ci hci
    obtain ⟨⟨x, hx, hmin⟩, ⟨y, hy, hmax⟩⟩ := hrun.ends
    rw [← hrun.decode_eq] at hx hy
    exact ⟨⟨x, List.mem_flatMap.mpr ⟨ci, hci, hx⟩, hmin⟩, ⟨y, List.mem_flatMap.mpr ⟨ci, hci, hy⟩, hmax⟩⟩
  have hsome : storedSamples prepared ≠ [] → (prepared.flatMap fun ps ↦ ps.input.chunks) ≠ [] := by
    intro hne hnil
    apply hne
    unfold storedSamples
    rw [hnil]
    rfl
  constructor
  · intro ps hps
    have hps' := htimes ps hps
    apply Related.imp_mem hps'
    rintro ci cm hci - ⟨hmin, hmax⟩
    obtain ⟨run, hrun, -⟩ := (hruns ps hps).encodes hle hci
    unfold MetaExact
    rw [hrun.decode_eq, hmin, hmax]
    exact ⟨hrun.first_eq, hrun.last_eq⟩
  · intro ps hps
    apply Related.pairwise_left (htimes ps hps).flip _ (hruns ps hps).pairwise
    rintro cm ci cm' ci' ⟨-, hmax⟩ ⟨hmin, -⟩ hbefore
    rw [hmax, hmin]
    exact hbefore
  · intro hnil
    have hno : prepared.isEmpty = true := by
      by_contra hsome
      exact hempty.mpr (Bool.eq_false_of_not_eq_true hsome) hnil
    unfold newMeta
    rw [hno]
    exact ⟨rfl, rfl⟩
  · intro hne
    unfold newMeta
    rw [hempty.mp hne, if_neg Bool.false_ne_true]
    constructor
    · obtain ⟨ci, hci, hmin⟩ := hspans.min_mem (hsome hne)
      rw [hmin]
      exact (hsampleOf ci hci).1
    · intro x hx
      obtain ⟨ci, hci, hmin, -⟩ := hchunkOf x hx
      exact (hspans.min_le ci hci).trans hmin
  · intro hne
    unfold newMeta
    rw [hempty.mp hne, if_neg Bool.false_ne_true]
    constructor
    · obtain ⟨ci, hci, hmax⟩ := hspans.max_mem (hsome hne)
      rw [hmax]
      exact (hsampleOf ci hci).2
    · intro x hx
      obtain ⟨ci, hci, -, hmax⟩ := hchunkOf x hx
      exact hmax.trans (hspans.le_max ci hci)
  · show st.totals.samples = _
    rw [hsamples]
    unfold storedSamples
    rw [hchunks]
    exact UInt64.zero_add _
  · show st.totals.chunks.toNat = _
    rw [hnumber, hlength]
    show ((0 : UInt64) + _).toNat = _
    rw [UInt64.zero_add, UInt64.toNat_ofNat_of_lt']
    rw [UInt64.size]
    omega
  · show (UInt64.ofNat prepared.length).toNat = _
    rw [UInt64.toNat_ofNat_of_lt']
    rw [UInt64.size]
    omega

end MerlionTsdb.Block
