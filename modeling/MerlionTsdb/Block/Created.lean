import MerlionTsdb.Block.CreateSelect
import MerlionTsdb.Block.Times

/-!
# Blocks that are created

With calls that succeed, `create_from_series` takes every input of less than 16 MiB: the writer of the index
is never called out of order.  What `create_from_head` hands to it are the chunks of the head, one by one.
-/

namespace MerlionTsdb.Block

open Ascending Chunkenc Encoding Head Model

/-! ## Symbols -/

/-- Ascending symbols are all taken. -/
theorem addSymbols_default {w : IndexWriter} (hstage : w.stage = .symbols) {symbols : List Str}
    (hlast : w.anySymbol = true → ∀ s ∈ symbols, w.lastSymbol ≤ s) (hasc : Asc symbols) :
    ∃ refs w', addSymbols w symbols = .ok (refs, w') ∧ refs.map Prod.fst = symbols := by
  induction symbols generalizing w with
  | nil => exact ⟨[], w, rfl, rfl⟩
  | cons s symbols ih =>
    obtain ⟨hfirst, hrest⟩ := List.pairwise_cons.mp hasc
    have hadd : ∃ ref w₁, w.addSymbol s = (.ok ref, w₁) ∧ w₁.stage = .symbols ∧ w₁.lastSymbol = s := by
      unfold IndexWriter.addSymbol
      rw [if_neg (not_not.mpr hstage), if_neg]
      · exact ⟨_, _, rfl, by simp [hstage], rfl⟩
      · simp only [Bool.and_eq_true, decide_eq_true_eq, not_and, not_lt]
        exact fun hany ↦ hlast hany s List.mem_cons_self
    obtain ⟨ref, w₁, hadd, hstage₁, hlast₁⟩ := hadd
    obtain ⟨refs, w', hok, hkeys⟩ := ih hstage₁ (fun _ s' hs' ↦ by
      rw [hlast₁]
      exact le_of_lt (hfirst s' hs')) hrest
    refine ⟨(s, ref) :: refs, w', ?_, by rw [List.map_cons, hkeys]⟩
    unfold addSymbols
    rw [hadd]
    dsimp only
    rw [hok]

theorem startIndex_default {prepared : List PreparedSeries}
    (hfit : (symbolsPayload (symbolsOf prepared)).length < 2 ^ 32) :
    ∃ refs w, startIndex prepared = .ok (refs, w) ∧ refs.map Prod.fst = symbolsOf prepared := by
  obtain ⟨w₀, hcreate, hlaid⟩ : ∃ w₀, IndexWriter.create none = .ok w₀ ∧ InSymbols w₀ {} := by
    refine ⟨_, rfl, ?_⟩
    constructor <;> rfl
  have hnew : w₀.anySymbol = false := by
    cases hcreate
    rfl
  obtain ⟨refs, w₁, hsymbols, hkeys⟩ := addSymbols_default hlaid.stage_eq
    (fun hany ↦ by
      rw [hnew] at hany
      cases hany) (asc_sortUnique (Str.empty :: prepared.flatMap fun ps ↦
        ps.input.labels.entries.flatMap fun l ↦ [l.name, l.value]))
  have hfew : (symbolsOf prepared).length < 2 ^ 32 := by
    have hle := length_le_flatMap_putUvarintStr (symbolsOf prepared)
    unfold symbolsPayload at hfit
    rw [List.length_append] at hfit
    omega
  obtain ⟨h₁, -⟩ := addSymbols_ok hlaid hsymbols (by
    unfold symbolsOf at hfew
    simpa using hfew)
  obtain ⟨w, hfinish, -⟩ := h₁.finishSymbols
  have hadded : lift (addSymbols w₀ (symbolsOf prepared)) = .ok (refs, w₁) := by
    unfold symbolsOf
    rw [hsymbols]
    rfl
  refine ⟨refs, w, ?_, hkeys⟩
  unfold startIndex
  rw [hcreate]
  show (lift (addSymbols w₀ (symbolsOf prepared)) >>= _) = _
  rw [hadded, ok_bind]
  dsimp only
  rw [hfinish]

/-! ## Series -/

theorem symRefAt_default {refs : List (Str × UInt32)} {s : Str} (h : s ∈ refs.map Prod.fst) :
    ∃ ref, symRefAt refs s = .ok ref := by
  obtain ⟨e, he, rfl⟩ := List.mem_map.mp h
  unfold symRefAt
  cases hfind : refs.find? fun e' ↦ e'.1 = e.1 with
  | none =>
    rw [List.find?_eq_none] at hfind
    exact absurd (decide_eq_true rfl) (hfind e he)
  | some e' => exact ⟨e'.2, rfl⟩

theorem labelRefsOf_default {refs : List (Str × UInt32)} {labels : List Label}
    (h : ∀ l ∈ labels, l.name ∈ refs.map Prod.fst ∧ l.value ∈ refs.map Prod.fst) :
    ∃ labelRefs, labelRefsOf refs labels = .ok labelRefs := by
  induction labels with
  | nil => exact ⟨[], rfl⟩
  | cons l labels ih =>
    obtain ⟨hname, hvalue⟩ := h l List.mem_cons_self
    obtain ⟨name, hname⟩ := symRefAt_default hname
    obtain ⟨value, hvalue⟩ := symRefAt_default hvalue
    obtain ⟨rest, hrest⟩ := ih fun l' hl' ↦ h l' (List.mem_cons_of_mem _ hl')
    refine ⟨(name, value) :: rest, ?_⟩
    unfold labelRefsOf
    rw [hname, ok_bind, hvalue, ok_bind, hrest]
    rfl

/-- The symbols of every label of the prepared series. -/
theorem mem_symbolsOf {prepared : List PreparedSeries} {ps : PreparedSeries} (hps : ps ∈ prepared)
    {l : Label} (hl : l ∈ ps.input.labels.entries) :
    l.name ∈ symbolsOf prepared ∧ l.value ∈ symbolsOf prepared := by
  unfold symbolsOf
  rw [mem_sortUnique, mem_sortUnique]
  constructor
  · exact List.mem_cons_of_mem _ (List.mem_flatMap.mpr
      ⟨ps, hps, List.mem_flatMap.mpr ⟨l, hl, List.mem_cons_self⟩⟩)
  · exact List.mem_cons_of_mem _ (List.mem_flatMap.mpr
      ⟨ps, hps, List.mem_flatMap.mpr ⟨l, hl, List.mem_cons_of_mem _ List.mem_cons_self⟩⟩)

theorem addAllSeries_default {refs : List (Str × UInt32)} {w : IndexWriter} (hstage : w.stage = .series)
    {prepared : List PreparedSeries} (hknown : ∀ ps ∈ prepared, ∀ l ∈ ps.input.labels.entries,
      l.name ∈ refs.map Prod.fst ∧ l.value ∈ refs.map Prod.fst) :
    ∃ ids w', addAllSeries refs w prepared = .ok (ids, w') := by
  induction prepared generalizing w with
  | nil => exact ⟨[], w, rfl⟩
  | cons ps prepared ih =>
    obtain ⟨labelRefs, hlabels⟩ := labelRefsOf_default (hknown ps List.mem_cons_self)
    obtain ⟨w₁, hadd, -, hstage₁, -⟩ := addSeries_grows hstage labelRefs ps.chunkMetas
    obtain ⟨ids, w', hrest⟩ := ih hstage₁ fun ps' hps' ↦ hknown ps' (List.mem_cons_of_mem _ hps')
    exact ⟨_, w', addAllSeries_cons_iff.mpr ⟨labelRefs, _, w₁, ids, hlabels, hadd, hrest, rfl⟩⟩

/-! ## Posting lists -/

theorem ascending_of_asc {ids : List UInt32} (h : Asc ids) : IndexWriter.ascending ids = true := by
  induction ids with
  | nil => rfl
  | cons a ids ih =>
    cases ids with
    | nil => rfl
    | cons b ids =>
      obtain ⟨hfirst, hrest⟩ := List.pairwise_cons.mp h
      unfold IndexWriter.ascending
      rw [Bool.and_eq_true]
      exact ⟨decide_eq_true (hfirst b List.mem_cons_self), ih hrest⟩

/-- Ascending ids make ascending posting lists. -/
theorem asc_postingLists {prepared : List PreparedSeries} {ids : List UInt32} (hids : Asc ids)
    (hlen : ids.length = prepared.length) {p : PostingKey × List UInt32}
    (hp : p ∈ postingLists (labelIds prepared ids)) : Asc p.2 := by
  obtain ⟨key, -, rfl⟩ := List.mem_map.mp hp
  dsimp only
  rw [labelIds_eq, filter_pushedIds]
  apply asc_pick
  apply List.pairwise_map.mp
  have hsame : (List.zipWith StoredSeries.mk ids prepared).map StoredSeries.id = ids := by
    rw [List.map_zipWith]
    clear hids hp
    induction ids generalizing prepared with
    | nil => rfl
    | cons id ids ih =>
      cases prepared with
      | nil => cases hlen
      | cons ps prepared =>
        rw [List.zipWith_cons_cons, ih (Nat.succ.inj hlen)]
  rw [hsame]
  exact hids

/-- Ascending lists are all taken. -/
theorem addAllPostings_default {w : IndexWriter} (hstage : w.stage = .postings)
    {lists : List (PostingKey × List UInt32)} (hasc : ∀ p ∈ lists, Asc p.2) {most : Nat}
    (hmost : ∀ p ∈ lists, p.2.length ≤ most) :
    ∃ w', addAllPostings w lists = .ok w' ∧ w'.stage = .postings ∧
      w'.buf.length ≤ w.buf.length + lists.length * (16 + 4 * most) := by
  induction lists generalizing w with
  | nil => exact ⟨w, rfl, hstage, Nat.le_add_right _ _⟩
  | cons p lists ih =>
    obtain ⟨w₁, off, hadd, hbuf, hstage₁, -⟩ := addPostings_grows hstage (ofLex p.1).1 (ofLex p.1).2
      (ascending_of_asc (hasc p List.mem_cons_self))
    obtain ⟨w', hok, hstage', hlen⟩ := ih hstage₁ (fun p' hp' ↦ hasc p' (List.mem_cons_of_mem _ hp'))
      fun p' hp' ↦ hmost p' (List.mem_cons_of_mem _ hp')
    refine ⟨w', addAllPostings_cons_iff.mpr ⟨w₁, hadd, hok⟩, hstage', ?_⟩
    have hpad := length_padTo_le w.buf 4
    have hfirst := hmost p List.mem_cons_self
    have hlist : (section32 (postingsPayload p.2)).length = 12 + 4 * p.2.length := by
      rw [length_section32, length_postingsPayload]
      omega
    rw [hbuf, List.length_append, hlist] at hlen
    rw [List.length_cons, Nat.succ_mul]
    omega

/-! ## The block -/

/-- There are at most as many posting lists as labels, and each has at most as many ids. -/
theorem length_postingLists_le (prepared : List PreparedSeries) (ids : List UInt32) :
    64 * (postingLists (labelIds prepared ids)).length ≤ preparedWeight prepared := by
  have hall := length_labelIds_le prepared ids
  have hkeys : (postingLists (labelIds prepared ids)).length ≤ (labelIds prepared ids).length := by
    unfold postingLists
    have hsum := sum_map_sortUnique_le (fun _ ↦ 1) ((labelIds prepared ids).map Prod.fst)
    rw [List.map_const', List.map_const', List.sum_replicate_nat, List.sum_replicate_nat, Nat.mul_one,
      Nat.mul_one, List.length_map] at hsum
    rwa [List.length_map]
  have hcount : 64 * (labelIds prepared ids).length ≤ ((labelIds prepared ids).map fun p ↦
      64 + (ofLex p.1).1.bytes.length + (ofLex p.1).2.bytes.length).sum := by
    generalize labelIds prepared ids = pushed
    induction pushed with
    | nil => exact Nat.zero_le _
    | cons p pushed ih =>
      rw [List.map_cons, List.sum_cons, List.length_cons]
      omega
  omega

theorem writeIndex_default {prepared : List PreparedSeries}
    (hmetas : ∀ ps ∈ prepared, ps.chunkMetas.length = ps.input.chunks.length)
    (hmax : ∀ ps ∈ prepared, ps.chunkMetas.length ≤ kMaxChunkMetas)
    (h : preparedWeight prepared < 2 ^ 24) : ∃ file, writeIndex {} prepared = .ok file := by
  have hfits := indexFits_of_weight hmetas hmax h
  obtain ⟨refs, w₁, hstart, hkeys⟩ := startIndex_default hfits.symbols
  obtain ⟨h₁, hstage₁, hrefs, hbuf₁⟩ := startIndex_ok hstart hfits.symbols
  obtain ⟨ids, w₂, hseries⟩ := addAllSeries_default hstage₁ fun ps hps l hl ↦ by
    rw [hkeys]
    exact mem_symbolsOf hps hl
  obtain ⟨written, h₂, hstage₂, hwritten, rfl⟩ := addAllSeries_ok h₁ hstage₁ hrefs hseries hmax
    fun hsplit hfront ↦ hfits.series hsplit hstart hfront
  obtain ⟨w₃, hfinish, hbuf₃, -, -, hstage₃⟩ := finishSeries_grows hstage₂
  have hids : Asc (written.map SeriesWritten.id) := List.pairwise_map.mpr (by
    have hlaid := h₂.ids
    rwa [List.nil_append] at hlaid)
  have hlen : (written.map SeriesWritten.id).length = prepared.length := by
    rw [List.length_map]
    exact hwritten.length_eq.symm
  obtain ⟨w₄, hlists, hstage₄, hlen₄⟩ := @addAllPostings_default w₃ hstage₃ _
    (fun p hp ↦ asc_postingLists hids hlen hp) (2 ^ 18) fun p hp ↦ by
      have hle := length_postingList_le hp
      omega
  have hbuild : buildIndex prepared = .ok w₄ :=
    buildIndex_iff.mpr ⟨refs, w₁, _, w₂, w₃, hstart, hseries, hfinish, hlists⟩
  -- The file stays far below the size of a vector.
  have hfile : w₄.appendTables.buf.length ≤ kMaxSize := by
    obtain ⟨toc, -, -, hbuf⟩ := w₄.appendTables_buf
    have htoc : toc.bytes.length = 48 := rfl
    have hheader : indexHeader.length = 5 := rfl
    have hk : kMaxSize = 2 ^ 63 - 1 := rfl
    have halign : kIndexSeriesAlign = 16 := rfl
    have htable := hfits.table hbuild
    have hsymbols := hfits.symbols
    have hgrown := length_addAllSeries_le hmetas hseries
    have hpad := length_padTo_le w₂.buf kIndexSeriesAlign
    have hmany := length_postingLists_le prepared (written.map SeriesWritten.id)
    have hproduct : (postingLists (labelIds prepared (written.map SeriesWritten.id))).length *
        (16 + 4 * 2 ^ 18) ≤ 2 ^ 18 * (16 + 4 * 2 ^ 18) := Nat.mul_le_mul_right _ (by omega)
    have hlen₁ := congrArg List.length hbuf₁
    rw [List.length_append, length_section32, hheader] at hlen₁
    rw [hbuf₃] at hlen₄
    rw [hbuf, List.length_append, List.length_append, List.length_append, length_section32, htoc,
      length_putBe32]
    omega
  obtain ⟨w', file, hclose⟩ := close_default hstage₄ hfile
  exact ⟨file, writeIndex_iff.mpr ⟨w₄, w', hbuild, hclose⟩⟩

/-- With calls that succeed, a block is created from every input of less than 16 MiB. -/
theorem createFromSeries_succeeds (text : JsonText) (ulid : Str) {series : List SeriesInput}
    (h : weight series < 2 ^ 24) : ∃ dir, createFromSeries text { ulid := ulid } series = .ok dir := by
  obtain ⟨prepared, st, hsegments⟩ := writeSegments_default ulid series
  obtain ⟨hinputs, -, htimes⟩ := writeSegments_totals hsegments
  obtain ⟨file, hindex⟩ := writeIndex_default (fun ps hps ↦ (htimes ps hps).length_eq.symm)
    (writeSegments_metas hsegments) (by
      unfold preparedWeight
      rw [hinputs]
      exact lt_of_le_of_lt (sum_filter_le _ _ series) h)
  exact ⟨_, createFromSeries_default text hsegments hindex⟩

/-- The block that was created is opened, when the library keeps its metadata. -/
theorem exists_created (ulid : Str) {series : List SeriesInput} (h : weight series < 2 ^ 24) :
    ∃ text dir blk, createFromSeries text { ulid := ulid } series = .ok dir ∧
      openDir text (some dir) = .ok blk := by
  obtain ⟨prepared, st, hsegments⟩ := writeSegments_default ulid series
  let m := newMeta ulid prepared st.totals
  obtain ⟨dir, hok⟩ := createFromSeries_succeeds (JsonText.of [m]) ulid h
  obtain ⟨prepared', st', hsegments', hindex, -, hmeta⟩ := createFromSeries_ok hok
  rw [hsegments] at hsegments'
  cases hsegments'
  obtain ⟨r, -, hopen, -, -⟩ := writeIndex_ok hindex (writeSegments_metas hsegments)
    ((withinFormat_of_weight _ h).index hsegments)
  exact ⟨_, dir, _, hok, openDir_default hmeta (JsonText.keeps_singleton m) rfl hopen⟩

/-! ## The series of a head -/

/-- The chunk of the head, with its times. -/
structure CopiesChunk (c : XORChunk) (ci : ChunkInput) : Prop where
  bytes_eq : ci.bytes.bytes = c.bytes
  min_eq : ci.minTime = (spanMeta c).minTime
  max_eq : ci.maxTime = (spanMeta c).maxTime
  meets_eq : ∀ mint maxt, overlaps ci.minTime ci.maxTime mint maxt = chunkMeets mint maxt c

structure CopiesSeries (s : MemSeries) (si : SeriesInput) : Prop where
  labels_eq : si.labels = s.labels
  chunks : List.Forall₂ CopiesChunk s.chunks si.chunks

/-- `create_from_head` copies the chunks of a series. -/
theorem headChunks_copies {s : MemSeries} {xs : List Sample} (h : s.Holds xs) {out : List ChunkInput}
    (hok : headChunks s.chunks = .ok out) : List.Forall₂ CopiesChunk s.chunks out := by
  obtain ⟨runs, hruns, -⟩ := h.runs
  obtain ⟨out', hout', -, -, hcopies⟩ := headChunks_eq hruns h.sized
  rw [hok] at hout'
  cases hout'
  apply Related.imp_mem hcopies.flip
  intro c ci hc _ hcopy
  obtain ⟨run, -, hrun⟩ := Related.exists_right hruns hc
  obtain ⟨hspan, -, -, hmeets⟩ := hrun.spanMeta
  -- Both walks have found the same times.
  have htimes := hcopy.2.symm.trans hspan
  simp only [Except.ok.injEq, Option.some.injEq, Prod.mk.injEq] at htimes
  refine ⟨hcopy.1, htimes.1, htimes.2, fun mint maxt ↦ ?_⟩
  rw [htimes.1, htimes.2]
  exact hmeets mint maxt

/-- A series whose counter is not zero has a chunk. -/
theorem chunks_ne_nil {s : MemSeries} {xs : List Sample} (h : s.Holds xs) (hne : s.numSamples ≠ 0) :
    s.chunks ≠ [] := by
  obtain ⟨runs, hruns, hflat⟩ := h.runs
  intro hnil
  rw [hnil] at hruns
  cases hruns
  apply hne
  rw [h.numSamples_eq, ← hflat]
  rfl

/-- The input is the series whose counter is not zero. -/
theorem headInputs_copies {series : List MemSeries} {inputs : List SeriesInput}
    (h : ∀ s ∈ series, ∃ xs, s.Holds xs) (hok : headInputs series = .ok inputs) :
    List.Forall₂ CopiesSeries (series.filter fun s ↦ s.numSamples ≠ 0) inputs := by
  induction series generalizing inputs with
  | nil =>
    cases hok
    exact .nil
  | cons s series ih =>
    have hrest := fun s' hs' ↦ h s' (List.mem_cons_of_mem _ hs')
    obtain ⟨xs, hs⟩ := h s List.mem_cons_self
    unfold headInputs at hok
    by_cases hzero : s.numSamples = 0
    · rw [if_pos hzero] at hok
      rw [List.filter_cons_of_neg (by simpa using hzero)]
      exact ih hrest hok
    · rw [if_neg hzero] at hok
      obtain ⟨chunks, hchunks, hok⟩ := bind_ok hok
      obtain ⟨si, hsi, hok⟩ := bind_ok hok
      obtain ⟨rest, hloop, hok⟩ := bind_ok hok
      cases hok
      obtain ⟨hlabels, hsame⟩ := ofChunks_ok hsi
      have hcopies := headChunks_copies hs hchunks
      have hsome : ¬ si.chunks.isEmpty = true := by
        rw [hsame, List.isEmpty_iff]
        rintro rfl
        exact chunks_ne_nil hs hzero (List.forall₂_nil_right_iff.mp hcopies)
      rw [if_neg hsome, List.filter_cons_of_pos (by simpa using hzero)]
      exact .cons ⟨hlabels, by rwa [hsame]⟩ (ih hrest hloop)

/-- The series of a head are not refused, unless one has more chunks than a vector holds. -/
theorem headInputs_succeeds {series : List MemSeries}
    (h : ∀ s ∈ series, ∃ xs, s.Holds xs ∧ xs.length ≤ kMaxChunkInputs) :
    ∃ inputs, headInputs series = .ok inputs := by
  induction series with
  | nil => exact ⟨[], rfl⟩
  | cons s series ih =>
    obtain ⟨rest, hrest⟩ := ih fun s' hs' ↦ h s' (List.mem_cons_of_mem _ hs')
    obtain ⟨xs, hs, hfew⟩ := h s List.mem_cons_self
    obtain ⟨runs, hruns, -⟩ := hs.runs
    obtain ⟨out, hout, -, -, hcopies⟩ := headChunks_eq hruns hs.sized
    have hchunks := hs.length_bounds.1
    have hlen : out.length ≤ kMaxChunkInputs := by
      rw [hcopies.length_eq]
      exact hchunks.trans hfew
    unfold headInputs
    split
    · exact ⟨rest, hrest⟩
    · rw [hout, hrest]
      unfold SeriesInput.ofChunks
      rw [ok_bind, dif_pos hlen]
      exact ⟨_, rfl⟩

end MerlionTsdb.Block
