import MerlionTsdb.Block.Created
import MerlionTsdb.Head.EqualSamples

/-!
# Exact times of flushed and compacted blocks

Every block that `create_from_head` makes of a reached head, and every block that `compact` makes, has exact
times and counts.  Only the number of samples is one of 64 bits, and a head may hold more of them.
-/

namespace MerlionTsdb.Block

open Chunkenc Encoding Head Model

/-! ## The directory -/

/-- The series are prepared in the files of the directory, and `m` is its metadata. -/
structure Holding (text : JsonText) (calls : CreateCalls) (series : List SeriesInput) (dir : BlockDir)
    (prepared : List PreparedSeries) (m : BlockMeta) : Prop where
  segments : ∃ st, writeSegments calls series = .ok (prepared, st) ∧ dir.chunks = st.files
  index : writeIndex calls.index prepared = .ok dir.index
  metaJson : dir.metaJson = some (encodeMetaJson text m)

/-- Within the format, a reader of the directory finds the prepared series. -/
theorem Holding.stores {text : JsonText} {calls : CreateCalls} {series : List SeriesInput}
    {dir : BlockDir} {prepared : List PreparedSeries} {m : BlockMeta} {blk : Block}
    (h : Holding text calls series dir prepared m) (hfits : WithinFormat calls series)
    (hopen : openDir text (some dir) = .ok blk) :
    ∃ rows, Stores blk rows ∧ rows.map StoredSeries.prepared = prepared := by
  obtain ⟨st, hsegments, hchunks⟩ := h.segments
  obtain ⟨-, hopenIndex, hreader⟩ := openDir_ok hopen
  rw [hchunks] at hreader
  exact stores_of_written hsegments h.index hfits hopenIndex hreader

/-- `compact` changes nothing in the new directory but its metadata. -/
theorem CompactRun.holding {text : JsonText} {calls : CompactCalls} {dirs : List (Option BlockDir)}
    {blocks : List Block} {inputs : List SeriesInput} {created dir : BlockDir} {m m' : BlockMeta}
    {prepared : List PreparedSeries} (hrun : CompactRun text calls dirs blocks inputs created m dir)
    (h : Holding text calls.create inputs created prepared m') :
    Holding text calls.create inputs dir prepared (patchMeta blocks m) := by
  rw [hrun.dir_eq]
  exact ⟨h.segments, h.index, rfl⟩

/-- The times and counts of the directory are exact, in its files as they are written and, within the format,
as they are read. -/
def RecordsExactly (text : JsonText) (calls : CreateCalls) (before : Int64 → Int64 → Prop)
    (dir : BlockDir) : Prop :=
  ∃ series prepared m, Holding text calls series dir prepared m ∧ TimesExact before prepared m ∧
    ∀ blk, WithinFormat calls series → openDir text (some dir) = .ok blk →
      ∃ rows, Stores blk rows ∧ rows.map StoredSeries.prepared = prepared

theorem Holding.recordsExactly {text : JsonText} {calls : CreateCalls} {series : List SeriesInput}
    {dir : BlockDir} {prepared : List PreparedSeries} {m : BlockMeta}
    {before : Int64 → Int64 → Prop} (h : Holding text calls series dir prepared m)
    (hexact : TimesExact before prepared m) : RecordsExactly text calls before dir :=
  ⟨series, prepared, m, h, hexact, fun _ hfits hopen ↦ h.stores hfits hopen⟩

/-- A new directory with exact times. -/
theorem exists_holding {text : JsonText} {calls : CreateCalls} {series : List SeriesInput}
    {dir : BlockDir} {before : Int64 → Int64 → Prop} (hle : ∀ a b, before a b → a ≤ b)
    (hruns : ∀ s ∈ series, Runs before s.chunks) (hok : createFromSeries text calls series = .ok dir) :
    ∃ prepared st, Holding text calls series dir prepared (newMeta calls.ulid prepared st.totals) ∧
      writeSegments calls series = .ok (prepared, st) ∧
      TimesExact before prepared (newMeta calls.ulid prepared st.totals) := by
  obtain ⟨prepared, st, hsegments, hindex, hchunks, hmeta⟩ := createFromSeries_ok hok
  exact ⟨prepared, st, ⟨⟨st, hsegments, hchunks⟩, hindex, hmeta⟩, hsegments,
    timesExact_of_runs hle hruns hsegments hindex calls.ulid⟩

/-! ## A long series -/

/-- A head with one label set makes one series of input. -/
theorem headInputs_equal {n : Nat} {h : Head (List Bytes)} (hf : Filled n h)
    (hequal : ∀ s, h.series.get 1 = some s → Equal s) (hn : UInt64.ofNat n ≠ 0)
    (hmax : n + 884 ≤ 884 * kMaxChunkInputs) :
    ∃ si, headInputs h.series.allSeries = .ok [si] ∧ si.labels = sampleLabels ∧ si.chunks ≠ [] ∧
      884 * si.chunks.length ≤ n + 884 ∧ (decoded si.chunks).length = n := by
  have hc := hf.reaches.contains
  have hfind : h.series.findRef sampleLabels = some 1 := by
    rcases hf.stored with hfind | hempty
    · exact hfind
    · have hnone := @hc.absent sampleLabels (by
        rw [hempty]
        rfl)
      rw [Function.update_self] at hnone
      have hzero : n = 0 := by simpa using hnone
      rw [hzero] at hn
      exact absurd rfl hn
  obtain ⟨s, hget, hlabels⟩ := hc.wf.findRef_eq_some.mp hfind
  have href : s.ref = 1 := hc.wf.ref_eq hget
  have hholds := hc.holds hget
  rw [hlabels, Function.update_self] at hholds
  have hmem : s ∈ h.series.allSeries := hc.wf.mem_allSeries.mpr (by rw [href]; exact hget)
  -- Every other series is without samples.
  have hothers : ∀ t ∈ h.series.allSeries, t.ref ≠ s.ref → t.numSamples = 0 := by
    intro t ht hne
    have hgett := hc.wf.mem_allSeries.mp ht
    have hlabelst : t.labels ≠ sampleLabels := by
      intro heq
      have hfindt := hc.wf.findRef_eq_some.mpr ⟨t, hgett, heq⟩
      rw [hfind] at hfindt
      exact hne ((Option.some_inj.mp hfindt).symm.trans href.symm)
    have hholdst := hc.holds hgett
    rw [Function.update_of_ne hlabelst] at hholdst
    exact hholdst.numSamples_eq
  have hskip : ∀ front rest : List MemSeries, (∀ t ∈ front, t.numSamples = 0) →
      headInputs (front ++ rest) = headInputs rest := by
    intro front rest hzero
    induction front with
    | nil => rfl
    | cons t front ih =>
      rw [List.cons_append, headInputs, if_pos (hzero t List.mem_cons_self)]
      exact ih fun t' ht' ↦ hzero t' (List.mem_cons_of_mem _ ht')
  obtain ⟨front, back, hsplit⟩ := List.append_of_mem hmem
  have hpairwise := hc.wf.pairwise_allSeries
  rw [hsplit] at hpairwise hothers
  obtain ⟨-, hback, hfront⟩ := List.pairwise_append.mp hpairwise
  have hfrontZero : ∀ t ∈ front, t.numSamples = 0 := fun t ht ↦
    hothers t (List.mem_append_left _ ht) (UInt64.ne_of_lt (hfront t ht s List.mem_cons_self))
  have hbackZero : ∀ t ∈ back, t.numSamples = 0 := fun t ht ↦
    hothers t (List.mem_append_right _ (List.mem_cons_of_mem _ ht))
      (UInt64.ne_of_lt ((List.pairwise_cons.mp hback).1 t ht)).symm
  -- The series itself.
  obtain ⟨runs, hruns, hflat⟩ := hholds.runs
  obtain ⟨out, hout, -, hencodes, -⟩ := headChunks_eq hruns hholds.sized
  have hlength := (hequal s hget).length_chunks hholds
  rw [List.length_replicate] at hlength
  have hsame : out.length = s.chunks.length := hencodes.length_eq.trans hruns.length_eq.symm
  have hdecoded := decoded_of_encodes hencodes
  rw [hflat] at hdecoded
  have hfits : out.length ≤ kMaxChunkInputs := by omega
  have hnone : out ≠ [] := by
    rintro rfl
    have hlen := congrArg List.length hdecoded
    rw [List.length_replicate] at hlen
    rw [← hlen] at hn
    exact hn rfl
  have hcount := hholds.numSamples_eq
  rw [List.length_replicate] at hcount
  have hrest : headInputs back = .ok [] := by
    have hall := hskip back [] hbackZero
    rw [List.append_nil] at hall
    exact hall
  refine ⟨⟨sampleLabels, out, hfits⟩, ?_, rfl, hnone, by dsimp only; omega, ?_⟩
  · rw [hsplit, hskip front _ hfrontZero, headInputs, if_neg (by rw [hcount]; exact hn), hout, hlabels,
      hrest]
    unfold SeriesInput.ofChunks
    rw [ok_bind, dif_pos hfits, ok_bind, ok_bind, if_neg (by simpa using hnone)]
  · dsimp only
    rw [hdecoded, List.length_replicate]

/-- The index of one such series is written. -/
theorem writeIndex_sampleLabels {si : SeriesInput} (hlabels : si.labels = sampleLabels)
    {metas : List ChunkMeta} (hshort : metas.length ≤ 2 ^ 57) :
    ∃ file, writeIndex {} [⟨si, metas⟩] = .ok file := by
  obtain ⟨labels, chunks, hlen⟩ := si
  dsimp only at hlabels
  subst hlabels
  have hsymbols : symbolsOf [⟨⟨sampleLabels, chunks, hlen⟩, metas⟩] =
      [Str.empty, ⟨[97], by decide⟩, ⟨[98], by decide⟩] := by
    show Ascending.sortUnique [Str.empty, ⟨[97], _⟩, ⟨[98], _⟩] = _
    decide
  have hstart : ∃ refs w₁, startIndex [⟨⟨sampleLabels, chunks, hlen⟩, metas⟩] = .ok (refs, w₁) ∧
      labelRefsOf refs sampleLabels.entries = .ok [(1, 2)] ∧ w₁.stage = .series ∧
      w₁.buf.length ≤ 100 ∧ w₁.pendingPostings = [] := by
    unfold startIndex
    rw [hsymbols]
    exact ⟨_, _, rfl, by decide, rfl, by decide, rfl⟩
  obtain ⟨refs, w₁, hstart, hrefs, hstage₁, hlen₁, hpending₁⟩ := hstart
  obtain ⟨w₂, hadd, hbuf₂, hstage₂, -, hpending₂⟩ := addSeries_grows hstage₁ [(1, 2)] metas
  generalize hid : UInt32.ofNat ((padTo w₁.buf kIndexSeriesAlign).length / kIndexSeriesAlign) = id at hadd
  have hseries : addAllSeries refs w₁ [⟨⟨sampleLabels, chunks, hlen⟩, metas⟩] = .ok ([id], w₂) :=
    addAllSeries_cons_iff.mpr ⟨_, id, w₂, [], hrefs, hadd, rfl, rfl⟩
  obtain ⟨w₃, hfinish, hbuf₃, -, hpending₃, hstage₃⟩ := finishSeries_grows hstage₂
  obtain ⟨w₄, off, hpostings, hbuf₄, hstage₄, hpending₄⟩ :=
    @addPostings_grows w₃ hstage₃ ⟨[97], by decide⟩ ⟨[98], by decide⟩ [id] rfl
  have hlists : postingLists (labelIds [⟨⟨sampleLabels, chunks, hlen⟩, metas⟩] [id]) =
      [(toLex (⟨[97], by decide⟩, ⟨[98], by decide⟩), [id])] := rfl
  have hall : addAllPostings w₃ (postingLists (labelIds [⟨⟨sampleLabels, chunks, hlen⟩, metas⟩] [id])) =
      .ok w₄ := by
    rw [hlists]
    exact addAllPostings_cons_iff.mpr ⟨w₄, hpostings, rfl⟩
  have hbuild : buildIndex [⟨⟨sampleLabels, chunks, hlen⟩, metas⟩] = .ok w₄ :=
    buildIndex_iff.mpr ⟨refs, w₁, [id], w₂, w₃, hstart, hseries, hfinish, hall⟩
  -- The entry of the series is the one long part of the file.
  have hmax : w₄.appendTables.buf.length ≤ kMaxSize := by
    obtain ⟨toc, -, -, hbuf⟩ := w₄.appendTables_buf
    have htoc : toc.bytes.length = 48 := rfl
    have hk : kMaxSize = 2 ^ 63 - 1 := rfl
    have hpad₂ := length_padTo_le w₁.buf kIndexSeriesAlign
    have hpad₃ := length_padTo_le w₂.buf kIndexSeriesAlign
    have hpad₄ := length_padTo_le w₃.buf 4
    have halign : kIndexSeriesAlign = 16 := rfl
    have hpayload := length_seriesPayload_le [(1, 2)] metas
    have hprefix := Varint.putUvarint_length_le (UInt64.ofNat (seriesPayload [(1, 2)] metas).length)
    have hoff := Varint.putUvarint_length_le off
    have hname : (putUvarintStr ⟨[97], by decide⟩).length = 2 := by decide
    have hvalue : (putUvarintStr ⟨[98], by decide⟩).length = 2 := by decide
    have htwo : (Varint.putUvarint 2).length = 1 := by decide
    have hlist : (section32 (postingsPayload [id])).length = 16 := rfl
    have hlen₂ := congrArg List.length hbuf₂
    have hlen₃ := congrArg List.length hbuf₃
    have hlen₄ := congrArg List.length hbuf₄
    unfold Varint.maxVarintLen64 at hprefix hoff
    simp only [sectionUv, List.length_append, length_putBe32] at hlen₂
    rw [List.length_append, hlist] at hlen₄
    rw [hbuf, List.length_append, List.length_append, List.length_append, length_section32, htoc,
      length_putBe32, hpending₄, hpending₃, hpending₂, hpending₁]
    simp only [tablePayload, List.nil_append, List.flatMap_cons, List.flatMap_nil, PendingEntry.bytes,
      List.length_append, length_putBe32, hname, hvalue, htwo, List.length_nil]
    simp only [List.length_cons, List.length_nil] at hpayload
    omega
  obtain ⟨w', file, hclose⟩ := close_default hstage₄ hmax
  exact ⟨file, writeIndex_iff.mpr ⟨w₄, w', hbuild, hclose⟩⟩

/-! ## Blocks -/

/-- A block flushed from a reached head has exact times, and so has a block that `compact` makes, where each
chunk starts strictly behind those before it. -/
theorem times_exact (text : JsonText) :
    (∀ {W L S K : Type} {ops : WalOps W L S K} {h : Head W} {content : Labels → List Sample}
      {calls : CreateCalls} {dir : BlockDir}, Reaches ops h content →
      createFromHead text calls h = .ok dir → RecordsExactly text calls (· ≤ ·) dir) ∧
    ∀ {calls : CompactCalls} {dirs : List (Option BlockDir)} {dir : BlockDir},
      compact text calls dirs = .ok dir →
      (∀ {blocks inputs created m}, CompactRun text calls dirs blocks inputs created m dir →
        KeepsNew text calls.create inputs) → RecordsExactly text calls.create (· < ·) dir := by
  constructor
  · intro W L S K ops h content calls dir hreach hok
    unfold createFromHead at hok
    obtain ⟨inputs, hinputs, hok⟩ := bind_ok hok
    have hruns := headInputs_runs (fun s hs ↦
      ⟨_, hreach.contains.holds (hreach.contains.wf.mem_allSeries.mp hs)⟩) hinputs
    obtain ⟨prepared, st, hholding, -, hexact⟩ := exists_holding (fun _ _ hle ↦ hle) hruns hok
    exact hholding.recordsExactly hexact
  · intro calls dirs dir hok hkeeps
    obtain ⟨blocks, inputs, created, m, hrun⟩ := compact_run hok
    obtain ⟨merged, -, hmerge⟩ := hrun.inputs_ok
    obtain ⟨prepared, st, hholding, hsegments, hexact⟩ :=
      exists_holding (fun _ _ hlt ↦ le_of_lt hlt) (mergeAll_runs hmerge) hrun.create_ok
    -- The patch leaves the times and the counts as they were written.
    obtain ⟨prepared', st', hsegments', hread⟩ := readMeta_created hrun.create_ok (hkeeps hrun)
    rw [hsegments] at hsegments'
    cases hsegments'
    rw [hrun.meta_ok] at hread
    have hm := Except.ok.inj hread
    apply (hrun.holding hholding).recordsExactly
    rw [hm]
    exact ⟨hexact.metas, hexact.consecutive, hexact.empty, hexact.minTime, hexact.maxTime,
        hexact.numSamples, hexact.numChunks, hexact.numSeries⟩

/-- The metadata of a block of one sample, flushed. -/
def oneMeta : BlockMeta where
  version := 1
  ulid := Str.empty
  stats := { numSamples := 1, numSeries := 1, numChunks := 1 }
  compaction := { level := 1, sources := [Str.empty] }

def oneCompact : CompactCalls where
  create := { ulid := Str.empty }
  order := .inserted _

/-- `{b="x"}`. -/
def separateLabels : Labels := .single ⟨.single 98, .single 120⟩

def firstSamples : List (Labels × Sample) :=
  [(sampleLabels, ⟨1, 7⟩), (otherLabels, ⟨2, 5⟩), (sampleLabels, ⟨3, 8⟩), (sampleLabels, ⟨5, 9⟩)]

/-- The one series has samples before, at and between the times of the first head. -/
def secondSamples : List (Labels × Sample) :=
  [(sampleLabels, ⟨3, 1⟩), (separateLabels, ⟨0, 6⟩), (sampleLabels, ⟨4, 2⟩)]

/-- What `create_from_head` makes of the two heads, and `compact` of the two blocks. -/
def firstInput : List SeriesInput :=
  [⟨sampleLabels, [⟨1, 5, ⟨[0, 3, 2, 0, 0, 0, 0, 0, 0, 0, 7, 2, 255, 8, 0, 0, 0, 61, 0, 0, 0, 0, 64],
      by decide⟩⟩], by decide⟩,
    ⟨otherLabels, [⟨2, 2, ⟨[0, 1, 4, 0, 0, 0, 0, 0, 0, 0, 5], by decide⟩⟩], by decide⟩]

def secondInput : List SeriesInput :=
  [⟨sampleLabels, [⟨3, 4, ⟨[0, 2, 6, 0, 0, 0, 0, 0, 0, 0, 1, 1, 255, 8, 0, 0, 0, 12], by decide⟩⟩],
      by decide⟩,
    ⟨separateLabels, [⟨0, 0, ⟨[0, 1, 0, 0, 0, 0, 0, 0, 0, 0, 6], by decide⟩⟩], by decide⟩]

def mergedInput : List SeriesInput :=
  [⟨sampleLabels, [⟨1, 5, ⟨[0, 4, 2, 0, 0, 0, 0, 0, 0, 0, 7, 2, 255, 0, 0, 0, 0, 29, 255, 255, 248, 64, 0, 0, 0,
      104, 0, 0, 0, 22], by decide⟩⟩], by decide⟩,
    ⟨otherLabels, [⟨2, 2, ⟨[0, 1, 4, 0, 0, 0, 0, 0, 0, 0, 5], by decide⟩⟩], by decide⟩,
    ⟨separateLabels, [⟨0, 0, ⟨[0, 1, 0, 0, 0, 0, 0, 0, 0, 0, 6], by decide⟩⟩], by decide⟩]

def firstMeta : BlockMeta :=
  { oneMeta with
    minTime := 1, maxTime := 5, stats := { numSamples := 4, numSeries := 2, numChunks := 2 } }

def secondMeta : BlockMeta :=
  { oneMeta with maxTime := 4, stats := { numSamples := 3, numSeries := 2, numChunks := 2 } }

def mergedMeta : BlockMeta :=
  { oneMeta with maxTime := 5, stats := { numSamples := 6, numSeries := 3, numChunks := 3 } }

def atLevel (level : Int32) (m : BlockMeta) : BlockMeta :=
  { m with compaction := { m.compaction with level := level } }

/-- The metadata of the blocks of the two heads, and of what comes of them in two compactions. -/
def chainMetas : List BlockMeta :=
  [firstMeta, secondMeta, mergedMeta, atLevel 2 firstMeta, atLevel 2 mergedMeta, atLevel 3 mergedMeta]

def chainText : JsonText := JsonText.of chainMetas

theorem keeps_chain {m : BlockMeta} (hm : m ∈ chainMetas) : chainText.Keeps m := by
  have hall : ∀ m ∈ chainMetas,
      chainMetas.find? (fun m' ↦ Json.print 0 (toJson m') = Json.print 0 (toJson m)) = some m := by
    decide +kernel
  exact JsonText.keeps_of (hall m hm)

/-- What the two heads hold, and what is written of it. -/
theorem evaluated_chain :
    ((({ wal := [] } : Head (List Bytes)).appendEach firstSamples).isSome = true ∧
      headInputs (filledHead firstSamples).series.allSeries = .ok firstInput) ∧
    ((({ wal := [] } : Head (List Bytes)).appendEach secondSamples).isSome = true ∧
      headInputs (filledHead secondSamples).series.allSeries = .ok secondInput) ∧
    [firstInput, secondInput, mergedInput].map (fun series ↦
      newMeta Str.empty ((series.filter SeriesInput.kept).map fun si ↦ ⟨si, []⟩) (totalsOf series)) =
        [firstMeta, secondMeta, mergedMeta] := by
  decide +kernel

theorem reaches_first :
    Reaches listWal (filledHead firstSamples) fun labels ↦ samplesUnder labels firstSamples :=
  reaches_filledHead evaluated_chain.1.1

theorem reaches_second :
    Reaches listWal (filledHead secondSamples) fun labels ↦ samplesUnder labels secondSamples :=
  reaches_filledHead evaluated_chain.2.1.1

theorem headInputs_first : headInputs (filledHead firstSamples).series.allSeries = .ok firstInput :=
  evaluated_chain.1.2

theorem headInputs_second : headInputs (filledHead secondSamples).series.allSeries = .ok secondInput :=
  evaluated_chain.2.1.2

theorem withinFormat_first : WithinFormat oneCompact.create firstInput := withinFormat_of_weight _ (by decide)

theorem withinFormat_merged : WithinFormat oneCompact.create mergedInput := withinFormat_of_weight _ (by decide)

theorem keepsNew_first : KeepsNew chainText oneCompact.create firstInput :=
  @keepsNew_of _ _ _ firstMeta (List.cons.inj evaluated_chain.2.2).1 (keeps_chain (by simp [chainMetas]))

theorem keepsNew_merged : KeepsNew chainText oneCompact.create mergedInput :=
  @keepsNew_of _ _ _ mergedMeta (List.cons.inj (List.cons.inj (List.cons.inj evaluated_chain.2.2).2).2).1
    (keeps_chain (by simp [chainMetas]))

theorem produced_first {dir : BlockDir}
    (hok : createFromHead chainText { ulid := Str.empty } (filledHead firstSamples) = .ok dir) :
    Produced chainText dir firstInput :=
  .head reaches_first headInputs_first hok withinFormat_first keepsNew_first

theorem produced_second {dir : BlockDir}
    (hok : createFromHead chainText { ulid := Str.empty } (filledHead secondSamples) = .ok dir) :
    Produced chainText dir secondInput :=
  .head reaches_second headInputs_second hok (withinFormat_of_weight _ (by decide))
    (@keepsNew_of _ _ _ secondMeta (List.cons.inj (List.cons.inj evaluated_chain.2.2).2).1
      (keeps_chain (by simp [chainMetas])))

section

variable {h : Head (List Bytes)} (hr : Reaches listWal h fun labels ↦ samplesUnder labels (countingSamples 5000))
  {inputs : List SeriesInput} (hinputs : headInputs h.series.allSeries = .ok inputs)

include hr

theorem holds_counting {s : MemSeries} (hs : s ∈ h.series.allSeries) :
    s.Holds (samplesUnder s.labels (countingSamples 5000)) :=
  hr.contains.holds (hr.contains.wf.mem_allSeries.mp hs)

include hinputs

theorem copies_counting :
    List.Forall₂ CopiesSeries (h.series.allSeries.filter fun s ↦ s.numSamples ≠ 0) inputs :=
  headInputs_copies (fun _ hs ↦ ⟨_, holds_counting hr hs⟩) hinputs

theorem labels_countingInputs : inputs.map SeriesInput.labels ⊆ [sampleLabels, otherLabels] := by
  intro labels hmem
  obtain ⟨si, hsi, rfl⟩ := List.mem_map.mp hmem
  obtain ⟨s, hs, hcopy⟩ := Related.exists_left (copies_counting hr hinputs) hsi
  obtain ⟨hin, hne⟩ := List.mem_filter.mp hs
  rw [hcopy.labels_eq, List.mem_pair]
  have hsome := (holds_counting hr hin).numSamples_ne_zero.mp (of_decide_eq_true hne)
  exact counting_labels fun hnil ↦ hsome (by rw [hnil]; rfl)

theorem length_countingInputs : inputs.length ≤ 2 := by
  have hsame : inputs.map SeriesInput.labels =
      (h.series.allSeries.filter fun s ↦ s.numSamples ≠ 0).map MemSeries.labels :=
    (Related.map_eq (copies_counting hr hinputs) fun s si hcopy ↦ hcopy.labels_eq.symm).symm
  have hnodup : (inputs.map SeriesInput.labels).Nodup := by
    rw [hsame]
    exact hr.contains.wf.nodup_labels.sublist (List.filter_sublist.map _)
  have hsub := (List.subperm_of_subset hnodup (labels_countingInputs hr hinputs)).length_le
  rwa [List.length_map] at hsub

theorem weight_countingInput {si : SeriesInput} (hsi : si ∈ inputs) : si.weight ≤ 160130 := by
  obtain ⟨s, hs, hcopy⟩ := Related.exists_left (copies_counting hr hinputs) hsi
  have hbounds := (holds_counting hr (List.mem_filter.mp hs).1).length_bounds.1
  have hlength := @length_samplesUnder_counting 5000 (by decide) s.labels
  have hchunks := hcopy.chunks.length_eq
  have hnames : (si.labels.entries.map labelWeight).sum = 66 := by
    rcases List.mem_pair.mp (labels_countingInputs hr hinputs (List.mem_map_of_mem hsi)) with heq | heq
    · rw [heq]
      rfl
    · rw [heq]
      rfl
  unfold SeriesInput.weight
  omega

theorem weight_countingInputs : weight inputs < 2 ^ 24 := by
  have hfew := length_countingInputs hr hinputs
  have hsum : weight inputs ≤ (inputs.map SeriesInput.weight).length * 160130 :=
    List.sum_le_card_nsmul _ _ (by
      intro n hn
      obtain ⟨si, hsi, rfl⟩ := List.mem_map.mp hn
      exact weight_countingInput hr hinputs hsi)
  rw [List.length_map] at hsum
  omega

/-- The long series has several chunks. -/
theorem exists_longInput : ∃ si ∈ inputs, si.labels = sampleLabels ∧ 2 ≤ si.chunks.length := by
  have hsample := samplesUnder_counting_sample 5000
  have hlen := length_countUp 5000
  obtain ⟨s, hs, hname⟩ := @Contains.exists_series _ _ hr.contains sampleLabels (by
    intro hnil
    rw [hsample] at hnil
    rw [hnil] at hlen
    cases hlen)
  have hlong := holds_counting hr hs
  rw [hname, hsample] at hlong
  have hne : s.numSamples ≠ 0 := hlong.numSamples_ne_zero.mpr (by rw [hlen]; decide)
  obtain ⟨si, hsi, hcopy⟩ := Related.exists_right (copies_counting hr hinputs)
    (List.mem_filter.mpr ⟨hs, decide_eq_true hne⟩)
  refine ⟨si, hsi, hcopy.labels_eq.trans hname, ?_⟩
  have hmany := hlong.length_bounds.2
  rw [← hcopy.chunks.length_eq]
  omega

end

/-- A long series next to a short one, flushed. -/
theorem exists_countingBlock :
    ∃ (h : Head (List Bytes)) (inputs : List SeriesInput) (text : JsonText) (dir : BlockDir) (blk : Block),
      Reaches listWal h (fun labels ↦ samplesUnder labels (countingSamples 5000)) ∧
      headInputs h.series.allSeries = .ok inputs ∧ weight inputs < 2 ^ 24 ∧
      (∃ si ∈ inputs, si.labels = sampleLabels ∧ 2 ≤ si.chunks.length) ∧
      createFromHead text { ulid := Str.empty } h = .ok dir ∧ openDir text (some dir) = .ok blk := by
  obtain ⟨h, hr⟩ := @exists_counting 5000 (by decide)
  have hk : kMaxChunkInputs = 230584300921369395 := rfl
  obtain ⟨inputs, hinputs⟩ := headInputs_succeeds fun s hs ↦ ⟨_, holds_counting hr hs, by
    have hle := @length_samplesUnder_counting 5000 (by decide) s.labels
    omega⟩
  have hweight := weight_countingInputs hr hinputs
  obtain ⟨text, dir, blk, hcreate, hopen⟩ := exists_created Str.empty hweight
  refine ⟨h, inputs, text, dir, blk, hr, hinputs, hweight, exists_longInput hr hinputs, ?_, hopen⟩
  unfold createFromHead
  rw [hinputs]
  exact hcreate

/-- A long series next to a short one in a head that is flushed; and two heads that overlap in time, flushed
and their blocks compacted. -/
theorem times_exact_overlapping :
    (∃ (h : Head (List Bytes)) (inputs : List SeriesInput) (text : JsonText) (dir : BlockDir),
      Reaches listWal h (fun labels ↦ samplesUnder labels (countingSamples 5000)) ∧
      headInputs h.series.allSeries = .ok inputs ∧
      (∃ si ∈ inputs, si.labels = sampleLabels ∧ 2 ≤ si.chunks.length) ∧
      createFromHead text { ulid := Str.empty } h = .ok dir ∧
      RecordsExactly text { ulid := Str.empty } (· ≤ ·) dir) ∧
    ∃ dir dir' dir'',
      createFromHead chainText { ulid := Str.empty } (filledHead firstSamples) = .ok dir ∧
      createFromHead chainText { ulid := Str.empty } (filledHead secondSamples) = .ok dir' ∧
      compact chainText oneCompact [some dir, some dir'] = .ok dir'' ∧
      RecordsExactly chainText { ulid := Str.empty } (· ≤ ·) dir ∧
      readMeta chainText dir'' = .ok (atLevel 2 mergedMeta) ∧
      RecordsExactly chainText { ulid := Str.empty } (· < ·) dir'' := by
  constructor
  · obtain ⟨h, inputs, text, dir, -, hr, hinputs, -, hlong, hflush, -⟩ := exists_countingBlock
    exact ⟨h, inputs, text, dir, hr, hinputs, hlong, hflush, (times_exact text).1 hr hflush⟩
  · have hall : (do
        let dir ← createFromHead chainText { ulid := Str.empty } (filledHead firstSamples)
        let dir' ← createFromHead chainText { ulid := Str.empty } (filledHead secondSamples)
        let blocks ← openAll chainText [some dir, some dir']
        let merged ← collectBlocks [] blocks
        let inputs ← mergeAll (oneCompact.order.order merged)
        let dir'' ← compact chainText oneCompact [some dir, some dir']
        let m ← lift (readMeta chainText dir'')
        .ok (decide (inputs = mergedInput ∧ m = atLevel 2 mergedMeta))) = .ok true := by decide +kernel
    obtain ⟨dir, hflush, hall⟩ := bind_ok hall
    obtain ⟨dir', hflush', hall⟩ := bind_ok hall
    obtain ⟨blocks, hblocks, hall⟩ := bind_ok hall
    obtain ⟨merged, hmerged, hall⟩ := bind_ok hall
    obtain ⟨inputs, hinputs, hall⟩ := bind_ok hall
    obtain ⟨dir'', hcompact, hall⟩ := bind_ok hall
    obtain ⟨m, hread, hall⟩ := bind_ok hall
    obtain ⟨rfl, rfl⟩ := of_decide_eq_true (Except.ok.inj hall)
    have hkeeps : ∀ {blocks inputs created m},
        CompactRun chainText oneCompact [some dir, some dir'] blocks inputs created m dir'' →
          KeepsNew chainText oneCompact.create inputs := by
      intro blocks' inputs created m hrun
      obtain ⟨merged', hcollect, hmerge⟩ := hrun.inputs_ok
      cases hblocks.symm.trans hrun.open_ok
      cases hmerged.symm.trans hcollect
      cases hinputs.symm.trans hmerge
      exact keepsNew_merged
    obtain ⟨hflushed, hcompacted⟩ := times_exact chainText
    exact ⟨dir, dir', dir'', hflush, hflush', hcompact, hflushed reaches_first hflush, lift_ok hread,
      hcompacted hcompact hkeeps⟩

/-- The block of a head with 2 ^ 64 + 1 samples counts one. -/
theorem times_exact_wrapped :
    ∃ (h : Head (List Bytes)) (content : Labels → List Sample) (text : JsonText) (dir : BlockDir)
      (series : List SeriesInput) (prepared : List PreparedSeries) (m : BlockMeta),
      Reaches listWal h content ∧ createFromHead text { ulid := Str.empty } h = .ok dir ∧
      Holding text { ulid := Str.empty } series dir prepared m ∧
      (storedSamples prepared).length = 2 ^ 64 + 1 ∧ m.stats.numSamples = 1 := by
  obtain ⟨h, hf, hequal⟩ := exists_equal (2 ^ 64 + 1)
  have hwrap : UInt64.ofNat (2 ^ 64 + 1) = 1 := by decide
  have hk : kMaxChunkInputs = 230584300921369395 := rfl
  obtain ⟨si, hinputs, hlabels, hsome, hshort, hcount⟩ :=
    headInputs_equal hf hequal (by decide) (by omega)
  obtain ⟨prepared, st, hsegments⟩ := writeSegments_default Str.empty [si]
  obtain ⟨hprepared, -, htimes⟩ := writeSegments_totals hsegments
  have hkept : [si].filter SeriesInput.kept = [si] := by
    rw [List.filter_cons_of_pos (by simpa [SeriesInput.kept] using hsome), List.filter_nil]
  rw [hkept] at hprepared
  obtain ⟨metas, rfl⟩ : ∃ metas, prepared = [⟨si, metas⟩] := by
    obtain ⟨⟨input, metas⟩, rfl, rfl⟩ := List.map_eq_singleton_iff.mp hprepared
    exact ⟨metas, rfl⟩
  have hlength : metas.length = si.chunks.length := (htimes _ List.mem_cons_self).length_eq.symm
  obtain ⟨file, hindex⟩ := @writeIndex_sampleLabels si hlabels metas (by omega)
  obtain ⟨dir, hcreate⟩ : ∃ dir, createFromSeries (JsonText.of []) { ulid := Str.empty } [si] = .ok dir :=
    ⟨_, createFromSeries_default (JsonText.of []) hsegments hindex⟩
  have hruns := headInputs_runs (fun s hs ↦
    ⟨_, hf.reaches.contains.holds (hf.reaches.contains.wf.mem_allSeries.mp hs)⟩) hinputs
  obtain ⟨prepared, st', hholding, hsegments', hexact⟩ :=
    exists_holding (fun _ _ hle ↦ hle) hruns hcreate
  rw [hsegments] at hsegments'
  cases hsegments'
  have hsamples : (storedSamples [⟨si, metas⟩]).length = 2 ^ 64 + 1 := by
    unfold storedSamples
    rw [List.flatMap_singleton]
    exact hcount
  refine ⟨h, _, JsonText.of [], dir, [si], [⟨si, metas⟩], _, hf.reaches, ?_, hholding, hsamples, ?_⟩
  · unfold createFromHead
    rw [hinputs]
    exact hcreate
  · rw [hexact.numSamples, hsamples, hwrap]

end MerlionTsdb.Block
