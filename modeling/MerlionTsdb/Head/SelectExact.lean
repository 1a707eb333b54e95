import MerlionTsdb.Head.Reach
import MerlionTsdb.Lib.Related

/-!
# What a query on a head returns

The select of a reached head is a filter over its series, and over the chunks of each of them.
-/

namespace MerlionTsdb.Head

open Block Chunkenc Encoding Model SeriesStore Wal.Record

variable {W L S K : Type}

/-! ## One series -/

/-- The meta that the walk over a chunk gives; zeros for a chunk without samples. -/
def spanMeta (c : XORChunk) : ChunkMeta :=
  match timeSpan c with
  | .ok (some (cmin, cmax)) => { minTime := cmin, maxTime := cmax, ref := 0 }
  | _ => { minTime := 0, maxTime := 0, ref := 0 }

theorem EncodesRun.spanMeta {c : XORChunk} {part : List Sample} (h : EncodesRun c part) :
    timeSpan c = .ok (some ((spanMeta c).minTime, (spanMeta c).maxTime)) ∧ (spanMeta c).ref = 0 ∧
      Covers c (spanMeta c) ∧
      ∀ mint maxt, overlaps (spanMeta c).minTime (spanMeta c).maxTime mint maxt =
        chunkMeets mint maxt c := by
  obtain ⟨m, hspan, href, hcovers, hmeets⟩ := h.timeSpan_eq
  have heq : Head.spanMeta c = m := by
    cases m
    unfold Head.spanMeta
    rw [hspan]
    dsimp only at href ⊢
    rw [href]
  rw [heq]
  exact ⟨hspan, href, hcovers, hmeets⟩

/-- The chunk loop returns the chunks that reach into the range. -/
theorem selectChunks_eq {chunks : List XORChunk} {parts : List (List Sample)}
    (h : List.Forall₂ EncodesRun chunks parts) (mint maxt : Int64) :
    selectChunks mint maxt chunks =
      .ok ((chunks.filter (chunkMeets mint maxt)).map fun c ↦ (.fromBytes c.bytes, spanMeta c)) := by
  induction h with
  | nil => rfl
  | @cons c part chunks parts hc _ ih =>
    obtain ⟨hspan, href, -, hmeets⟩ := hc.spanMeta
    have hmeta : ({ minTime := (spanMeta c).minTime, maxTime := (spanMeta c).maxTime, ref := 0 } :
        ChunkMeta) = spanMeta c := by
      rw [← href]
    unfold selectChunks
    rw [if_neg hc.numSamples_ne_zero, hspan]
    dsimp only
    rw [hmeets, ih]
    by_cases hin : chunkMeets mint maxt c = true
    · rw [List.filter_cons_of_pos hin, hin, hmeta]
      rfl
    · rw [List.filter_cons_of_neg hin]
      rw [Bool.not_eq_true] at hin
      rw [hin]
      rfl

/-- The answer for one series. -/
def answerFor (mint maxt : Int64) (s : MemSeries) : QueryResult where
  labels := s.labels
  chunks := (s.chunks.filter (chunkMeets mint maxt)).map fun c ↦ .fromBytes c.bytes
  chunkMetas := (s.chunks.filter (chunkMeets mint maxt)).map spanMeta

/-- The series is in the answer: its counter is not zero, its labels are accepted, and one of its chunks
reaches into the range. -/
def selected (matchers : List Matcher) (mint maxt : Int64) (s : MemSeries) : Bool :=
  s.numSamples ≠ 0 && labelsMatchAll s.labels matchers && s.chunks.any (chunkMeets mint maxt)

/-- The series loop is a filter. -/
theorem selectSeries_eq (matchers : List Matcher) (mint maxt : Int64) {series : List MemSeries}
    (h : ∀ s ∈ series, ∃ xs, s.Holds xs) :
    selectSeries matchers mint maxt series =
      .ok ((series.filter (selected matchers mint maxt)).map (answerFor mint maxt)) := by
  induction series with
  | nil => rfl
  | cons s series ih =>
    have hrest := ih fun s' hs' ↦ h s' (List.mem_cons_of_mem _ hs')
    obtain ⟨xs, hs⟩ := h s List.mem_cons_self
    obtain ⟨parts, hruns, -⟩ := hs.runs
    unfold selectSeries
    rw [selectChunks_eq hruns, hrest]
    by_cases hzero : s.numSamples = 0
    · rw [if_pos hzero, List.filter_cons_of_neg (by simp [selected, hzero])]
    rw [if_neg hzero]
    by_cases hlabels : labelsMatchAll s.labels matchers = true
    · rw [if_neg (by simp [hlabels])]
      -- No chunk in the range, no result.
      by_cases hany : s.chunks.any (chunkMeets mint maxt) = true
      · rw [List.filter_cons_of_pos (by simp [selected, hzero, hlabels, hany])]
        cases hfound : (s.chunks.filter (chunkMeets mint maxt)) with
        | nil =>
          rw [List.filter_eq_nil_iff] at hfound
          obtain ⟨c, hc, hmeets⟩ := List.any_eq_true.mp hany
          exact absurd hmeets (hfound c hc)
        | cons c found =>
          rw [List.map_cons, List.map_cons]
          dsimp only
          unfold answerFor
          rw [hfound]
          simp
      · rw [List.filter_cons_of_neg (by simp [selected, hany])]
        have hnone : s.chunks.filter (chunkMeets mint maxt) = [] := by
          rw [List.filter_eq_nil_iff]
          intro c hc hmeets
          exact hany (List.any_eq_true.mpr ⟨c, hc, hmeets⟩)
        rw [hnone]
        rfl
    · rw [if_pos (by simpa using hlabels),
        List.filter_cons_of_neg (by simp [selected, hlabels])]

theorem Contains.select {h : Head W} {content : Labels → List Sample}
    (hc : Contains h.series content) {matchers : List Matcher} (hm : matchers ≠ [])
    (mint maxt : Int64) :
    h.select matchers mint maxt =
      .ok ((h.series.allSeries.filter (selected matchers mint maxt)).map (answerFor mint maxt)) := by
  unfold Head.select
  rw [if_neg hm]
  apply selectSeries_eq
  intro s hs
  exact ⟨_, hc.holds (hc.wf.mem_allSeries.mp hs)⟩

/-! ## Every reached head -/

/-- The answer for a series that holds `xs`: the chunks that reach into the range, bit for bit, each with
its least and its greatest time, so that no sample of the range is missing. -/
structure Answers (xs : List Sample) (mint maxt : Int64) (s : MemSeries) (q : QueryResult) : Prop where
  labels_eq : q.labels = s.labels
  bytes_eq : q.chunks.map XORChunk.bytes = (s.chunks.filter (chunkMeets mint maxt)).map XORChunk.bytes
  covers : List.Forall₂ Covers q.chunks q.chunkMetas
  decoded : ∀ x ∈ xs, mint ≤ x.t → x.t ≤ maxt → x ∈ q.chunks.flatMap fun c ↦ c.samples.1

theorem answers_answerFor {s : MemSeries} {xs : List Sample} (h : s.Holds xs) (mint maxt : Int64) :
    Answers xs mint maxt s (answerFor mint maxt s) := by
  obtain ⟨parts, hruns, hflat⟩ := h.runs
  have hcovers : ∀ c ∈ s.chunks, Covers c (spanMeta c) := by
    clear hflat
    generalize s.chunks = chunks at hruns
    induction hruns with
    | nil => simp
    | cons hc _ ih =>
      intro c' hc'
      rcases List.mem_cons.mp hc' with rfl | hc'
      · exact hc.spanMeta.2.2.1
      · exact ih c' hc'
  constructor
  · rfl
  · unfold answerFor
    rw [List.map_map]
    rfl
  · unfold answerFor
    rw [List.forall₂_map_left_iff, List.forall₂_map_right_iff, List.forall₂_same]
    intro c hc
    have hcov := hcovers c (List.mem_of_mem_filter hc)
    exact ⟨hcov.least, hcov.greatest⟩
  · intro x hx hmin hmax
    have hsamples := h.samples
    rw [← hsamples] at hx
    unfold MemSeries.samples at hx
    obtain ⟨c, hc, hmem⟩ := List.mem_flatMap.mp hx
    -- The sample itself reaches into the range from both sides.
    have hmeets : chunkMeets mint maxt c = true := by
      unfold chunkMeets
      rw [Bool.and_eq_true, List.any_eq_true, List.any_eq_true]
      exact ⟨⟨x, hmem, decide_eq_true hmax⟩, ⟨x, hmem, decide_eq_true hmin⟩⟩
    apply List.mem_flatMap.mpr
    refine ⟨XORChunk.fromBytes c.bytes, ?_, hmem⟩
    exact List.mem_map.mpr ⟨c, List.mem_filter.mpr ⟨hc, hmeets⟩, rfl⟩

/-- Samples are in a series of the store. -/
theorem Contains.exists_series {st : SeriesStore} {content : Labels → List Sample}
    (hc : Contains st content) {labels : Labels} (hne : content labels ≠ []) :
    ∃ s ∈ st.allSeries, s.labels = labels := by
  cases hfind : st.findRef labels with
  | none => exact absurd (hc.absent hfind) hne
  | some ref =>
    obtain ⟨s, hget, hlabels⟩ := hc.wf.findRef_eq_some.mp hfind
    refine ⟨s, hc.wf.mem_allSeries.mpr ?_, hlabels⟩
    rw [hc.wf.ref_eq hget]
    exact hget

/-- The counter of a series is the number of its samples. -/
theorem MemSeries.Holds.numSamples_ne_zero {s : MemSeries} {xs : List Sample} (h : s.Holds xs) :
    s.numSamples ≠ 0 ↔ xs.length % 2 ^ 64 ≠ 0 := by
  rw [h.numSamples_eq, ne_eq, ne_eq, not_iff_not, ← UInt64.toNat_inj, UInt64.toNat_ofNat']
  rfl

/-- A select on a reached head succeeds, and answers, by ascending reference, for just those series
whose labels every matcher accepts, that have a chunk in the range, and whose 64-bit sample counter
is not zero. -/
theorem select_reached {ops : WalOps W L S K} {h : Head W} {content : Labels → List Sample}
    (hr : Reaches ops h content) {matchers : List Matcher} (hm : matchers ≠ [])
    (mint maxt : Int64) :
    (h.series.allSeries.Pairwise fun s t ↦ s.ref < t.ref) ∧
      (∀ labels, content labels ≠ [] → ∃ s ∈ h.series.allSeries, s.labels = labels) ∧
      ∃ results, h.select matchers mint maxt = .ok results ∧
        List.Forall₂ (fun s q ↦ Answers (content s.labels) mint maxt s q)
          (h.series.allSeries.filter fun s ↦ (content s.labels).length % 2 ^ 64 ≠ 0 &&
            matchers.all (fun m ↦ m.accepts (s.labels.valueOf m.name)) &&
              s.chunks.any (chunkMeets mint maxt)) results := by
  have hc := hr.contains
  have hholds : ∀ s ∈ h.series.allSeries, s.Holds (content s.labels) := fun s hs ↦
    hc.holds (hc.wf.mem_allSeries.mp hs)
  refine ⟨hc.wf.pairwise_allSeries, ?_, _, hc.select hm mint maxt, ?_⟩
  · exact fun labels hne ↦ hc.exists_series hne
  · have hfilter : h.series.allSeries.filter (selected matchers mint maxt) =
        h.series.allSeries.filter fun s ↦ (content s.labels).length % 2 ^ 64 ≠ 0 &&
          matchers.all (fun m ↦ m.accepts (s.labels.valueOf m.name)) &&
            s.chunks.any (chunkMeets mint maxt) := by
      apply List.filter_congr
      intro s hs
      unfold selected labelsMatchAll
      simp only [(hholds s hs).numSamples_ne_zero]
    rw [hfilter, List.forall₂_map_right_iff, List.forall₂_same]
    intro s hs
    exact answers_answerFor (hholds s (List.mem_of_mem_filter hs)) mint maxt

/-! ## A counter that wraps around -/

/-- `{a="b"}`. -/
def sampleLabels : Labels := .single ⟨.single 97, .single 98⟩

/-- A head with `n` equal samples under one label set, all of them committed. -/
structure Filled (n : Nat) (h : Head (List Bytes)) : Prop where
  reaches : Reaches listWal h
    (Function.update (fun _ ↦ []) sampleLabels (List.replicate n ⟨0, 0⟩))
  closed_eq : h.closed = false
  pendingSeries_eq : h.pendingSeries = []
  pendingSamples_eq : h.pendingSamples = []
  stored : h.series.findRef sampleLabels = some 1 ∨ h.series = {}

/-- The pending series on a WAL that never fails. -/
theorem logSeries_listWal_true {h : Head (List Bytes)} (result : Unit)
    (hseries : (encodeSeries h.pendingSeries).length ≤ kMaxSize) :
    ∃ h', h.logSeries listWal result = some (true, h') ∧ h'.closed = h.closed ∧
      h'.series = h.series ∧ h'.pendingSeries = [] ∧ h'.pendingSamples = h.pendingSamples := by
  unfold Head.logSeries
  by_cases hnone : h.pendingSeries.isEmpty = true
  · rw [if_pos hnone]
    exact ⟨h, rfl, rfl, rfl, List.isEmpty_iff.mp hnone, rfl⟩
  · rw [if_neg hnone]
    dsimp only
    rw [if_neg (Nat.not_lt.mpr hseries)]
    exact ⟨_, rfl, rfl, rfl, rfl, rfl⟩

/-- The pending samples on a WAL that never fails. -/
theorem logSamples_listWal_true {h : Head (List Bytes)} (result : Unit)
    (hsamples : (encodeSamplesV2 h.pendingSamples).length ≤ kMaxSize) :
    ∃ h', h.logSamples listWal result = some (true, h') ∧ h'.closed = h.closed ∧
      h'.series = h.series ∧ h'.pendingSeries = h.pendingSeries ∧ h'.pendingSamples = [] := by
  unfold Head.logSamples
  by_cases hnone : h.pendingSamples.isEmpty = true
  · rw [if_pos hnone]
    exact ⟨h, rfl, rfl, rfl, rfl, List.isEmpty_iff.mp hnone⟩
  · rw [if_neg hnone]
    dsimp only
    rw [if_neg (Nat.not_lt.mpr hsamples)]
    exact ⟨_, rfl, rfl, rfl, rfl, rfl⟩

/-- A commit on a WAL that never fails. -/
theorem commit_listWal_true {h : Head (List Bytes)} (hopen : h.closed = false)
    (hseries : (encodeSeries h.pendingSeries).length ≤ kMaxSize)
    (hsamples : (encodeSamplesV2 h.pendingSamples).length ≤ kMaxSize)
    (calls : CommitCalls Unit Unit) :
    ∃ h', h.commit listWal calls = some (true, h') ∧ h'.closed = false ∧ h'.series = h.series ∧
      h'.pendingSeries = [] ∧ h'.pendingSamples = [] := by
  obtain ⟨h₁, hlog, hclosed₁, hseries₁, hnone₁, hpending₁⟩ :=
    logSeries_listWal_true calls.series hseries
  rw [← hpending₁] at hsamples
  obtain ⟨h₂, hlog₂, hclosed₂, hseries₂, hnone₂, hpending₂⟩ :=
    logSamples_listWal_true calls.samples hsamples
  refine ⟨{ h₂ with wal := h₂.wal }, ?_, ?_, ?_, ?_, ?_⟩
  · unfold Head.commit
    rw [hopen, if_neg Bool.false_ne_true, hlog]
    dsimp only
    rw [hlog₂]
    rfl
  · exact hclosed₂.trans (hclosed₁.trans hopen)
  · exact hseries₂.trans hseries₁
  · exact hnone₂.trans hnone₁
  · exact hpending₂

/-- A sample more, and a commit: what becomes of the series. -/
theorem Filled.step {n : Nat} {h : Head (List Bytes)} (hf : Filled n h) :
    ∃ (h' : Head (List Bytes)) (s s' : MemSeries), Filled (n + 1) h' ∧
      (h.series.get 1 = some s ∨ s = { ref := 1, labels := sampleLabels }) ∧
      s.append ⟨0, 0⟩ = (true, s') ∧ h'.series.get 1 = some s' := by
  have hc := hf.reaches.contains
  -- The slot of the series, found or new.
  have hslot : ∃ (fresh : Bool) (st : SeriesStore) (s : MemSeries),
      h.series.getOrCreate sampleLabels = some (1, fresh, st) ∧ st.get 1 = some s ∧
      s.labels = sampleLabels ∧ st.findRef sampleLabels = some 1 ∧
      Contains st (Function.update (fun _ ↦ []) sampleLabels (List.replicate n ⟨0, 0⟩)) ∧
      (h.series.get 1 = some s ∨ s = { ref := 1, labels := sampleLabels }) := by
    rcases hf.stored with hfind | hempty
    · obtain ⟨s, hget, hlabels⟩ := hc.wf.findRef_eq_some.mp hfind
      exact ⟨false, _, s, getOrCreate_found hfind, hget, hlabels, hfind, hc, Or.inl hget⟩
    · rw [hempty] at hc ⊢
      have hnew : ({} : SeriesStore).findRef sampleLabels = none := rfl
      have hroom : ({} : SeriesStore).byRef.length < kMaxSlots := by decide
      obtain ⟨hwf, hget⟩ := wf_empty.push hnew hroom
      refine ⟨true, _, { ref := 1, labels := sampleLabels }, ?_, ?_, rfl, ?_,
        hc.insert hwf hnew rfl hget, Or.inr rfl⟩
      · rw [wf_empty.getOrCreate_new hnew, if_pos hroom]
      · rw [hget]
        rfl
      · decide
  obtain ⟨fresh, st, s, hcreate, hget, hlabels, hfind, hst, hold⟩ := hslot
  have hholds := hst.holds hget
  rw [hlabels, Function.update_self] at hholds
  obtain ⟨s', happend, -⟩ := @MemSeries.Holds.append_of_le _ _ hholds ⟨0, 0⟩ (by
    intro y hy
    have hmem := List.mem_of_getLast? hy
    cases List.eq_of_mem_replicate hmem
    decide)
  have href : s.ref = 1 := hst.wf.ref_eq hget
  -- The append is accepted.
  have haccept : h.append sampleLabels ⟨0, 0⟩ = some (.ok 1, { h with
      series := st.put 1 s'
      pendingSeries := if fresh then [toWalLabels 1 sampleLabels] else []
      pendingSamples := [{ ref := 1, t := 0, st := 0, v := 0 }] }) := by
    unfold Head.append
    rw [hf.closed_eq, if_neg Bool.false_ne_true, hcreate]
    dsimp only
    rw [hget]
    unfold SeriesStore.append
    dsimp only
    rw [happend]
    dsimp only
    rw [href, hf.pendingSeries_eq, hf.pendingSamples_eq]
    rfl
  have hreach := hf.reaches.accepted haccept
  have hseriesLen : ∀ fresh : Bool,
      (encodeSeries (if fresh then [toWalLabels 1 sampleLabels] else [])).length ≤ kMaxSize := by
    decide
  have hsamplesLen : (encodeSamplesV2 [{ ref := 1, t := 0, st := 0, v := 0 }]).length ≤ kMaxSize := by
    decide
  obtain ⟨h', hcommit, hclosed, hseries, hnone, hnone'⟩ :=
    @commit_listWal_true { h with
      series := st.put 1 s'
      pendingSeries := if fresh then [toWalLabels 1 sampleLabels] else []
      pendingSamples := [{ ref := 1, t := 0, st := 0, v := 0 }] } hf.closed_eq
      (hseriesLen fresh) hsamplesLen ⟨(), (), ()⟩
  refine ⟨h', s, s', ⟨?_, hclosed, hnone, hnone', Or.inl ?_⟩, hold, happend, ?_⟩
  · have hreach' := hreach.committed hcommit
    rw [Function.update_self, Function.update_idem, ← List.replicate_succ'] at hreach'
    exact hreach'
  · rw [hseries]
    exact hfind
  · rw [hseries]
    obtain ⟨hpos, hle⟩ := toNat_le_of_get hget
    show (st.put 1 s').get 1 = some s'
    rw [get_put hpos hle, if_pos rfl]

theorem filled_zero : Filled 0 { wal := [] } := by
  refine ⟨?_, rfl, rfl, rfl, Or.inr rfl⟩
  have hempty : (Function.update (fun _ ↦ []) sampleLabels (List.replicate 0 ⟨0, 0⟩) :
      Labels → List Sample) = fun _ ↦ [] := Function.update_eq_self sampleLabels _
  rw [hempty]
  exact reaches_new listWal []

theorem exists_filled (n : Nat) : ∃ h, Filled n h := by
  induction n with
  | zero => exact ⟨_, filled_zero⟩
  | succ n ih =>
    obtain ⟨h, hf⟩ := ih
    obtain ⟨h', -, -, hf', -⟩ := hf.step
    exact ⟨h', hf'⟩

/-- With 2 ^ 64 samples at time 0, a query for just that time misses the series. -/
theorem select_counter_wrapped :
    ∃ (h : Head (List Bytes)) (content : Labels → List Sample), Reaches listWal h content ∧
      content sampleLabels = List.replicate (2 ^ 64) ⟨0, 0⟩ ∧
      sampleLabels.valueOf ⟨[97], by decide⟩ = ⟨[98], by decide⟩ ∧
      h.select [.equal ⟨[97], by decide⟩ ⟨[98], by decide⟩] 0 0 = .ok [] := by
  obtain ⟨h, hf⟩ := exists_filled (2 ^ 64)
  have hc := hf.reaches.contains
  have hwrap : UInt64.ofNat (2 ^ 64) = 0 := by decide
  refine ⟨h, _, hf.reaches, Function.update_self _ _ _, by decide, ?_⟩
  rw [hc.select (List.cons_ne_nil _ _)]
  have hnone : h.series.allSeries.filter
      (selected [.equal ⟨[97], by decide⟩ ⟨[98], by decide⟩] 0 0) = [] := by
    rw [List.filter_eq_nil_iff]
    intro s hs hsel
    have hholds := hc.holds (hc.wf.mem_allSeries.mp hs)
    have hcount := hholds.numSamples_eq
    -- Full or empty, the series has a counter of zero.
    have hzero : s.numSamples = 0 := by
      by_cases hlabels : s.labels = sampleLabels
      · rw [hlabels, Function.update_self, List.length_replicate, hwrap] at hcount
        exact hcount
      · rw [Function.update_of_ne hlabels] at hcount
        exact hcount
    unfold selected at hsel
    rw [hzero] at hsel
    simp at hsel
  rw [hnone]
  rfl

/-! ## A series of several chunks -/

/-- `{a="c"}`. -/
def otherLabels : Labels := .single ⟨.single 97, .single 99⟩

/-- A sample at each time from 0 on. -/
def countUp (n : Nat) : List Sample := (List.range n).map fun i ↦ ⟨Int64.ofNat i, UInt64.ofNat i⟩

/-- Two samples of one series, and `n` of another. -/
def countingSamples (n : Nat) : List (Labels × Sample) :=
  (otherLabels, ⟨3, 1⟩) :: (otherLabels, ⟨8, 2⟩) :: (countUp n).map fun x ↦ (sampleLabels, x)

theorem length_countUp (n : Nat) : (countUp n).length = n := by
  unfold countUp
  rw [List.length_map, List.length_range]

theorem samplesUnder_countUp (n : Nat) (labels : Labels) :
    samplesUnder labels ((countUp n).map fun x ↦ (sampleLabels, x)) =
      if sampleLabels = labels then countUp n else [] := by
  generalize countUp n = xs
  induction xs with
  | nil =>
    rw [ite_self]
    rfl
  | cons x xs ih =>
    rw [List.map_cons, samplesUnder_cons, ih]
    split
    · rfl
    · rfl

theorem samplesUnder_counting (n : Nat) (labels : Labels) :
    samplesUnder labels (countingSamples n) =
      if otherLabels = labels then [⟨3, 1⟩, ⟨8, 2⟩] else if sampleLabels = labels then countUp n else [] := by
  have hne : sampleLabels ≠ otherLabels := by decide
  unfold countingSamples
  rw [samplesUnder_cons, samplesUnder_cons, samplesUnder_countUp]
  split
  · rename_i h
    rw [← h, if_neg hne]
  · rfl

theorem samplesUnder_counting_sample (n : Nat) :
    samplesUnder sampleLabels (countingSamples n) = countUp n := by
  rw [samplesUnder_counting, if_neg (by decide), if_pos rfl]

theorem samplesUnder_counting_other (n : Nat) :
    samplesUnder otherLabels (countingSamples n) = [⟨3, 1⟩, ⟨8, 2⟩] := by
  rw [samplesUnder_counting, if_pos rfl]

/-- There are two series. -/
theorem counting_labels {n : Nat} {labels : Labels} (h : samplesUnder labels (countingSamples n) ≠ []) :
    labels = sampleLabels ∨ labels = otherLabels := by
  rw [samplesUnder_counting] at h
  split at h
  · rename_i heq
    exact Or.inr heq.symm
  · split at h
    · rename_i heq
      exact Or.inl heq.symm
    · exact absurd rfl h

theorem length_samplesUnder_counting {n : Nat} (hn : 2 ≤ n) (labels : Labels) :
    (samplesUnder labels (countingSamples n)).length ≤ n := by
  rw [samplesUnder_counting]
  split
  · exact hn
  · split
    · exact (length_countUp n).le
    · exact Nat.zero_le _

theorem pairwise_countUp {n : Nat} (hn : n ≤ 2 ^ 62) : (countUp n).Pairwise fun x y ↦ x.t ≤ y.t := by
  unfold countUp
  rw [List.pairwise_map]
  apply List.Pairwise.imp_of_mem _ List.pairwise_lt_range
  intro i j hi hj hlt
  rw [List.mem_range] at hi hj
  dsimp only
  rw [Int64.le_iff_toInt_le, Int64.toInt_ofNat_of_lt (by omega), Int64.toInt_ofNat_of_lt (by omega)]
  omega

theorem times_countUp : ∀ x ∈ countUp 5000, (0 : Int64) ≤ x.t ∧ x.t ≤ 4999 := by
  intro x hx
  obtain ⟨i, hi, rfl⟩ := List.mem_map.mp hx
  rw [List.mem_range] at hi
  dsimp only
  rw [Int64.le_iff_toInt_le, Int64.le_iff_toInt_le, Int64.toInt_ofNat_of_lt (by omega)]
  show (0 : Int) ≤ i ∧ (i : Int) ≤ 4999
  omega

/-- A head accepts them all. -/
theorem exists_counting {n : Nat} (hn : n ≤ 2 ^ 20) :
    ∃ h : Head (List Bytes), Reaches listWal h fun labels ↦ samplesUnder labels (countingSamples n) := by
  have hnew := reaches_new listWal []
  have hroom : ([] : List (Option MemSeries)).length + (countingSamples n).length ≤ kMaxSlots := by
    unfold countingSamples kMaxSlots kMaxSize
    simp only [List.length_nil, List.length_cons, List.length_map, length_countUp]
    omega
  have hordered : ∀ labels, (([] : List Sample) ++ samplesUnder labels (countingSamples n)).Pairwise
      fun x y ↦ x.t ≤ y.t := by
    intro labels
    rw [List.nil_append, samplesUnder_counting]
    split
    · decide
    · split
      · exact pairwise_countUp (by omega)
      · exact .nil
  obtain ⟨h, hall⟩ := hnew.exists_appendEach rfl hroom hordered
  have hreach := hnew.appendEach hall
  simp only [List.nil_append] at hreach
  exact ⟨h, hreach⟩

/-- The series of one label set, when no other is asked for. -/
theorem Contains.filter_allSeries {st : SeriesStore} {content : Labels → List Sample}
    (hc : Contains st content) {s : MemSeries} (hs : s ∈ st.allSeries) {p : MemSeries → Bool}
    (hp : p s = true) (honly : ∀ s' ∈ st.allSeries, p s' = true → s'.labels = s.labels) :
    st.allSeries.filter p = [s] := by
  have hnodup : st.allSeries.Nodup := hc.wf.nodup_labels.of_map _
  rw [← List.perm_singleton, List.perm_ext_iff_of_nodup (hnodup.filter p) (List.nodup_singleton s)]
  intro s'
  rw [List.mem_filter, List.mem_singleton]
  constructor
  · rintro ⟨hs', hp'⟩
    have hget := hc.wf.mem_allSeries.mp hs
    have hget' := hc.wf.mem_allSeries.mp hs'
    rw [hc.wf.eq_of_labels_eq hget' hget (honly s' hs' hp'), hget] at hget'
    exact (Option.some_inj.mp hget').symm
  · rintro rfl
    exact ⟨hs, hp⟩

/-- A sample of the range lies in a chunk that reaches into it. -/
theorem MemSeries.Holds.any_meets {s : MemSeries} {xs : List Sample} (h : s.Holds xs) {x : Sample}
    (hx : x ∈ xs) {mint maxt : Int64} (hmin : mint ≤ x.t) (hmax : x.t ≤ maxt) :
    s.chunks.any (chunkMeets mint maxt) = true := by
  rw [← h.samples] at hx
  obtain ⟨c, hc, hin⟩ := List.mem_flatMap.mp hx
  apply List.any_eq_true.mpr
  refine ⟨c, hc, ?_⟩
  unfold chunkMeets
  rw [Bool.and_eq_true, List.any_eq_true, List.any_eq_true]
  exact ⟨⟨x, hin, decide_eq_true hmax⟩, ⟨x, hin, decide_eq_true hmin⟩⟩

/-- When every chunk reaches into the range, the answer decodes to everything in the series. -/
theorem Answers.decoded_all {xs : List Sample} {mint maxt : Int64} {s : MemSeries} {q : QueryResult}
    (h : Answers xs mint maxt s q) (hs : s.Holds xs) (hall : ∀ x ∈ xs, mint ≤ x.t ∧ x.t ≤ maxt) :
    (q.chunks.flatMap fun c ↦ c.samples.1) = xs ∧ q.chunks.length = s.chunks.length := by
  have hmeets : ∀ c ∈ s.chunks, chunkMeets mint maxt c = true := by
    intro c hc
    obtain ⟨parts, hruns, hflat⟩ := hs.runs
    obtain ⟨part, hpart, hencodes⟩ := Related.exists_right hruns hc
    obtain ⟨x, hx⟩ := List.exists_mem_of_ne_nil _ hencodes.2.1
    have hin : x ∈ xs := by
      rw [← hflat]
      exact List.mem_flatten.mpr ⟨part, hpart, hx⟩
    unfold chunkMeets
    rw [hencodes.samples_eq, Bool.and_eq_true, List.any_eq_true, List.any_eq_true]
    exact ⟨⟨x, hx, decide_eq_true (hall x hin).2⟩, ⟨x, hx, decide_eq_true (hall x hin).1⟩⟩
  have hbytes := h.bytes_eq
  rw [List.filter_eq_self.mpr hmeets] at hbytes
  constructor
  · rw [← hs.samples]
    -- A chunk is decoded from its bytes.
    have hdecode : ∀ chunks : List XORChunk, (chunks.flatMap fun c ↦ c.samples.1) =
        (chunks.map XORChunk.bytes).flatMap fun bytes ↦ (XORIterator.new bytes).drain.1 := by
      intro chunks
      rw [List.flatMap_map]
      rfl
    unfold MemSeries.samples
    rw [hdecode, hdecode, hbytes]
  · have hlength := congrArg List.length hbytes
    rwa [List.length_map, List.length_map] at hlength

/-- The long series is the one answer to a query for its label. -/
theorem select_counting {ops : WalOps W L S K} {h : Head W}
    (hr : Reaches ops h fun labels ↦ samplesUnder labels (countingSamples 5000)) :
    ∃ s, s.Holds (countUp 5000) ∧ s.labels = sampleLabels ∧
      h.select [.equal (.single 97) (.single 98)] 0 4999 = .ok [answerFor 0 4999 s] := by
  have hc := hr.contains
  have hsample := samplesUnder_counting_sample 5000
  have hlen := length_countUp 5000
  have hmem : (⟨20, 20⟩ : Sample) ∈ countUp 5000 :=
    List.mem_map.mpr ⟨20, List.mem_range.mpr (by decide), rfl⟩
  obtain ⟨s, hs, hlabels⟩ := @Contains.exists_series _ _ hc sampleLabels (by
    rw [hsample]
    exact List.ne_nil_of_mem hmem)
  have hholds := hc.holds (hc.wf.mem_allSeries.mp hs)
  rw [hlabels, hsample] at hholds
  have hselected : selected [.equal (.single 97) (.single 98)] 0 4999 s = true := by
    unfold selected
    rw [Bool.and_eq_true, Bool.and_eq_true, hlabels]
    refine ⟨⟨decide_eq_true (hholds.numSamples_ne_zero.mpr ?_), by decide⟩,
      hholds.any_meets hmem (by decide) (by decide)⟩
    rw [hlen]
    decide
  refine ⟨s, hholds, hlabels, ?_⟩
  rw [hc.select (List.cons_ne_nil _ _), hc.filter_allSeries hs hselected]
  · rfl
  · intro s' hs' hselected'
    unfold selected at hselected'
    rw [Bool.and_eq_true, Bool.and_eq_true] at hselected'
    obtain ⟨⟨hcount, hmatch⟩, -⟩ := hselected'
    have hsome := (hc.holds (hc.wf.mem_allSeries.mp hs')).numSamples_ne_zero.mp (of_decide_eq_true hcount)
    rcases counting_labels (fun hnil ↦ hsome (by rw [hnil]; rfl)) with heq | heq
    · exact heq.trans hlabels.symm
    · rw [heq] at hmatch
      exact absurd hmatch (by decide)

/-- A query that refuses one of the two series by its label, and one that refuses it by its times. -/
theorem select_reached_counting :
    ∃ (h : Head (List Bytes)) (content : Labels → List Sample) (q q' : QueryResult),
      Reaches listWal h content ∧ content sampleLabels = countUp 5000 ∧
      content otherLabels = [⟨3, 1⟩, ⟨8, 2⟩] ∧
      h.select [.equal (.single 97) (.single 98)] 0 4999 = .ok [q] ∧ q.labels = sampleLabels ∧
      2 ≤ q.chunks.length ∧ (q.chunks.flatMap fun c ↦ c.samples.1) = countUp 5000 ∧
      h.select [.equal (.single 98) Str.empty] 9 4999 = .ok [q'] ∧ q'.labels = sampleLabels := by
  obtain ⟨h, hr⟩ := @exists_counting 5000 (by decide)
  have hc := hr.contains
  have hsample := samplesUnder_counting_sample 5000
  have hother := samplesUnder_counting_other 5000
  have hlen := length_countUp 5000
  obtain ⟨-, hall, results, hselect, hanswers⟩ := select_reached hr
    (List.cons_ne_nil (Matcher.equal (.single 97) (.single 98)) []) 0 4999
  obtain ⟨-, -, results', hselect', hanswers'⟩ := select_reached hr
    (List.cons_ne_nil (Matcher.equal (.single 98) Str.empty) []) 9 4999
  obtain ⟨s, hs, hlabels⟩ := hall sampleLabels (by
    intro hnil
    rw [hsample] at hnil
    rw [hnil] at hlen
    cases hlen)
  have hholds := hc.holds (hc.wf.mem_allSeries.mp hs)
  rw [hlabels, hsample] at hholds
  have hmem : (⟨20, 20⟩ : Sample) ∈ countUp 5000 :=
    List.mem_map.mpr ⟨20, List.mem_range.mpr (by decide), rfl⟩
  have hcount : (samplesUnder s.labels (countingSamples 5000)).length % 2 ^ 64 ≠ 0 := by
    rw [hlabels, hsample, hlen]
    decide
  have honly : ∀ {s' : MemSeries}, (samplesUnder s'.labels (countingSamples 5000)).length % 2 ^ 64 ≠ 0 →
      s'.labels ≠ otherLabels → s'.labels = s.labels := by
    intro s' hlen' hne
    rcases counting_labels (fun hnil ↦ hlen' (by rw [hnil]; rfl)) with heq | heq
    · exact heq.trans hlabels.symm
    · exact absurd heq hne
  -- The label value refuses the other series.
  rw [hc.filter_allSeries hs (by
    rw [Bool.and_eq_true, Bool.and_eq_true]
    refine ⟨⟨decide_eq_true hcount, ?_⟩, hholds.any_meets hmem (by decide) (by decide)⟩
    rw [hlabels]
    decide) fun s' _ hp ↦ by
      rw [Bool.and_eq_true, Bool.and_eq_true] at hp
      apply honly (of_decide_eq_true hp.1.1)
      intro heq
      rw [heq] at hp
      exact absurd hp.1.2 (by decide)] at hanswers
  -- Its last time does.
  rw [hc.filter_allSeries hs (by
    rw [Bool.and_eq_true, Bool.and_eq_true]
    refine ⟨⟨decide_eq_true hcount, ?_⟩, hholds.any_meets hmem (by decide) (by decide)⟩
    rw [hlabels]
    decide) fun s' hs' hp ↦ by
      rw [Bool.and_eq_true, Bool.and_eq_true] at hp
      apply honly (of_decide_eq_true hp.1.1)
      intro heq
      obtain ⟨c, hc', hmeets⟩ := List.any_eq_true.mp hp.2
      unfold chunkMeets at hmeets
      rw [Bool.and_eq_true, List.any_eq_true, List.any_eq_true] at hmeets
      obtain ⟨-, x, hx, hle⟩ := hmeets
      have hholds' := hc.holds (hc.wf.mem_allSeries.mp hs')
      have hin : x ∈ s'.samples := List.mem_flatMap.mpr ⟨c, hc', hx⟩
      rw [hholds'.samples, heq, hother] at hin
      rcases List.mem_pair.mp hin with rfl | rfl
      · exact absurd hle (by decide)
      · exact absurd hle (by decide)] at hanswers'
  cases hanswers with
  | @cons _ q _ _ hanswer hrest =>
    cases hrest
    cases hanswers' with
    | @cons _ q' _ _ hanswer' hrest' =>
      cases hrest'
      rw [hlabels, hsample] at hanswer
      obtain ⟨hdecoded, hlength⟩ := hanswer.decoded_all hholds times_countUp
      have hchunks := hholds.length_bounds.2
      refine ⟨h, _, q, q', hr, hsample, hother, hselect, hanswer.labels_eq.trans hlabels, ?_, hdecoded,
        hselect', hanswer'.labels_eq.trans hlabels⟩
      omega

end MerlionTsdb.Head
