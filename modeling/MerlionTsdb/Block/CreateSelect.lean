import MerlionTsdb.Block.Limits
import MerlionTsdb.Block.Wrapped

/-!
# Queries on a created block

A block that keeps within its format answers every query with a filter over the series of its input.  One
that does not may answer with series which it never had.
-/

namespace MerlionTsdb.Block

open Ascending Chunkenc Encoding Model

/-- A query on a block created within the format answers, in the order of the input, for just those series
that all matchers accept and that have a chunk in the range, each with these chunks. -/
theorem select_createFromSeries {text : JsonText} {calls : CreateCalls} {series : List SeriesInput}
    {dir : BlockDir} {blk : Block} (hok : createFromSeries text calls series = .ok dir)
    (hopen : openDir text (some dir) = .ok blk) (hfits : WithinFormat calls series)
    (hlabeled : ∀ s ∈ series, s.chunks ≠ [] → s.labels.entries ≠ [])
    (hvalue : ∀ s ∈ series, ∀ l ∈ s.labels.entries, l.value ≠ Str.empty)
    (hname : ∀ s ∈ series, ∀ l ∈ s.labels.entries, 0 ∉ l.name.bytes)
    {matchers : List Matcher} (hne : matchers ≠ []) (hmatchers : ∀ m ∈ matchers, 0 ∉ m.name.bytes)
    (mint maxt : Int64) :
    ∃ results, blk.select matchers mint maxt = .ok results ∧
      List.Forall₂ (AnswersFor blk mint maxt)
        (series.filter fun s ↦ matchers.all (fun m ↦ m.accepts (s.labels.valueOf m.name)) &&
          s.meets mint maxt) results := by
  obtain ⟨rows, hstores, hinputs⟩ := createFromSeries_stores hok hfits hopen
  have hkept : ∀ r ∈ rows, r.prepared.input ∈ series ∧ r.prepared.input.chunks ≠ [] := by
    intro r hr
    have hmem : r.prepared.input ∈ series.filter SeriesInput.kept := by
      rw [← hinputs]
      exact List.mem_map_of_mem hr
    obtain ⟨hin, hkept⟩ := List.mem_filter.mp hmem
    exact ⟨hin, by simpa [SeriesInput.kept] using hkept⟩
  have ho : Ordinary rows :=
    ⟨fun r hr ↦ hlabeled _ (hkept r hr).1 (hkept r hr).2, fun r hr ↦ hvalue _ (hkept r hr).1⟩
  have hexact : ∀ m ∈ matchers, ExactFor blk rows m.name := fun m hm ↦
    exactFor_of_nul hstores (hmatchers m hm) fun r hr ↦ hname _ (hkept r hr).1
  obtain ⟨results, hselect, hresults⟩ := hstores.select_eq ho hne hexact mint maxt
  refine ⟨results, hselect, ?_⟩
  rw [hinputs, List.filter_filter] at hresults
  -- A series without chunks has none in the range.
  have hsame : series.filter (fun s ↦ (labelsMatchAll s.labels matchers && s.meets mint maxt) &&
      s.kept) = series.filter fun s ↦ matchers.all (fun m ↦ m.accepts (s.labels.valueOf m.name)) &&
        s.meets mint maxt := by
    apply List.filter_congr
    intro s _
    unfold labelsMatchAll SeriesInput.kept SeriesInput.meets
    cases s.chunks with
    | nil => simp
    | cons ci chunks => simp
  rw [hsame] at hresults
  exact hresults

/-- A series with one label and one chunk. -/
def narrowSeries : SeriesInput where
  labels := wideLabels
  chunks := [oneSample]
  length_le := hidingSeries.length_le

/-- The metadata of a block with just that series. -/
def narrowMeta : BlockMeta where
  version := 1
  ulid := Str.empty
  minTime := 1
  maxTime := 1
  stats := { numSamples := 1, numSeries := 1, numChunks := 1 }
  compaction := { level := 1, sources := [Str.empty] }

/-- `a="b"`. -/
def narrowMatcher : Matcher := .equal (.single 97) (.single 98)

/-- The block is created, opened and queried. -/
theorem exists_narrow :
    ∃ dir blk found,
      createFromSeries (JsonText.of [narrowMeta]) { ulid := Str.empty } [narrowSeries] = .ok dir ∧
      openDir (JsonText.of [narrowMeta]) (some dir) = .ok blk ∧
      blk.select [narrowMatcher] 0 5 = .ok found := by
  have hall : (do
      let dir ← createFromSeries (JsonText.of [narrowMeta]) { ulid := Str.empty } [narrowSeries]
      let blk ← openDir (JsonText.of [narrowMeta]) (some dir)
      blk.select [narrowMatcher] 0 5).isOk = true := by decide +kernel
  obtain ⟨found, hall⟩ := exists_of_isOk hall
  obtain ⟨dir, hok, hall⟩ := bind_ok hall
  obtain ⟨blk, hopen, hselect⟩ := bind_ok hall
  exact ⟨dir, blk, found, hok, hopen, hselect⟩

theorem withinFormat_narrow : WithinFormat { ulid := Str.empty } [narrowSeries] :=
  withinFormat_of_weight _ (by decide)

/-- `{a="b", b="x"}`. -/
def longLabels : Labels where
  entries := [⟨.single 97, .single 98⟩, ⟨.single 98, .single 120⟩]
  sorted := by decide
  length_le := by decide

/-- Chunks at several times, also in one series. -/
def mixedSeries : List SeriesInput :=
  [⟨wideLabels, [oneSample, ⟨4, 5, ⟨[0, 2, 8, 0, 0, 0, 0, 0, 0, 0, 3, 1, 0], by decide⟩⟩], by decide⟩,
    ⟨longLabels, [⟨3, 3, ⟨[0, 1, 6, 0, 0, 0, 0, 0, 0, 0, 4], by decide⟩⟩], by decide⟩,
    ⟨.single ⟨.single 97, .single 99⟩, [⟨2, 2, ⟨[0, 1, 4, 0, 0, 0, 0, 0, 0, 0, 9], by decide⟩⟩], by decide⟩,
    ⟨.single ⟨.single 98, .single 120⟩, [oneSample], hidingSeries.length_le⟩]

def mixedMeta : BlockMeta where
  version := 1
  ulid := Str.empty
  minTime := 1
  maxTime := 5
  stats := { numSamples := 6, numSeries := 4, numChunks := 5 }
  compaction := { level := 1, sources := [Str.empty] }

/-- A query that refuses two of the four series, and one that refuses a third by the label it has. -/
theorem select_createFromSeries_mixed :
    ∃ (dir : BlockDir) (blk : Block) (results results' : List QueryResult),
      createFromSeries (JsonText.of [mixedMeta]) { ulid := Str.empty } mixedSeries = .ok dir ∧
      openDir (JsonText.of [mixedMeta]) (some dir) = .ok blk ∧
      blk.select [narrowMatcher] 2 5 = .ok results ∧
      List.Forall₂ (AnswersFor blk 2 5) (mixedSeries.take 2) results ∧
      (mixedSeries.take 2).map (fun s ↦ (inRange 2 5 s.chunks).map ChunkInput.minTime) = [[4], [3]] ∧
      blk.select [narrowMatcher, .equal (.single 98) Str.empty] 1 3 = .ok results' ∧
      List.Forall₂ (AnswersFor blk 1 3) (mixedSeries.take 1) results' ∧
      (mixedSeries.take 1).map (fun s ↦ (inRange 1 3 s.chunks).map ChunkInput.minTime) = [[1]] := by
  have hall : (do
      let dir ← createFromSeries (JsonText.of [mixedMeta]) { ulid := Str.empty } mixedSeries
      openDir (JsonText.of [mixedMeta]) (some dir)).isOk = true := by decide +kernel
  obtain ⟨blk, hall⟩ := exists_of_isOk hall
  obtain ⟨dir, hok, hopen⟩ := bind_ok hall
  have hfits : WithinFormat { ulid := Str.empty } mixedSeries := withinFormat_of_weight _ (by decide)
  obtain ⟨results, hselect, hresults⟩ := select_createFromSeries hok hopen hfits (by decide) (by decide)
    (by decide) (List.cons_ne_nil narrowMatcher []) (by decide) 2 5
  obtain ⟨results', hselect', hresults'⟩ := select_createFromSeries hok hopen hfits (by decide) (by decide)
    (by decide) (List.cons_ne_nil narrowMatcher [.equal (.single 98) Str.empty]) (by decide) 1 3
  have hfilter : mixedSeries.filter (fun s ↦
      [narrowMatcher].all (fun m ↦ m.accepts (s.labels.valueOf m.name)) && s.meets 2 5) =
        mixedSeries.take 2 := by decide
  have hfilter' : mixedSeries.filter (fun s ↦
      [narrowMatcher, .equal (.single 98) Str.empty].all (fun m ↦
        m.accepts (s.labels.valueOf m.name)) && s.meets 1 3) = mixedSeries.take 1 := by decide
  rw [hfilter] at hresults
  rw [hfilter'] at hresults'
  exact ⟨dir, blk, results, results', hok, hopen, hselect, hresults, by decide, hselect', hresults',
    by decide⟩

/-- Behind 64 GiB of index, a query on ordinary series answers with a series that is none of them. -/
theorem select_createFromSeries_wrapped :
    ∃ text calls series dir blk m results,
      createFromSeries text calls series = .ok dir ∧ openDir text (some dir) = .ok blk ∧
      (∀ s ∈ series, s.chunks ≠ [] → s.labels.entries ≠ []) ∧
      (∀ s ∈ series, ∀ l ∈ s.labels.entries, l.value ≠ Str.empty) ∧
      (∀ s ∈ series, ∀ l ∈ s.labels.entries, 0 ∉ l.name.bytes) ∧ 0 ∉ m.name.bytes ∧
      blk.select [m] 0 0 = .ok results ∧
      ¬ List.Forall₂ (AnswersFor blk 0 0)
        (series.filter fun s ↦ m.accepts (s.labels.valueOf m.name) && s.meets 0 0) results := by
  obtain ⟨n, h, text, dir, blk, hok, hopen, hselect, -, -⟩ := exists_hiding
  have hwide : (wideSeries h).labels = wideLabels := rfl
  refine ⟨text, _, _, dir, blk, _, _, hok, hopen, ?_, ?_, ?_, ?_, hselect, ?_⟩
  · intro s hs
    rw [List.mem_pair] at hs
    rcases hs with rfl | rfl
    · exact fun _ ↦ List.cons_ne_nil _ _
    · exact fun _ ↦ List.cons_ne_nil _ _
  · intro s hs
    rw [List.mem_pair] at hs
    rcases hs with rfl | rfl
    · rw [hwide]
      decide
    · decide
  · intro s hs
    rw [List.mem_pair] at hs
    rcases hs with rfl | rfl
    · rw [hwide]
      decide
    · decide
  · decide
  · -- No chunk of the input is at time 0.
    have hout : ∀ s ∈ [wideSeries h, hidingSeries], s.meets 0 0 = false := by
      intro s hs
      unfold SeriesInput.meets
      rw [List.any_eq_false]
      intro ci hci
      have hone : ci = oneSample := by
        rw [List.mem_pair] at hs
        rcases hs with rfl | rfl
        · exact List.eq_of_mem_replicate hci
        · exact List.mem_singleton.mp hci
      rw [hone]
      decide
    have hnone : [wideSeries h, hidingSeries].filter (fun s ↦
        (Matcher.equal ⟨[97], by decide⟩ hiddenValue).accepts
          (s.labels.valueOf (Matcher.equal ⟨[97], by decide⟩ hiddenValue).name) && s.meets 0 0) = [] := by
      rw [List.filter_eq_nil_iff]
      intro s hs
      rw [hout s hs, Bool.and_false]
      exact Bool.false_ne_true
    intro hall
    rw [hnone] at hall
    cases hall

end MerlionTsdb.Block
