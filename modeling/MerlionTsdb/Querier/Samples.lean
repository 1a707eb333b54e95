import MerlionTsdb.Block.SelectSamples
import MerlionTsdb.Querier.Merge

/-!
# Samples in a merge

A query over blocks and heads returns every stored sample of the range as often as it is stored, and
compacting some of the blocks changes neither the times nor adds samples.
-/

namespace MerlionTsdb.Querier

open Ascending Block Chunkenc Encoding Head IndexSort LastWrite Model

/-! ## Heads -/

/-- The samples of a label set are in one series of the store. -/
theorem samples_allSeries {st : SeriesStore} {content : Labels → List Sample} (hc : Contains st content)
    (labels : Labels) :
    (st.allSeries.filter fun s ↦ s.labels = labels).flatMap MemSeries.samples = content labels := by
  by_cases hmem : labels ∈ st.allSeries.map MemSeries.labels
  · obtain ⟨s, hs, rfl⟩ := List.mem_map.mp hmem
    rw [flatMap_filter_of_nodup _ (nodup_labels_allSeries hc.wf) hs,
      (hc.holds (hc.wf.mem_allSeries.mp hs)).samples]
  · rw [flatMap_filter_eq_nil _ hmem]
    by_contra hne
    obtain ⟨s, hs, rfl⟩ := hc.exists_series (Ne.symm hne)
    exact hmem (List.mem_map_of_mem hs)

/-- The chunks in the answer for a series hold its samples of the range. -/
theorem window_answerFor (mint maxt : Int64) (s : MemSeries) :
    window mint maxt ((answerFor mint maxt s).chunks.flatMap fun c ↦ c.samples.1) =
      window mint maxt s.samples := by
  unfold answerFor
  rw [List.flatMap_map]
  apply window_flatMap_filter mint maxt
  intro c hc hout x hx
  unfold chunkMeets at hout
  rw [Bool.and_eq_false_iff, List.any_eq_false, List.any_eq_false] at hout
  unfold inWindow
  rw [Bool.and_eq_false_iff]
  rcases hout with hlate | hearly
  · exact Or.inr (by simpa using hlate x hx)
  · exact Or.inl (by simpa using hearly x hx)

/-- A head answers with all samples of the range under the label sets that the matchers accept, as long as no
sample counter has come back to zero. -/
theorem head_select_samples {W : Type} {h : Head W} {content : Labels → List Sample}
    (hc : Contains h.series content) (hlt : ∀ labels, (content labels).length < 2 ^ 64)
    {matchers : List Matcher} (hm : matchers ≠ []) (mint maxt : Int64) :
    ∃ results, h.select matchers mint maxt = .ok results ∧ ∀ labels,
      window mint maxt (answered results labels) =
        if labelsMatchAll labels matchers then window mint maxt (content labels) else [] := by
  refine ⟨_, hc.select hm mint maxt, fun labels ↦ ?_⟩
  rw [← samples_allSeries hc labels]
  have hselected : h.series.allSeries.filter (selected matchers mint maxt) =
      h.series.allSeries.filter fun s ↦ labelsMatchAll s.labels matchers &&
        (s.numSamples ≠ 0 && s.chunks.any (chunkMeets mint maxt)) := by
    apply List.filter_congr
    intro s _
    unfold selected
    rw [← Bool.and_assoc, Bool.and_comm (labelsMatchAll s.labels matchers)]
  rw [hselected]
  apply window_answered (p := fun s : MemSeries ↦
    decide (s.numSamples ≠ 0) && s.chunks.any (chunkMeets mint maxt))
  · intro s hs hout
    have hholds := hc.holds (hc.wf.mem_allSeries.mp hs)
    rw [Bool.and_eq_false_iff] at hout
    rcases hout with hzero | hnone
    · -- The series has no sample at all.
      have hlen := hlt s.labels
      have hwrap := mt hholds.numSamples_ne_zero.mpr (by simpa using hzero)
      have hnil : content s.labels = [] := List.length_eq_zero_iff.mp (by omega)
      rw [hholds.samples, hnil]
      rfl
    · have hfilter := window_answerFor mint maxt s
      unfold answerFor at hfilter
      rw [List.any_eq_false, ← List.filter_eq_nil_iff] at hnone
      rw [← hfilter, hnone]
      rfl
  · rw [List.forall₂_map_right_iff, List.forall₂_same]
    intro s _
    exact ⟨rfl, window_answerFor mint maxt s⟩

/-! ## Merges -/

/-- The samples that a query returns under the label set. -/
def returned (merged : List MergedSeries) (labels : Labels) : List Sample :=
  (merged.filter fun s ↦ s.labels = labels).flatMap fun s ↦ s.chunks.flatMap fun c ↦ c.samples.1

theorem map_fst_pairs {qr : QueryResult} (h : qr.chunks.length = qr.chunkMetas.length) :
    (pairs qr).map Prod.fst = qr.chunks := List.map_fst_zip h.le

/-- The merge returns the samples of all answers. -/
theorem perm_returned {results : List QueryResult} {merged : List MergedSeries}
    (h : MergeOf results merged) (hparallel : Parallel results) (labels : Labels) :
    (returned merged labels).Perm (answered results labels) := by
  unfold returned
  by_cases hmem : labels ∈ merged.map MergedSeries.labels
  · obtain ⟨s, hs, rfl⟩ := List.mem_map.mp hmem
    rw [flatMap_filter_of_nodup _ h.nodup hs]
    -- The chunks are those of the answers, in another order.
    have hchunks : s.chunks.Perm
        ((results.filter fun qr ↦ qr.labels = s.labels).flatMap QueryResult.chunks) := by
      have hperm := (h.pairs s hs).map Prod.fst
      rw [List.map_fst_zip (h.parallel s hs).le, List.map_flatMap] at hperm
      have hall : (results.filter fun qr ↦ qr.labels = s.labels).flatMap
          (fun qr ↦ (pairs qr).map Prod.fst) =
          (results.filter fun qr ↦ qr.labels = s.labels).flatMap QueryResult.chunks := by
        apply List.flatMap_congr
        intro qr hqr
        exact map_fst_pairs (hparallel qr (List.mem_of_mem_filter hqr))
      rw [hall] at hperm
      exact hperm
    apply (hchunks.flatMap_right _).trans
    rw [List.flatMap_assoc]
    exact List.Perm.refl _
  · rw [flatMap_filter_eq_nil _ hmem]
    have hnone : results.filter (fun qr ↦ qr.labels = labels) = [] := by
      rw [List.filter_eq_nil_iff]
      intro qr hqr heq
      exact hmem ((h.labels labels).mpr ⟨qr, hqr, of_decide_eq_true heq⟩)
    unfold answered
    rw [hnone]
    exact List.Perm.refl _

/-- The block holds the series, and finds their label sets. -/
structure BlockSource (text : JsonText) (blk : Block) (series : List SeriesInput) : Prop where
  opened : ∃ dir, Produced text dir series ∧ openDir text (some dir) = .ok blk
  spanned : Spanned series
  findable : ∀ s ∈ series, s.chunks ≠ [] → Findable s.labels

/-- The head has accepted the samples. -/
structure HeadSource {W : Type} (h : Head W) (content : Labels → List Sample) : Prop where
  reached : ∃ (L S K : Type) (ops : WalOps W L S K), Reaches ops h content
  length_lt : ∀ labels, (content labels).length < 2 ^ 64

/-- The samples of all sources under a label set. -/
def storedIn (seriess : List (List SeriesInput)) (contents : List (Labels → List Sample)) (labels : Labels) :
    List Sample :=
  (seriess.flatMap fun series ↦ samplesIn series labels) ++ contents.flatMap fun content ↦ content labels

theorem blockSources_answered {text : JsonText} {blocks : List Block} {seriess : List (List SeriesInput)}
    (h : List.Forall₂ (BlockSource text) blocks seriess) {matchers : List Matcher} (hm : matchers ≠ [])
    (mint maxt : Int64) :
    ∃ perBlock, List.Forall₂ (fun (blk : Block) found ↦ blk.select matchers mint maxt = .ok found)
        blocks perBlock ∧
      ∀ labels, window mint maxt (answered perBlock.flatten labels) =
        if labelsMatchAll labels matchers then
          window mint maxt (seriess.flatMap fun series ↦ samplesIn series labels)
        else [] := by
  induction h with
  | nil =>
    refine ⟨[], .nil, fun labels ↦ ?_⟩
    split <;> rfl
  | @cons blk series blocks seriess hsource _ ih =>
    obtain ⟨perBlock, hselects, hwindow⟩ := ih
    obtain ⟨dir, hproduced, hopen⟩ := hsource.opened
    obtain ⟨found, hselect, hfound⟩ :=
      hproduced.select_samples hopen hsource.spanned hsource.findable hm mint maxt
    refine ⟨found :: perBlock, .cons hselect hselects, fun labels ↦ ?_⟩
    rw [List.flatten_cons, answered_append, window_append, hwindow, hfound, List.flatMap_cons, window_append]
    split <;> rfl

theorem headSources_answered {W : Type} {heads : List (Head W)} {contents : List (Labels → List Sample)}
    (h : List.Forall₂ HeadSource heads contents) {matchers : List Matcher} (hm : matchers ≠ [])
    (mint maxt : Int64) :
    ∃ perHead, List.Forall₂ (fun (hd : Head W) found ↦ hd.select matchers mint maxt = .ok found)
        heads perHead ∧
      ∀ labels, window mint maxt (answered perHead.flatten labels) =
        if labelsMatchAll labels matchers then
          window mint maxt (contents.flatMap fun content ↦ content labels)
        else [] := by
  induction h with
  | nil =>
    refine ⟨[], .nil, fun labels ↦ ?_⟩
    split <;> rfl
  | @cons hd content heads contents hsource _ ih =>
    obtain ⟨perHead, hselects, hwindow⟩ := ih
    obtain ⟨L, S, K, ops, hreach⟩ := hsource.reached
    obtain ⟨found, hselect, hfound⟩ :=
      head_select_samples hreach.contains hsource.length_lt hm mint maxt
    refine ⟨found :: perHead, .cons hselect hselects, fun labels ↦ ?_⟩
    rw [List.flatten_cons, answered_append, window_append, hwindow, hfound, List.flatMap_cons, window_append]
    split <;> rfl

/-- A query over blocks and heads succeeds, and returns the samples of the range under the label sets that
the matchers accept, each as often as the sources have it. -/
theorem select_stored {W : Type} {q : Querier W} {text : JsonText} {seriess : List (List SeriesInput)}
    {contents : List (Labels → List Sample)}
    (hblocks : List.Forall₂ (BlockSource text) q.blocks.reduceOption seriess)
    (hheads : List.Forall₂ HeadSource q.heads.reduceOption contents) {matchers : List Matcher}
    (hm : matchers ≠ []) (mint maxt : Int64)
    (hashOrder : Buckets.HashOrder (Labels × List (XORChunk × ChunkMeta))) (sorter : Sorter Int64) :
    ∃ merged, q.select hashOrder sorter matchers mint maxt = .ok merged ∧
      ∀ labels, (window mint maxt (returned merged labels)).Perm
        (if labelsMatchAll labels matchers then window mint maxt (storedIn seriess contents labels)
          else []) := by
  obtain ⟨perBlock, hperBlock, hblockWindow⟩ := blockSources_answered hblocks hm mint maxt
  obtain ⟨perHead, hperHead, hheadWindow⟩ := headSources_answered hheads hm mint maxt
  have hanswers : Answers q matchers mint maxt (perBlock.flatten ++ perHead.flatten) :=
    ⟨perBlock, perHead, hperBlock, hperHead, rfl⟩
  -- A skipped block has no answer.
  have hskip : ∀ blk ∈ q.blocks.reduceOption, outside blk mint maxt = true →
      blk.select matchers mint maxt = .ok [] := by
    intro blk hblk hout
    obtain ⟨series, -, hsource⟩ := Related.exists_right hblocks hblk
    obtain ⟨dir, hproduced, hopen⟩ := hsource.opened
    obtain ⟨rows, hopened⟩ := hproduced.opened hopen
    obtain ⟨found, -, hselect⟩ := Related.exists_right hperBlock hblk
    rw [hselect, select_of_outside hopened hout hselect]
  obtain ⟨merged, hselect, hmerge⟩ := select_of_answers hm hanswers hskip hashOrder sorter
  refine ⟨merged, hselect, fun labels ↦ ?_⟩
  have hperm := (perm_returned hmerge hanswers.parallel labels).filter (inWindow mint maxt)
  apply hperm.trans
  have hsame : window mint maxt (answered (perBlock.flatten ++ perHead.flatten) labels) =
      if labelsMatchAll labels matchers then window mint maxt (storedIn seriess contents labels) else [] := by
    rw [answered_append, window_append, hblockWindow, hheadWindow]
    unfold storedIn
    rw [window_append]
    split <;> rfl
  rw [← hsame]
  exact List.Perm.refl _

end MerlionTsdb.Querier
