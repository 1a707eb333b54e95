import MerlionTsdb.Block.CompactSeries
import MerlionTsdb.Lib.LastWrite

/-!
# What blocks say

A database has at most one value for each label set and time.  What a list of series says is the last sample
of each time; a flush keeps what the head says, and a compaction lays its inputs over each other.
-/

namespace MerlionTsdb.Block

open Chunkenc Encoding Head LastWrite Model

/-! ## Databases -/

abbrev Database := Labels × Int64 → Option UInt64

/-- The last value of each time in the logs of the label sets. -/
def lastValues (log : Labels → List Sample) : Database :=
  fun k ↦ (lastAt Sample.t (log k.1) k.2).map Sample.v

/-- Label sets with a label: series without one are in no posting list. -/
def labeledKey (k : Labels × Int64) : Bool := !k.1.entries.isEmpty

theorem lastValues_flatMap {β : Type} (groups : List β) (logs : β → Labels → List Sample) :
    lastValues (fun labels ↦ groups.flatMap fun g ↦ logs g labels) =
      layers (groups.map fun g ↦ lastValues (logs g)) := by
  induction groups with
  | nil => rfl
  | cons g groups ih =>
    rw [List.map_cons, layers_cons, ← ih]
    funext k
    unfold lastValues overlay
    dsimp only
    rw [List.flatMap_cons, lastAt_append]
    exact Option.map_or

/-! ## Series -/

/-- The samples under a label set, in the order of the series and of their chunks. -/
def samplesIn (series : List SeriesInput) (labels : Labels) : List Sample :=
  (series.filter fun s ↦ s.labels = labels).flatMap fun s ↦ decoded s.chunks

/-- What the series say. -/
def contentOf (series : List SeriesInput) : Database := lastValues (samplesIn series)

theorem samplesIn_cons (s : SeriesInput) (series : List SeriesInput) (labels : Labels) :
    samplesIn (s :: series) labels =
      (if s.labels = labels then decoded s.chunks else []) ++ samplesIn series labels := by
  unfold samplesIn
  rw [List.filter_cons]
  by_cases h : s.labels = labels
  · simp [h]
  · simp [h]

/-- Series without chunks say nothing. -/
theorem samplesIn_kept (series : List SeriesInput) (labels : Labels) :
    samplesIn (series.filter SeriesInput.kept) labels = samplesIn series labels := by
  induction series with
  | nil => rfl
  | cons s series ih =>
    rw [List.filter_cons, samplesIn_cons]
    split
    · rw [samplesIn_cons, ih]
    · rename_i hempty
      have hnil : s.chunks = [] := by simpa [SeriesInput.kept] using hempty
      rw [ih, hnil]
      simp [decoded]

/-- When no two of them have the same label set, only one source has samples under it. -/
theorem flatMap_filter_of_nodup {β : Type} {l : β → Labels} (f : β → List Sample) {sources : List β}
    (h : (sources.map l).Nodup) {b : β} (hb : b ∈ sources) :
    (sources.filter fun b' ↦ l b' = l b).flatMap f = f b := by
  induction sources with
  | nil => cases hb
  | cons b' sources ih =>
    rw [List.map_cons, List.nodup_cons] at h
    rcases List.mem_cons.mp hb with rfl | hmem
    · have hnone : sources.filter (fun b' ↦ l b' = l b) = [] := by
        rw [List.filter_eq_nil_iff]
        intro b' hb' heq
        exact h.1 (List.mem_map.mpr ⟨b', hb', of_decide_eq_true heq⟩)
      rw [List.filter_cons_of_pos (by simp), hnone, List.flatMap_cons, List.flatMap_nil, List.append_nil]
    · have hne : l b' ≠ l b := by
        intro heq
        apply h.1
        rw [heq]
        exact List.mem_map_of_mem hmem
      rw [List.filter_cons_of_neg (by simpa using hne), ih h.2 hmem]

theorem flatMap_filter_eq_nil {β : Type} {l : β → Labels} (f : β → List Sample) {sources : List β}
    {labels : Labels} (h : labels ∉ sources.map l) :
    (sources.filter fun b ↦ l b = labels).flatMap f = [] := by
  have hnone : sources.filter (fun b ↦ l b = labels) = [] := by
    rw [List.filter_eq_nil_iff]
    intro b hb heq
    exact h (List.mem_map.mpr ⟨b, hb, of_decide_eq_true heq⟩)
  rw [hnone]
  rfl

/-! ## Flushes -/

/-- A chunk of the head decodes to its samples. -/
theorem CopiesSeries.decoded_eq {s : MemSeries} {si : SeriesInput} (h : CopiesSeries s si) :
    decoded si.chunks = s.samples := by
  unfold decoded MemSeries.samples
  rw [List.flatMap_def, List.flatMap_def]
  apply congrArg List.flatten
  apply Related.map_eq h.chunks.flip
  intro ci c hcopy
  unfold ChunkInput.decode
  rw [hcopy.bytes_eq]
  rfl

theorem nodup_labels_allSeries {st : SeriesStore} (h : st.WF) :
    (st.allSeries.map MemSeries.labels).Nodup := by
  unfold List.Nodup
  rw [List.pairwise_map]
  apply h.pairwise_allSeries.imp_of_mem
  intro s t hs ht hlt heq
  -- Two series with one label set would have the same reference.
  have hfind := h.findRef_eq_some.mpr ⟨s, h.mem_allSeries.mp hs, rfl⟩
  rw [heq, h.findRef_eq_some.mpr ⟨t, h.mem_allSeries.mp ht, rfl⟩] at hfind
  rw [Option.some_inj.mp hfind] at hlt
  exact UInt64.lt_irrefl _ hlt

/-- The input that `create_from_head` makes has all samples of the head, apart from a series whose counter
has come back to zero. -/
theorem samplesIn_headInputs {st : SeriesStore} {content : Labels → List Sample}
    (hc : Contains st content) {inputs : List SeriesInput} (hok : headInputs st.allSeries = .ok inputs)
    (labels : Labels) :
    samplesIn inputs labels =
      if (content labels).length % 2 ^ 64 = 0 then [] else content labels := by
  have hholds : ∀ s ∈ st.allSeries, s.Holds (content s.labels) := fun s hs ↦
    hc.holds (hc.wf.mem_allSeries.mp hs)
  have hcopies := headInputs_copies (fun s hs ↦ ⟨_, hholds s hs⟩) hok
  have hlabels : (st.allSeries.filter fun s ↦ s.numSamples ≠ 0).map MemSeries.labels =
      inputs.map SeriesInput.labels :=
    Related.map_eq hcopies fun s si hcopy ↦ hcopy.labels_eq.symm
  have hnodup : (inputs.map SeriesInput.labels).Nodup := by
    rw [← hlabels]
    exact (nodup_labels_allSeries hc.wf).sublist (List.filter_sublist.map _)
  by_cases hmem : labels ∈ inputs.map SeriesInput.labels
  · obtain ⟨si, hsi, rfl⟩ := List.mem_map.mp hmem
    obtain ⟨s, hs, hcopy⟩ := Related.exists_left hcopies hsi
    obtain ⟨hin, hne⟩ := List.mem_filter.mp hs
    have hh := hholds s hin
    unfold samplesIn
    rw [flatMap_filter_of_nodup _ hnodup hsi, hcopy.decoded_eq, hcopy.labels_eq,
      if_neg (hh.numSamples_ne_zero.mp (of_decide_eq_true hne)), hh.samples]
  · unfold samplesIn
    rw [flatMap_filter_eq_nil _ hmem]
    split
    · rfl
    · rename_i hlen
      -- A series of the store with this many samples is in the input.
      cases hfind : st.findRef labels with
      | none => exact (hc.absent hfind).symm
      | some ref =>
        obtain ⟨s, hget, rfl⟩ := hc.wf.findRef_eq_some.mp hfind
        have hin : s ∈ st.allSeries := by
          rw [hc.wf.mem_allSeries, hc.wf.ref_eq hget]
          exact hget
        have hkept := (hholds s hin).numSamples_ne_zero.mpr hlen
        rw [← hlabels] at hmem
        exact absurd (List.mem_map_of_mem (List.mem_filter.mpr ⟨hin, decide_eq_true hkept⟩)) hmem

/-! ## Compactions -/

theorem decoded_flatMap {β : Type} (groups : List β) (f : β → List ChunkInput) :
    decoded (groups.flatMap f) = groups.flatMap fun g ↦ decoded (f g) := List.flatMap_assoc

/-- Each merged series has the merged samples of its chunks. -/
theorem mergeAll_samples {merged : List (Labels × List ChunkInput)} {inputs : List SeriesInput}
    (hok : mergeAll merged = .ok inputs) :
    List.Forall₂ (fun e si ↦ si.labels = e.1 ∧ decoded si.chunks = dedupe (decoded e.2)) merged inputs := by
  induction merged generalizing inputs with
  | nil =>
    cases hok
    exact .nil
  | cons entry merged ih =>
    obtain ⟨out, si, rest, hout, hsi, hrest, rfl⟩ := mergeAll_cons_ok hok
    obtain ⟨hlabels, hchunks⟩ := ofChunks_ok hsi
    obtain ⟨-, runs, hencodes, hflat⟩ := verticalMerge_ok hout
    refine .cons ⟨hlabels, ?_⟩ (ih hrest)
    rw [hchunks, decoded_of_encodes hencodes, hflat]

/-- The samples of the entries that a block adds to a label set. -/
theorem samples_entriesOf (rows : List StoredSeries) (labels : Labels) :
    ((entriesOf rows).filter fun e ↦ e.1 = labels).flatMap (fun e ↦ decoded e.2) =
      if labels.entries = [] then [] else samplesIn (rows.map fun r ↦ r.prepared.input) labels := by
  induction rows with
  | nil =>
    split <;> rfl
  | cons r rows ih =>
    rw [List.map_cons, samplesIn_cons]
    unfold entriesOf at ih ⊢
    rw [List.filter_cons]
    by_cases hr : r.labels = labels
    · subst hr
      by_cases hnone : r.labels.entries = []
      · have hskip : ¬ r.labeled = true := by
          rw [StoredSeries.labeled_iff]
          simp [hnone]
        rw [if_neg hskip, ih, if_pos hnone, if_pos hnone]
      · have htake : r.labeled = true := by
          rw [StoredSeries.labeled_iff]
          exact List.exists_mem_of_ne_nil _ hnone
        rw [if_pos htake, List.map_cons, List.filter_cons_of_pos (by simp), List.flatMap_cons, ih,
          if_neg hnone, if_neg hnone, if_pos (show r.prepared.input.labels = r.labels from rfl)]
        rfl
    · have hother : r.prepared.input.labels ≠ labels := hr
      rw [if_neg hother, List.nil_append, ← ih]
      split
      · rw [List.map_cons, List.filter_cons_of_neg (by simpa using hr)]
      · rfl

theorem bucket_eq_nil {b : Merged} {labels : Labels} (h : labels ∉ Buckets.keys b) :
    Buckets.bucket b labels = [] := by
  have hnone : b.find? (fun e ↦ e.1 = labels) = none := by
    rw [List.find?_eq_none]
    intro e he heq
    exact h (List.mem_map.mpr ⟨e, he, of_decide_eq_true heq⟩)
  unfold Buckets.bucket
  rw [hnone]
  rfl

/-- The new block has the label sets of the buckets, each once. -/
theorem perm_labels_merged {b : Merged} {inputs : List SeriesInput}
    (order : Buckets.HashOrder (Labels × List ChunkInput)) (hok : mergeAll (order.order b) = .ok inputs) :
    (inputs.map SeriesInput.labels).Perm (Buckets.keys b) := by
  have hkeys : Buckets.keys (order.order b) = inputs.map SeriesInput.labels :=
    Related.map_eq (mergeAll_samples hok) fun e si h ↦ h.1.symm
  rw [← hkeys]
  exact (order.perm b).map Prod.fst

theorem nodup_labels_merged {entries : List (Labels × List ChunkInput)} {inputs : List SeriesInput}
    (order : Buckets.HashOrder (Labels × List ChunkInput))
    (hok : mergeAll (order.order (Buckets.appendAll [] entries)) = .ok inputs) :
    (inputs.map SeriesInput.labels).Nodup := by
  have hempty : (Buckets.keys ([] : Merged)).Nodup := List.nodup_nil
  exact (perm_labels_merged order hok).nodup_iff.mpr (Buckets.nodup_keys_appendAll hempty entries)

/-- Under a label set, the new block has the merged samples of all blocks, in their order. -/
theorem samplesIn_merged {rowss : List (List StoredSeries)} {inputs : List SeriesInput}
    (order : Buckets.HashOrder (Labels × List ChunkInput))
    (hok : mergeAll (order.order (Buckets.appendAll [] (rowss.flatMap entriesOf))) = .ok inputs)
    (labels : Labels) :
    samplesIn inputs labels = dedupe (if labels.entries = [] then [] else
      rowss.flatMap fun rows ↦ samplesIn (rows.map fun r ↦ r.prepared.input) labels) := by
  have hempty : (Buckets.keys ([] : Merged)).Nodup := List.nodup_nil
  have hnodup := Buckets.nodup_keys_appendAll hempty (rowss.flatMap entriesOf)
  -- The samples of the bucket are those of the blocks.
  have hbucket : decoded (Buckets.bucket (Buckets.appendAll [] (rowss.flatMap entriesOf)) labels) =
      if labels.entries = [] then [] else
        rowss.flatMap fun rows ↦ samplesIn (rows.map fun r ↦ r.prepared.input) labels := by
    rw [Buckets.bucket_appendAll, Buckets.bucket_nil, List.nil_append, decoded_flatMap,
      List.filter_flatMap, List.flatMap_assoc]
    simp only [samples_entriesOf]
    split
    · simp
    · rfl
  rw [← hbucket]
  by_cases hmem : labels ∈ inputs.map SeriesInput.labels
  · obtain ⟨si, hsi, rfl⟩ := List.mem_map.mp hmem
    obtain ⟨⟨key, chunks⟩, he, hlabels, hdecoded⟩ := Related.exists_left (mergeAll_samples hok) hsi
    dsimp only at hlabels hdecoded
    unfold samplesIn
    rw [flatMap_filter_of_nodup _ (nodup_labels_merged order hok) hsi, hdecoded, hlabels,
      ((Buckets.mem_iff hnodup).mp ((order.perm _).mem_iff.mp he)).2]
  · unfold samplesIn
    rw [flatMap_filter_eq_nil _ hmem,
      bucket_eq_nil fun hkey ↦ hmem ((perm_labels_merged order hok).mem_iff.mpr hkey)]
    rfl

/-- Merged samples say the same. -/
theorem lastAt_dedupe (samples : List Sample) :
    lastAt Sample.t (dedupe samples) = lastAt Sample.t samples := lastAt_lasts_stableSort samples

/-- The new block says what the blocks say of label sets with a label, laid over each other in the order of
the input. -/
theorem contentOf_merged {rowss : List (List StoredSeries)} {inputs : List SeriesInput}
    (order : Buckets.HashOrder (Labels × List ChunkInput))
    (hok : mergeAll (order.order (Buckets.appendAll [] (rowss.flatMap entriesOf))) = .ok inputs) :
    contentOf inputs = restrict labeledKey
      (layers (rowss.map fun rows ↦ contentOf (rows.map fun r ↦ r.prepared.input))) := by
  unfold contentOf
  rw [← lastValues_flatMap]
  funext k
  unfold lastValues restrict labeledKey
  rw [samplesIn_merged order hok, lastAt_dedupe]
  by_cases hnone : k.1.entries = []
  · simp [hnone, blank]
  · simp [hnone]

end MerlionTsdb.Block
