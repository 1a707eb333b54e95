import MerlionTsdb.Block.HistorySelect

/-!
# Compactions in other groups

A compacted series is encoded anew from its samples alone.  Blocks that were compacted from the same first
blocks, in whatever groups, give the same answers bit for bit; only the order of the series may differ.
-/

namespace MerlionTsdb.Block

open Ascending Chunkenc Encoding Head LastWrite Model

/-! ## Encoded anew -/

/-- The last steps of `vertical_merge`: the samples go to a new series, and its chunks are copied. -/
def encodeSamples (labels : Labels) (samples : List Sample) : Except Failure (List ChunkInput) :=
  if samples.isEmpty then .ok []
  else do
    let ms ← appendSamples { ref := 0, labels := labels } samples
    mergedChunks ms.chunks

/-- The chunks of the series depend only on its labels and its samples. -/
def Canonical (s : SeriesInput) : Prop := encodeSamples s.labels (decoded s.chunks) = .ok s.chunks

theorem mergeAll_canonical {merged : List (Labels × List ChunkInput)} {inputs : List SeriesInput}
    (hok : mergeAll merged = .ok inputs) : ∀ s ∈ inputs, Canonical s := by
  induction merged generalizing inputs with
  | nil =>
    cases hok
    exact fun _ hs ↦ absurd hs List.not_mem_nil
  | cons entry merged ih =>
    obtain ⟨out, si, rest, hout, hsi, hrest, rfl⟩ := mergeAll_cons_ok hok
    obtain ⟨hlabels, hchunks⟩ := ofChunks_ok hsi
    obtain ⟨herrs, runs, hencodes, hflat⟩ := verticalMerge_ok hout
    intro s hs
    rcases List.mem_cons.mp hs with rfl | hmem
    · unfold Canonical
      rw [hlabels, hchunks, decoded_of_encodes hencodes, hflat]
      unfold verticalMerge at hout
      rw [decodeInputs_ok herrs, ok_bind] at hout
      exact hout
    · exact ih hrest s hmem

theorem Canonical.eq {s s' : SeriesInput} (h : Canonical s) (h' : Canonical s')
    (hlabels : s.labels = s'.labels) (hdecoded : decoded s.chunks = decoded s'.chunks) : s = s' := by
  unfold Canonical at h h'
  rw [hlabels, hdecoded, h'] at h
  obtain ⟨labels, chunks, hlen⟩ := s
  obtain ⟨labels', chunks', hlen'⟩ := s'
  dsimp only at hlabels h
  cases hlabels
  cases Except.ok.inj h
  rfl

/-- Series as `compact` writes them. -/
structure Rebuilt (inputs : List SeriesInput) : Prop where
  canonical : ∀ s ∈ inputs, Canonical s
  nodup : (inputs.map SeriesInput.labels).Nodup
  ne_nil : ∀ s ∈ inputs, s.chunks ≠ [] → samplesIn inputs s.labels ≠ []
  merged : ∀ labels, ∃ samples, samplesIn inputs labels = dedupe samples

theorem CompactedFrom.rebuilt {text : JsonText} {parts : List Part} {p : Part}
    (h : CompactedFrom text parts p) (hparts : ∀ q ∈ parts, Compacted text q) : Rebuilt p.series := by
  obtain ⟨calls, blocks, created, m, -, hrun, -⟩ := h.made
  obtain ⟨rowss, hmerge, -⟩ := hrun.exists_rows fun q hq ↦ (hparts q hq).produced
  constructor
  · exact mergeAll_canonical hmerge
  · exact nodup_labels_merged calls.order hmerge
  · exact fun s hs hne ↦ samplesIn_ne_nil (fun _ _ hlt ↦ le_of_lt hlt) (mergeAll_runs hmerge) hs hne
  · exact fun labels ↦ ⟨_, samplesIn_merged calls.order hmerge labels⟩

namespace Rebuilt

variable {inputs inputs' : List SeriesInput}

/-- Of each time there is one sample, which the content tells. -/
theorem filter_eq (h : Rebuilt inputs) (labels : Labels) (t : Int64) :
    (samplesIn inputs labels).filter (fun x ↦ x.t = t) =
      ((contentOf inputs (labels, t)).map fun v ↦ (⟨t, v⟩ : Sample)).toList := by
  obtain ⟨samples, heq⟩ := h.merged labels
  have hfilter : (dedupe samples).filter (fun x ↦ x.t = t) = (lastAt Sample.t samples t).toList :=
    StableSort.filter_lasts_stableSort samples t
  unfold contentOf lastValues
  rw [heq, hfilter, lastAt_dedupe]
  cases hlast : lastAt Sample.t samples t with
  | none => rfl
  | some x =>
    obtain ⟨-, rfl⟩ := lastAt_mem hlast
    rfl

/-- The content tells all samples. -/
theorem samplesIn_eq (h : Rebuilt inputs) (h' : Rebuilt inputs') (hsame : contentOf inputs = contentOf inputs')
    (labels : Labels) : samplesIn inputs labels = samplesIn inputs' labels := by
  have hasc : ∀ {inputs : List SeriesInput}, Rebuilt inputs →
      (samplesIn inputs labels).Pairwise fun x y ↦ x.t < y.t := by
    intro inputs h
    obtain ⟨samples, heq⟩ := h.merged labels
    rw [heq]
    exact (merges_dedupe samples).ascending
  apply StableSort.eq_of_filter (hasc h) (hasc h')
  intro t
  rw [h.filter_eq, h'.filter_eq, hsame]

theorem mem_of_content (h : Rebuilt inputs) (h' : Rebuilt inputs') (hsame : contentOf inputs = contentOf inputs')
    {s : SeriesInput} (hs : s ∈ inputs.filter SeriesInput.kept) : s ∈ inputs'.filter SeriesInput.kept := by
  obtain ⟨hmem, hkept⟩ := List.mem_filter.mp hs
  have hsome := h.ne_nil s hmem (by simpa [SeriesInput.kept] using hkept)
  have hsamples := h.samplesIn_eq h' hsame s.labels
  -- The label set has samples in the other block, too.
  have hlabels : s.labels ∈ inputs'.map SeriesInput.labels := by
    by_contra hout
    apply hsome
    rw [hsamples]
    exact flatMap_filter_eq_nil _ hout
  obtain ⟨s', hs', heq⟩ := List.mem_map.mp hlabels
  have hone : samplesIn inputs s.labels = decoded s.chunks := flatMap_filter_of_nodup _ h.nodup hmem
  have hone' : samplesIn inputs' s'.labels = decoded s'.chunks := flatMap_filter_of_nodup _ h'.nodup hs'
  rw [heq, ← hsamples, hone] at hone'
  rw [(h.canonical s hmem).eq (h'.canonical s' hs') heq.symm hone'] at hkept ⊢
  exact List.mem_filter.mpr ⟨hs', hkept⟩

/-- With the same content they are the same series, apart from those without chunks. -/
theorem perm (h : Rebuilt inputs) (h' : Rebuilt inputs') (hsame : contentOf inputs = contentOf inputs') :
    (inputs.filter SeriesInput.kept).Perm (inputs'.filter SeriesInput.kept) := by
  have hnodup : ∀ {inputs : List SeriesInput}, Rebuilt inputs → (inputs.filter SeriesInput.kept).Nodup :=
    fun h ↦ (List.Nodup.of_map _ h.nodup).filter _
  rw [List.perm_ext_iff_of_nodup (hnodup h) (hnodup h')]
  intro s
  exact ⟨h.mem_of_content h' hsame, h'.mem_of_content h hsame.symm⟩

end Rebuilt

/-! ## Answers -/

/-- What a compacted block answers, as a caller sees it. -/
theorem CompactedFrom.select_view {text : JsonText} {parts : List Part} {p : Part} {blk : Block}
    (h : CompactedFrom text parts p) (hopen : openDir text (some p.dir) = .ok blk)
    (hfound : ∀ s ∈ p.series, s.chunks ≠ [] → Findable s.labels) {matchers : List Matcher}
    (hm : matchers ≠ []) (mint maxt : Int64) :
    ∃ results, blk.select matchers mint maxt = .ok results ∧
      results.map QueryResult.view = ((p.series.filter SeriesInput.kept).filter fun s ↦
        labelsMatchAll s.labels matchers && s.meets mint maxt).map (SeriesInput.view mint maxt) := by
  obtain ⟨rows, hopened⟩ := h.produced.opened hopen
  have hrows : ∀ r ∈ rows, Findable r.labels := by
    intro r hr
    have hmem : r.prepared.input ∈ p.series.filter SeriesInput.kept := by
      rw [← hopened.inputs_eq]
      exact List.mem_map_of_mem hr
    obtain ⟨hin, hsome⟩ := List.mem_filter.mp hmem
    exact hfound _ hin (by simpa [SeriesInput.kept] using hsome)
  obtain ⟨results, hselect, hanswers⟩ := hopened.stores.select_of_findable hrows hm mint maxt
  rw [hopened.inputs_eq] at hanswers
  exact ⟨results, hselect, (Related.map_eq hanswers fun s q hq ↦ hq.view_eq.symm).symm⟩

/-- A series of a compacted block has a label set of one of the first blocks. -/
theorem CompactedFrom.exists_leaf {text : JsonText} {parts : List Part} {p : Part}
    (h : CompactedFrom text parts p) (hparts : ∀ q ∈ parts, Compacted text q) {s : SeriesInput}
    (hs : s ∈ p.series) (hne : s.chunks ≠ []) :
    ∃ series ∈ p.leaves, ∃ s' ∈ series, s'.labels = s.labels ∧ s'.chunks ≠ [] := by
  obtain ⟨x, hx⟩ := List.exists_mem_of_ne_nil _ ((h.rebuilt hparts).ne_nil s hs hne)
  have hknown : contentOf p.series (s.labels, x.t) ≠ none := fun hnone ↦
    lastValues_eq_none.mp hnone x hx rfl
  obtain ⟨v, hv⟩ := Option.ne_none_iff_exists'.mp hknown
  rw [h.content_leaves hparts] at hv
  unfold restrict at hv
  split at hv
  · obtain ⟨content, hcontent, hsome⟩ := exists_of_layers hv
    obtain ⟨series, hseries, rfl⟩ := List.mem_map.mp hcontent
    have hsamples : samplesIn series s.labels ≠ [] := by
      intro hnil
      have hnone : contentOf series (s.labels, x.t) = none := by
        apply lastValues_eq_none.mpr
        rw [hnil]
        simp
      rw [hnone] at hsome
      cases hsome
    obtain ⟨y, hy⟩ := List.exists_mem_of_ne_nil _ hsamples
    obtain ⟨s', hs', hdecoded⟩ := List.mem_flatMap.mp hy
    obtain ⟨hmem, hlabels⟩ := List.mem_filter.mp hs'
    refine ⟨series, hseries, s', hmem, of_decide_eq_true hlabels, fun hnil ↦ ?_⟩
    rw [hnil] at hdecoded
    cases hdecoded
  · cases hv

/-- Two blocks that were compacted from the same first blocks, in whatever groups, answer every query with
the same label sets, chunk bytes and times; only the order of the series may differ. -/
theorem select_regrouped {text text' : JsonText} {parts parts' : List Part} {p p' : Part}
    {blk blk' : Block} (h : CompactedFrom text parts p) (hparts : ∀ q ∈ parts, Compacted text q)
    (h' : CompactedFrom text' parts' p') (hparts' : ∀ q ∈ parts', Compacted text' q)
    (hleaves : p.leaves = p'.leaves)
    (hfound : ∀ series ∈ p.leaves, ∀ s ∈ series, s.chunks ≠ [] → Findable s.labels)
    (hopen : openDir text (some p.dir) = .ok blk) (hopen' : openDir text' (some p'.dir) = .ok blk')
    {matchers : List Matcher} (hm : matchers ≠ []) (mint maxt : Int64) :
    ∃ results results', blk.select matchers mint maxt = .ok results ∧
      blk'.select matchers mint maxt = .ok results' ∧
      (results.map QueryResult.view).Perm (results'.map QueryResult.view) := by
  have hcontent : contentOf p.series = contentOf p'.series := by
    rw [h.content_leaves hparts, h'.content_leaves hparts', hleaves]
  have hperm := (h.rebuilt hparts).perm (h'.rebuilt hparts') hcontent
  have hfindable : ∀ s ∈ p.series, s.chunks ≠ [] → Findable s.labels := by
    intro s hs hne
    obtain ⟨series, hseries, s₁, hs₁, hlabels, hsome⟩ := h.exists_leaf hparts hs hne
    rw [← hlabels]
    exact hfound series hseries s₁ hs₁ hsome
  have hfindable' : ∀ s ∈ p'.series, s.chunks ≠ [] → Findable s.labels := by
    intro s hs hne
    obtain ⟨series, hseries, s₁, hs₁, hlabels, hsome⟩ := h'.exists_leaf hparts' hs hne
    rw [← hlabels]
    exact hfound series (hleaves ▸ hseries) s₁ hs₁ hsome
  obtain ⟨results, hselect, hview⟩ := h.select_view hopen hfindable hm mint maxt
  obtain ⟨results', hselect', hview'⟩ := h'.select_view hopen' hfindable' hm mint maxt
  refine ⟨results, results', hselect, hselect', ?_⟩
  rw [hview, hview']
  exact (hperm.filter _).map _

/-- The blocks of two heads that overlap in time, compacted together, and with the first one compacted alone
before. -/
theorem select_regrouped_chain :
    ∃ (first second alone joined again : Part) (blk blk' : Block) (results results' : List QueryResult),
      (∀ q ∈ [first, second], Compacted chainText q) ∧ (∀ q ∈ [alone, second], Compacted chainText q) ∧
      CompactedFrom chainText [first] alone ∧ CompactedFrom chainText [first, second] joined ∧
      CompactedFrom chainText [alone, second] again ∧
      openDir chainText (some joined.dir) = .ok blk ∧ openDir chainText (some again.dir) = .ok blk' ∧
      blk.select [.equal (.single 97) (.single 98)] 2 5 = .ok results ∧
      blk'.select [.equal (.single 97) (.single 98)] 2 5 = .ok results' ∧
      (results.map QueryResult.view).Perm (results'.map QueryResult.view) := by
  obtain ⟨first, second, alone, joined, again, h, blk, blk', hopen, hopen'⟩ := exists_chain
  have hsome : ∀ series ∈ joined.leaves, ∀ s ∈ series, s.chunks ≠ [] → Findable s.labels := by
    rw [h.leaves_joined]
    intro series hseries s hs hne
    have hleaf : ∃ samples, (samples = firstSamples ∨ samples = secondSamples) ∧
        FlushedFrom series fun labels ↦ samplesUnder labels samples := by
      rcases List.mem_pair.mp hseries with rfl | rfl
      · exact ⟨_, Or.inl rfl, flushedFrom_first⟩
      · exact ⟨_, Or.inr rfl, flushedFrom_second⟩
    obtain ⟨samples, hsamples, hflushed⟩ := hleaf
    apply findable_chain hsamples
    rw [← hflushed.samplesIn_eq]
    exact samplesIn_ne_nil (fun _ _ hle ↦ hle) hflushed.runs hs hne
  obtain ⟨results, results', hselect, hselect', hperm⟩ := select_regrouped h.made_joined h.parts_joined
    h.made_again h.parts_again (h.leaves_joined.trans h.leaves_again.symm) hsome hopen hopen'
    (List.cons_ne_nil (.equal (.single 97) (.single 98)) []) 2 5
  exact ⟨first, second, alone, joined, again, blk, blk', results, results', h.parts_joined, h.parts_again,
    h.made_alone, h.made_joined, h.made_again, hopen, hopen', hselect, hselect', hperm⟩

end MerlionTsdb.Block
