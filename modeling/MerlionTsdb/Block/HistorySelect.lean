import MerlionTsdb.Block.SelectSamples

/-!
# Queries after any compactions

A block answers a query with what the heads said that its first blocks were flushed from, however these were
compacted.
-/

namespace MerlionTsdb.Block

open Ascending Chunkenc Encoding Head LastWrite Model

/-! ## Leaves -/

/-- The series are what `create_from_head` writes of a head that has accepted the samples. -/
structure FlushedFrom (series : List SeriesInput) (content : Labels → List Sample) : Prop where
  flushed : ∃ (W L S K : Type) (ops : WalOps W L S K) (h : Head W), Reaches ops h content ∧
    headInputs h.series.allSeries = .ok series
  length_lt : ∀ labels, (content labels).length < 2 ^ 64

namespace FlushedFrom

variable {series : List SeriesInput} {content : Labels → List Sample}

theorem samplesIn_eq (h : FlushedFrom series content) (labels : Labels) :
    samplesIn series labels = content labels := by
  obtain ⟨W, L, S, K, ops, hd, hreach, hinputs⟩ := h.flushed
  rw [samplesIn_headInputs hreach.contains hinputs]
  split
  · rename_i hzero
    have hlt := h.length_lt labels
    exact (List.length_eq_zero_iff.mp (by omega)).symm
  · rfl

theorem content_eq (h : FlushedFrom series content) : contentOf series = lastValues content :=
  congrArg lastValues (funext h.samplesIn_eq)

theorem runs (h : FlushedFrom series content) : ∀ s ∈ series, Runs (· ≤ ·) s.chunks := by
  obtain ⟨W, L, S, K, ops, hd, hreach, hinputs⟩ := h.flushed
  exact headInputs_runs (fun s hs ↦
    ⟨_, hreach.contains.holds (hreach.contains.wf.mem_allSeries.mp hs)⟩) hinputs

end FlushedFrom

theorem contents_of_flushed {leaves : List (List SeriesInput)} {contents : List (Labels → List Sample)}
    (h : List.Forall₂ FlushedFrom leaves contents) :
    leaves.map contentOf = contents.map lastValues := Related.map_eq h fun _ _ hleaf ↦ hleaf.content_eq

/-! ## Any compactions -/

/-- Every series with a chunk has a sample. -/
theorem samplesIn_ne_nil {before : Int64 → Int64 → Prop} (hle : ∀ a b, before a b → a ≤ b)
    {series : List SeriesInput} (h : ∀ s ∈ series, Runs before s.chunks) {s : SeriesInput} (hs : s ∈ series)
    (hne : s.chunks ≠ []) : samplesIn series s.labels ≠ [] := by
  obtain ⟨ci, hci⟩ := List.exists_mem_of_ne_nil _ hne
  obtain ⟨run, hencodes, -⟩ := (h s hs).encodes hle hci
  obtain ⟨x, hx⟩ := List.exists_mem_of_ne_nil _ hencodes.ne_nil
  rw [← hencodes.decode_eq] at hx
  apply List.ne_nil_of_mem (a := x)
  exact List.mem_flatMap.mpr ⟨s, List.mem_filter.mpr ⟨hs, decide_eq_true rfl⟩,
    List.mem_flatMap.mpr ⟨ci, hci, hx⟩⟩

theorem lastValues_eq_none {log : Labels → List Sample} {labels : Labels} {t : Int64} :
    lastValues log (labels, t) = none ↔ ∀ x ∈ log labels, x.t ≠ t := by
  unfold lastValues
  rw [Option.map_eq_none_iff, lastAt_eq_none]

example : lastValues (fun _ ↦ [⟨0, 1⟩, ⟨5, 2⟩, ⟨0, 3⟩]) (Labels.empty, 0) = some 3 := by decide

/-- What a block knows about a label set, one of the first blocks knew. -/
theorem Compacted.exists_content {text : JsonText} {p : Part} (h : Compacted text p)
    {contents : List (Labels → List Sample)} (hleaves : List.Forall₂ FlushedFrom p.leaves contents)
    {labels : Labels} (hne : samplesIn p.series labels ≠ []) :
    ∃ content ∈ contents, content labels ≠ [] := by
  cases h with
  | @leaf dir series h =>
    cases hleaves with
    | @cons _ content _ _ hleaf hrest =>
      refine ⟨content, List.mem_cons_self, ?_⟩
      rw [← hleaf.samplesIn_eq]
      exact hne
  | @compact parts p hparts hmade =>
    obtain ⟨x, hx⟩ := List.exists_mem_of_ne_nil _ hne
    have hknown : contentOf p.series (labels, x.t) ≠ none := fun hnone ↦
      lastValues_eq_none.mp hnone x hx rfl
    obtain ⟨v, hv⟩ := Option.ne_none_iff_exists'.mp hknown
    rw [hmade.content_leaves hparts, contents_of_flushed hleaves] at hv
    unfold restrict at hv
    split at hv
    · obtain ⟨s, hs, hsv⟩ := exists_of_layers hv
      obtain ⟨content, hmem, rfl⟩ := List.mem_map.mp hs
      refine ⟨content, hmem, fun hnil ↦ ?_⟩
      have hnone : lastValues content (labels, x.t) = none := by
        rw [lastValues_eq_none, hnil]
        simp
      rw [hnone] at hsv
      cases hsv
    · cases hv

/-- The block says what the heads said, each laid over those before it. -/
theorem Compacted.content_of_flushed {text : JsonText} {p : Part} (h : Compacted text p)
    {contents : List (Labels → List Sample)} (hleaves : List.Forall₂ FlushedFrom p.leaves contents)
    (hlabeled : ∀ content ∈ contents, content Labels.empty = []) :
    contentOf p.series = layers (contents.map lastValues) := by
  funext ⟨labels, t⟩
  have hcontent := congrFun h.content (labels, t)
  rw [contents_of_flushed hleaves] at hcontent
  unfold restrict at hcontent
  by_cases hnone : labels.entries = []
  · -- Without labels nothing is known on either side.
    have hempty : labels = Labels.empty := Labels.ext hnone
    subst hempty
    have hleft : contentOf p.series (Labels.empty, t) = none := by
      apply lastValues_eq_none.mpr
      intro x hx
      obtain ⟨content, hmem, hne⟩ := h.exists_content hleaves (List.ne_nil_of_mem hx)
      exact absurd (hlabeled content hmem) hne
    rw [hleft, eq_comm, layers_eq_none]
    intro s hs
    obtain ⟨content, hmem, rfl⟩ := List.mem_map.mp hs
    rw [lastValues_eq_none, hlabeled content hmem]
    simp
  · have hkey : labeledKey (labels, t) = true := by simpa [labeledKey] using hnone
    rw [hkey, if_pos rfl, if_pos rfl] at hcontent
    exact hcontent

/-- Every chunk of the block has its times in order. -/
theorem Compacted.runs {text : JsonText} {p : Part} (h : Compacted text p)
    {contents : List (Labels → List Sample)} (hleaves : List.Forall₂ FlushedFrom p.leaves contents) :
    ∀ s ∈ p.series, Runs (· ≤ ·) s.chunks := by
  cases h with
  | leaf h =>
    cases hleaves with
    | cons hleaf hrest => exact hleaf.runs
  | compact hparts hmade =>
    obtain ⟨calls, blocks, created, m, -, hrun, -⟩ := hmade.made
    obtain ⟨merged, -, hmerge⟩ := hrun.inputs_ok
    intro s hs
    obtain ⟨runs, hencodes, hordered⟩ := mergeAll_runs hmerge s hs
    exact ⟨runs, hencodes, hordered.imp fun hlt ↦ le_of_lt hlt⟩

/-- Whatever is stored can be found when the heads held nothing else. -/
theorem Compacted.findable {text : JsonText} {p : Part} (h : Compacted text p)
    {contents : List (Labels → List Sample)} (hleaves : List.Forall₂ FlushedFrom p.leaves contents)
    (hfound : ∀ content ∈ contents, ∀ labels, content labels ≠ [] → Findable labels) :
    ∀ s ∈ p.series, s.chunks ≠ [] → Findable s.labels := by
  intro s hs hne
  obtain ⟨content, hmem, hsome⟩ := h.exists_content hleaves
    (samplesIn_ne_nil (fun _ _ hle ↦ hle) (h.runs hleaves) hs hne)
  exact hfound content hmem s.labels hsome

/-! ## A block compacted twice -/

/-- The merged series and the patched metadata of a run tell whether it keeps within the format. -/
theorem compactedFrom_of {text : JsonText} {calls : CompactCalls} {parts : List Part} {p : Part}
    {blocks : List Block} {merged : Merged} {created : BlockDir} {m patched : BlockMeta}
    (hleaves : p.leaves = parts.flatMap Part.leaves)
    (hok : compact text calls (parts.map fun q ↦ some q.dir) = .ok p.dir)
    (hblocks : openAll text (parts.map fun q ↦ some q.dir) = .ok blocks)
    (hmerged : collectBlocks [] blocks = .ok merged)
    (hinputs : mergeAll (calls.order.order merged) = .ok p.series)
    (hcreate : createFromSeries text calls.create p.series = .ok created)
    (hread : lift (readMeta text created) = .ok m) (hpatched : patchMeta blocks m = patched)
    (hkeeps : text.Keeps patched) (hfits : WithinFormat calls.create p.series)
    (hnew : KeepsNew text calls.create p.series) : CompactedFrom text parts p := by
  obtain ⟨blocks', inputs, created', m', hrun⟩ := compact_run hok
  cases hblocks.symm.trans hrun.open_ok
  obtain ⟨merged', hcollect, hmerge⟩ := hrun.inputs_ok
  cases hmerged.symm.trans hcollect
  cases hinputs.symm.trans hmerge
  cases hcreate.symm.trans hrun.create_ok
  rw [hrun.meta_ok] at hread
  cases hread
  rw [← hpatched] at hkeeps
  exact ⟨⟨calls, blocks, created, m, hok, hrun, hfits, hnew, hkeeps⟩, hleaves⟩

theorem length_samplesUnder_le (labels : Labels) (samples : List (Labels × Sample)) :
    (samplesUnder labels samples).length ≤ samples.length := List.length_filterMap_le _ _

theorem flushedFrom_first : FlushedFrom firstInput fun labels ↦ samplesUnder labels firstSamples :=
  ⟨⟨_, _, _, _, listWal, _, reaches_first, headInputs_first⟩, fun labels ↦
    (length_samplesUnder_le labels firstSamples).trans_lt (by decide)⟩

theorem flushedFrom_second : FlushedFrom secondInput fun labels ↦ samplesUnder labels secondSamples :=
  ⟨⟨_, _, _, _, listWal, _, reaches_second, headInputs_second⟩, fun labels ↦
    (length_samplesUnder_le labels secondSamples).trans_lt (by decide)⟩

/-- Two heads that overlap in time are flushed, and their blocks are compacted: at once, and with the first
one compacted alone before. -/
structure Chain (first second alone joined again : Part) : Prop where
  flushed : createFromHead chainText { ulid := Str.empty } (filledHead firstSamples) = .ok first.dir
  flushed' : createFromHead chainText { ulid := Str.empty } (filledHead secondSamples) = .ok second.dir
  first_eq : first = ⟨first.dir, firstInput, [firstInput]⟩
  second_eq : second = ⟨second.dir, secondInput, [secondInput]⟩
  leaf : Compacted chainText first
  leaf' : Compacted chainText second
  made_alone : CompactedFrom chainText [first] alone
  made_joined : CompactedFrom chainText [first, second] joined
  made_again : CompactedFrom chainText [alone, second] again

theorem exists_chain : ∃ first second alone joined again, Chain first second alone joined again ∧
    ∃ blk blk', openDir chainText (some joined.dir) = .ok blk ∧
      openDir chainText (some again.dir) = .ok blk' := by
  -- One evaluation of all runs, with what each of them merges and patches on its way.
  have hall : (do
      let dir ← createFromHead chainText { ulid := Str.empty } (filledHead firstSamples)
      let dir' ← createFromHead chainText { ulid := Str.empty } (filledHead secondSamples)
      let createdFirst ← createFromSeries chainText oneCompact.create firstInput
      let created ← createFromSeries chainText oneCompact.create mergedInput
      let mFirst ← lift (readMeta chainText createdFirst)
      let m ← lift (readMeta chainText created)
      let blocks₁ ← openAll chainText [some dir]
      let merged₁ ← collectBlocks [] blocks₁
      let inputs₁ ← mergeAll (oneCompact.order.order merged₁)
      let alone ← compact chainText oneCompact [some dir]
      let blocks₂ ← openAll chainText [some dir, some dir']
      let merged₂ ← collectBlocks [] blocks₂
      let inputs₂ ← mergeAll (oneCompact.order.order merged₂)
      let joined ← compact chainText oneCompact [some dir, some dir']
      let blocks₃ ← openAll chainText [some alone, some dir']
      let merged₃ ← collectBlocks [] blocks₃
      let inputs₃ ← mergeAll (oneCompact.order.order merged₃)
      let again ← compact chainText oneCompact [some alone, some dir']
      let _ ← openDir chainText (some joined)
      let _ ← openDir chainText (some again)
      .ok (decide ((inputs₁ = firstInput ∧ inputs₂ = mergedInput ∧ inputs₃ = mergedInput) ∧
        patchMeta blocks₁ mFirst = atLevel 2 firstMeta ∧ patchMeta blocks₂ m = atLevel 2 mergedMeta ∧
        patchMeta blocks₃ m = atLevel 3 mergedMeta))) = .ok true := by decide +kernel
  obtain ⟨dir, hflush, hall⟩ := bind_ok hall
  obtain ⟨dir', hflush', hall⟩ := bind_ok hall
  obtain ⟨createdFirst, hcreateFirst, hall⟩ := bind_ok hall
  obtain ⟨created, hcreate, hall⟩ := bind_ok hall
  obtain ⟨mFirst, hreadFirst, hall⟩ := bind_ok hall
  obtain ⟨m, hread, hall⟩ := bind_ok hall
  obtain ⟨blocks₁, hblocks₁, hall⟩ := bind_ok hall
  obtain ⟨merged₁, hmerged₁, hall⟩ := bind_ok hall
  obtain ⟨inputs₁, hinputs₁, hall⟩ := bind_ok hall
  obtain ⟨alone, halone, hall⟩ := bind_ok hall
  obtain ⟨blocks₂, hblocks₂, hall⟩ := bind_ok hall
  obtain ⟨merged₂, hmerged₂, hall⟩ := bind_ok hall
  obtain ⟨inputs₂, hinputs₂, hall⟩ := bind_ok hall
  obtain ⟨joined, hjoined, hall⟩ := bind_ok hall
  obtain ⟨blocks₃, hblocks₃, hall⟩ := bind_ok hall
  obtain ⟨merged₃, hmerged₃, hall⟩ := bind_ok hall
  obtain ⟨inputs₃, hinputs₃, hall⟩ := bind_ok hall
  obtain ⟨again, hagain, hall⟩ := bind_ok hall
  obtain ⟨blk, hopen, hall⟩ := bind_ok hall
  obtain ⟨blk', hopen', hall⟩ := bind_ok hall
  obtain ⟨⟨rfl, rfl, rfl⟩, hpatched₁, hpatched₂, hpatched₃⟩ := of_decide_eq_true (Except.ok.inj hall)
  let leaves := [firstInput, secondInput]
  refine ⟨⟨dir, firstInput, [firstInput]⟩, ⟨dir', secondInput, [secondInput]⟩,
    ⟨alone, firstInput, [firstInput]⟩, ⟨joined, mergedInput, leaves⟩, ⟨again, mergedInput, leaves⟩, ?_, blk, blk',
    hopen, hopen'⟩
  refine ⟨hflush, hflush', rfl, rfl, ?_, ?_, ?_, ?_, ?_⟩
  · exact .leaf (produced_first hflush)
  · exact .leaf (produced_second hflush')
  · exact compactedFrom_of rfl halone hblocks₁ hmerged₁ hinputs₁ hcreateFirst hreadFirst hpatched₁
      (keeps_chain (by simp [chainMetas])) withinFormat_first keepsNew_first
  · exact compactedFrom_of rfl hjoined hblocks₂ hmerged₂ hinputs₂ hcreate hread hpatched₂
      (keeps_chain (by simp [chainMetas])) withinFormat_merged keepsNew_merged
  · exact compactedFrom_of rfl hagain hblocks₃ hmerged₃ hinputs₃ hcreate hread hpatched₃
      (keeps_chain (by simp [chainMetas])) withinFormat_merged keepsNew_merged

namespace Chain

variable {first second alone joined again : Part}

theorem compacted_alone (h : Chain first second alone joined again) : Compacted chainText alone :=
  .compact (by
    intro q hq
    cases List.mem_singleton.mp hq
    exact h.leaf) h.made_alone

theorem leaves_joined (h : Chain first second alone joined again) :
    joined.leaves = [firstInput, secondInput] := by
  rw [h.made_joined.leaves_eq, h.first_eq, h.second_eq]
  rfl

theorem leaves_again (h : Chain first second alone joined again) :
    again.leaves = [firstInput, secondInput] := by
  have halone : alone.leaves = [firstInput] := by
    rw [h.made_alone.leaves_eq, h.first_eq]
    rfl
  rw [h.made_again.leaves_eq, h.second_eq]
  show alone.leaves ++ [secondInput] = _
  rw [halone]
  rfl

theorem parts_joined (h : Chain first second alone joined again) :
    ∀ q ∈ [first, second], Compacted chainText q := by
  intro q hq
  rcases List.mem_pair.mp hq with rfl | rfl
  · exact h.leaf
  · exact h.leaf'

theorem parts_again (h : Chain first second alone joined again) :
    ∀ q ∈ [alone, second], Compacted chainText q := by
  intro q hq
  rcases List.mem_pair.mp hq with rfl | rfl
  · exact h.compacted_alone
  · exact h.leaf'

end Chain

/-- The label sets of the two heads are found. -/
theorem findable_chain {samples : List (Labels × Sample)}
    (hsamples : samples = firstSamples ∨ samples = secondSamples) {labels : Labels}
    (hne : samplesUnder labels samples ≠ []) : Findable labels := by
  obtain ⟨x, hx⟩ := List.exists_mem_of_ne_nil _ hne
  obtain ⟨e, he, hsome⟩ := List.mem_filterMap.mp hx
  have hlabels : labels ∈ [sampleLabels, otherLabels, separateLabels] := by
    split at hsome
    · rename_i heq
      have hall : ∀ e ∈ firstSamples ++ secondSamples, e.1 ∈ [sampleLabels, otherLabels, separateLabels] := by
        decide
      rw [← heq]
      apply hall e
      rw [List.mem_append]
      rcases hsamples with rfl | rfl
      · exact Or.inl he
      · exact Or.inr he
    · cases hsome
  have hall : ∀ labels ∈ [sampleLabels, otherLabels, separateLabels], labels.entries ≠ [] ∧
      (∀ l ∈ labels.entries, l.value ≠ Str.empty) ∧
      ∀ l ∈ labels.entries, 0 ∉ l.name.bytes ∧ 0 ∉ l.value.bytes := by decide
  obtain ⟨hsome', hvalues, hnul⟩ := hall labels hlabels
  exact findable_of_nul hsome' hvalues hnul

/-! ## Answers -/

/-- Only the samples of the range matter for a time of the range. -/
theorem lastAt_window {mint maxt t : Int64} (hmin : mint ≤ t) (hmax : t ≤ maxt) (samples : List Sample) :
    lastAt Sample.t (window mint maxt samples) t = lastAt Sample.t samples t := by
  apply lastAt_filter
  rintro x - rfl
  unfold inWindow
  rw [decide_eq_true hmin, decide_eq_true hmax]
  rfl

/-- A block that has come from flushed heads by any compactions answers every query with what was accepted
last: for each label set that the matchers accept and each time of the range, the last sample of the last
head that has one. -/
theorem select_history {text : JsonText} {p : Part} {blk : Block} (h : Compacted text p)
    {contents : List (Labels → List Sample)} (hleaves : List.Forall₂ FlushedFrom p.leaves contents)
    (hfound : ∀ content ∈ contents, ∀ labels, content labels ≠ [] → Findable labels)
    (hopen : openDir text (some p.dir) = .ok blk) {matchers : List Matcher} (hm : matchers ≠ [])
    (mint maxt : Int64) :
    ∃ results, blk.select matchers mint maxt = .ok results ∧
      ∀ labels t, mint ≤ t → t ≤ maxt →
        lastValues (answered results) (labels, t) =
          if labelsMatchAll labels matchers then layers (contents.map lastValues) (labels, t) else none := by
  have hlabeled : ∀ content ∈ contents, content Labels.empty = [] := by
    intro content hmem
    by_contra hne
    exact (hfound content hmem Labels.empty hne).ne_nil rfl
  obtain ⟨results, hselect, hwindow⟩ := h.produced.select_samples hopen
    (spanned_of_runs (fun _ _ hle ↦ hle) (h.runs hleaves)) (h.findable hleaves hfound) hm mint maxt
  refine ⟨results, hselect, fun labels t hmin hmax ↦ ?_⟩
  rw [← h.content_of_flushed hleaves hlabeled]
  unfold contentOf lastValues
  dsimp only
  rw [← lastAt_window hmin hmax, hwindow]
  split
  · rw [lastAt_window hmin hmax]
  · rfl

/-- The blocks of the two heads, the first one compacted twice: a time that both have is answered from the
second head. -/
theorem select_history_chain :
    ∃ p blk results, Compacted chainText p ∧ p.leaves = [firstInput, secondInput] ∧
      openDir chainText (some p.dir) = .ok blk ∧
      blk.select [.equal (.single 97) (.single 98)] 2 5 = .ok results ∧
      lastValues (answered results) (sampleLabels, 3) = some 1 ∧
      lastValues (answered results) (sampleLabels, 4) = some 2 ∧
      lastValues (answered results) (sampleLabels, 5) = some 9 ∧
      lastValues (answered results) (otherLabels, 2) = none := by
  obtain ⟨first, second, alone, joined, again, h, -, blk, -, hopen⟩ := exists_chain
  have hcompacted := Compacted.compact h.parts_again h.made_again
  obtain ⟨results, hselect, hvalues⟩ := @select_history _ _ _ hcompacted
    [fun labels ↦ samplesUnder labels firstSamples, fun labels ↦ samplesUnder labels secondSamples] (by
      rw [h.leaves_again]
      exact .cons flushedFrom_first (.cons flushedFrom_second .nil)) (by
      intro content hcontent labels hne
      rcases List.mem_pair.mp hcontent with rfl | rfl
      · exact findable_chain (Or.inl rfl) hne
      · exact findable_chain (Or.inr rfl) hne) hopen
    [.equal (.single 97) (.single 98)] (List.cons_ne_nil _ _) 2 5
  refine ⟨again, blk, results, hcompacted, h.leaves_again, hopen, hselect, ?_, ?_, ?_, ?_⟩
  · rw [hvalues sampleLabels 3 (by decide) (by decide)]
    decide
  · rw [hvalues sampleLabels 4 (by decide) (by decide)]
    decide
  · rw [hvalues sampleLabels 5 (by decide) (by decide)]
    decide
  · rw [hvalues otherLabels 2 (by decide) (by decide)]
    decide

end MerlionTsdb.Block
