import MerlionTsdb.Block.Regroup
import MerlionTsdb.Querier.Samples

/-!
# Nothing lost, nothing made up

A query over heads in use and over blocks that have come from flushed heads by any compactions.  It returns
accepted samples only, and one for every time at which a sample was accepted.
-/

namespace MerlionTsdb.Querier

open Ascending Block Chunkenc Encoding Head IndexSort LastWrite Model

/-! ## Blocks -/

/-- The block has come from flushed heads, which had accepted the samples. -/
def FromHistory (text : JsonText) (blk : Block) (contents : List (Labels → List Sample)) : Prop :=
  ∃ p, Compacted text p ∧ openDir text (some p.dir) = .ok blk ∧ List.Forall₂ FlushedFrom p.leaves contents

/-- Compaction makes no sample up. -/
theorem mem_content {text : JsonText} {p : Part} (h : Compacted text p)
    {contents : List (Labels → List Sample)} (hleaves : List.Forall₂ FlushedFrom p.leaves contents)
    {labels : Labels} {x : Sample} (hx : x ∈ samplesIn p.series labels) :
    ∃ content ∈ contents, x ∈ content labels := by
  cases h with
  | @leaf dir series h =>
    cases hleaves with
    | @cons _ content _ _ hleaf hrest =>
      refine ⟨content, List.mem_cons_self, ?_⟩
      rw [← hleaf.samplesIn_eq]
      exact hx
  | @compact parts p hparts hmade =>
    -- The sample is the one that the content tells of its time.
    have hmem : x ∈ (samplesIn p.series labels).filter fun y ↦ y.t = x.t :=
      List.mem_filter.mpr ⟨hx, decide_eq_true rfl⟩
    rw [(hmade.rebuilt hparts).filter_eq, Option.mem_toList, Option.map_eq_some_iff] at hmem
    obtain ⟨v, hv, hxv⟩ := hmem
    rw [hmade.content_leaves hparts, contents_of_flushed hleaves] at hv
    unfold restrict at hv
    split at hv
    · obtain ⟨s, hs, hsv⟩ := exists_of_layers hv
      obtain ⟨content, hcontent, rfl⟩ := List.mem_map.mp hs
      obtain ⟨y, hy, rfl⟩ := Option.map_eq_some_iff.mp hsv
      obtain ⟨hmem, ht⟩ := lastAt_mem hy
      dsimp only at ht
      refine ⟨content, hcontent, ?_⟩
      rw [← hxv, ← ht]
      exact hmem
    · cases hv

/-- It keeps every time of a label set with a label. -/
theorem exists_of_content {text : JsonText} {p : Part} (h : Compacted text p)
    {contents : List (Labels → List Sample)} (hleaves : List.Forall₂ FlushedFrom p.leaves contents)
    (hlabeled : ∀ content ∈ contents, content Labels.empty = []) {content : Labels → List Sample}
    (hcontent : content ∈ contents) {labels : Labels} {x : Sample} (hx : x ∈ content labels) :
    ∃ y ∈ samplesIn p.series labels, y.t = x.t := by
  by_contra hnone
  have hblank : contentOf p.series (labels, x.t) = none := by
    apply lastValues_eq_none.mpr
    intro y hy ht
    exact hnone ⟨y, hy, ht⟩
  rw [h.content_of_flushed hleaves hlabeled, layers_eq_none] at hblank
  exact lastValues_eq_none.mp (hblank _ (List.mem_map_of_mem hcontent)) x hx rfl

/-- The series hold, of what the heads of a history have accepted, only such samples and one of each time. -/
def Holds (series : List SeriesInput) (contents : List (Labels → List Sample)) : Prop :=
  ∀ labels, (∀ x ∈ samplesIn series labels, ∃ content ∈ contents, x ∈ content labels) ∧
    ∀ content ∈ contents, ∀ x ∈ content labels, ∃ y ∈ samplesIn series labels, y.t = x.t

theorem blockSources_of_history {text : JsonText} {blocks : List Block}
    {flushed : List (List (Labels → List Sample))} (h : List.Forall₂ (FromHistory text) blocks flushed)
    (hfound : ∀ contents ∈ flushed, ∀ content ∈ contents, ∀ labels, content labels ≠ [] → Findable labels) :
    ∃ seriess, List.Forall₂ (BlockSource text) blocks seriess ∧ List.Forall₂ Holds seriess flushed := by
  induction h with
  | nil => exact ⟨[], .nil, .nil⟩
  | @cons blk contents blocks flushed hblk _ ih =>
    obtain ⟨seriess, hsources, hsamples⟩ := ih fun contents' hmem ↦ hfound contents' (List.mem_cons_of_mem _ hmem)
    obtain ⟨p, hp, hopen, hleaves⟩ := hblk
    have hfirst := hfound contents List.mem_cons_self
    have hlabeled : ∀ content ∈ contents, content Labels.empty = [] := by
      intro content hmem
      by_contra hne
      exact (hfirst content hmem Labels.empty hne).ne_nil rfl
    refine ⟨p.series :: seriess, .cons ⟨⟨p.dir, hp.produced, hopen⟩, ?_, ?_⟩ hsources, .cons ?_ hsamples⟩
    · exact spanned_of_runs (fun _ _ hle ↦ hle) (hp.runs hleaves)
    · exact hp.findable hleaves hfirst
    · intro labels
      exact ⟨fun x hx ↦ mem_content hp hleaves hx, fun content hmem x hx ↦
        exists_of_content hp hleaves hlabeled hmem hx⟩

/-! ## Queries -/

section

variable {seriess : List (List SeriesInput)} {flushed : List (List (Labels → List Sample))}
  {live : List (Labels → List Sample)} {merged : List MergedSeries} {labels : Labels}
  {matchers : List Matcher} {mint maxt : Int64}

/-- Nothing is made up. -/
theorem accepted_of_returned (hsamples : List.Forall₂ Holds seriess flushed)
    (hperm : (window mint maxt (returned merged labels)).Perm
      (if labelsMatchAll labels matchers then window mint maxt (storedIn seriess live labels) else []))
    {x : Sample} (hx : x ∈ window mint maxt (returned merged labels)) :
    labelsMatchAll labels matchers = true ∧ ∃ content ∈ flushed.flatten ++ live, x ∈ content labels := by
  rw [hperm.mem_iff] at hx
  split at hx
  · rename_i haccept
    refine ⟨haccept, ?_⟩
    rcases List.mem_append.mp (List.mem_of_mem_filter hx) with hblock | hhead
    · obtain ⟨series, hseries, hin⟩ := List.mem_flatMap.mp hblock
      obtain ⟨contents, hmem, hholds⟩ := Related.exists_right hsamples hseries
      obtain ⟨content, hcontent, hx⟩ := (hholds labels).1 x hin
      exact ⟨content, List.mem_append_left _ (List.mem_flatten.mpr ⟨contents, hmem, hcontent⟩), hx⟩
    · obtain ⟨content, hcontent, hx⟩ := List.mem_flatMap.mp hhead
      exact ⟨content, List.mem_append_right _ hcontent, hx⟩
  · cases hx

/-- What a head in use has accepted is returned. -/
theorem returned_of_live
    (hperm : (window mint maxt (returned merged labels)).Perm
      (if labelsMatchAll labels matchers then window mint maxt (storedIn seriess live labels) else []))
    (haccept : labelsMatchAll labels matchers = true) {content : Labels → List Sample}
    (hcontent : content ∈ live) {x : Sample} (hx : x ∈ window mint maxt (content labels)) :
    x ∈ window mint maxt (returned merged labels) := by
  obtain ⟨hin, hwindow⟩ := List.mem_filter.mp hx
  rw [hperm.mem_iff, if_pos haccept]
  exact List.mem_filter.mpr
    ⟨List.mem_append_right _ (List.mem_flatMap.mpr ⟨content, hcontent, hin⟩), hwindow⟩

/-- What went to a block is returned, or another sample of its time. -/
theorem returned_of_flushed (hsamples : List.Forall₂ Holds seriess flushed)
    (hperm : (window mint maxt (returned merged labels)).Perm
      (if labelsMatchAll labels matchers then window mint maxt (storedIn seriess live labels) else []))
    (haccept : labelsMatchAll labels matchers = true) {contents : List (Labels → List Sample)}
    (hcontents : contents ∈ flushed) {content : Labels → List Sample} (hcontent : content ∈ contents)
    {x : Sample} (hx : x ∈ window mint maxt (content labels)) :
    ∃ y ∈ window mint maxt (returned merged labels), y.t = x.t := by
  obtain ⟨hin, hwindow⟩ := List.mem_filter.mp hx
  obtain ⟨series, hseries, hholds⟩ := Related.exists_left hsamples hcontents
  obtain ⟨y, hy, ht⟩ := (hholds labels).2 content hcontent x hin
  -- The sample in the block is in the range as well.
  have hwindow' : inWindow mint maxt y = true := by
    unfold inWindow at hwindow ⊢
    rw [ht]
    exact hwindow
  refine ⟨y, ?_, ht⟩
  rw [hperm.mem_iff, if_pos haccept]
  exact List.mem_filter.mpr
    ⟨List.mem_append_left _ (List.mem_flatMap.mpr ⟨series, hseries, hy⟩), hwindow'⟩

end

/-- A query over blocks with any history and over heads in use returns, under the label sets that the
matchers accept, samples that some head has accepted, and for every sample of the range that a head has
accepted one of its time. -/
theorem select_complete {W : Type} {q : Querier W} {text : JsonText}
    {flushed : List (List (Labels → List Sample))} {live : List (Labels → List Sample)}
    (hblocks : List.Forall₂ (FromHistory text) q.blocks.reduceOption flushed)
    (hheads : List.Forall₂ HeadSource q.heads.reduceOption live)
    (hfound : ∀ contents ∈ flushed, ∀ content ∈ contents, ∀ labels, content labels ≠ [] → Findable labels)
    {matchers : List Matcher} (hm : matchers ≠ []) (mint maxt : Int64)
    (hashOrder : Buckets.HashOrder (Labels × List (XORChunk × ChunkMeta))) (sorter : Sorter Int64) :
    ∃ merged, q.select hashOrder sorter matchers mint maxt = .ok merged ∧ ∀ labels,
      (∀ x ∈ window mint maxt (returned merged labels), labelsMatchAll labels matchers = true ∧
        ∃ content ∈ flushed.flatten ++ live, x ∈ content labels) ∧
      (labelsMatchAll labels matchers = true → ∀ content ∈ flushed.flatten ++ live,
        ∀ x ∈ window mint maxt (content labels),
          ∃ y ∈ window mint maxt (returned merged labels), y.t = x.t) := by
  obtain ⟨seriess, hsources, hsamples⟩ := blockSources_of_history hblocks hfound
  obtain ⟨merged, hselect, hperm⟩ := select_stored hsources hheads hm mint maxt hashOrder sorter
  refine ⟨merged, hselect, fun labels ↦ ⟨fun x hx ↦ ?_, fun haccept content hcontent x hx ↦ ?_⟩⟩
  · exact accepted_of_returned hsamples (hperm labels) hx
  · rcases List.mem_append.mp hcontent with hflushed | hlive
    · obtain ⟨contents, hmem, hcontent⟩ := List.mem_flatten.mp hflushed
      exact returned_of_flushed hsamples (hperm labels) haccept hmem hcontent hx
    · exact ⟨x, returned_of_live (hperm labels) haccept hlive hx, rfl⟩

/-- A head in use, and the block of two others: what the head and the first of the two said is returned. -/
theorem select_complete_chain :
    ∃ (q : Querier (List Bytes)) (p : Part) (blk : Block) (merged : List MergedSeries),
      Compacted chainText p ∧ p.leaves = [firstInput, secondInput] ∧
      openDir chainText (some p.dir) = .ok blk ∧ q.blocks = [some blk] ∧
      q.heads = [some (filledHead secondSamples)] ∧
      q.select (.inserted _) (.stable Int64) [.equal (.single 97) (.single 98)] 2 5 = .ok merged ∧
      (∃ y ∈ window 2 5 (returned merged sampleLabels), y.t = 3) ∧
      (∃ y ∈ window 2 5 (returned merged sampleLabels), y.t = 4) ∧
      (∃ y ∈ window 2 5 (returned merged sampleLabels), y.t = 5) ∧
      window 2 5 (returned merged otherLabels) = [] := by
  obtain ⟨first, second, alone, joined, again, h, -, blk, -, hopen⟩ := exists_chain
  let contentFirst := fun labels ↦ samplesUnder labels firstSamples
  let contentSecond := fun labels ↦ samplesUnder labels secondSamples
  have hhead : HeadSource (filledHead secondSamples) contentSecond :=
    ⟨⟨_, _, _, listWal, reaches_second⟩, flushedFrom_second.length_lt⟩
  have hcompacted := Compacted.compact h.parts_again h.made_again
  have hblock : FromHistory chainText blk [contentFirst, contentSecond] :=
    ⟨_, hcompacted, hopen, by
      rw [h.leaves_again]
      exact .cons flushedFrom_first (.cons flushedFrom_second .nil)⟩
  let q : Querier (List Bytes) := { blocks := [some blk], heads := [some (filledHead secondSamples)] }
  obtain ⟨merged, hselect, hall⟩ := @select_complete _ q chainText [[contentFirst, contentSecond]]
    [contentSecond] (.cons hblock .nil) (.cons hhead .nil) (by
      intro contents hcontents c hc labels hne
      cases List.mem_singleton.mp hcontents
      rcases List.mem_pair.mp hc with rfl | rfl
      · exact findable_chain (Or.inl rfl) hne
      · exact findable_chain (Or.inr rfl) hne) [.equal (.single 97) (.single 98)] (List.cons_ne_nil _ _) 2 5
    (.inserted _) (.stable Int64)
  obtain ⟨-, hreturned⟩ := hall sampleLabels
  refine ⟨q, again, blk, merged, hcompacted, h.leaves_again, hopen, rfl, rfl, hselect, ?_, ?_, ?_, ?_⟩
  · exact hreturned (by decide) contentFirst (by simp) ⟨3, 8⟩ (by decide)
  · exact hreturned (by decide) contentSecond (by simp) ⟨4, 2⟩ (by decide)
  · exact hreturned (by decide) contentFirst (by simp) ⟨5, 9⟩ (by decide)
  · -- The matcher refuses the label set.
    apply List.eq_nil_iff_forall_not_mem.mpr
    intro x hx
    exact absurd ((hall otherLabels).1 x hx).1 (by decide)

end MerlionTsdb.Querier
