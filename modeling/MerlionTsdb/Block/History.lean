import MerlionTsdb.Block.Content

/-!
# Compactions of compactions

A block may be compacted from blocks that were compacted themselves, in any grouping.  What it says depends
only on the blocks that were there at first, in their order.
-/

namespace MerlionTsdb.Block

open Ascending Chunkenc Encoding Head LastWrite Model

/-! ## One compaction -/

theorem contentOf_kept (series : List SeriesInput) :
    contentOf (series.filter SeriesInput.kept) = contentOf series :=
  congrArg lastValues (funext (samplesIn_kept series))

/-- The blocks of directories that were produced, in the same order. -/
theorem openAll_opened {β : Type} {text : JsonText} {parts : List β} {dirOf : β → BlockDir}
    {seriesOf : β → List SeriesInput} {blocks : List Block}
    (h : ∀ p ∈ parts, Produced text (dirOf p) (seriesOf p))
    (hopen : openAll text (parts.map fun p ↦ some (dirOf p)) = .ok blocks) :
    ∃ rowss, List.Forall₂ Stores blocks rowss ∧
      rowss.map (fun rows ↦ rows.map fun r ↦ r.prepared.input) =
        parts.map fun p ↦ (seriesOf p).filter SeriesInput.kept := by
  induction parts generalizing blocks with
  | nil =>
    cases hopen
    exact ⟨[], .nil, rfl⟩
  | cons p parts ih =>
    rw [List.map_cons] at hopen
    unfold openAll at hopen
    obtain ⟨blk, hblk, hopen⟩ := bind_ok hopen
    obtain ⟨rest, hrest, hopen⟩ := bind_ok hopen
    cases hopen
    obtain ⟨rowss, hstores, hrows⟩ := ih (fun p' hp' ↦ h p' (List.mem_cons_of_mem _ hp')) hrest
    obtain ⟨rows, hopened⟩ := (h p List.mem_cons_self).opened hblk
    refine ⟨rows :: rowss, .cons hopened.stores hstores, ?_⟩
    rw [List.map_cons, List.map_cons, hopened.inputs_eq, hrows]

/-- What `compact` merges is what the blocks store, in their order. -/
theorem CompactRun.exists_rows {β : Type} {text : JsonText} {calls : CompactCalls} {parts : List β}
    {dirOf : β → BlockDir} {seriesOf : β → List SeriesInput} {blocks : List Block}
    {inputs : List SeriesInput} {created dir : BlockDir} {m : BlockMeta}
    (hrun : CompactRun text calls (parts.map fun p ↦ some (dirOf p)) blocks inputs created m dir)
    (h : ∀ p ∈ parts, Produced text (dirOf p) (seriesOf p)) :
    ∃ rowss : List (List StoredSeries),
      mergeAll (calls.order.order (Buckets.appendAll [] (rowss.flatMap entriesOf))) = .ok inputs ∧
      rowss.map (fun rows ↦ rows.map fun r ↦ r.prepared.input) =
        parts.map fun p ↦ (seriesOf p).filter SeriesInput.kept := by
  obtain ⟨merged, hcollect, hmerge⟩ := hrun.inputs_ok
  obtain ⟨rowss, hstores, hrows⟩ := openAll_opened h hrun.open_ok
  rw [collectBlocks_eq hstores] at hcollect
  cases hcollect
  exact ⟨rowss, hmerge, hrows⟩

/-- A compaction of blocks that were produced within the format. -/
theorem contentOf_compact {β : Type} {text : JsonText} {calls : CompactCalls} {parts : List β}
    {dirOf : β → BlockDir} {seriesOf : β → List SeriesInput} {blocks : List Block}
    {inputs : List SeriesInput} {created dir : BlockDir} {m : BlockMeta}
    (h : ∀ p ∈ parts, Produced text (dirOf p) (seriesOf p))
    (hrun : CompactRun text calls (parts.map fun p ↦ some (dirOf p)) blocks inputs created m dir) :
    contentOf inputs = restrict labeledKey (layers (parts.map fun p ↦ contentOf (seriesOf p))) := by
  obtain ⟨rowss, hmerge, hrows⟩ := hrun.exists_rows h
  have hcontents : rowss.map (fun rows ↦ contentOf (rows.map fun r ↦ r.prepared.input)) =
      parts.map fun p ↦ contentOf (seriesOf p) := by
    have hall := congrArg (List.map contentOf) hrows
    rw [List.map_map, List.map_map] at hall
    apply hall.trans
    apply List.map_congr_left
    intro p _
    exact contentOf_kept (seriesOf p)
  rw [contentOf_merged calls.order hmerge, hcontents]

/-! ## Any compactions -/

/-- A directory with the series that it stores, and the series of the blocks that it came from. -/
structure Part where
  dir : BlockDir
  series : List SeriesInput
  leaves : List (List SeriesInput)

/-- `compact` has made the directory of those of the parts, within the format. -/
structure CompactedFrom (text : JsonText) (parts : List Part) (p : Part) : Prop where
  made : ∃ calls blocks created m,
    compact text calls (parts.map fun q ↦ some q.dir) = .ok p.dir ∧
    CompactRun text calls (parts.map fun q ↦ some q.dir) blocks p.series created m p.dir ∧
    WithinFormat calls.create p.series ∧ KeepsNew text calls.create p.series ∧
    text.Keeps (patchMeta blocks m)
  leaves_eq : p.leaves = parts.flatMap Part.leaves

/-- The directory is a produced block, or was compacted from directories that came about in this way. -/
inductive Compacted (text : JsonText) : Part → Prop
  | leaf {dir : BlockDir} {series : List SeriesInput} (h : Produced text dir series) :
    Compacted text ⟨dir, series, [series]⟩
  | compact {parts : List Part} {p : Part} (hparts : ∀ q ∈ parts, Compacted text q)
      (hmade : CompactedFrom text parts p) : Compacted text p

theorem CompactedFrom.produced {text : JsonText} {parts : List Part} {p : Part}
    (h : CompactedFrom text parts p) : Produced text p.dir p.series := by
  obtain ⟨calls, blocks, created, m, hok, hrun, hfits, hkeeps, hpatched⟩ := h.made
  exact .compact hok hrun hfits hkeeps hpatched

theorem Compacted.produced {text : JsonText} {p : Part} (h : Compacted text p) :
    Produced text p.dir p.series := by
  cases h with
  | leaf hleaf => exact hleaf
  | compact _ hmade => exact hmade.produced

/-- The new block says what its parts say of label sets with a label. -/
theorem CompactedFrom.content {text : JsonText} {parts : List Part} {p : Part}
    (h : CompactedFrom text parts p) (hparts : ∀ q ∈ parts, Compacted text q) :
    contentOf p.series = restrict labeledKey (layers (parts.map fun q ↦ contentOf q.series)) := by
  obtain ⟨calls, blocks, created, m, -, hrun, -⟩ := h.made
  exact contentOf_compact (fun q hq ↦ (hparts q hq).produced) hrun

/-- However the compactions were grouped, the block says of label sets with a label what the first blocks
said, each laid over those before it. -/
theorem Compacted.content {text : JsonText} {p : Part} (h : Compacted text p) :
    restrict labeledKey (contentOf p.series) = restrict labeledKey (layers (p.leaves.map contentOf)) := by
  induction h with
  | leaf h =>
    dsimp only
    rw [List.map_singleton, layers_cons, layers_nil, overlay_blank]
  | @compact parts p hparts hmade ih =>
    -- Each input says what its own leaves say.
    have hinner : parts.map (fun q ↦ restrict labeledKey (contentOf q.series)) =
        parts.map fun q ↦ restrict labeledKey (layers (q.leaves.map contentOf)) :=
      List.map_congr_left ih
    calc restrict labeledKey (contentOf p.series)
        = restrict labeledKey (layers (parts.map fun q ↦ contentOf q.series)) := by
          rw [hmade.content hparts, restrict_restrict]
      _ = layers (parts.map fun q ↦ restrict labeledKey (contentOf q.series)) := by
          rw [restrict_layers, List.map_map]
          rfl
      _ = restrict labeledKey (layers (parts.map fun q ↦ layers (q.leaves.map contentOf))) := by
          rw [hinner, restrict_layers, List.map_map]
          rfl
      _ = restrict labeledKey (layers (p.leaves.map contentOf)) := by
          rw [hmade.leaves_eq, List.map_flatMap, layers_flatMap]

/-- A compacted block says what its first blocks say of label sets with a label, and nothing else. -/
theorem CompactedFrom.content_leaves {text : JsonText} {parts : List Part} {p : Part}
    (h : CompactedFrom text parts p) (hparts : ∀ q ∈ parts, Compacted text q) :
    contentOf p.series = restrict labeledKey (layers (p.leaves.map contentOf)) := by
  rw [← (Compacted.compact hparts h).content, h.content hparts, restrict_restrict]

end MerlionTsdb.Block
