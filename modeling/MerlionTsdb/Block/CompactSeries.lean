import MerlionTsdb.Block.HeadSelect
import MerlionTsdb.Block.StoredPostings

/-!
# What compaction keeps

`compact` finds the series of a block in its posting lists.  Every label set with a label stands there, with
all of its chunks; a series without labels stands in none of them.
-/

namespace MerlionTsdb.Block

open Ascending Chunkenc Encoding Head Model

/-! ## Collecting -/

/-- The chunks of a stored series are collected as they were written. -/
theorem collectChunks_eq {blk : Block} {chunks : List ChunkInput} {metas : List ChunkMeta}
    (h : List.Forall₂ (fun chk cm ↦ cm.minTime = chk.minTime ∧ cm.maxTime = chk.maxTime ∧
      (blk.chunks.read cm.chunkRef).1 = .ok chk.payload) chunks metas) :
    collectChunks blk.chunks metas = .ok chunks := by
  induction h with
  | nil => rfl
  | @cons ci cm chunks metas hcm _ ih =>
    obtain ⟨hmin, hmax, hread⟩ := hcm
    have hbytes : assignBytes ci.payload.data = .ok ci.bytes := by
      unfold assignBytes
      rw [show ci.payload.data = ci.bytes.bytes from rfl, Str.ofBytes_bytes]
    unfold collectChunks
    rw [hread, ok_bind, if_neg (fun hne ↦ hne rfl), hbytes, ok_bind, ih, ok_bind, hmin, hmax]

/-- The label sets that stand in posting lists, with their chunks. -/
def entriesOf (rows : List StoredSeries) : List (Labels × List ChunkInput) :=
  (rows.filter StoredSeries.labeled).map fun r ↦ (r.labels, r.chunks)

namespace Stores

variable {blk : Block} {rows : List StoredSeries}

theorem collectSeries_eq (h : Stores blk rows) (picked : List StoredSeries) (hpicked : picked ⊆ rows)
    (merged : Merged) : collectSeries blk merged (picked.map StoredSeries.id) =
      .ok (Buckets.appendAll merged (picked.map fun r ↦ (r.labels, r.chunks))) := by
  induction picked generalizing merged with
  | nil => rfl
  | cons r picked ih =>
    have hr := hpicked List.mem_cons_self
    rw [List.map_cons]
    unfold collectSeries
    rw [h.series r hr, ok_bind]
    dsimp only
    rw [collectChunks_eq (h.chunks r hr), ok_bind,
      ih (List.subset_of_cons_subset hpicked)]
    rfl

theorem seenIds_eq (h : Stores blk rows) :
    seenIds blk.index = .ok (idsWhere rows StoredSeries.labeled) := h.allPostings_eq

end Stores

theorem collectBlocks_eq {blocks : List Block} {rowss : List (List StoredSeries)}
    (h : List.Forall₂ Stores blocks rowss) (merged : Merged) :
    collectBlocks merged blocks = .ok (Buckets.appendAll merged (rowss.flatMap entriesOf)) := by
  induction h generalizing merged with
  | nil => rfl
  | @cons blk rows blocks rowss hstores _ ih =>
    have hcollect := hstores.collectSeries_eq (rows.filter StoredSeries.labeled)
      (fun r hr ↦ (List.mem_filter.mp hr).1) merged
    unfold collectBlocks
    rw [hstores.seenIds_eq, ok_bind, show idsWhere rows StoredSeries.labeled =
      (rows.filter StoredSeries.labeled).map StoredSeries.id from rfl, hcollect, ok_bind, ih,
      Buckets.appendAll_append, List.flatMap_cons]
    rfl

/-! ## Merging -/

theorem decoded_ne_nil {chunks : List ChunkInput} :
    decoded chunks ≠ [] ↔ ∃ ci ∈ chunks, ci.decode.1 ≠ [] := by
  unfold decoded
  rw [ne_eq, List.flatMap_eq_nil_iff, not_forall]
  simp only [exists_prop, not_forall]

/-- No time is lost by the merge. -/
theorem dedupe_ne_nil {samples : List Sample} : dedupe samples ≠ [] ↔ samples ≠ [] := by
  have hmerges := merges_dedupe samples
  constructor
  · intro hne
    obtain ⟨y, hy⟩ := List.exists_mem_of_ne_nil _ hne
    obtain ⟨x, hx, -⟩ := (hmerges.times y.t).mp ⟨y, hy, rfl⟩
    exact List.ne_nil_of_mem hx
  · intro hne
    obtain ⟨x, hx⟩ := List.exists_mem_of_ne_nil _ hne
    obtain ⟨y, hy, -⟩ := (hmerges.times x.t).mpr ⟨x, hx, rfl⟩
    exact List.ne_nil_of_mem hy

/-- A series of the output has samples when one of its collected chunks has. -/
theorem mergeAll_labels {merged : List (Labels × List ChunkInput)} {inputs : List SeriesInput}
    (hok : mergeAll merged = .ok inputs) :
    List.Forall₂ (fun e si ↦ si.labels = e.1 ∧
      ((∃ ci ∈ si.chunks, ci.decode.1 ≠ []) ↔ ∃ ci ∈ e.2, ci.decode.1 ≠ [])) merged inputs := by
  induction merged generalizing inputs with
  | nil =>
    cases hok
    exact .nil
  | cons entry merged ih =>
    obtain ⟨out, si, rest, hout, hsi, hrest, rfl⟩ := mergeAll_cons_ok hok
    obtain ⟨hlabels, hchunks⟩ := ofChunks_ok hsi
    obtain ⟨-, runs, hencodes, hflat⟩ := verticalMerge_ok hout
    apply List.Forall₂.cons _ (ih hrest)
    refine ⟨hlabels, ?_⟩
    rw [hchunks, ← decoded_ne_nil, ← decoded_ne_nil, decoded_of_encodes hencodes, hflat, dedupe_ne_nil]

/-! ## Label sets with samples -/

/-- A series of the label set is stored with a sample. -/
def WithSamples (series : List SeriesInput) (labels : Labels) : Prop :=
  ∃ s ∈ series, s.labels = labels ∧ ∃ ci ∈ s.chunks, ci.decode.1 ≠ []

theorem withSamples_kept {series : List SeriesInput} {labels : Labels} :
    WithSamples (series.filter SeriesInput.kept) labels ↔ WithSamples series labels := by
  unfold WithSamples
  constructor
  · rintro ⟨s, hs, h⟩
    exact ⟨s, (List.mem_filter.mp hs).1, h⟩
  · rintro ⟨s, hs, hlabels, ci, hci, hne⟩
    refine ⟨s, List.mem_filter.mpr ⟨hs, ?_⟩, hlabels, ci, hci, hne⟩
    unfold SeriesInput.kept
    rw [Bool.not_eq_true', List.isEmpty_eq_false_iff]
    exact List.ne_nil_of_mem hci

/-- The output has the label sets that stand in the posting lists of some block. -/
theorem withSamples_merged {rowss : List (List StoredSeries)} {inputs : List SeriesInput}
    (order : Buckets.HashOrder (Labels × List ChunkInput))
    (hok : mergeAll (order.order (Buckets.appendAll [] (rowss.flatMap entriesOf))) = .ok inputs)
    (labels : Labels) :
    WithSamples inputs labels ↔
      labels.entries ≠ [] ∧ ∃ rows ∈ rowss, WithSamples (rows.map fun r ↦ r.prepared.input) labels := by
  have hpaired := mergeAll_labels hok
  have hperm := order.perm (Buckets.appendAll [] (rowss.flatMap entriesOf))
  -- A merged series has samples just if one of its chunks has.
  have hfound : WithSamples inputs labels ↔ ∃ e ∈ Buckets.appendAll [] (rowss.flatMap entriesOf),
      e.1 = labels ∧ ∃ ci ∈ e.2, ci.decode.1 ≠ [] := by
    constructor
    · rintro ⟨si, hsi, hlabels, hsome⟩
      obtain ⟨e, he, hsame, hiff⟩ := Related.exists_left hpaired hsi
      exact ⟨e, hperm.mem_iff.mp he, hsame.symm.trans hlabels, hiff.mp hsome⟩
    · rintro ⟨e, he, hlabels, hsome⟩
      obtain ⟨si, hsi, hsame, hiff⟩ := Related.exists_right hpaired (hperm.mem_iff.mpr he)
      exact ⟨si, hsi, hsame.trans hlabels, hiff.mpr hsome⟩
  rw [hfound, Buckets.exists_mem_appendAll]
  constructor
  · rintro ⟨e, he, hlabels, hsome⟩
    obtain ⟨rows, hrows, he⟩ := List.mem_flatMap.mp he
    obtain ⟨r, hr, rfl⟩ := List.mem_map.mp he
    obtain ⟨hmem, hlabeled⟩ := List.mem_filter.mp hr
    obtain ⟨l, hl⟩ := StoredSeries.labeled_iff.mp hlabeled
    dsimp only at hlabels hsome
    rw [hlabels] at hl
    exact ⟨List.ne_nil_of_mem hl, rows, hrows, _, List.mem_map_of_mem hmem, hlabels, hsome⟩
  · rintro ⟨hne, rows, hrows, si, hsi, hlabels, hsome⟩
    obtain ⟨r, hr, rfl⟩ := List.mem_map.mp hsi
    obtain ⟨l, hl⟩ := List.exists_mem_of_ne_nil _ hne
    rw [← hlabels] at hl
    refine ⟨(r.labels, r.chunks), List.mem_flatMap.mpr ⟨rows, hrows, ?_⟩, hlabels, hsome⟩
    exact List.mem_map.mpr ⟨r, List.mem_filter.mpr ⟨hr, StoredSeries.labeled_iff.mpr ⟨l, hl⟩⟩, rfl⟩

/-! ## Levels -/

theorem toInt_max (a b : Int32) : (max a b).toInt = max a.toInt b.toInt := by
  show (if a ≤ b then b else a).toInt = _
  split
  · rename_i hle
    rw [max_eq_right (Int32.le_iff_toInt_le.mp hle)]
  · rename_i hlt
    rw [Int32.le_iff_toInt_le] at hlt
    rw [max_eq_left (by omega)]

/-- The greatest of the levels and the start. -/
theorem foldl_level_spec {start last : Int32} {blocks : List Block}
    (h : blocks.foldl (fun level blk ↦ max level blk.blockMeta.compaction.level) start = last) :
    start.toInt ≤ last.toInt ∧
      (∀ blk ∈ blocks, blk.blockMeta.compaction.level.toInt ≤ last.toInt) ∧
      (last.toInt = start.toInt ∨
        ∃ blk ∈ blocks, last.toInt = blk.blockMeta.compaction.level.toInt) := by
  induction blocks generalizing start with
  | nil =>
    rw [← h]
    exact ⟨le_rfl, by simp, Or.inl rfl⟩
  | cons blk blocks ih =>
    obtain ⟨hstart, hall, hfrom⟩ := ih h
    rw [toInt_max] at hstart hfrom
    refine ⟨by omega, ?_, ?_⟩
    · intro blk' hblk'
      rcases List.mem_cons.mp hblk' with rfl | hmem
      · omega
      · exact hall blk' hmem
    · rcases hfrom with hstep | ⟨blk', hmem, heq⟩
      · by_cases hle : start.toInt ≤ blk.blockMeta.compaction.level.toInt
        · exact Or.inr ⟨blk, List.mem_cons_self, by omega⟩
        · exact Or.inl (by omega)
      · exact Or.inr ⟨blk', List.mem_cons_of_mem _ hmem, heq⟩

/-- The block has the greatest level. -/
def TopLevel (blocks : List Block) (blk : Block) : Prop :=
  blk ∈ blocks ∧ ∀ blk' ∈ blocks, blk'.blockMeta.compaction.level ≤ blk.blockMeta.compaction.level

/-- The sum is right between the first level and the one before the last. -/
theorem level_iff (blocks : List Block) :
    (∃ blk, TopLevel blocks blk ∧
        (maxLevel blocks + 1).toInt = blk.blockMeta.compaction.level.toInt + 1) ↔
      ∃ blk, TopLevel blocks blk ∧ 0 ≤ blk.blockMeta.compaction.level ∧
        blk.blockMeta.compaction.level ≠ Int32.maxValue := by
  obtain ⟨hzero, hall, hfrom⟩ := foldl_level_spec (show _ = maxLevel blocks from rfl)
  rw [show (0 : Int32).toInt = 0 from rfl] at hzero hfrom
  have hmax : Int32.maxValue.toInt = 2 ^ 31 - 1 := by decide
  have htop : ∀ blk, TopLevel blocks blk → (maxLevel blocks).toInt =
      max 0 blk.blockMeta.compaction.level.toInt := by
    intro blk hblk
    have hle := hall blk hblk.1
    rcases hfrom with hnone | ⟨blk', hmem, heq⟩
    · omega
    · have hge := Int32.le_iff_toInt_le.mp (hblk.2 blk' hmem)
      omega
  have hsum : (maxLevel blocks + 1).toInt = ((maxLevel blocks).toInt + 1).bmod (2 ^ 32) :=
    Int32.toInt_add _ _
  apply exists_congr
  intro blk
  apply and_congr_right
  intro hblk
  have hle := Int32.toInt_le blk.blockMeta.compaction.level
  have hge := Int32.le_toInt blk.blockMeta.compaction.level
  rw [hsum, htop blk hblk, Int32.le_iff_toInt_le, ne_eq, ← Int32.toInt_inj, hmax,
    show (0 : Int32).toInt = 0 from rfl]
  rw [Int.bmod_def]
  constructor
  · intro h
    omega
  · intro h
    omega

/-- The last level has no next one. -/
example : Int32.maxValue + 1 < 0 := by decide

/-! ## Every run -/

/-- The blocks in the directories store what was produced there. -/
theorem openAll_stores {text : JsonText} {dirs : List (Option BlockDir)} {blocks : List Block}
    {stored : BlockDir → List SeriesInput} (hproduced : ∀ d, some d ∈ dirs → Produced text d (stored d))
    (hopen : openAll text dirs = .ok blocks) :
    ∃ rowss, List.Forall₂ Stores blocks rowss ∧ List.Forall₂ (fun dir rows ↦ ∃ d, dir = some d ∧
      (rows.map fun r ↦ r.prepared.input) = (stored d).filter SeriesInput.kept) dirs rowss := by
  induction dirs generalizing blocks with
  | nil =>
    cases hopen
    exact ⟨[], .nil, .nil⟩
  | cons dir dirs ih =>
    unfold openAll at hopen
    obtain ⟨blk, hdir, hopen⟩ := bind_ok hopen
    obtain ⟨rest, hrest, hopen⟩ := bind_ok hopen
    cases hopen
    obtain ⟨rowss, hstores, hrows⟩ := ih (fun d hd ↦ hproduced d (List.mem_cons_of_mem _ hd)) hrest
    cases dir with
    | none => cases hdir
    | some d =>
      obtain ⟨rows, hopened⟩ := (hproduced d List.mem_cons_self).opened hdir
      exact ⟨rows :: rowss, .cons hopened.stores hstores, .cons ⟨d, rfl, hopened.inputs_eq⟩ hrows⟩

/-- The output has the label sets of the inputs that have a label. -/
theorem CompactRun.withSamples {text : JsonText} {calls : CompactCalls} {dirs : List (Option BlockDir)}
    {blocks : List Block} {inputs : List SeriesInput} {created dir : BlockDir} {m : BlockMeta}
    (hrun : CompactRun text calls dirs blocks inputs created m dir) {stored : BlockDir → List SeriesInput}
    (hproduced : ∀ d, some d ∈ dirs → Produced text d (stored d)) (labels : Labels) :
    WithSamples inputs labels ↔
      labels.entries ≠ [] ∧ ∃ d, some d ∈ dirs ∧ WithSamples (stored d) labels := by
  obtain ⟨merged, hcollect, hmerge⟩ := hrun.inputs_ok
  obtain ⟨rowss, hstores, hrows⟩ := openAll_stores hproduced hrun.open_ok
  rw [collectBlocks_eq hstores] at hcollect
  cases hcollect
  rw [withSamples_merged calls.order hmerge]
  apply and_congr_right
  intro _
  constructor
  · rintro ⟨rows, hmem, hsome⟩
    obtain ⟨dir, hdir, d, rfl, hinputs⟩ := Related.exists_left hrows hmem
    rw [hinputs, withSamples_kept] at hsome
    exact ⟨d, hdir, hsome⟩
  · rintro ⟨d, hdir, hsome⟩
    obtain ⟨rows, hmem, d', heq, hinputs⟩ := Related.exists_right hrows hdir
    cases heq
    refine ⟨rows, hmem, ?_⟩
    rw [hinputs, withSamples_kept]
    exact hsome

/-- What a block that `compact` makes of the directories should keep of them. -/
structure KeepsSeries (stored : BlockDir → List SeriesInput) (dirs : List (Option BlockDir))
    (blocks : List Block) (prepared : List PreparedSeries) (m : BlockMeta) : Prop where
  labels : ∀ labels, WithSamples (prepared.map PreparedSeries.input) labels ↔
    ∃ d, some d ∈ dirs ∧ WithSamples (stored d) labels
  level : ∃ blk, TopLevel blocks blk ∧
    m.compaction.level.toInt = blk.blockMeta.compaction.level.toInt + 1
  ascending : Asc m.compaction.sources
  sources : ∀ s, s ∈ m.compaction.sources ↔ ∃ blk ∈ blocks, s ∈ blk.blockMeta.compaction.sources

/-- A block compacted from blocks that were produced within the format keeps all of them just when none of
them stores a sample without labels, and the greatest level can be counted up. -/
theorem compact_keeps_iff {text : JsonText} {calls : CompactCalls} {dirs : List (Option BlockDir)}
    {dir : BlockDir} {blocks : List Block} {stored : BlockDir → List SeriesInput}
    (hproduced : ∀ d, some d ∈ dirs → Produced text d (stored d))
    (hopen : openAll text dirs = .ok blocks) (hok : compact text calls dirs = .ok dir) :
    ∃ series prepared m, Holding text calls.create series dir prepared m ∧
      (∀ blk, WithinFormat calls.create series → openDir text (some dir) = .ok blk →
        ∃ rows, Stores blk rows ∧ rows.map StoredSeries.prepared = prepared) ∧
      (KeepsSeries stored dirs blocks prepared m ↔
        (∀ d, some d ∈ dirs → ¬ WithSamples (stored d) Labels.empty) ∧
          ∃ blk, TopLevel blocks blk ∧ 0 ≤ blk.blockMeta.compaction.level ∧
            blk.blockMeta.compaction.level ≠ Int32.maxValue) := by
  obtain ⟨blocks', inputs, created, m, hrun⟩ := compact_run hok
  have hblocks := hrun.open_ok
  rw [hopen] at hblocks
  cases hblocks
  obtain ⟨prepared, st, hsegments, hindex, hchunks, hmeta⟩ := createFromSeries_ok hrun.create_ok
  have hholding := hrun.holding ⟨⟨st, hsegments, hchunks⟩, hindex, hmeta⟩
  refine ⟨inputs, prepared, _, hholding, fun _ hfits hread ↦ hholding.stores hfits hread, ?_⟩
  obtain ⟨hinputs, -, -⟩ := writeSegments_totals hsegments
  -- The empty label set is in no posting list, and all others get through.
  have hlabels : ∀ labels, WithSamples (prepared.map PreparedSeries.input) labels ↔
      labels.entries ≠ [] ∧ ∃ d, some d ∈ dirs ∧ WithSamples (stored d) labels := by
    intro labels
    rw [hinputs, withSamples_kept]
    exact hrun.withSamples hproduced labels
  constructor
  · intro hkeeps
    refine ⟨fun d hd hsome ↦ ?_, (level_iff blocks).mp hkeeps.level⟩
    exact ((hlabels Labels.empty).mp ((hkeeps.labels Labels.empty).mpr ⟨d, hd, hsome⟩)).1 rfl
  · rintro ⟨hnone, hlevel⟩
    refine ⟨fun labels ↦ ?_, (level_iff blocks).mpr hlevel, asc_sortUnique _, fun s ↦ ?_⟩
    · rw [hlabels]
      constructor
      · exact And.right
      · rintro ⟨d, hd, hsome⟩
        refine ⟨fun hnil ↦ hnone d hd ?_, d, hd, hsome⟩
        rw [← show labels = Labels.empty from Labels.ext hnil]
        exact hsome
    · show s ∈ aggregatedSources blocks ↔ _
      unfold aggregatedSources
      rw [mem_sortUnique, List.mem_flatMap]

/-- Two blocks that share a label set, and have one of their own each. -/
theorem compact_keeps_iff_overlapping :
    ∃ (stored : BlockDir → List SeriesInput) (dir dir' dir'' : BlockDir) (blocks : List Block)
      (series : List SeriesInput) (prepared : List PreparedSeries) (m : BlockMeta),
      createFromHead chainText { ulid := Str.empty } (filledHead firstSamples) = .ok dir ∧
      createFromHead chainText { ulid := Str.empty } (filledHead secondSamples) = .ok dir' ∧
      stored dir = firstInput ∧ stored dir' = secondInput ∧
      openAll chainText [some dir, some dir'] = .ok blocks ∧
      compact chainText oneCompact [some dir, some dir'] = .ok dir'' ∧
      Holding chainText oneCompact.create series dir'' prepared m ∧
      KeepsSeries stored [some dir, some dir'] blocks prepared m := by
  have hall : (do
      let dir ← createFromHead chainText { ulid := Str.empty } (filledHead firstSamples)
      let dir' ← createFromHead chainText { ulid := Str.empty } (filledHead secondSamples)
      let blocks ← openAll chainText [some dir, some dir']
      let _ ← compact chainText oneCompact [some dir, some dir']
      .ok (decide (dir.metaJson ≠ dir'.metaJson ∧
        blocks.map (fun blk : Block ↦ blk.blockMeta.compaction.level) = [1, 1]))) = .ok true := by
    decide +kernel
  obtain ⟨dir, hflush, hall⟩ := bind_ok hall
  obtain ⟨dir', hflush', hall⟩ := bind_ok hall
  obtain ⟨blocks, hopen, hall⟩ := bind_ok hall
  obtain ⟨dir'', hcompact, hall⟩ := bind_ok hall
  obtain ⟨hne, hlevels⟩ := of_decide_eq_true (Except.ok.inj hall)
  let stored : BlockDir → List SeriesInput := fun d ↦
    if d.metaJson = dir.metaJson then firstInput else secondInput
  have hfirst : stored dir = firstInput := if_pos rfl
  have hsecond : stored dir' = secondInput := if_neg hne.symm
  obtain ⟨series, prepared, m, hholding, -, hiff⟩ :=
    @compact_keeps_iff _ _ _ _ _ stored (fun d hd ↦ by
      rcases List.mem_pair.mp hd with heq | heq
      · cases heq
        rw [hfirst]
        exact produced_first hflush
      · cases heq
        rw [hsecond]
        exact produced_second hflush') hopen hcompact
  refine ⟨stored, dir, dir', dir'', blocks, series, prepared, m, hflush, hflush', hfirst, hsecond, hopen,
    hcompact, hholding, hiff.mpr ⟨?_, ?_⟩⟩
  · rintro d hd ⟨s, hs, hlabels, -⟩
    have hlabeled : ∀ s ∈ firstInput ++ secondInput, s.labels ≠ Labels.empty := by decide
    apply hlabeled s _ hlabels
    rw [List.mem_append]
    rcases List.mem_pair.mp hd with heq | heq
    · cases heq
      rw [hfirst] at hs
      exact Or.inl hs
    · cases heq
      rw [hsecond] at hs
      exact Or.inr hs
  · -- Both blocks are of the first level.
    have hlevel : ∀ blk ∈ blocks, blk.blockMeta.compaction.level = 1 := by
      intro blk hblk
      have hmem := List.mem_map_of_mem (f := fun blk : Block ↦ blk.blockMeta.compaction.level) hblk
      rw [hlevels] at hmem
      simpa using hmem
    obtain ⟨blk, hblk⟩ := List.exists_mem_of_length_pos (l := blocks) (by
      have hlen := congrArg List.length hlevels
      rw [List.length_map] at hlen
      rw [hlen]
      decide)
    refine ⟨blk, ⟨hblk, fun blk' hblk' ↦ ?_⟩, ?_⟩
    · rw [hlevel blk hblk, hlevel blk' hblk']
      exact Int32.le_refl _
    · rw [hlevel blk hblk]
      decide

/-- The metadata of a block without series. -/
def emptyMeta : BlockMeta where
  version := 1
  ulid := Str.empty
  compaction := { level := 1, sources := [Str.empty] }

/-- The head with one sample without labels, flushed: the block that `compact` makes of it is empty. -/
theorem compact_loses_unlabeled :
    ∃ content inputs dir dir' blocks m, Reaches listWal unlabeledHead content ∧
      createFromHead (JsonText.of [oneMeta, emptyMeta]) { ulid := Str.empty } unlabeledHead = .ok dir ∧
      Produced (JsonText.of [oneMeta, emptyMeta]) dir inputs ∧ WithSamples inputs Labels.empty ∧
      openAll (JsonText.of [oneMeta, emptyMeta]) [some dir] = .ok blocks ∧
      compact (JsonText.of [oneMeta, emptyMeta]) oneCompact [some dir] = .ok dir' ∧
      Holding (JsonText.of [oneMeta, emptyMeta]) oneCompact.create [] dir' [] m ∧
      ¬ KeepsSeries (fun _ ↦ inputs) [some dir] blocks [] m := by
  have hall : (do
      let dir ← createFromHead (JsonText.of [oneMeta, emptyMeta]) { ulid := Str.empty } unlabeledHead
      compact (JsonText.of [oneMeta, emptyMeta]) oneCompact [some dir]).isOk = true := by decide +kernel
  have hmerged : (do
      let dir ← createFromHead (JsonText.of [oneMeta, emptyMeta]) { ulid := Str.empty } unlabeledHead
      let blocks ← openAll (JsonText.of [oneMeta, emptyMeta]) [some dir]
      let merged ← collectBlocks [] blocks
      mergeAll merged) = .ok [] := by decide +kernel
  let inputs : List SeriesInput := [⟨Labels.empty,
    [⟨0, 0, ⟨[0, 1, 0, 0, 0, 0, 0, 0, 0, 0, 0], by decide⟩⟩], by decide⟩]
  have hinputs : headInputs unlabeledHead.series.allSeries = .ok inputs := by decide +kernel
  have hsome : WithSamples inputs Labels.empty :=
    ⟨_, List.mem_cons_self, rfl, _, List.mem_cons_self, by decide⟩
  obtain ⟨dir', hall⟩ := exists_of_isOk hall
  obtain ⟨dir, hflush, hcompact⟩ := bind_ok hall
  obtain ⟨blocks, series, created, m, hrun⟩ := compact_run hcompact
  -- No series is collected.
  obtain ⟨merged, hcollect, hmerge⟩ := hrun.inputs_ok
  rw [hflush, ok_bind, hrun.open_ok, ok_bind, hcollect, ok_bind] at hmerged
  have hsame := hmerge.symm.trans hmerged
  cases hsame
  obtain ⟨prepared, st, hsegments, hindex, hchunks, hmeta⟩ := createFromSeries_ok hrun.create_ok
  have hnone : prepared = [] := List.map_eq_nil_iff.mp (writeSegments_totals hsegments).1
  rw [hnone] at hsegments hindex
  have hholding := hrun.holding ⟨⟨st, hsegments, hchunks⟩, hindex, hmeta⟩
  have happend : ({ wal := [] } : Head (List Bytes)).append Labels.empty ⟨0, 0⟩ =
      some (.ok 1, unlabeledHead) := rfl
  have hreach := filled_zero.reaches.accepted happend
  have hproduced := Produced.head hreach hinputs hflush (withinFormat_of_weight _ (by decide))
    (@keepsNew_of (JsonText.of [oneMeta, emptyMeta]) _ _ oneMeta (by decide)
      (JsonText.keeps_of (List.find?_cons_of_pos (decide_eq_true rfl))))
  refine ⟨_, inputs, dir, dir', blocks, _, hreach, hflush, hproduced, hsome, hrun.open_ok, hcompact,
    hholding, fun hkeeps ↦ ?_⟩
  obtain ⟨s, hs, -⟩ := (hkeeps.labels Labels.empty).mpr ⟨dir, List.mem_cons_self, hsome⟩
  cases hs

end MerlionTsdb.Block
