import MerlionTsdb.Block.Compact
import MerlionTsdb.Block.Select
import MerlionTsdb.Head.Select
import MerlionTsdb.Lib.IndexSort
import Mathlib.Data.List.ReduceOption

/-!
# The querier

`querier.cpp`: `Querier::select` runs a query against blocks and heads, gathers the chunks of each label set
in an unordered map, and sorts those of each label set by their first times.
-/

namespace MerlionTsdb.Querier

open Block Chunkenc Encoding Head IndexSort Model

/-- `MergedSeries`. -/
structure MergedSeries where
  labels : Labels
  chunks : List XORChunk := []
  chunkMetas : List ChunkMeta := []

/-- `Querier`: its sources, where `none` is a null pointer. -/
structure Querier (W : Type) where
  blocks : List (Option Block)
  heads : List (Option (Head W))

/-- The chunks of a result, each with its meta. -/
def pairs (qr : QueryResult) : List (XORChunk × ChunkMeta) := qr.chunks.zip qr.chunkMetas

/-- `bucket`: the two vectors of a series grow together. -/
abbrev Bucket := Buckets.Map Labels (XORChunk × ChunkMeta)

/-- The loop over the results of one source. -/
def addResults (bucket : Bucket) (results : List QueryResult) : Bucket :=
  Buckets.appendAll bucket (results.map fun qr ↦ (qr.labels, pairs qr))

/-- The range in the metadata of the block does not meet the range of the query. -/
def outside (blk : Block) (mint maxt : Int64) : Bool :=
  blk.blockMeta.minTime > maxt || blk.blockMeta.maxTime < mint

section

variable (matchers : List Matcher) (mint maxt : Int64)

/-- The loop over the blocks. -/
def addBlocks (bucket : Bucket) : List (Option Block) → Except Failure Bucket
  | [] => .ok bucket
  | none :: blocks => addBlocks bucket blocks
  | some blk :: blocks =>
    if outside blk mint maxt then addBlocks bucket blocks
    else do
      let perBlock ← blk.select matchers mint maxt
      addBlocks (addResults bucket perBlock) blocks

/-- The loop over the heads. -/
def addHeads {W : Type} (bucket : Bucket) : List (Option (Head W)) → Except Failure Bucket
  | [] => .ok bucket
  | none :: heads => addHeads bucket heads
  | some hd :: heads => do
    let perHead ← lift (hd.select matchers mint maxt)
    addHeads (addResults bucket perHead) heads

end

/-- The index sort of one series, applied to both vectors. -/
def sortSeries (sorter : Sorter Int64) (entry : Labels × List (XORChunk × ChunkMeta)) : MergedSeries :=
  let order := sorter.order (entry.2.map fun p ↦ p.2.minTime)
  { labels := entry.1
    chunks := permute order (entry.2.map Prod.fst)
    chunkMetas := permute order (entry.2.map Prod.snd) }

/-- `Querier::select`, where the order in which the map is iterated and that of equal times are open. -/
def Querier.select {W : Type} (q : Querier W)
    (hashOrder : Buckets.HashOrder (Labels × List (XORChunk × ChunkMeta))) (sorter : Sorter Int64)
    (matchers : List Matcher) (mint maxt : Int64) : Except Failure (List MergedSeries) :=
  if matchers.isEmpty then .error (.error .invalidArgument)
  else do
    let bucket ← addBlocks matchers mint maxt [] q.blocks
    let bucket ← addHeads matchers mint maxt bucket q.heads
    .ok ((hashOrder.order bucket).map (sortSeries sorter))

/-! ## One series -/

theorem pairs_sortSeries (sorter : Sorter Int64) (entry : Labels × List (XORChunk × ChunkMeta)) :
    (sortSeries sorter entry).chunks.zip (sortSeries sorter entry).chunkMetas =
      permute (sorter.order (entry.2.map fun p ↦ p.2.minTime)) entry.2 := by
  unfold sortSeries
  dsimp only
  rw [permute_map, permute_map, List.zip_map']
  exact List.map_id _

theorem length_sortSeries (sorter : Sorter Int64) (entry : Labels × List (XORChunk × ChunkMeta)) :
    (sortSeries sorter entry).chunks.length = (sortSeries sorter entry).chunkMetas.length := by
  unfold sortSeries
  dsimp only
  rw [permute_map, permute_map, List.length_map, List.length_map]

theorem sorted_sortSeries (sorter : Sorter Int64) (entry : Labels × List (XORChunk × ChunkMeta)) :
    (sortSeries sorter entry).chunkMetas.Pairwise fun a b ↦ a.minTime ≤ b.minTime := by
  unfold sortSeries
  dsimp only
  rw [permute_map, List.pairwise_map]
  exact sorter.pairwise_permute _ _

/-! ## The sources -/

/-- What the sources answer, each in full and skipped blocks too. -/
structure Answers {W : Type} (q : Querier W) (matchers : List Matcher) (mint maxt : Int64)
    (results : List QueryResult) : Prop where
  sources : ∃ perBlock perHead,
    List.Forall₂ (fun (blk : Block) found ↦ blk.select matchers mint maxt = .ok found)
      q.blocks.reduceOption perBlock ∧
    List.Forall₂ (fun (hd : Head W) found ↦ hd.select matchers mint maxt = .ok found)
      q.heads.reduceOption perHead ∧
    results = perBlock.flatten ++ perHead.flatten

theorem addResults_append (bucket : Bucket) (xs ys : List QueryResult) :
    addResults (addResults bucket xs) ys = addResults bucket (xs ++ ys) := by
  unfold addResults Buckets.appendAll
  rw [List.map_append, List.foldl_append]

section

variable {matchers : List Matcher} {mint maxt : Int64}

/-- A skipped block would have added nothing. -/
theorem addBlocks_ok {blocks : List (Option Block)} {perBlock : List (List QueryResult)}
    (h : List.Forall₂ (fun (blk : Block) found ↦ blk.select matchers mint maxt = .ok found)
      blocks.reduceOption perBlock)
    (hskip : ∀ blk ∈ blocks.reduceOption, outside blk mint maxt = true →
      blk.select matchers mint maxt = .ok []) (bucket : Bucket) :
    addBlocks matchers mint maxt bucket blocks = .ok (addResults bucket perBlock.flatten) := by
  induction blocks generalizing bucket perBlock with
  | nil =>
    cases h
    rfl
  | cons source blocks ih =>
    cases source with
    | none => exact ih h hskip bucket
    | some blk =>
      rw [List.reduceOption_cons_of_some] at h hskip
      cases h with
      | @cons _ found _ perBlock hfound hrest =>
        have hskip' := fun blk' hblk' ↦ hskip blk' (List.mem_cons_of_mem _ hblk')
        unfold addBlocks
        split
        · rename_i hout
          rw [hskip blk List.mem_cons_self hout] at hfound
          cases hfound
          exact ih hrest hskip' bucket
        · rw [hfound, ok_bind, ih hrest hskip', addResults_append, List.flatten_cons]

theorem addHeads_ok {W : Type} {heads : List (Option (Head W))} {perHead : List (List QueryResult)}
    (h : List.Forall₂ (fun (hd : Head W) found ↦ hd.select matchers mint maxt = .ok found)
      heads.reduceOption perHead) (bucket : Bucket) :
    addHeads matchers mint maxt bucket heads = .ok (addResults bucket perHead.flatten) := by
  induction heads generalizing bucket perHead with
  | nil =>
    cases h
    rfl
  | cons source heads ih =>
    cases source with
    | none => exact ih h bucket
    | some hd =>
      rw [List.reduceOption_cons_of_some] at h
      cases h with
      | @cons _ found _ perHead hfound hrest =>
        unfold addHeads
        rw [hfound]
        show addHeads matchers mint maxt (addResults bucket found) heads = _
        rw [ih hrest, addResults_append, List.flatten_cons]

end

/-! ## The merge -/

/-- The series of the merge are the label sets of the results, each once, with the pairs of them all. -/
structure MergeOf (results : List QueryResult) (merged : List MergedSeries) : Prop where
  nodup : (merged.map MergedSeries.labels).Nodup
  labels : ∀ labels, labels ∈ merged.map MergedSeries.labels ↔ ∃ qr ∈ results, qr.labels = labels
  parallel : ∀ s ∈ merged, s.chunks.length = s.chunkMetas.length
  pairs : ∀ s ∈ merged, (s.chunks.zip s.chunkMetas).Perm
    ((results.filter fun qr ↦ qr.labels = s.labels).flatMap pairs)
  sorted : ∀ s ∈ merged, s.chunkMetas.Pairwise fun a b ↦ a.minTime ≤ b.minTime

/-- The buckets of the results, sorted in any way. -/
theorem mergeOf_sortSeries (results : List QueryResult)
    (hashOrder : Buckets.HashOrder (Labels × List (XORChunk × ChunkMeta))) (sorter : Sorter Int64) :
    MergeOf results ((hashOrder.order (addResults [] results)).map (sortSeries sorter)) := by
  -- The order of the hash table does not matter to any of the five.
  have hperm := hashOrder.perm (addResults [] results)
  have hempty : (Buckets.keys ([] : Bucket)).Nodup := List.nodup_nil
  have hnodup : (Buckets.keys (addResults [] results)).Nodup :=
    Buckets.nodup_keys_appendAll hempty _
  have hkeys : ((hashOrder.order (addResults [] results)).map (sortSeries sorter)).map
      MergedSeries.labels = Buckets.keys (hashOrder.order (addResults [] results)) := by
    rw [List.map_map]
    rfl
  constructor
  · rw [hkeys]
    exact (hperm.map Prod.fst).nodup_iff.mpr hnodup
  · intro labels
    rw [hkeys, show Buckets.keys _ = (hashOrder.order (addResults [] results)).map Prod.fst from rfl,
      (hperm.map Prod.fst).mem_iff]
    show labels ∈ Buckets.keys (addResults [] results) ↔ _
    unfold addResults
    rw [Buckets.mem_keys_appendAll, List.map_map, List.mem_map]
    simp
  · intro s hs
    obtain ⟨entry, -, rfl⟩ := List.mem_map.mp hs
    exact length_sortSeries sorter entry
  · intro s hs
    obtain ⟨⟨labels, found⟩, hentry, rfl⟩ := List.mem_map.mp hs
    have hbucket := ((Buckets.mem_iff hnodup).mp (hperm.mem_iff.mp hentry)).2
    unfold addResults at hbucket
    rw [Buckets.bucket_appendAll, Buckets.bucket_nil, List.nil_append, List.filter_map,
      List.flatMap_map] at hbucket
    rw [pairs_sortSeries]
    apply (sorter.perm_permute _ _).trans
    show found.Perm _
    rw [← hbucket]
    exact List.Perm.refl _
  · intro s hs
    obtain ⟨entry, -, rfl⟩ := List.mem_map.mp hs
    exact sorted_sortSeries sorter entry

/-- When no block is skipped that would have answered, a query merges the answers of all sources. -/
theorem select_of_answers {W : Type} {q : Querier W} {matchers : List Matcher} {mint maxt : Int64}
    {results : List QueryResult} (hne : matchers ≠ []) (h : Answers q matchers mint maxt results)
    (hskip : ∀ blk ∈ q.blocks.reduceOption, outside blk mint maxt = true →
      blk.select matchers mint maxt = .ok [])
    (hashOrder : Buckets.HashOrder (Labels × List (XORChunk × ChunkMeta))) (sorter : Sorter Int64) :
    ∃ merged, q.select hashOrder sorter matchers mint maxt = .ok merged ∧ MergeOf results merged := by
  obtain ⟨perBlock, perHead, hblocks, hheads, rfl⟩ := h.sources
  refine ⟨_, ?_, mergeOf_sortSeries _ hashOrder sorter⟩
  unfold Querier.select
  rw [if_neg (by simpa using hne), addBlocks_ok hblocks hskip, ok_bind, addHeads_ok hheads, ok_bind,
    addResults_append]

end MerlionTsdb.Querier
