import MerlionTsdb.Block.Create
import MerlionTsdb.Lib.Buckets
import MerlionTsdb.Lib.StableSort

/-!
# Compaction

`block.cpp`: `Block::compact` collects the chunks of every series of its input blocks, merges the samples
of each series, and writes them to a new block.
-/

namespace MerlionTsdb.Block

open Ascending Chunkenc Encoding Head Model

/-- The order of the times in `std::stable_sort`. -/
instance linearOrderInt64 : LinearOrder Int64 where
  le_refl := Int64.le_refl
  le_trans _ _ _ := Int64.le_trans
  lt_iff_le_not_ge a b := by
    simp only [Int64.le_iff_toInt_le, Int64.lt_iff_toInt_lt]
    omega
  le_antisymm _ _ := Int64.le_antisymm
  le_total a b := by
    simp only [Int64.le_iff_toInt_le]
    omega
  toDecidableLE := inferInstance
  toDecidableEq := inferInstance

/-! ## Vertical merge -/

/-- What an iterator over the bytes of the chunk yields, and the iterator when it stops. -/
def ChunkInput.decode (ci : ChunkInput) : List Sample × XORIterator :=
  (XORChunk.fromBytes ci.bytes.bytes).samples

/-- The samples of the collected chunks, in input order. -/
def decodeInputs : List ChunkInput → Except Failure (List Sample)
  | [] => .ok []
  | ci :: chunks =>
    if ci.decode.2.err.isSome then .error (.error .ioError)
    else do
      let rest ← decodeInputs chunks
      .ok (ci.decode.1 ++ rest)

/-- Sorted by their times, and of equal times the last sample only. -/
def dedupe (samples : List Sample) : List Sample :=
  StableSort.lasts Sample.t (StableSort.stableSort Sample.t samples)

/-- The samples go to a series of the head. -/
def appendSamples (ms : MemSeries) : List Sample → Except Failure MemSeries
  | [] => .ok ms
  | x :: samples =>
    match ms.append x with
    | (false, _) => .error (.error .ioError)
    | (true, ms) => appendSamples ms samples

/-- The loop over its chunks. -/
def mergedChunks : List XORChunk → Except Failure (List ChunkInput)
  | [] => .ok []
  | c :: chunks =>
    if c.numSamples = 0 then mergedChunks chunks
    else do
      let bytes ← assignBytes c.bytes
      match c.samples.1 with
      | [] => mergedChunks chunks
      | x :: xs => do
        let rest ← mergedChunks chunks
        .ok ({ minTime := x.t, maxTime := ((x :: xs).getLast (List.cons_ne_nil x xs)).t, bytes := bytes } :: rest)

/-- The chunks of one series, merged. -/
def verticalMerge (labels : Labels) (chunks : List ChunkInput) :
    Except Failure (List ChunkInput) := do
  let samples ← decodeInputs chunks
  if (dedupe samples).isEmpty then .ok []
  else do
    let ms ← appendSamples { ref := 0, labels := labels } (dedupe samples)
    mergedChunks ms.chunks

/-! ## The input blocks -/

/-- `Block::open` on every directory. -/
def openAll (text : JsonText) : List (Option BlockDir) → Except Failure (List Block)
  | [] => .ok []
  | dir :: dirs => do
    let blk ← openDir text dir
    let blocks ← openAll text dirs
    .ok (blk :: blocks)

/-- `max_level`. -/
def maxLevel (blocks : List Block) : Int32 :=
  blocks.foldl (fun level blk ↦ max level blk.blockMeta.compaction.level) 0

/-- `aggregated_sources`. -/
def aggregatedSources (blocks : List Block) : List Str :=
  sortUnique (blocks.flatMap fun blk ↦ blk.blockMeta.compaction.sources)

/-- `seen_ids`: the ids in the posting lists. -/
def seenIds (idx : IndexReader) : Except Failure (List UInt32) := do
  let ids ← idx.readLists idx.postingsTable.entries
  .ok (sortUnique ids)

/-- The chunks of a series with their times and bytes. -/
def collectChunks (chunks : ChunkReader) : List ChunkMeta → Except Failure (List ChunkInput)
  | [] => .ok []
  | cm :: metas => do
    let payload ← (chunks.read cm.chunkRef).1
    if payload.encoding ≠ .xor then .error (.error .notSupported)
    else do
      let bytes ← assignBytes payload.data
      let rest ← collectChunks chunks metas
      .ok ({ minTime := cm.minTime, maxTime := cm.maxTime, bytes := bytes } :: rest)

/-- `merged`: the chunks collected for each label set. -/
abbrev Merged := Buckets.Map Labels ChunkInput

/-- The loop over the ids of a block. -/
def collectSeries (blk : Block) (merged : Merged) : List UInt32 → Except Failure Merged
  | [] => .ok merged
  | id :: ids => do
    let se ← blk.index.series id.toUInt64
    let chunks ← collectChunks blk.chunks se.chunks
    collectSeries blk (Buckets.append se.labels chunks merged) ids

/-- The loop over the blocks. -/
def collectBlocks (merged : Merged) : List Block → Except Failure Merged
  | [] => .ok merged
  | blk :: blocks => do
    let ids ← seenIds blk.index
    let merged ← collectSeries blk merged ids
    collectBlocks merged blocks

/-! ## The output block -/

/-- The loop over `merged`. -/
def mergeAll : List (Labels × List ChunkInput) → Except Failure (List SeriesInput)
  | [] => .ok []
  | (labels, chunks) :: merged => do
    let out ← verticalMerge labels chunks
    let si ← SeriesInput.ofChunks labels out
    let rest ← mergeAll merged
    .ok (si :: rest)

/-- The answers to the calls of `compact`, and the order in which `merged` is iterated. -/
structure CompactCalls where
  create : CreateCalls
  order : Buckets.HashOrder (Labels × List ChunkInput)
  metaJson : Bool := true

/-- The metadata of the output, which keeps the rest of what `create_from_series` wrote.  The sum wraps
around. -/
def patchMeta (blocks : List Block) (m : BlockMeta) : BlockMeta :=
  { m with compaction := { m.compaction with
      level := maxLevel blocks + 1
      sources := aggregatedSources blocks } }

/-- `Block::compact`, and the directory that it leaves when it succeeds. -/
def compact (text : JsonText) (calls : CompactCalls) (dirs : List (Option BlockDir)) :
    Except Failure BlockDir :=
  if dirs.isEmpty then .error (.error .invalidArgument)
  else do
    let blocks ← openAll text dirs
    let merged ← collectBlocks [] blocks
    let inputs ← mergeAll (calls.order.order merged)
    let dir ← createFromSeries text calls.create inputs
    let m ← lift (readMeta text dir)
    if !calls.metaJson then .error (.error .system)
    else .ok { dir with metaJson := some (encodeMetaJson text (patchMeta blocks m)) }

end MerlionTsdb.Block
