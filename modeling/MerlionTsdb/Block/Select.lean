import MerlionTsdb.Block.Create

/-!
# Queries on a block

`block.cpp`: `postings_for_matcher` rewrites a matcher into unions, differences and intersections of
posting lists; `Block::select` decodes the series that are left and the chunks in the range.
-/

namespace MerlionTsdb.Block

open Ascending Chunkenc Encoding Model

/-- The loop over the values of a label: the lists of those that `pred` accepts. -/
def acceptedPostings (idx : IndexReader) (name : Str) (pred : Str → Bool) :
    List Str → Except Failure (List UInt32)
  | [] => .ok []
  | v :: values =>
    if !pred v then acceptedPostings idx name pred values
    else do
      let ids ← idx.postings name v
      let rest ← acceptedPostings idx name pred values
      .ok (ids ++ rest)

/-- The series without a label of the name. -/
def withoutName (idx : IndexReader) (name : Str) : Except Failure (List UInt32) := do
  let all ← idx.allPostings
  let named ← idx.postingsForName name
  .ok (difference all named)

/-- The series whose value `pred` accepts, where an absent label has the empty one. -/
def predPostings (idx : IndexReader) (name : Str) (pred : Str → Bool) :
    Except Failure (List UInt32) := do
  let out ← acceptedPostings idx name pred (idx.labelValues name)
  if pred Str.empty then do
    let without ← withoutName idx name
    .ok (sortUnique (out ++ without))
  else .ok (sortUnique out)

/-- `postings_for_matcher`. -/
def postingsForMatcher (idx : IndexReader) (m : Matcher) : Except Failure (List UInt32) :=
  match m.type with
  | .eq =>
    if m.value = Str.empty then withoutName idx m.name else idx.postings m.name m.value
  | .neq =>
    if m.value = Str.empty then idx.postingsForName m.name
    else do
      let all ← idx.allPostings
      let eq ← idx.postings m.name m.value
      .ok (difference all eq)
  | .re => predPostings idx m.name m.accepts
  | .nre => do
    -- The pattern alone selects what is taken away.
    let matching ← predPostings idx m.name m.regexMatches
    let all ← idx.allPostings
    .ok (difference all matching)

/-- The loop over the matchers behind the first, which stops when no series is left. -/
def intersectMatchers (idx : IndexReader) (ids : List UInt32) :
    List Matcher → Except Failure (List UInt32)
  | [] => .ok ids
  | m :: matchers =>
    if ids.isEmpty then .ok ids
    else do
      let next ← postingsForMatcher idx m
      intersectMatchers idx (intersection ids next) matchers

/-- The chunks of a series in the range, with their metas.  A read fills the cache of the reader, which
no later read of the same query can tell from the file. -/
def loadChunks (chunks : ChunkReader) (mint maxt : Int64) :
    List ChunkMeta → Except Failure (List (XORChunk × ChunkMeta))
  | [] => .ok []
  | cm :: metas =>
    if !overlaps cm.minTime cm.maxTime mint maxt then loadChunks chunks mint maxt metas
    else do
      let payload ← (chunks.read cm.chunkRef).1
      if payload.encoding ≠ .xor then .error (.error .notSupported)
      else do
        let rest ← loadChunks chunks mint maxt metas
        .ok ((.fromBytes payload.data, cm) :: rest)

/-- The series loop of `select`. -/
def loadSeries (blk : Block) (mint maxt : Int64) : List UInt32 → Except Failure (List QueryResult)
  | [] => .ok []
  | id :: ids => do
    let se ← blk.index.series id.toUInt64
    let found ← loadChunks blk.chunks mint maxt se.chunks
    let rest ← loadSeries blk mint maxt ids
    .ok (if found.isEmpty then rest else
      { labels := se.labels
        chunks := found.map Prod.fst
        chunkMetas := found.map Prod.snd } :: rest)

/-- `Block::select`. -/
def Block.select (blk : Block) (matchers : List Matcher) (mint maxt : Int64) :
    Except Failure (List QueryResult) :=
  match matchers with
  | [] => .error (.error .invalidArgument)
  | m :: matchers => do
    let first ← postingsForMatcher blk.index m
    let ids ← intersectMatchers blk.index first matchers
    loadSeries blk mint maxt ids

end MerlionTsdb.Block
