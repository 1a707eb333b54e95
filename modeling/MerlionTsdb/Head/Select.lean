import MerlionTsdb.Block.Query
import MerlionTsdb.Head.Replay

/-!
# Queries on a head

`head.cpp`: `Head::select` tests the labels of each series and decodes each of its chunks for the times
it covers.
-/

set_option linter.dupNamespace false

namespace MerlionTsdb.Head

open Block Chunkenc Encoding Model SeriesStore

/-- The chunk loop of `select`: the copies of the chunks in the range, with their metas. -/
def selectChunks (mint maxt : Int64) : List XORChunk → Except Errc (List (XORChunk × ChunkMeta))
  | [] => .ok []
  | c :: chunks =>
    if c.numSamples = 0 then selectChunks mint maxt chunks
    else
      match timeSpan c with
      | .error e => .error e
      | .ok none => selectChunks mint maxt chunks
      | .ok (some (cmin, cmax)) =>
        if !overlaps cmin cmax mint maxt then selectChunks mint maxt chunks
        else
          match selectChunks mint maxt chunks with
          | .error e => .error e
          | .ok rest =>
            -- Chunks in memory have no reference.
            .ok ((.fromBytes c.bytes, { minTime := cmin, maxTime := cmax, ref := 0 }) :: rest)

/-- The series loop of `select`. -/
def selectSeries (matchers : List Matcher) (mint maxt : Int64) :
    List MemSeries → Except Errc (List QueryResult)
  | [] => .ok []
  | s :: series =>
    if s.numSamples = 0 then selectSeries matchers mint maxt series
    else if !labelsMatchAll s.labels matchers then selectSeries matchers mint maxt series
    else
      match selectChunks mint maxt s.chunks with
      | .error e => .error e
      | .ok [] => selectSeries matchers mint maxt series
      | .ok found =>
        match selectSeries matchers mint maxt series with
        | .error e => .error e
        | .ok results =>
          .ok ({
            labels := s.labels
            chunks := found.map Prod.fst
            chunkMetas := found.map Prod.snd } :: results)

/-- `Head::select`. -/
def Head.select {W : Type} (h : Head W) (matchers : List Matcher) (mint maxt : Int64) :
    Except Errc (List QueryResult) :=
  if matchers = [] then .error .invalidArgument
  else selectSeries matchers mint maxt h.series.allSeries

end MerlionTsdb.Head
