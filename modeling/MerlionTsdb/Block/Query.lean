import MerlionTsdb.Block.Index
import MerlionTsdb.Chunkenc.Xor
import MerlionTsdb.Model.Matcher

/-!
# Query results

What the selects of heads, blocks and queriers share: the result of one series, the time span of a
chunk, and the test against the range of a query.
-/

namespace MerlionTsdb.Block

open Chunkenc Encoding Model

/-- `QueryResult`. -/
structure QueryResult where
  labels : Labels
  chunks : List XORChunk := []
  chunkMetas : List ChunkMeta := []
  deriving DecidableEq

/-- The first and the last time that an iterator over the chunk yields; `none` when it yields nothing.
The error is looked at behind the loop only. -/
def timeSpan (c : XORChunk) : Except Errc (Option (Int64 × Int64)) :=
  match c.samples with
  | ([], _) => .ok none
  | (x :: xs, it) =>
    if it.err.isSome then .error .ioError else .ok (some (x.t, ((x :: xs).getLast (List.cons_ne_nil x xs)).t))

/-- The overlap test, inclusive on both sides. -/
def overlaps (cmin cmax mint maxt : Int64) : Bool := !(cmin > maxt || cmax < mint)

end MerlionTsdb.Block
