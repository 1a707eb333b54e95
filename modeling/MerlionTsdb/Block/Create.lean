import MerlionTsdb.Block.IndexWriter
import MerlionTsdb.Block.Meta
import MerlionTsdb.Block.Query
import MerlionTsdb.Head.Head
import Mathlib.Data.Prod.Lex

/-!
# Creating and opening blocks

`block.cpp`: `Block::create_from_series` writes the chunks, the index and the metadata of a new block;
`Block::create_from_head` gathers its input from a head; `Block::open` reads a block directory.  What
the system calls answer is an input, and so is the ULID that a new block is given.
-/

namespace MerlionTsdb.Block

open Chunkenc Encoding Head Model Wal

/-! ## Input -/

/-- `ChunkInput`. -/
structure ChunkInput where
  minTime : Int64 := 0
  maxTime : Int64 := 0
  bytes : Str := Str.empty
  deriving DecidableEq

/-- `std::vector<ChunkInput>::max_size`: a `ChunkInput` is 40 bytes. -/
def kMaxChunkInputs : Nat := kMaxSize / 40

/-- `SeriesInput`. -/
structure SeriesInput where
  labels : Labels
  chunks : List ChunkInput
  length_le : chunks.length ≤ kMaxChunkInputs
  deriving DecidableEq

/-- The chunks of a series, pushed one after the other; a vector throws when it holds no more. -/
def SeriesInput.ofChunks (labels : Labels) (chunks : List ChunkInput) : Except Failure SeriesInput :=
  if h : chunks.length ≤ kMaxChunkInputs then .ok ⟨labels, chunks, h⟩ else .error .thrown

/-- `assign`. -/
def assignBytes (bytes : Bytes) : Except Failure Str :=
  match Str.ofBytes bytes with
  | some s => .ok s
  | none => .error .thrown

/-- A result that fails with an error only. -/
def lift {α : Type} : Except Errc α → Except Failure α
  | .ok a => .ok a
  | .error e => .error (.error e)

/-! ## Files -/

/-- The files of a block directory. -/
structure BlockDir where
  metaJson : Option Bytes := none
  index : Option Bytes := none
  chunks : Files := Files.empty
  tombstones : Option Bytes := none

/-- The ULID of a new block, and the answers to the calls of `create_from_series`. -/
structure CreateCalls where
  ulid : Str
  parent : Bool := true
  found : Bool := false
  status : Bool := true
  dir : Bool := true
  cut : ChunkCutCalls := {}
  write : List ChunkCalls := []
  fsyncChunks : Bool := true
  closeChunks : Bool := true
  index : IndexCloseCalls := {}
  metaJson : Bool := true
  tombstones : Bool := true

/-! ## Chunks -/

/-- The totals of `create_from_series`. -/
structure Totals where
  samples : UInt64 := 0
  chunks : UInt64 := 0
  minTime : Int64 := Int64.maxValue
  maxTime : Int64 := Int64.minValue
  deriving DecidableEq, Repr

/-- One more chunk.  Its samples are counted in the first two bytes. -/
def Totals.add (t : Totals) (chk : ChunkInput) : Totals where
  samples := if 2 ≤ chk.bytes.bytes.length then
      t.samples + UInt64.ofNat (headerCount chk.bytes.bytes)
    else t.samples
  chunks := t.chunks + 1
  minTime := if chk.minTime < t.minTime then chk.minTime else t.minTime
  maxTime := if t.maxTime < chk.maxTime then chk.maxTime else t.maxTime

/-- `PreparedSeries`. -/
structure PreparedSeries where
  input : SeriesInput
  chunkMetas : List ChunkMeta
  deriving DecidableEq

/-- The state of the chunk loops. -/
structure ChunkStage where
  writer : ChunkWriter
  files : Files
  calls : List ChunkCalls
  totals : Totals := {}

namespace ChunkStage

def write (st : ChunkStage) (chk : ChunkInput) : Except Errc (ChunkMeta × ChunkStage) :=
  match st.writer.write st.files ⟨.xor, chk.bytes.bytes⟩ (st.calls.headD {}) with
  | (.error e, _, _) => .error e
  | (.ok ref, writer, files) =>
    .ok ({ minTime := chk.minTime, maxTime := chk.maxTime, ref := ref.toU64 },
      { writer := writer, files := files, calls := st.calls.tail, totals := st.totals.add chk })

def writeAll (st : ChunkStage) : List ChunkInput → Except Errc (List ChunkMeta × ChunkStage)
  | [] => .ok ([], st)
  | chk :: chunks =>
    match st.write chk with
    | .error e => .error e
    | .ok (chunkMeta, st) =>
      match writeAll st chunks with
      | .error e => .error e
      | .ok (chunkMetas, st) => .ok (chunkMeta :: chunkMetas, st)

/-- The series loop, which leaves out every series without chunks. -/
def prepare (st : ChunkStage) : List SeriesInput → Except Errc (List PreparedSeries × ChunkStage)
  | [] => .ok ([], st)
  | s :: series =>
    if s.chunks.isEmpty then prepare st series
    else
      match st.writeAll s.chunks with
      | .error e => .error e
      | .ok (chunkMetas, st) =>
        match prepare st series with
        | .error e => .error e
        | .ok (prepared, st) => .ok ({ input := s, chunkMetas := chunkMetas } :: prepared, st)

end ChunkStage

/-- The first step: every chunk goes to the segments of an empty directory. -/
def writeSegments (calls : CreateCalls) (series : List SeriesInput) :
    Except Errc (List PreparedSeries × ChunkStage) :=
  match ChunkWriter.openDir Files.empty kDefaultChunksSegmentSize calls.cut with
  | (.error e, _) => .error e
  | (.ok writer, files) =>
    match ChunkStage.prepare { writer := writer, files := files, calls := calls.write } series with
    | .error e => .error e
    | .ok (prepared, st) =>
      if (st.writer.close calls.fsyncChunks calls.closeChunks).1 then .ok (prepared, st)
      else .error .system

/-! ## Index -/

/-- The names and values of the prepared series, and the empty string: a `std::set`. -/
def symbolsOf (prepared : List PreparedSeries) : List Str :=
  Ascending.sortUnique (Str.empty :: prepared.flatMap fun ps ↦
    ps.input.labels.entries.flatMap fun l ↦ [l.name, l.value])

/-- The symbol loop, and the map from symbols to their references. -/
def addSymbols (w : IndexWriter) : List Str → Except Errc (List (Str × UInt32) × IndexWriter)
  | [] => .ok ([], w)
  | s :: symbols =>
    match w.addSymbol s with
    | (.error e, _) => .error e
    | (.ok ref, w) =>
      match addSymbols w symbols with
      | .error e => .error e
      | .ok (refs, w) => .ok ((s, ref) :: refs, w)

/-- `sym_ref.at`. -/
def symRefAt (refs : List (Str × UInt32)) (s : Str) : Except Failure UInt32 :=
  match refs.find? fun e ↦ e.1 = s with
  | some e => .ok e.2
  | none => .error .thrown

/-- The references of the labels of a series. -/
def labelRefsOf (refs : List (Str × UInt32)) : List Label → Except Failure (List (UInt32 × UInt32))
  | [] => .ok []
  | l :: labels => do
    let name ← symRefAt refs l.name
    let value ← symRefAt refs l.value
    let rest ← labelRefsOf refs labels
    .ok ((name, value) :: rest)

/-- The series loop: the ids of the series, in their order. -/
def addAllSeries (refs : List (Str × UInt32)) (w : IndexWriter) :
    List PreparedSeries → Except Failure (List UInt32 × IndexWriter)
  | [] => .ok ([], w)
  | ps :: prepared => do
    let labelRefs ← labelRefsOf refs ps.input.labels.entries
    match w.addSeries labelRefs ps.chunkMetas with
    | (.error e, _) => .error (.error e)
    | (.ok id, w) => do
      let (ids, w) ← addAllSeries refs w prepared
      .ok (id :: ids, w)

/-- The key of a posting list, in the order of `std::pair`. -/
abbrev PostingKey := Str ×ₗ Str

def Label.postingKey (l : Label) : PostingKey := toLex (l.name, l.value)

/-- Which series have which labels, in the order in which the ids are pushed. -/
def labelIds (prepared : List PreparedSeries) (ids : List UInt32) : List (PostingKey × UInt32) :=
  (prepared.zip ids).flatMap fun p ↦ p.1.input.labels.entries.map fun l ↦ (Label.postingKey l, p.2)

/-- The `std::map` of posting lists: ascending keys, each with the ids pushed under it. -/
def postingLists (pushed : List (PostingKey × UInt32)) : List (PostingKey × List UInt32) :=
  (Ascending.sortUnique (pushed.map Prod.fst)).map fun key ↦
    (key, (pushed.filter fun p ↦ p.1 = key).map Prod.snd)

/-- The loop over the posting lists. -/
def addAllPostings (w : IndexWriter) : List (PostingKey × List UInt32) → Except Errc IndexWriter
  | [] => .ok w
  | (key, ids) :: lists =>
    match w.addPostings (ofLex key).1 (ofLex key).2 ids with
    | (.error e, _) => .error e
    | (.ok _, w) => addAllPostings w lists

/-- The second step: a writer that has taken the symbols, and their references. -/
def startIndex (prepared : List PreparedSeries) :
    Except Failure (List (Str × UInt32) × IndexWriter) := do
  let w ← lift (IndexWriter.create none)
  let (refs, w) ← lift (addSymbols w (symbolsOf prepared))
  match w.finishSymbols with
  | (.error e, _) => .error (.error e)
  | (.ok _, w) => .ok (refs, w)

/-- The third step, as far as the last posting list. -/
def buildIndex (prepared : List PreparedSeries) : Except Failure IndexWriter := do
  let (refs, w) ← startIndex prepared
  let (ids, w) ← addAllSeries refs w prepared
  match w.finishSeries with
  | (.error e, _) => .error (.error e)
  | (.ok _, w) => lift (addAllPostings w (postingLists (labelIds prepared ids)))

/-- The index file of a new directory. -/
def writeIndex (calls : IndexCloseCalls) (prepared : List PreparedSeries) :
    Except Failure (Option Bytes) := do
  let w ← buildIndex prepared
  match w.close none calls with
  | (.error e, _, _) => .error e
  | (.ok _, _, file) => .ok file

/-! ## Blocks -/

/-- The metadata of the fourth step. -/
def newMeta (ulid : Str) (prepared : List PreparedSeries) (totals : Totals) : BlockMeta where
  version := 1
  ulid := ulid
  minTime := if prepared.isEmpty then 0 else totals.minTime
  maxTime := if prepared.isEmpty then 0 else totals.maxTime
  stats := {
    numSamples := totals.samples
    numSeries := UInt64.ofNat prepared.length
    numChunks := totals.chunks }
  compaction := { level := 1, sources := [ulid] }

/-- `Block::create_from_series`, and the directory that it leaves when it succeeds. -/
def createFromSeries (text : JsonText) (calls : CreateCalls) (series : List SeriesInput) :
    Except Failure BlockDir :=
  if !calls.parent then .error (.error .system)
  else if calls.found then .error (.error .fileExists)
  else if !calls.status then .error (.error .system)
  else if !calls.dir then .error (.error .system)
  else do
    let (prepared, st) ← lift (writeSegments calls series)
    let index ← writeIndex calls.index prepared
    if !calls.metaJson then .error (.error .system)
    else if !calls.tombstones then .error (.error .ioError)
    else .ok {
      metaJson := some (encodeMetaJson text (newMeta calls.ulid prepared st.totals))
      index := index
      chunks := st.files
      tombstones := some [] }

/-- The chunk loop of `create_from_head`. -/
def headChunks : List XORChunk → Except Failure (List ChunkInput)
  | [] => .ok []
  | c :: chunks =>
    if c.numSamples = 0 then headChunks chunks
    else do
      let bytes ← assignBytes c.bytes
      match timeSpan c with
      | .error e => .error (.error e)
      -- Samples were counted, but none was read.
      | .ok none => .error (.error .ioError)
      | .ok (some (cmin, cmax)) => do
        let rest ← headChunks chunks
        .ok ({ minTime := cmin, maxTime := cmax, bytes := bytes } :: rest)

/-- The series loop of `create_from_head`. -/
def headInputs : List MemSeries → Except Failure (List SeriesInput)
  | [] => .ok []
  | s :: series =>
    if s.numSamples = 0 then headInputs series
    else do
      let chunks ← headChunks s.chunks
      let si ← SeriesInput.ofChunks s.labels chunks
      let rest ← headInputs series
      .ok (if si.chunks.isEmpty then rest else si :: rest)

/-- `Block::create_from_head`. -/
def createFromHead {W : Type} (text : JsonText) (calls : CreateCalls) (h : Head W) :
    Except Failure BlockDir := do
  let inputs ← headInputs h.series.allSeries
  createFromSeries text calls inputs

/-- `Block`, less the path of its directory. -/
structure Block where
  blockMeta : BlockMeta
  index : IndexReader
  chunks : ChunkReader

/-- `read_meta`. -/
def readMeta (text : JsonText) (dir : BlockDir) : Except Errc BlockMeta :=
  match dir.metaJson with
  | none => .error .system
  | some bytes => decodeMetaJson text bytes

/-- `Block::open`, where `dir` is what the path holds, if it is a directory. -/
def openDir (text : JsonText) (dir : Option BlockDir) : Except Failure Block :=
  match dir with
  | none => .error (.error .notADirectory)
  | some dir => do
    let blockMeta ← lift (readMeta text dir)
    let index ← IndexReader.openFile dir.index
    .ok { blockMeta := blockMeta, index := index, chunks := ChunkReader.openDir dir.chunks }

end MerlionTsdb.Block
