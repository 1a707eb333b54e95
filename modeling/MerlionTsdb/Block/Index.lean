import MerlionTsdb.Block.Chunks
import MerlionTsdb.Lib.Ascending
import MerlionTsdb.Model.Labels

/-!
# Reading an index file

`index.hpp` / `index.cpp`: the framed sections of an index, its table of contents, the symbol table
with its sparse offsets, the postings offset table, posting lists and series entries.  All offsets
are `size_t`.  Where the code asks for memory by a number out of the file, an allocation gets `memory` bytes
at most.
-/

namespace MerlionTsdb.Block

open Encoding Model Ascending

def kMagicIndex : UInt32 := 0xBAAAD700

def kIndexFormatV1 : UInt8 := 1

def kIndexFormatV2 : UInt8 := 2

def kIndexFormatV3 : UInt8 := 3

def kIndexHeaderSize : Nat := 5

def kIndexTocSize : Nat := 6 * 8 + 4

def kSymbolSparseStride : Nat := 32

/-- `ChunkMeta`. -/
structure ChunkMeta where
  minTime : Int64
  maxTime : Int64
  ref : UInt64
  deriving DecidableEq, Repr

/-- `chunk_ref`. -/
def ChunkMeta.chunkRef (m : ChunkMeta) : BlockChunkRef := .fromU64 m.ref

/-- `SeriesEntry`. -/
structure SeriesEntry where
  labels : Labels
  chunks : List ChunkMeta
  deriving DecidableEq

/-- `std::vector<ChunkMeta>::max_size`: a meta is 24 bytes. -/
def kMaxChunkMetas : Nat := kMaxSize / 24

theorem reserves_chunkMetas {n : Nat} : Reserves kMaxSize 24 n ↔ n ≤ kMaxChunkMetas := by
  unfold Reserves kMaxChunkMetas kMaxSize
  omega

/-! ## Sections -/

/-- The payload of `len` bytes at `payloadOff`, checked against the CRC behind it. -/
def checkedPayload (bytes : Bytes) (payloadOff len : Nat) : Except Failure Bytes :=
  if bytes.length < addSize (addSize payloadOff len) 4 then .error (.error .illegalByteSequence)
  else do
    let payload ← subspan bytes payloadOff len
    let stored ← subspan bytes (addSize payloadOff len) 4
    if Crc32c.compute payload = readBe32 stored then .ok payload
    else .error (.error .illegalByteSequence)

/-- `read_section_payload`: a section behind a 32-bit length. -/
def readSectionPayload (bytes : Bytes) (offset : Nat) : Except Failure Bytes :=
  if bytes.length < addSize offset 4 then .error (.error .illegalByteSequence)
  else do
    let len ← subspan bytes offset 4
    checkedPayload bytes (addSize offset 4) (readBe32 len).toNat

/-- `read_uvarint_section_payload`: a section behind a uvarint length. -/
def readUvarintSectionPayload (bytes : Bytes) (offset : Nat) : Except Failure Bytes :=
  if bytes.length ≤ offset then .error (.error .illegalByteSequence)
  else do
    let (len, n) ← readUv bytes offset
    checkedPayload bytes (addSize offset n) len.toNat

/-- `IndexTOC`. -/
structure IndexTOC where
  symbols : UInt64
  series : UInt64
  labelIndices : UInt64
  labelIndicesTable : UInt64
  postings : UInt64
  postingsTable : UInt64
  deriving DecidableEq, Repr

/-- `parse_toc`: the last 52 bytes of the file. -/
def parseToc (bytes : Bytes) : Except Failure IndexTOC :=
  if bytes.length < kIndexTocSize then .error (.error .illegalByteSequence)
  else do
    let toc ← subspan bytes (bytes.length - kIndexTocSize) kIndexTocSize
    let stored ← subspan toc 48 4
    let body ← subspan toc 0 48
    if Crc32c.compute body = readBe32 stored then
      .ok {
        symbols := readBe64 toc
        series := readBe64 (toc.drop 8)
        labelIndices := readBe64 (toc.drop 16)
        labelIndicesTable := readBe64 (toc.drop 24)
        postings := readBe64 (toc.drop 32)
        postingsTable := readBe64 (toc.drop 40) }
    else .error (.error .illegalByteSequence)

/-! ## Symbols -/

/-- `IndexSymbolTable`. -/
structure IndexSymbolTable where
  fileBytes : Bytes
  version : UInt8
  count : UInt32
  payloadOffset : Nat
  sparseOffsets : List Nat
  deriving DecidableEq

namespace IndexSymbolTable

/-- The loop of `parse` over the symbols from number `seen` on: the sparse offsets. -/
def parseLoop (bytes : Bytes) (limit : Nat) : Nat → Nat → Nat → Except Failure (List Nat)
  | 0, _, _ => .ok []
  | left + 1, seen, pos =>
    if bytes.length ≤ pos then .error (.error .illegalByteSequence)
    else do
      let (len, n) ← readUv bytes pos
      let next := addSize pos (addSize n len.toNat)
      if limit < next then .error (.error .illegalByteSequence)
      else do
        let offsets ← parseLoop bytes limit left (seen + 1) next
        .ok (if seen % kSymbolSparseStride = 0 then pos :: offsets else offsets)

def parse (bytes : Bytes) (sectionOffset : Nat) (version : UInt8) (memory : Nat := kMaxSize) :
    Except Failure IndexSymbolTable := do
  let payload ← readSectionPayload bytes sectionOffset
  if payload.length < 4 then .error (.error .illegalByteSequence)
  else do
    let count := readBe32 payload
    reserve memory 8 (1 + count.toNat / kSymbolSparseStride)
    let payloadOff := addSize sectionOffset 4
    let dataStart := addSize payloadOff 4
    -- The end of the payload, less the leading count.
    let limit := addSize dataStart payload.length - 4
    let offsets ← parseLoop bytes limit count.toNat 0 dataStart
    .ok {
      fileBytes := bytes
      version := version
      count := count
      payloadOffset := payloadOff
      sparseOffsets := offsets }

/-- `n` symbols further. -/
def walk (bytes : Bytes) : Nat → Nat → Except Failure Nat
  | 0, pos => .ok pos
  | steps + 1, pos => do
    let (len, n) ← readUv bytes pos
    walk bytes steps (addSize pos (addSize n len.toNat))

/-- The symbol at `pos`. -/
def symbolAt (bytes : Bytes) (pos : Nat) : Except Failure Bytes := do
  let (len, n) ← readUv bytes pos
  let strStart := addSize pos n
  if bytes.length < addSize strStart len.toNat then .error (.error .illegalByteSequence)
  else viewAt bytes strStart len.toNat

def lookup (t : IndexSymbolTable) (ref : UInt32) : Except Failure Bytes :=
  if t.version = kIndexFormatV1 then
    -- An absolute offset into the file.
    if t.fileBytes.length ≤ ref.toNat then .error (.error .illegalByteSequence)
    else symbolAt t.fileBytes ref.toNat
  else if t.count ≤ ref then .error (.error .resultOutOfRange)
  else
    match t.sparseOffsets[ref.toNat / kSymbolSparseStride]? with
    | none => .error (.error .illegalByteSequence)
    | some pos => do
      let pos ← walk t.fileBytes (ref.toNat % kSymbolSparseStride) pos
      symbolAt t.fileBytes pos

end IndexSymbolTable

/-! ## Postings -/

/-- `PostingsOffsetEntry`. -/
structure PostingsOffsetEntry where
  name : Str
  value : Str
  offset : UInt64
  deriving DecidableEq

/-- `name + '\0' + value`. -/
def joinedKey (name value : Str) : Bytes := name.bytes ++ 0 :: value.bytes

/-- `PostingsOffsetTable`. -/
structure PostingsOffsetTable where
  entries : List PostingsOffsetEntry
  byPair : List (Bytes × UInt64)
  deriving DecidableEq

namespace PostingsOffsetTable

/-- `by_pair_.emplace`, which keeps what is there. -/
def emplace (byPair : List (Bytes × UInt64)) (key : Bytes) (offset : UInt64) :
    List (Bytes × UInt64) :=
  if byPair.any fun e ↦ e.1 = key then byPair else byPair ++ [(key, offset)]

/-- The constructor. -/
def new (entries : List PostingsOffsetEntry) : PostingsOffsetTable where
  entries := entries
  byPair := entries.foldl (fun byPair e ↦ emplace byPair (joinedKey e.name e.value) e.offset) []

/-- A string behind its uvarint length, and the position behind it. -/
def readString (payload : Bytes) (pos : Nat) : Except Failure (Str × Nat) := do
  let (len, n) ← readUv payload pos
  let start := addSize pos n
  if payload.length < addSize start len.toNat then .error (.error .illegalByteSequence)
  else do
    let s ← stringAt payload start len.toNat
    .ok (s, addSize start len.toNat)

/-- One entry, and the position behind it. -/
def readEntry (payload : Bytes) (pos : Nat) : Except Failure (PostingsOffsetEntry × Nat) := do
  let (keycount, n) ← readUv payload pos
  let pos := addSize pos n
  if keycount ≠ 2 then .error (.error .illegalByteSequence)
  else do
    let (name, pos) ← readString payload pos
    let (value, pos) ← readString payload pos
    let (offset, n) ← readUv payload pos
    .ok ({ name := name, value := value, offset := offset }, addSize pos n)

/-- The loop of `parse`: the entries, and the position behind the last. -/
def parseLoop (payload : Bytes) : Nat → Nat → Except Failure (List PostingsOffsetEntry × Nat)
  | 0, pos => .ok ([], pos)
  | left + 1, pos => do
    let (e, pos) ← readEntry payload pos
    let (entries, pos) ← parseLoop payload left pos
    .ok (e :: entries, pos)

def parse (bytes : Bytes) (sectionOffset : Nat) (memory : Nat := kMaxSize) :
    Except Failure PostingsOffsetTable := do
  let payload ← readSectionPayload bytes sectionOffset
  if payload.length < 4 then .error (.error .illegalByteSequence)
  else do
    reserve memory 72 (readBe32 payload).toNat
    let (entries, pos) ← parseLoop payload (readBe32 payload).toNat 4
    if pos ≠ payload.length then .error (.error .illegalByteSequence) else .ok (new entries)

def lookup (t : PostingsOffsetTable) (name value : Str) : Option UInt64 :=
  (t.byPair.find? fun e ↦ e.1 = joinedKey name value).map Prod.snd

end PostingsOffsetTable

/-- The loop of `read_posting_list` over the ids from number `i` on. -/
def readIds (payload : Bytes) : Nat → Nat → Except Failure (List UInt32)
  | 0, _ => .ok []
  | left + 1, i => do
    let id ← subspan payload (4 + 4 * i) 4
    let ids ← readIds payload left (i + 1)
    .ok (readBe32 id :: ids)

/-- `read_posting_list`. -/
def readPostingList (bytes : Bytes) (offset : UInt64) : Except Failure (List UInt32) := do
  let payload ← readSectionPayload bytes offset.toNat
  if payload.length < 4 then .error (.error .illegalByteSequence)
  else
    let count := readBe32 payload
    if payload.length < 4 + 4 * count.toNat then .error (.error .illegalByteSequence)
    else readIds payload count.toNat 0

/-! ## Series -/

/-- The name and the value of a label, looked up one after the other before either is checked. -/
def lookupPair (name value : Except Failure Bytes) : Except Failure Label :=
  match name, value with
  | .ok name, .ok value =>
    match Str.ofBytes name, Str.ofBytes value with
    | some name, some value => .ok { name := name, value := value }
    | _, _ => .error .thrown
  | .error .overrun, _ | _, .error .overrun => .error .overrun
  | .error .thrown, _ | _, .error .thrown => .error .thrown
  | _, _ => .error (.error .illegalByteSequence)

/-- The label loop of `decode_series_payload`, and the position behind it. -/
def decodeLabels (payload : Bytes) (symbols : IndexSymbolTable) :
    Nat → Nat → Except Failure (List Label × Nat)
  | 0, pos => .ok ([], pos)
  | left + 1, pos => do
    let (lno, n) ← readUv payload pos
    let (lvo, m) ← readUv payload (pos + n)
    let l ← lookupPair (symbols.lookup lno.toUInt32) (symbols.lookup lvo.toUInt32)
    let (labels, pos) ← decodeLabels payload symbols left (pos + n + m)
    .ok (l :: labels, pos)

/-- The loop over the chunks behind the first, from the last time and reference on. -/
def decodeChunks (payload : Bytes) : Nat → Nat → Int64 → Int64 → Except Failure (List ChunkMeta)
  | 0, _, _, _ => .ok []
  | left + 1, pos, t0, signedRef => do
    let (mintDelta, n) ← readUv payload pos
    let mint := mintDelta.toInt64 + t0
    let (maxtDelta, m) ← readUv payload (pos + n)
    let maxt := maxtDelta.toInt64 + mint
    let (refDelta, k) ← readV payload (pos + n + m)
    let signedRef := signedRef + refDelta
    let chunks ← decodeChunks payload left (pos + n + m + k) maxt signedRef
    .ok ({ minTime := mint, maxTime := maxt, ref := signedRef.toUInt64 } :: chunks)

/-- `decode_series_payload`. -/
def decodeSeriesPayload (payload : Bytes) (symbols : IndexSymbolTable) (memory : Nat := kMaxSize) :
    Except Failure SeriesEntry := do
  let (k, pos) ← readUv payload 0
  reserve memory 64 k.toNat
  let (labels, pos) ← decodeLabels payload symbols k.toNat pos
  if h : labels.length ≤ kMaxLabels then do
    let labels := Labels.ofList labels h
    let (k, n) ← readUv payload pos
    let pos := pos + n
    if k = 0 then .ok { labels := labels, chunks := [] }
    else do
      reserve memory 24 k.toNat
      let (t0, n) ← readV payload pos
      let (maxtDelta, m) ← readUv payload (pos + n)
      let maxt := maxtDelta.toInt64 + t0
      let (ref0, l) ← readUv payload (pos + n + m)
      let chunks ← decodeChunks payload (k.toNat - 1) (pos + n + m + l) maxt ref0.toInt64
      .ok { labels := labels, chunks := { minTime := t0, maxTime := maxt, ref := ref0 } :: chunks }
  else .error .thrown

/-! ## The reader -/

/-- `IndexReader`. -/
structure IndexReader where
  data : Bytes
  version : UInt8
  toc : IndexTOC
  symbols : IndexSymbolTable
  postingsTable : PostingsOffsetTable
  deriving DecidableEq

namespace IndexReader

/-- `IndexReader::open`, on the contents of the file, if there is one. -/
def openFile (file : Option Bytes) (memory : Nat := kMaxSize) : Except Failure IndexReader :=
  match file with
  | none => .error (.error .noSuchFileOrDirectory)
  | some bytes =>
    if bytes.length < kIndexHeaderSize + kIndexTocSize then .error (.error .illegalByteSequence)
    else if readBe32 bytes ≠ kMagicIndex then .error (.error .illegalByteSequence)
    else
      let version := bytes.getD 4 0
      if version ≠ kIndexFormatV1 ∧ version ≠ kIndexFormatV2 ∧ version ≠ kIndexFormatV3 then
        .error (.error .notSupported)
      else do
        let toc ← parseToc bytes
        let symbols ← IndexSymbolTable.parse bytes toc.symbols.toNat version memory
        let table ← PostingsOffsetTable.parse bytes toc.postingsTable.toNat memory
        .ok {
          data := bytes
          version := version
          toc := toc
          symbols := symbols
          postingsTable := table }

def postings (r : IndexReader) (name value : Str) : Except Failure (List UInt32) :=
  match r.postingsTable.lookup name value with
  | none => .ok []
  | some offset => readPostingList r.data offset

/-- The ids of the given posting lists, one list after the other. -/
def readLists (r : IndexReader) : List PostingsOffsetEntry → Except Failure (List UInt32)
  | [] => .ok []
  | e :: entries => do
    let ids ← readPostingList r.data e.offset
    let rest ← readLists r entries
    .ok (ids ++ rest)

def postingsForName (r : IndexReader) (name : Str) : Except Failure (List UInt32) := do
  let ids ← r.readLists (r.postingsTable.entries.filter fun e ↦ e.name = name)
  .ok (sortUnique ids)

def allPostings (r : IndexReader) : Except Failure (List UInt32) := do
  let ids ← r.readLists r.postingsTable.entries
  .ok (sortUnique ids)

def labelValues (r : IndexReader) (name : Str) : List Str :=
  sortUnique ((r.postingsTable.entries.filter fun e ↦ e.name = name).map PostingsOffsetEntry.value)

/-- `series`: the entry at an absolute offset in the first format, at 16 times the id in the others. -/
def series (r : IndexReader) (id : UInt64) (memory : Nat := kMaxSize) : Except Failure SeriesEntry := do
  let offset := if r.version = kIndexFormatV1 then id.toNat else id.toNat * 16 % 2 ^ 64
  let payload ← readUvarintSectionPayload r.data offset
  decodeSeriesPayload payload r.symbols memory

end IndexReader
end MerlionTsdb.Block
