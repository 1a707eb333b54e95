import MerlionTsdb.Encoding.BigEndian
import MerlionTsdb.Encoding.Crc32c
import MerlionTsdb.Encoding.Span
import MerlionTsdb.Lib.Str
import MerlionTsdb.Wal.Directory

/-!
# Chunk segments of a block

`chunks.cpp`: chunks framed with their length, encoding and CRC in numbered segment files, and the
reader that loads a segment on its first use.  What the system calls answer is an input of each
operation of the writer.
-/

namespace MerlionTsdb.Block

open Encoding Wal

/-! ## The format -/

def kMagicChunks : UInt32 := 0x85BD40DD

def kChunksFormatV1 : UInt8 := 1

def kChunksSegmentHeaderSize : Nat := 8

def kChunkEncodingSize : Nat := 1

def kChunkCrcSize : Nat := 4

def kChunksSegmentFilenameWidth : Nat := 6

def kDefaultChunksSegmentSize : Nat := 512 * 1024 * 1024

/-- `chunkenc::Encoding`: any byte, five of which have names. -/
structure ChunkEncoding where
  tag : UInt8
  deriving DecidableEq, Repr

namespace ChunkEncoding

def none : ChunkEncoding := ⟨0⟩
def xor : ChunkEncoding := ⟨1⟩
def histogram : ChunkEncoding := ⟨2⟩
def floatHistogram : ChunkEncoding := ⟨3⟩
def xor2 : ChunkEncoding := ⟨4⟩

end ChunkEncoding

/-- `BlockChunkRef`. -/
structure BlockChunkRef where
  seq : UInt32
  offset : UInt32
  deriving DecidableEq, Repr

namespace BlockChunkRef

def fromU64 (v : UInt64) : BlockChunkRef where
  seq := (v >>> 32).toUInt32
  offset := (v &&& 0xFFFFFFFF).toUInt32

def toU64 (ref : BlockChunkRef) : UInt64 :=
  ref.seq.toUInt64 <<< 32 ||| ref.offset.toUInt64

end BlockChunkRef

/-- `ChunkPayload`. -/
structure ChunkPayload where
  encoding : ChunkEncoding
  data : Bytes
  deriving DecidableEq, Repr

/-- `%06u`. -/
def formatSegmentName (seq : UInt32) : FileName :=
  Decimal.padded kChunksSegmentFilenameWidth seq.toNat

/-- `parse_segment_name`: exactly six digits. -/
def parseSegmentName (name : FileName) : Option Nat :=
  Decimal.parse kChunksSegmentFilenameWidth name

/-- Magic, version and three bytes of padding. -/
def segmentHeader : Bytes :=
  putBe32 kMagicChunks ++ [kChunksFormatV1, 0, 0, 0]

/-- The CRC over the encoding byte and the data, folded in two parts. -/
def chunkCrc (enc : UInt8) (data : Bytes) : UInt32 :=
  Crc32c.finalize (Crc32c.update (Crc32c.update Crc32c.kInit [enc]) data)

/-- The buffer that `write` serialises a chunk to. -/
def frame (c : ChunkPayload) : Bytes :=
  Varint.putUvarint (UInt64.ofNat c.data.length) ++
    c.encoding.tag :: (c.data ++ putBe32 (chunkCrc c.encoding.tag c.data))

/-! ## Writer -/

/-- The answers to the calls `cut_new_segment` makes. -/
structure ChunkCutCalls where
  fsync : Bool := true
  close : Bool := true
  opened : Bool := true
  header : List WriteResult := []
  deriving DecidableEq, Repr

/-- The answers to the calls `write` makes: those of the cut, when it rolls over, and its own. -/
structure ChunkCalls where
  cut : ChunkCutCalls := {}
  write : List WriteResult := []
  deriving DecidableEq, Repr

/-- `ChunkWriter`.  `fd` names the file the descriptor stands for, `none` a missing descriptor. -/
structure ChunkWriter where
  segmentSize : Nat := kDefaultChunksSegmentSize
  fd : Option FileName := none
  seq : UInt32 := 0
  segOffset : Nat := 0
  closed : Bool := false
  deriving DecidableEq, Repr

namespace ChunkWriter

/-- `write_all` on the descriptor. -/
def writeFd (w : ChunkWriter) (files : Files) (calls : List WriteResult) (data : Bytes) :
    Bool × Files :=
  match w.fd with
  | none => (false, files)
  | some name =>
    let (ok, written) := writeAll calls data
    (ok, files.append name written)

def cutNewSegment (w : ChunkWriter) (files : Files) (calls : ChunkCutCalls) :
    Bool × ChunkWriter × Files :=
  if w.fd.isSome && !calls.fsync then (false, w, files)
  else if w.fd.isSome && !calls.close then (false, w, files)
  else
    let w := if w.fd.isSome then { w with fd := none, seq := w.seq + 1 } else w
    -- The file is numbered from one, the reference from zero.
    let name := formatSegmentName (w.seq + 1)
    if !calls.opened then (false, w, files)
    else
      let w := { w with fd := some name }
      match w.writeFd (files.set name []) calls.header segmentHeader with
      | (false, files) => (false, w, files)
      | (true, files) => (true, { w with segOffset := kChunksSegmentHeaderSize }, files)

/-- `ChunkWriter::open`, in a directory without segments. -/
def openDir (files : Files) (segmentSize : Nat) (calls : ChunkCutCalls) :
    Except Errc ChunkWriter × Files :=
  if files.numbered parseSegmentName ≠ [] then (.error .fileExists, files)
  else
    match cutNewSegment { segmentSize := segmentSize } files calls with
    | (false, _, files) => (.error .system, files)
    | (true, w, files) => (.ok w, files)

/-- Whether a chunk of `len` bytes goes to a new segment. -/
def rollsOver (w : ChunkWriter) (len : Nat) : Bool :=
  let worstCase := Varint.maxVarintLen64 + kChunkEncodingSize + len + kChunkCrcSize
  kChunksSegmentHeaderSize < w.segOffset && w.segmentSize < w.segOffset + worstCase

def write (w : ChunkWriter) (files : Files) (c : ChunkPayload) (calls : ChunkCalls) :
    Except Errc BlockChunkRef × ChunkWriter × Files :=
  if w.closed then (.error .operationNotPermitted, w, files)
  else
    match if w.rollsOver c.data.length then w.cutNewSegment files calls.cut
      else (true, w, files) with
    | (false, w, files) => (.error .system, w, files)
    | (true, w, files) =>
      let ref : BlockChunkRef := { seq := w.seq, offset := UInt32.ofNat w.segOffset }
      let buf := frame c
      match w.writeFd files calls.write buf with
      | (false, files) => (.error .system, w, files)
      | (true, files) => (.ok ref, { w with segOffset := w.segOffset + buf.length }, files)

/-- `close`, and whether it succeeded. -/
def close (w : ChunkWriter) (fsync closed : Bool) : Bool × ChunkWriter :=
  if w.closed then (true, w)
  else
    let w := { w with closed := true }
    if w.fd.isNone then (true, w)
    else if !fsync then (false, w)
    else if !closed then (false, w)
    else (true, { w with fd := none })

end ChunkWriter

/-! ## Reader -/

/-- `ChunkInfo`. -/
structure ChunkInfo where
  ref : BlockChunkRef
  encoding : ChunkEncoding
  dataSize : Nat
  deriving DecidableEq, Repr

/-- `ChunkReader`, over the contents of the segment files in the order of their numbers. -/
structure ChunkReader where
  segments : List Bytes
  segmentBytesCache : List Bytes
  deriving DecidableEq, Repr

/-- The contents of the segment files, renumbered from zero by ascending name. -/
def chunkSegments (files : Files) : List Bytes :=
  ((files.numbered parseSegmentName).insertionSort fun a b ↦ a.1 ≤ b.1).map Prod.snd

/-- The record at `offset` of a segment. -/
def readRecord (bytes : Bytes) (offset : Nat) : Except Failure ChunkPayload :=
  if bytes.length ≤ offset then .error (.error .illegalByteSequence)
  else
    match readUv bytes offset with
    | .error e => .error e
    | .ok (len, n) =>
      let length := len.toNat
      let encOff := addSize offset n
      let dataOff := addSize encOff kChunkEncodingSize
      let crcOff := addSize dataOff length
      let endOff := addSize crcOff kChunkCrcSize
      if bytes.length < endOff then .error (.error .illegalByteSequence)
      else
        match elementAt bytes encOff, subspan bytes dataOff length, subspan bytes crcOff 4 with
        | .ok enc, .ok data, .ok stored =>
          if chunkCrc enc data = readBe32 stored then .ok { encoding := ⟨enc⟩, data := data }
          else .error (.error .illegalByteSequence)
        | .error e, _, _ | _, .error e, _ | _, _, .error e => .error e

/-- The loop of `iterate_segment`, a unit of fuel for each round; `none` when the fuel runs out. -/
def iterateLoop (seq : UInt32) (bytes : Bytes) :
    Nat → Nat → Option (Except Failure (List ChunkInfo))
  | 0, _ => none
  | fuel + 1, offset =>
    if bytes.length ≤ offset then some (.ok [])
    else
      match readUv bytes offset with
      | .error e => some (.error e)
      | .ok (len, n) =>
        let dataSize := len.toNat
        let encOff := addSize offset n
        let endOff := addSize (addSize (addSize encOff kChunkEncodingSize) dataSize) kChunkCrcSize
        if bytes.length < endOff then some (.error (.error .illegalByteSequence))
        else
          match elementAt bytes encOff with
          | .error e => some (.error e)
          | .ok enc =>
            let info : ChunkInfo :=
              { ref := { seq := seq, offset := UInt32.ofNat offset }, encoding := ⟨enc⟩
                dataSize := dataSize }
            (iterateLoop seq bytes fuel endOff).map fun
              | .ok infos => .ok (info :: infos)
              | .error e => .error e

/-- The checks of `bytes_for` on a segment just loaded. -/
def headerValid (bytes : Bytes) : Bool :=
  kChunksSegmentHeaderSize ≤ bytes.length && readBe32 (bytes.take 4) = kMagicChunks &&
    bytes.getD 4 0 = kChunksFormatV1

namespace ChunkReader

/-- A reader of the given segments that has loaded none. -/
def ofSegments (segments : List Bytes) : ChunkReader where
  segments := segments
  segmentBytesCache := segments.map fun _ ↦ []

/-- `ChunkReader::open`. -/
def openDir (files : Files) : ChunkReader :=
  ofSegments (chunkSegments files)

/-- `bytes_for`: the cache is filled before the header is looked at. -/
def bytesFor (r : ChunkReader) (seq : UInt32) : Except Failure Bytes × ChunkReader :=
  if r.segmentBytesCache.length ≤ seq.toNat then
    (.error (.error .noSuchFileOrDirectory), r)
  else
    let cached := r.segmentBytesCache.getD seq.toNat []
    if !cached.isEmpty then (.ok cached, r)
    else
      let bytes := r.segments.getD seq.toNat []
      let r := { r with segmentBytesCache := r.segmentBytesCache.set seq.toNat bytes }
      if headerValid bytes then (.ok bytes, r) else (.error (.error .illegalByteSequence), r)

def read (r : ChunkReader) (ref : BlockChunkRef) : Except Failure ChunkPayload × ChunkReader :=
  match r.bytesFor ref.seq with
  | (.error e, r) => (.error e, r)
  | (.ok bytes, r) => (readRecord bytes ref.offset.toNat, r)

/-- `iterate_segment`; `none` when its loop runs out of fuel. -/
def iterateSegment (r : ChunkReader) (seq : UInt32) (fuel : Nat) :
    Option (Except Failure (List ChunkInfo)) × ChunkReader :=
  match r.bytesFor seq with
  | (.error e, r) => (some (.error e), r)
  | (.ok bytes, r) => (iterateLoop seq bytes fuel kChunksSegmentHeaderSize, r)

end ChunkReader
end MerlionTsdb.Block
