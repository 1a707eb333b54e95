import MerlionTsdb.Encoding.BigEndian
import MerlionTsdb.Encoding.Crc32c

/-!
# WAL pages

`page.hpp` / `page.cpp`: records are framed with a 7-byte header (type, big-endian length, big-endian
CRC) and packed into 32 KiB pages; a record that does not fit in the rest of its page is split into
fragments, and a tail of fewer than seven bytes is zero padding.
-/

namespace MerlionTsdb.Wal

open Encoding

def kPageSize : Nat := 32768

def kRecordHeaderSize : Nat := 7

inductive RecType
  | pageTerm
  | full
  | first
  | middle
  | last
  deriving DecidableEq, Repr

def RecType.toByte : RecType → UInt8
  | .pageTerm => 0
  | .full => 1
  | .first => 2
  | .middle => 3
  | .last => 4

inductive WalReadError
  | endOfStream
  | unexpectedEnd
  | invalidRecType
  | crcMismatch
  | unexpectedFirst
  | unexpectedMiddle
  | tornRecord
  | unsupportedCompression
  deriving DecidableEq, Repr

/-! ## Writer -/

/-- `PageWriter`. -/
structure PageWriter where
  buf : Bytes := []
  deriving DecidableEq, Repr

/-- The type of a fragment from its place in the record. -/
def fragmentType (firstFrag lastFrag : Bool) : RecType :=
  if firstFrag && lastFrag then .full
  else if firstFrag then .first
  else if lastFrag then .last
  else .middle

/-- The seven bytes `write_header` pushes. -/
def headerBytes (t : RecType) (length : UInt16) (crc : UInt32) : Bytes :=
  t.toByte :: (putBe16 length ++ putBe32 crc)

namespace PageWriter

def pageOffset (w : PageWriter) : Nat := w.buf.length % kPageSize

def pageRoomForHeader (w : PageWriter) : Nat :=
  if kPageSize - w.pageOffset < kRecordHeaderSize then 0
  else kPageSize - w.pageOffset - kRecordHeaderSize

def writeHeader (w : PageWriter) (t : RecType) (length : UInt16) (crc : UInt32) : PageWriter :=
  { buf := w.buf ++ headerBytes t length crc }

/-- Zero-pads the page when fewer than seven bytes of it remain. -/
def padForHeader (w : PageWriter) : PageWriter :=
  if kPageSize - w.pageOffset < kRecordHeaderSize then
    { buf := w.buf ++ List.replicate (kPageSize - w.pageOffset) 0 }
  else w

/-- The loop of `log`; `pos` is the number of bytes of `body` written.  Only a round that starts
with exactly seven bytes of the page left writes none of the body, and the next one does. -/
def logLoop (body : Bytes) : Nat → PageWriter → Nat → PageWriter
  | 0, w, _ => w
  | fuel + 1, w, pos =>
    if pos < body.length ∨ (body.isEmpty ∧ pos = 0) then
      let w := w.padForHeader
      let fragmentLen := min (body.length - pos) w.pageRoomForHeader
      let t := fragmentType (pos = 0) (pos + fragmentLen = body.length)
      let fragment := (body.drop pos).take fragmentLen
      let w := w.writeHeader t (UInt16.ofNat fragmentLen) (Crc32c.compute fragment)
      let w : PageWriter := { buf := w.buf ++ fragment }
      if body.isEmpty then w else logLoop body fuel w (pos + fragmentLen)
    else w

def log (w : PageWriter) (body : Bytes) : PageWriter :=
  logLoop body (body.length + 2) w 0

def closePage (w : PageWriter) : PageWriter :=
  if w.pageOffset = 0 then w
  else { buf := w.buf ++ List.replicate (kPageSize - w.pageOffset) 0 }

def bytes (w : PageWriter) : Bytes := w.buf

/-- `release`: the buffer, and the emptied writer. -/
def release (w : PageWriter) : Bytes × PageWriter := (w.buf, {})

end PageWriter

/-! ## Reader -/

/-- `PageReader`; `record` is the accumulator for the current logical record. -/
structure PageReader where
  buf : Bytes
  offset : Nat := 0
  record : Bytes := []
  deriving DecidableEq, Repr

/-- The fragment type in a type byte, with the compression flags refused. -/
def recTypeOfByte (b : UInt8) : Except WalReadError RecType :=
  if b &&& (0x08 ||| 0x10) ≠ 0 then .error .unsupportedCompression
  else
    let rawType := b &&& 0x07
    if rawType = 0 then .ok .pageTerm
    else if rawType = 1 then .ok .full
    else if rawType = 2 then .ok .first
    else if rawType = 3 then .ok .middle
    else if rawType = 4 then .ok .last
    else .error .invalidRecType

namespace PageReader

def readFragmentHeader (r : PageReader) :
    Except WalReadError (RecType × UInt16 × UInt32) × PageReader :=
  if r.buf.length < r.offset + kRecordHeaderSize then (.error .unexpectedEnd, r)
  else
    let h := (r.buf.drop r.offset).take kRecordHeaderSize
    match recTypeOfByte (h.getD 0 0) with
    | .error e => (.error e, r)
    | .ok t =>
      (.ok (t, readBe16 ((h.drop 1).take 2), readBe32 ((h.drop 3).take 4)),
        { r with offset := r.offset + kRecordHeaderSize })

/-- What a fragment does to the record being assembled: the finished record, or whether one is
open, with the accumulator. -/
def accept (t : RecType) (fragment : Bytes) (isOpen : Bool) (record : Bytes) :
    Except WalReadError (Bool × Bytes) :=
  match t with
  | .full => if isOpen then .error .unexpectedFirst else .ok (false, fragment)
  | .first => if isOpen then .error .unexpectedFirst else .ok (true, fragment)
  | .middle => if isOpen then .ok (true, record ++ fragment) else .error .unexpectedMiddle
  | .last => if isOpen then .ok (false, record ++ fragment) else .error .unexpectedMiddle
  | .pageTerm => .error .invalidRecType

/-- The loop of `next`.  Every round moves the offset forward, so the bytes left bound the rounds. -/
def nextLoop : Nat → PageReader → Bool → Except WalReadError Bytes × PageReader
  | 0, r, _ => (.error .endOfStream, r)
  | fuel + 1, r, isOpen =>
    if r.buf.length ≤ r.offset then
      (.error (if isOpen then .tornRecord else .endOfStream), r)
    else if r.buf.getD r.offset 0 = 0 then
      -- The rest of the page must be zero padding.
      let pageRemaining := kPageSize - r.offset % kPageSize
      let pad := (r.buf.drop r.offset).take pageRemaining
      if pad.any (· ≠ 0) then (.error .invalidRecType, r)
      else nextLoop fuel { r with offset := r.offset + pad.length } isOpen
    else
      match r.readFragmentHeader with
      | (.error e, r) => (.error e, r)
      | (.ok (t, len, crc), r) =>
        if r.buf.length < r.offset + len.toNat then (.error .unexpectedEnd, r)
        else
          let fragment := (r.buf.drop r.offset).take len.toNat
          let r := { r with offset := r.offset + len.toNat }
          if Crc32c.compute fragment ≠ crc then (.error .crcMismatch, r)
          else
            match accept t fragment isOpen r.record with
            | .error e => (.error e, r)
            | .ok (false, record) => (.ok record, { r with record := record })
            | .ok (true, record) => nextLoop fuel { r with record := record } true

/-- `next`: the next logical record, or why there is none. -/
def next (r : PageReader) : Except WalReadError Bytes × PageReader :=
  nextLoop (r.buf.length + 1) { r with record := [] } false

/-- Calls to `next` until one fails: the records, and the error. -/
def readAllLoop : Nat → PageReader → List Bytes × WalReadError
  | 0, _ => ([], .endOfStream)
  | fuel + 1, r =>
    match r.next with
    | (.error e, _) => ([], e)
    | (.ok record, r) =>
      let (records, e) := readAllLoop fuel r
      (record :: records, e)

/-- All records of a buffer and the error that ends them.  A record takes at least its header. -/
def readAll (bytes : Bytes) : List Bytes × WalReadError :=
  readAllLoop (bytes.length + 1) { buf := bytes }

end PageReader
end MerlionTsdb.Wal
