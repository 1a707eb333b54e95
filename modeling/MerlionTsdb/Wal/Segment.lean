import MerlionTsdb.Wal.Page
import Mathlib.Data.List.Sort

/-!
# WAL segments

`segment_writer.cpp` and `segment_reader.cpp`: a WAL is a directory of segment files named by eight
decimal digits.  The directory is a list of named byte strings, a missing one an empty list.  What
the system calls answer is an input of each operation.
-/

namespace MerlionTsdb.Wal

/-! ## Files -/

abbrev FileName := List Char

/-- The regular files of a directory, each name once. -/
@[ext] structure Files where
  entries : List (FileName × Bytes)
  nodup : (entries.map Prod.fst).Nodup

namespace Files

def empty : Files := ⟨[], List.nodup_nil⟩

def content (files : Files) (name : FileName) : Bytes :=
  ((files.entries.find? fun e ↦ e.1 = name).map Prod.snd).getD []

/-- The entries with `name` holding `bytes`, added at the end when it is new. -/
def setEntries : List (FileName × Bytes) → FileName → Bytes → List (FileName × Bytes)
  | [], name, bytes => [(name, bytes)]
  | e :: entries, name, bytes =>
    if e.1 = name then (name, bytes) :: entries else e :: setEntries entries name bytes

theorem map_fst_setEntries (entries : List (FileName × Bytes)) (name : FileName) (bytes : Bytes) :
    (setEntries entries name bytes).map Prod.fst =
      if name ∈ entries.map Prod.fst then entries.map Prod.fst
      else entries.map Prod.fst ++ [name] := by
  induction entries with
  | nil => simp [setEntries]
  | cons e entries ih =>
    unfold setEntries
    by_cases he : e.1 = name
    · simp [he]
    · rw [if_neg he, List.map_cons, ih]
      simp only [List.map_cons, List.mem_cons, Ne.symm he, false_or]
      split <;> simp

theorem nodup_setEntries {entries : List (FileName × Bytes)} (h : (entries.map Prod.fst).Nodup)
    (name : FileName) (bytes : Bytes) : ((setEntries entries name bytes).map Prod.fst).Nodup := by
  rw [map_fst_setEntries]
  split
  · exact h
  · apply h.append (List.nodup_singleton _)
    simpa using ‹name ∉ entries.map Prod.fst›

def set (files : Files) (name : FileName) (bytes : Bytes) : Files :=
  ⟨setEntries files.entries name bytes, nodup_setEntries files.nodup name bytes⟩

/-- Bytes written at the end of a file. -/
def append (files : Files) (name : FileName) (bytes : Bytes) : Files :=
  files.set name (files.content name ++ bytes)

end Files

def kSegmentNameWidth : Nat := 8

/-- `%08zu`: at least eight digits.  That the buffer of `format_segment_name` ends after fifteen is left out. -/
def formatSegmentName (idx : Nat) : FileName :=
  let digits := Nat.toDigits 10 idx
  List.replicate (kSegmentNameWidth - digits.length) '0' ++ digits

/-- Exactly eight digits, or the file is not a segment. -/
def parseSegmentName (name : FileName) : Option Nat :=
  if name.length = kSegmentNameWidth ∧ name.all Char.isDigit then
    some (Nat.ofDigitChars 10 name 0)
  else none

/-- The segment files of a directory with their indices. -/
def indexed (files : Files) : List (Nat × Bytes) :=
  files.entries.filterMap fun e ↦ (parseSegmentName e.1).map fun idx ↦ (idx, e.2)

/-! ## System calls -/

/-- What one `::write` call returns.  It never reports more bytes than it was given. -/
inductive WriteResult
  | wrote (n : Nat)
  | interrupted
  | failed
  deriving DecidableEq, Repr

/-- `write_all`: whether everything was written, and the bytes that reached the file.  `results` are
the answers of the successive `::write` calls; calls beyond them write all they are given. -/
def writeAll : List WriteResult → Bytes → Bool × Bytes
  | _, [] => (true, [])
  | [], data => (true, data)
  | .interrupted :: results, data => writeAll results data
  | .failed :: _, _ => (false, [])
  | .wrote n :: results, data =>
    if min n data.length = 0 then (false, [])
    else
      let (ok, written) := writeAll results (data.drop n)
      (ok, data.take n ++ written)

/-- The answers to the calls `sync` makes. -/
structure SyncCalls where
  write : List WriteResult := []
  fsync : Bool := true
  deriving DecidableEq, Repr

/-- The answers to the calls `cut` makes. -/
structure CutCalls extends SyncCalls where
  close : Bool := true
  opened : Bool := true
  deriving DecidableEq, Repr

/-- The answers to the calls `log` makes: those of the cut, when it rolls over, and of the flush. -/
structure LogCalls where
  cut : CutCalls := {}
  write : List WriteResult := []
  deriving DecidableEq, Repr

/-! ## Writer -/

def kDefaultSegmentSize : Nat := 128 * 1024 * 1024

/-- `SegmentWriter`.  `fd` names the file the descriptor stands for, `none` a missing descriptor. -/
structure SegmentWriter where
  segmentSize : Nat := kDefaultSegmentSize
  segIndex : Nat
  fd : Option FileName := none
  pw : PageWriter := {}
  flushedBytes : Nat := 0
  deriving DecidableEq, Repr

namespace SegmentWriter

/-- `framed_size_upper_bound`. -/
def framedSizeUpperBound (bodyLen : Nat) : Nat :=
  let bodyPerPage := kPageSize - kRecordHeaderSize
  let numFragments := if bodyLen = 0 then 1 else (bodyLen + bodyPerPage - 1) / bodyPerPage
  numFragments * kRecordHeaderSize + bodyLen + (kRecordHeaderSize - 1)

/-- `open_new_segment`: creates or truncates the file. -/
def openNewSegment (w : SegmentWriter) (files : Files) (ok : Bool) :
    Bool × SegmentWriter × Files :=
  let name := formatSegmentName w.segIndex
  if ok then (true, { w with fd := some name, pw := {}, flushedBytes := 0 }, files.set name [])
  else (false, w, files)

/-- The next index after all segments found. -/
def nextIndex (files : Files) : Nat :=
  (indexed files).foldl (fun next e ↦ max next (e.1 + 1)) 0

/-- `SegmentWriter::open`. -/
def openDir (files : Files) (segmentSize : Nat) (ok : Bool) : Bool × SegmentWriter × Files :=
  openNewSegment { segmentSize := segmentSize, segIndex := nextIndex files } files ok

def flushPending (w : SegmentWriter) (files : Files) (calls : List WriteResult) :
    Bool × SegmentWriter × Files :=
  match w.fd with
  | none => (true, w, files)
  | some name =>
    if w.pw.bytes.length ≤ w.flushedBytes then (true, w, files)
    else
      let (ok, written) := writeAll calls (w.pw.bytes.drop w.flushedBytes)
      let files := files.append name written
      if ok then (true, { w with flushedBytes := w.pw.bytes.length }, files)
      else (false, w, files)

def sync (w : SegmentWriter) (files : Files) (calls : SyncCalls) : Bool × SegmentWriter × Files :=
  if w.fd.isNone then (true, w, files)
  else
    match w.flushPending files calls.write with
    | (false, w, files) => (false, w, files)
    | (true, w, files) => (calls.fsync, w, files)

/-- `cut`.  A failed `::close` leaves the descriptor in place. -/
def cut (w : SegmentWriter) (files : Files) (calls : CutCalls) : Bool × SegmentWriter × Files :=
  if w.fd.isNone then (true, w, files)
  else
    let w := { w with pw := w.pw.closePage }
    match w.flushPending files calls.write with
    | (false, w, files) => (false, w, files)
    | (true, w, files) =>
      if !calls.fsync then (false, w, files)
      else if !calls.close then (false, w, files)
      else openNewSegment { w with fd := none, segIndex := w.segIndex + 1 } files calls.opened

/-- Whether `log` rolls over to a new segment first. -/
def rollsOver (w : SegmentWriter) (body : Bytes) : Bool :=
  let already := w.flushedBytes + (w.pw.bytes.length - w.flushedBytes)
  0 < already && w.segmentSize < already + framedSizeUpperBound body.length

def log (w : SegmentWriter) (files : Files) (body : Bytes) (calls : LogCalls) :
    Bool × SegmentWriter × Files :=
  match if w.rollsOver body then w.cut files calls.cut else (true, w, files) with
  | (false, w, files) => (false, w, files)
  | (true, w, files) => flushPending { w with pw := w.pw.log body } files calls.write

end SegmentWriter

/-! ## Reader -/

inductive SegmentReadError
  | endOfStream
  | directoryRead
  | segmentOpen
  | corruptMidStream
  | crc
  | invalidFraming
  | unsupportedCompression
  deriving DecidableEq, Repr

def mapPageError : WalReadError → SegmentReadError
  | .endOfStream | .tornRecord => .endOfStream
  | .crcMismatch => .crc
  | .unsupportedCompression => .unsupportedCompression
  | .unexpectedEnd | .invalidRecType | .unexpectedFirst | .unexpectedMiddle => .invalidFraming

/-- The contents of the segment files in the order of their indices. -/
def segments (files : Files) : List Bytes :=
  ((indexed files).insertionSort fun a b ↦ a.1 ≤ b.1).map Prod.snd

/-- `SegmentReader`, over the contents of the segment files found at `open`. -/
structure SegmentReader where
  segments : List Bytes
  currentIndex : Nat := 0
  pageReader : Option PageReader := none
  deriving DecidableEq, Repr

namespace SegmentReader

/-- `SegmentReader::open`. -/
def openDir (files : Files) : SegmentReader :=
  { segments := Wal.segments files }

/-- The loop of `next`: one round for each segment left. -/
def nextLoop : Nat → SegmentReader → Except SegmentReadError Bytes × SegmentReader
  | 0, r => (.error .endOfStream, r)
  | fuel + 1, r =>
    if r.currentIndex < r.segments.length then
      let page := r.pageReader.getD { buf := r.segments.getD r.currentIndex [] }
      match page.next with
      | (.ok record, page) => (.ok record, { r with pageReader := some page })
      | (.error e, page) =>
        let isLastSegment := r.currentIndex + 1 = r.segments.length
        if e = .endOfStream ∨ (e = .tornRecord ∧ isLastSegment) then
          -- Clean exhaustion, or a torn tail to drop: go on to the next segment.
          nextLoop fuel { r with pageReader := none, currentIndex := r.currentIndex + 1 }
        else if e = .tornRecord then
          (.error .corruptMidStream, { r with pageReader := some page })
        else (.error (mapPageError e), { r with pageReader := some page })
    else (.error .endOfStream, r)

def next (r : SegmentReader) : Except SegmentReadError Bytes × SegmentReader :=
  nextLoop (r.segments.length + 1) r

/-- Calls to `next` until one fails: the records, and the error. -/
def readAllLoop : Nat → SegmentReader → List Bytes × SegmentReadError
  | 0, _ => ([], .endOfStream)
  | fuel + 1, r =>
    match r.next with
    | (.error e, _) => ([], e)
    | (.ok record, r) =>
      let (records, e) := readAllLoop fuel r
      (record :: records, e)

/-- All records of the segments and the error that ends them.  A record takes at least a byte. -/
def readAll (segments : List Bytes) : List Bytes × SegmentReadError :=
  readAllLoop (segments.flatten.length + 1) { segments := segments }

end SegmentReader
end MerlionTsdb.Wal
