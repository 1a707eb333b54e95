import MerlionTsdb.Block.Index

/-!
# Writing an index file

`index_writer.hpp` / `index_writer.cpp`: the whole index is built in a buffer, section by section, and
goes to its file in `close`.  What the system calls answer is an input of `close`.
-/

namespace MerlionTsdb.Block

open Encoding Wal

def kIndexWriteFormat : UInt8 := 2

def kIndexSeriesAlign : Nat := 16

/-! ## Buffer helpers -/

/-- `put_uvarint_str`. -/
def putUvarintStr (s : Str) : Bytes :=
  Varint.putUvarint (UInt64.ofNat s.bytes.length) ++ s.bytes

/-- `patch_be32`. -/
def patchBe32 (buf : Bytes) (offset : Nat) (v : UInt32) : Bytes :=
  buf.take offset ++ (putBe32 v ++ buf.drop (offset + 4))

/-- `append_crc`. -/
def appendCrc (buf : Bytes) (start stop : Nat) : Bytes :=
  buf ++ putBe32 (Crc32c.compute ((buf.drop start).take (stop - start)))

/-- `pad_to`. -/
def padTo (buf : Bytes) (align : Nat) : Bytes :=
  if buf.length % align ≠ 0 then buf ++ List.replicate (align - buf.length % align) 0 else buf

/-! ## The writer -/

/-- `Stage`. -/
inductive IndexStage
  | header
  | symbols
  | series
  | postings
  | done
  deriving DecidableEq, Repr

/-- `PendingEntry`. -/
structure PendingEntry where
  name : Str
  value : Str
  offset : UInt64
  deriving DecidableEq

/-- `IndexWriter`, but for the path of its file. -/
structure IndexWriter where
  buf : Bytes := []
  stage : IndexStage := .header
  nextSymRef : UInt32 := 0
  lastSymbol : Str := Str.empty
  anySymbol : Bool := false
  symbolsLenOff : Nat := 0
  offSymbols : UInt64 := 0
  offSeries : UInt64 := 0
  offLabelIdx : UInt64 := 0
  offLabelTbl : UInt64 := 0
  offPostings : UInt64 := 0
  offPostingsTbl : UInt64 := 0
  seriesCount : UInt32 := 0
  pendingPostings : List PendingEntry := []
  deriving DecidableEq

/-- The answers to the calls `close` makes. -/
structure IndexCloseCalls where
  opened : Bool := true
  write : List WriteResult := []
  fsync : Bool := true
  close : Bool := true
  deriving DecidableEq, Repr

/-- The chunks of a series behind the first, from the last time and reference on. -/
def chunkDeltas : Int64 → Int64 → List ChunkMeta → Bytes
  | _, _, [] => []
  | t0, ref0, c :: metas =>
    Varint.putUvarint (c.minTime - t0).toUInt64 ++
      (Varint.putUvarint (c.maxTime - c.minTime).toUInt64 ++
        (Varint.putVarint (c.ref.toInt64 - ref0) ++ chunkDeltas c.maxTime c.ref.toInt64 metas))

/-- The labels in the payload of a series. -/
def labelRefsBytes (labelRefs : List (UInt32 × UInt32)) : Bytes :=
  labelRefs.flatMap fun r ↦ Varint.putUvarint r.1.toUInt64 ++ Varint.putUvarint r.2.toUInt64

/-- The chunks in the payload of a series. -/
def chunkMetasBytes : List ChunkMeta → Bytes
  | [] => []
  | c :: metas =>
    Varint.putVarint c.minTime ++
      (Varint.putUvarint (c.maxTime - c.minTime).toUInt64 ++
        (Varint.putUvarint c.ref ++ chunkDeltas c.maxTime c.ref.toInt64 metas))

/-- The side buffer of `add_series`. -/
def seriesPayload (labelRefs : List (UInt32 × UInt32)) (chunkMetas : List ChunkMeta) : Bytes :=
  Varint.putUvarint (UInt64.ofNat labelRefs.length) ++
    (labelRefsBytes labelRefs ++
      (Varint.putUvarint (UInt64.ofNat chunkMetas.length) ++ chunkMetasBytes chunkMetas))

/-- One entry of the postings offset table. -/
def PendingEntry.bytes (e : PendingEntry) : Bytes :=
  Varint.putUvarint 2 ++
    (putUvarintStr e.name ++ (putUvarintStr e.value ++ Varint.putUvarint e.offset))

/-- The write loop of `close`.  A call that writes nothing is repeated. -/
def writeRemaining : List WriteResult → Bytes → Bool × Bytes
  | _, [] => (true, [])
  | [], data => (true, data)
  | .interrupted :: results, data => writeRemaining results data
  | .failed :: _, _ => (false, [])
  | .wrote n :: results, data =>
    let (ok, written) := writeRemaining results (data.drop n)
    (ok, data.take n ++ written)

namespace IndexWriter

/-- `IndexWriter::create`, where `file` is what the path holds. -/
def create (file : Option Bytes) : Except Errc IndexWriter :=
  if file.isSome then .error .fileExists
  else .ok { buf := putBe32 kMagicIndex ++ [kIndexWriteFormat], stage := .symbols }

/-- Space for the length and the count of the symbol section, in front of the first symbol. -/
def reserveSymbols (w : IndexWriter) : IndexWriter :=
  if w.anySymbol then w
  else
    { w with
      offSymbols := UInt64.ofNat w.buf.length
      symbolsLenOff := w.buf.length + 4
      buf := w.buf ++ (putBe32 0 ++ putBe32 0) }

@[simp] theorem reserveSymbols_stage (w : IndexWriter) : w.reserveSymbols.stage = w.stage := by
  unfold reserveSymbols
  split <;> rfl

@[simp] theorem reserveSymbols_nextSymRef (w : IndexWriter) :
    w.reserveSymbols.nextSymRef = w.nextSymRef := by
  unfold reserveSymbols
  split <;> rfl

@[simp] theorem reserveSymbols_pendingPostings (w : IndexWriter) :
    w.reserveSymbols.pendingPostings = w.pendingPostings := by
  unfold reserveSymbols
  split <;> rfl

/-- `add_symbol`.  A symbol equal to the last one is accepted. -/
def addSymbol (w : IndexWriter) (sym : Str) : Except Errc UInt32 × IndexWriter :=
  if w.stage ≠ .symbols then (.error .operationNotPermitted, w)
  else if w.anySymbol && sym < w.lastSymbol then (.error .invalidArgument, w)
  else
    let w := w.reserveSymbols
    (.ok w.nextSymRef,
      { w with
        buf := w.buf ++ putUvarintStr sym
        anySymbol := true
        lastSymbol := sym
        nextSymRef := w.nextSymRef + 1 })

def finishSymbols (w : IndexWriter) : Except Errc Unit × IndexWriter :=
  if w.stage ≠ .symbols then (.error .operationNotPermitted, w)
  else
    let w := w.reserveSymbols
    let buf := patchBe32 w.buf w.symbolsLenOff w.nextSymRef
    let payloadStart := w.offSymbols.toNat + 4
    let payloadEnd := buf.length
    let buf := patchBe32 buf w.offSymbols.toNat (UInt32.ofNat (payloadEnd - payloadStart))
    (.ok (), { w with buf := appendCrc buf payloadStart payloadEnd, stage := .series })

/-- `add_series`: the id is the offset in units of 16 bytes. -/
def addSeries (w : IndexWriter) (labelRefs : List (UInt32 × UInt32)) (chunkMetas : List ChunkMeta) :
    Except Errc UInt32 × IndexWriter :=
  if w.stage ≠ .series then (.error .operationNotPermitted, w)
  else
    let buf := padTo w.buf kIndexSeriesAlign
    let offSeries := if w.seriesCount = 0 then UInt64.ofNat buf.length else w.offSeries
    let seriesStart := buf.length
    let payload := seriesPayload labelRefs chunkMetas
    let buf := buf ++ Varint.putUvarint (UInt64.ofNat payload.length)
    let payloadOff := buf.length
    let buf := appendCrc (buf ++ payload) payloadOff (payloadOff + payload.length)
    (.ok (UInt32.ofNat (seriesStart / kIndexSeriesAlign)),
      { w with buf := buf, offSeries := offSeries, seriesCount := w.seriesCount + 1 })

def finishSeries (w : IndexWriter) : Except Errc Unit × IndexWriter :=
  if w.stage ≠ .series then (.error .operationNotPermitted, w)
  else
    let offSeries := if w.seriesCount = 0 then UInt64.ofNat w.buf.length else w.offSeries
    let buf := padTo w.buf kIndexSeriesAlign
    let off := UInt64.ofNat buf.length
    (.ok (), { w with
      buf := buf
      offSeries := offSeries
      offLabelIdx := off
      offLabelTbl := off
      offPostings := off
      stage := .postings })

/-- The check of `add_postings`. -/
def ascending : List UInt32 → Bool
  | [] | [_] => true
  | a :: b :: ids => a < b && ascending (b :: ids)

def addPostings (w : IndexWriter) (name value : Str) (seriesIds : List UInt32) :
    Except Errc Unit × IndexWriter :=
  if w.stage ≠ .postings then (.error .operationNotPermitted, w)
  else if !ascending seriesIds then (.error .invalidArgument, w)
  else
    let buf := padTo w.buf 4
    let listOff := buf.length
    let buf := buf ++ putBe32 0
    let payloadOff := buf.length
    let buf := buf ++ (putBe32 (UInt32.ofNat seriesIds.length) ++ seriesIds.flatMap putBe32)
    let payloadEnd := buf.length
    let buf := patchBe32 buf listOff (UInt32.ofNat (payloadEnd - payloadOff))
    let buf := appendCrc buf payloadOff payloadEnd
    let e : PendingEntry := { name := name, value := value, offset := UInt64.ofNat listOff }
    (.ok (), { w with buf := buf, pendingPostings := w.pendingPostings ++ [e] })

/-- The table and the TOC that `close` appends. -/
def appendTables (w : IndexWriter) : IndexWriter :=
  let off := w.buf.length
  let buf := w.buf ++ putBe32 0
  let payloadOff := buf.length
  let buf := buf ++ (putBe32 (UInt32.ofNat w.pendingPostings.length) ++
    w.pendingPostings.flatMap PendingEntry.bytes)
  let payloadEnd := buf.length
  let buf := patchBe32 buf off (UInt32.ofNat (payloadEnd - payloadOff))
  let buf := appendCrc buf payloadOff payloadEnd
  let tocStart := buf.length
  let buf := buf ++ (putBe64 w.offSymbols ++ (putBe64 w.offSeries ++ (putBe64 w.offLabelIdx ++
    (putBe64 w.offLabelTbl ++ (putBe64 w.offPostings ++ putBe64 (UInt64.ofNat off))))))
  { w with buf := appendCrc buf tocStart (tocStart + 48), offPostingsTbl := UInt64.ofNat off }

/-- `close`, where `file` is what the path holds, and what it then holds. -/
def close (w : IndexWriter) (file : Option Bytes) (calls : IndexCloseCalls) :
    Except Failure Unit × IndexWriter × Option Bytes :=
  if w.stage ≠ .postings then (.error (.error .operationNotPermitted), w, file)
  else
    let w := w.appendTables
    -- A vector holds no more; in the source the write that outgrows it throws.
    if kMaxSize < w.buf.length then (.error .thrown, w, file)
    else if file.isSome then (.error (.error .fileExists), w, file)
    else if !calls.opened then (.error (.error .system), w, file)
    else
      let (ok, written) := writeRemaining calls.write w.buf
      -- What failed behind the open leaves the file, and the writer in its stage.
      if !ok || !calls.fsync || !calls.close then (.error (.error .system), w, some written)
      else (.ok (), { w with stage := .done }, some written)

end IndexWriter

/-! ## Runs -/

/-- A call on a writer.  The metas of a series come out of a vector. -/
inductive IndexCall
  | addSymbol (sym : Str)
  | finishSymbols
  | addSeries (labelRefs : List (UInt32 × UInt32))
      (chunkMetas : { metas : List ChunkMeta // metas.length ≤ kMaxChunkMetas })
  | finishSeries
  | addPostings (name value : Str) (seriesIds : List UInt32)
  | close (calls : IndexCloseCalls)

/-- One call of a run: the writer it was made on, and its answer, with the number it returns, if it
returns one. -/
structure IndexStep where
  writer : IndexWriter
  call : IndexCall
  answer : Except Failure (Option UInt32)

/-- A result of the writer, as the answer of a step. -/
def answerOf {α : Type} (number : α → Option UInt32) : Except Errc α → Except Failure (Option UInt32)
  | .ok a => .ok (number a)
  | .error e => .error (.error e)

def perform (w : IndexWriter) (file : Option Bytes) :
    IndexCall → Except Failure (Option UInt32) × IndexWriter × Option Bytes
  | .addSymbol sym =>
    let (r, w) := w.addSymbol sym
    (answerOf some r, w, file)
  | .finishSymbols =>
    let (r, w) := w.finishSymbols
    (answerOf (fun _ ↦ none) r, w, file)
  | .addSeries labelRefs chunkMetas =>
    let (r, w) := w.addSeries labelRefs chunkMetas.1
    (answerOf some r, w, file)
  | .finishSeries =>
    let (r, w) := w.finishSeries
    (answerOf (fun _ ↦ none) r, w, file)
  | .addPostings name value seriesIds =>
    let (r, w) := w.addPostings name value seriesIds
    (answerOf (fun _ ↦ none) r, w, file)
  | .close calls =>
    let (r, w, file) := w.close file calls
    (r.map fun _ ↦ none, w, file)

/-- The steps of a run, and what they leave. -/
def runIndexCalls (w : IndexWriter) (file : Option Bytes) :
    List IndexCall → List IndexStep × IndexWriter × Option Bytes
  | [] => ([], w, file)
  | c :: calls =>
    let (answer, w', file') := perform w file c
    let (steps, w'', file'') := runIndexCalls w' file' calls
    ({ writer := w, call := c, answer := answer } :: steps, w'', file'')

end MerlionTsdb.Block
