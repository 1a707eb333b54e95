import MerlionTsdb.Encoding.BigEndian
import MerlionTsdb.Model.Labels

/-!
# WAL records

`record.cpp`: the bodies of series and sample records.  A decoder reads its buffer at an offset and
keeps an error flag, as `Decoder` does.  Values are IEEE bit patterns.
-/

namespace MerlionTsdb.Wal.Record

open Encoding Model

abbrev SeriesRef := UInt64

/-- The two record types the head writes; `Type::Unknown` stands for an empty record. -/
def kSeries : UInt8 := 1
def kSamplesV2 : UInt8 := 11
def kUnknown : UInt8 := 255

def peekType (record : Bytes) : UInt8 := record.headD kUnknown

/-- `RefSeries`, its labels a vector. -/
@[ext] structure RefSeries where
  ref : SeriesRef
  labels : List Label
  length_le : labels.length ≤ kMaxLabels

instance : DecidableEq RefSeries := fun _ _ ↦ decidable_of_iff _ RefSeries.ext_iff.symm

structure RefSample where
  ref : SeriesRef := 0
  t : Int64 := 0
  st : Int64 := 0
  v : UInt64 := 0
  deriving DecidableEq, Repr

inductive RecordError
  | invalidType
  | unexpectedEnd
  | trailingBytes
  | stMarkerInvalid
  deriving DecidableEq, Repr

/-- How a decoder stops: with an error it returns, with an exception out of a container, or with a
string view that leaves the buffer. -/
inductive DecodeFault
  | error (e : RecordError)
  | thrown
  | overrun
  deriving DecidableEq, Repr

/-! ## Encoders -/

def kStNo : UInt8 := 0
def kStSame : UInt8 := 1
def kStExplicit : UInt8 := 2

def encodeUvarintStr (s : Str) : Bytes :=
  Varint.putUvarint (UInt64.ofNat s.bytes.length) ++ s.bytes

def encodeLabel (l : Label) : Bytes :=
  encodeUvarintStr l.name ++ encodeUvarintStr l.value

def encodeRefSeries (s : RefSeries) : Bytes :=
  putBe64 s.ref ++ Varint.putUvarint (UInt64.ofNat s.labels.length) ++ s.labels.flatMap encodeLabel

def encodeSeries (series : List RefSeries) : Bytes :=
  kSeries :: series.flatMap encodeRefSeries

def writeStMarker (st firstSt prevSt : Int64) : Bytes :=
  if st = 0 then [kStNo]
  else if st = prevSt then [kStSame]
  else kStExplicit :: Varint.putVarint (st - firstSt)

/-- The samples behind the first, each against the one before it. -/
def encodeSamplesRest (first prev : RefSample) : List RefSample → Bytes
  | [] => []
  | s :: samples =>
    Varint.putVarint (s.ref.toInt64 - prev.ref.toInt64) ++ Varint.putVarint (s.t - first.t) ++
      writeStMarker s.st first.st prev.st ++ putBe64 s.v ++ encodeSamplesRest first s samples

def encodeSamplesV2 : List RefSample → Bytes
  | [] => [kSamplesV2]
  | first :: samples =>
    kSamplesV2 :: (Varint.putVarint first.ref.toInt64 ++ Varint.putVarint first.t ++
      Varint.putVarint first.st ++ putBe64 first.v ++ encodeSamplesRest first first samples)

/-! ## Decoders -/

structure Decoder where
  buf : Bytes
  offset : Nat := 0
  err : Bool := false
  deriving DecidableEq, Repr

namespace Decoder

def hasMore (d : Decoder) : Bool := !d.err && d.offset < d.buf.length

def remaining (d : Decoder) : Nat :=
  if d.offset ≤ d.buf.length then d.buf.length - d.offset else 0

def readByte (d : Decoder) : UInt8 × Decoder :=
  if d.buf.length ≤ d.offset then (0, { d with err := true })
  else (d.buf.getD d.offset 0, { d with offset := d.offset + 1 })

def readBe64 (d : Decoder) : UInt64 × Decoder :=
  if d.buf.length < d.offset + 8 then (0, { d with err := true })
  else (Encoding.readBe64 (d.buf.drop d.offset), { d with offset := d.offset + 8 })

def readUvarint (d : Decoder) : UInt64 × Decoder :=
  match Varint.readUvarint (d.buf.drop d.offset) with
  | .error _ => (0, { d with err := true })
  | .ok (x, n) => (x, { d with offset := d.offset + n })

def readVarint (d : Decoder) : Int64 × Decoder :=
  match Varint.readVarint (d.buf.drop d.offset) with
  | .error _ => (0, { d with err := true })
  | .ok (x, n) => (x, { d with offset := d.offset + n })

def readUvarintStr (d : Decoder) : Except DecodeFault (Bytes × Decoder) :=
  let (len, d) := d.readUvarint
  if d.err then .ok ([], d)
  else if d.buf.length < (d.offset + len.toNat) % 2 ^ 64 then .ok ([], { d with err := true })
  -- The sum may have wrapped, and the view starts inside the buffer but ends outside.
  else if d.buf.length < d.offset + len.toNat then .error .overrun
  else .ok ((d.buf.drop d.offset).take len.toNat, { d with offset := d.offset + len.toNat })

end Decoder

/-- The label loop of `decode_series`. -/
def readLabels : Nat → Decoder → Except DecodeFault (List Label × Decoder)
  | 0, d => .ok ([], d)
  | n + 1, d =>
    match d.readUvarintStr with
    | .error e => .error e
    | .ok (name, d) =>
      match d.readUvarintStr with
      | .error e => .error e
      | .ok (value, d) =>
        if d.err then .error (.error .unexpectedEnd)
        else
          match Str.ofBytes name, Str.ofBytes value with
          | some name, some value =>
            match readLabels n d with
            | .error e => .error e
            | .ok (labels, d) => .ok ({ name := name, value := value } :: labels, d)
          | _, _ => .error .thrown

/-- The loop of `decode_series`.  Every round moves the offset or sets the error flag, so the bytes
left bound the rounds. -/
def decodeSeriesLoop (memory : Nat) : Nat → Decoder → Except DecodeFault (List RefSeries)
  | 0, _ => .error (.error .unexpectedEnd)
  | fuel + 1, d =>
    if d.hasMore then
      let (ref, d) := d.readBe64
      let (labelCount, d) := d.readUvarint
      -- The count goes to `reserve` before the error flag is looked at.
      if Reserves memory 64 labelCount.toNat then
        match readLabels labelCount.toNat d with
        | .error e => .error e
        | .ok (labels, d) =>
          if d.err then .error (.error .unexpectedEnd)
          else if hlen : labels.length ≤ kMaxLabels then
            match decodeSeriesLoop memory fuel d with
            | .error e => .error e
            | .ok series => .ok ({ ref := ref, labels := labels, length_le := hlen } :: series)
          else .error .thrown
      else .error .thrown
    else if d.err then .error (.error .unexpectedEnd)
    else if d.remaining ≠ 0 then .error (.error .trailingBytes)
    else .ok []

/-- `decode_series`, where an allocation gets `memory` bytes at most. -/
def decodeSeries (record : Bytes) (memory : Nat := kMaxSize) : Except DecodeFault (List RefSeries) :=
  let (type, d) := ({ buf := record } : Decoder).readByte
  if type ≠ kSeries then .error (.error .invalidType)
  else decodeSeriesLoop memory (record.length + 1) d

/-- The start timestamp of a sample behind the first. -/
def readSt (d : Decoder) (firstSt prevSt : Int64) : Except DecodeFault (Int64 × Decoder) :=
  let (marker, d) := d.readByte
  if d.err then .error (.error .unexpectedEnd)
  else if marker = kStNo then .ok (0, d)
  else if marker = kStSame then .ok (prevSt, d)
  else if marker = kStExplicit then
    let (delta, d) := d.readVarint
    .ok (firstSt + delta, d)
  else .error (.error .stMarkerInvalid)

/-- The fields of one sample but its value.  `prev` is the sample before it, if there is one, and
`firstT` and `firstSt` are the timestamps of the first. -/
def readSampleHead (d : Decoder) (prev : Option RefSample) (firstT firstSt : Int64) :
    Except DecodeFault (RefSample × Decoder) :=
  match prev with
  | none =>
    let (ref, d) := d.readVarint
    let (t, d) := d.readVarint
    let (st, d) := d.readVarint
    .ok ({ ref := ref.toUInt64, t := t, st := st }, d)
  | some prev =>
    let (refDelta, d) := d.readVarint
    let (tDelta, d) := d.readVarint
    match readSt d firstSt prev.st with
    | .error e => .error e
    | .ok (st, d) =>
      .ok ({ ref := (prev.ref.toInt64 + refDelta).toUInt64, t := firstT + tDelta, st := st }, d)

/-- The loop of `decode_samples_v2`. -/
def decodeSamplesLoop : Nat → Decoder → Option RefSample → Int64 → Int64 →
    Except DecodeFault (List RefSample)
  | 0, _, _, _, _ => .error (.error .unexpectedEnd)
  | fuel + 1, d, prev, firstT, firstSt =>
    if d.hasMore then
      match readSampleHead d prev firstT firstSt with
      | .error e => .error e
      | .ok (sample, d) =>
        let (v, d) := d.readBe64
        if d.err then .error (.error .unexpectedEnd)
        else
          let sample := { sample with v := v }
          let (firstT, firstSt) := if prev.isNone then (sample.t, sample.st) else (firstT, firstSt)
          match decodeSamplesLoop fuel d (some sample) firstT firstSt with
          | .error e => .error e
          | .ok samples => .ok (sample :: samples)
    else if d.err then .error (.error .unexpectedEnd)
    else if d.remaining ≠ 0 then .error (.error .trailingBytes)
    else .ok []

def decodeSamplesV2 (record : Bytes) : Except DecodeFault (List RefSample) :=
  let (type, d) := ({ buf := record } : Decoder).readByte
  if type ≠ kSamplesV2 then .error (.error .invalidType)
  else if !d.hasMore then if d.err then .error (.error .unexpectedEnd) else .ok []
  else decodeSamplesLoop (record.length + 1) d none 0 0

end MerlionTsdb.Wal.Record
