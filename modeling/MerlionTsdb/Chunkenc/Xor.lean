import MerlionTsdb.Encoding.BitStream

/-!
# XOR chunks

`xor.hpp` / `xor.cpp`: the Gorilla encoding of a series of samples.  Timestamps are coded as deltas
of deltas behind a prefix of one to four bits, values as the XOR with the previous value inside a
window of significant bits that encoder and decoder both remember.  A value is its 64-bit pattern;
the source only ever looks at it through `bit_cast`.
-/

namespace MerlionTsdb.Chunkenc

open Encoding

structure Sample where
  t : Int64
  v : UInt64
  deriving DecidableEq, Repr

/-- The `leading` / `trailing` pair that `xor_write` and `xor_read` update in place. -/
structure Window where
  leading : UInt8
  trailing : UInt8
  deriving DecidableEq, Repr

/-- `std::countl_zero`. -/
def countlZero (x : UInt64) : Nat := x.toBitVec.clz.toNat

/-- `std::countr_zero`. -/
def countrZero (x : UInt64) : Nat := x.toBitVec.ctz.toNat

/-- The asymmetric range `-(2^(n-1) - 1) .. 2^(n-1)`. -/
def bitRange (x : Int64) (n : Nat) : Bool :=
  let hi : Int64 := (1 : Int64) <<< Int64.ofNat (n - 1)
  let lo := -(hi - 1)
  lo ≤ x && x ≤ hi

def putUvarintViaWriter (w : BitWriter) (x : UInt64) : BitWriter :=
  (Varint.putUvarint x).foldl BitWriter.writeByte w

def putVarintViaWriter (w : BitWriter) (x : Int64) : BitWriter :=
  (Varint.putVarint x).foldl BitWriter.writeByte w

def signExtend (bits : UInt64) (width : Nat) : Int64 :=
  let sign : UInt64 := 1 <<< UInt64.ofNat (width - 1)
  let bits := if sign < bits then bits - (1 : UInt64) <<< UInt64.ofNat width else bits
  bits.toInt64

/-! ## Values -/

def xorWrite (w : BitWriter) (newV prevV : UInt64) (win : Window) : BitWriter × Window :=
  let delta := newV ^^^ prevV
  if delta = 0 then (w.writeBit false, win)
  else
    let w := w.writeBit true
    let newLeading := UInt8.ofNat (countlZero delta)
    let newTrailing := UInt8.ofNat (countrZero delta)
    -- Clamped to fit in the 5-bit field.
    let newLeading := if 32 ≤ newLeading then 31 else newLeading
    if win.leading ≠ 0xFF ∧ win.leading ≤ newLeading ∧ win.trailing ≤ newTrailing then
      let w := w.writeBit false
      let sigbits := 64 - win.leading - win.trailing
      (w.writeBits (delta >>> win.trailing.toUInt64) sigbits.toNat, win)
    else
      let w := w.writeBit true
      let w := w.writeBits newLeading.toUInt64 5
      -- 64 significant bits do not fit in 6 bits and go out as 0.
      let sigbits := 64 - newLeading - newTrailing
      let w := w.writeBits sigbits.toUInt64 6
      (w.writeBits (delta >>> newTrailing.toUInt64) sigbits.toNat,
        { leading := newLeading, trailing := newTrailing })

/-- The tail of `xor_read`: the significant bits, shifted into place.  A shift by 64 or more is
undefined in the source. -/
def xorReadBits (r : BitReader) (value : UInt64) (win : Window) (mbits : UInt8) :
    Except Fault UInt64 × BitReader × Window :=
  match r.readBits mbits.toNat with
  | (.error e, r) => (.error e, r, win)
  | (.ok bits, r) =>
    if 64 ≤ win.trailing then (.error .undefined, r, win)
    else (.ok (value ^^^ bits <<< win.trailing.toUInt64), r, win)

/-- `xor_read`: the new value, or the error; the window may have changed before the error. -/
def xorRead (r : BitReader) (value : UInt64) (win : Window) :
    Except Fault UInt64 × BitReader × Window :=
  match r.readBit with
  | (.error e, r) => (.error e, r, win)
  | (.ok false, r) => (.ok value, r, win)
  | (.ok true, r) =>
    match r.readBit with
    | (.error e, r) => (.error e, r, win)
    | (.ok false, r) => xorReadBits r value win (64 - win.leading - win.trailing)
    | (.ok true, r) =>
      match r.readBits 5 with
      | (.error e, r) => (.error e, r, win)
      | (.ok lz, r) =>
        let win := { win with leading := lz.toUInt8 }
        match r.readBits 6 with
        | (.error e, r) => (.error e, r, win)
        | (.ok sb, r) =>
          let mbits := if sb.toUInt8 = 0 then 64 else sb.toUInt8
          xorReadBits r value { win with trailing := 64 - win.leading - mbits } mbits

/-! ## Appender -/

/-- `XORAppender`, less the pointer to the chunk's writer, which `append` takes and returns. -/
structure XORAppender where
  t : Int64 := Int64.minValue
  v : UInt64 := 0
  tDelta : UInt64 := 0
  window : Window := { leading := 0xFF, trailing := 0 }
  deriving DecidableEq, Repr

def kHeaderSize : Nat := 2

def kMaxSamples : Nat := 65535

/-- The big-endian sample count in the first two bytes.  Chunks hold at least these two. -/
def headerCount (stream : Bytes) : Nat :=
  (stream.getD 0 0).toNat * 256 + (stream.getD 1 0).toNat

/-- `buf[0] = new_num >> 8; buf[1] = new_num`. -/
def setHeader (w : BitWriter) (n : Nat) : BitWriter :=
  { w with stream := (w.stream.set 0 (UInt8.ofNat (n / 256))).set 1 (UInt8.ofNat n) }

/-- The prefix-coded delta of deltas. -/
def writeDod (w : BitWriter) (dod : Int64) : BitWriter :=
  if dod = 0 then w.writeBit false
  else if bitRange dod 14 then
    -- '10' and 14 bits of dod, packed as two byte writes.
    let w := w.writeByte ((0x80 : UInt8) ||| ((dod >>> 8).toUInt64.toUInt8 &&& 0x3F))
    w.writeByte dod.toUInt64.toUInt8
  else if bitRange dod 17 then
    (w.writeBits 0b110 3).writeBits dod.toUInt64 17
  else if bitRange dod 20 then
    (w.writeBits 0b1110 4).writeBits dod.toUInt64 20
  else
    (w.writeBits 0b1111 4).writeBits dod.toUInt64 64

namespace XORAppender

/-- `append`: false when the chunk is full. -/
def append (a : XORAppender) (w : BitWriter) (t : Int64) (v : UInt64) :
    Bool × BitWriter × XORAppender :=
  let num := headerCount w.stream
  if num = kMaxSamples then (false, w, a)
  else
    match num with
    | 0 =>
      let w := (putVarintViaWriter w t).writeBits v 64
      (true, setHeader w (num + 1), { a with t := t, v := v, tDelta := 0 })
    | 1 =>
      let tDelta := (t - a.t).toUInt64
      let (w, win) := xorWrite (putUvarintViaWriter w tDelta) v a.v a.window
      (true, setHeader w (num + 1), { t := t, v := v, tDelta := tDelta, window := win })
    | _ =>
      let tDelta := (t - a.t).toUInt64
      let (w, win) := xorWrite (writeDod w (tDelta - a.tDelta).toInt64) v a.v a.window
      (true, setHeader w (num + 1), { t := t, v := v, tDelta := tDelta, window := win })

end XORAppender

/-! ## Iterator -/

/-- `XORIterator`.  `err` also records a step the language leaves undefined. -/
structure XORIterator where
  reader : BitReader
  numTotal : Nat := 0
  numRead : Nat := 0
  t : Int64 := 0
  v : UInt64 := 0
  tDelta : UInt64 := 0
  window : Window := { leading := 0, trailing := 0 }
  err : Option Fault := none
  deriving DecidableEq, Repr

/-- The loop over the prefix: at most four bits, up to and including the first zero. -/
def readPrefix (r : BitReader) (p : UInt8) : Nat → Except Fault UInt8 × BitReader
  | 0 => (.ok p, r)
  | i + 1 =>
    match r.readBit with
    | (.error e, r) => (.error e, r)
    | (.ok false, r) => (.ok (p <<< 1), r)
    | (.ok true, r) => readPrefix r (p <<< 1 ||| 1) i

/-- The payload that follows a prefix.  Only the five listed prefixes can have been read. -/
def readDod (r : BitReader) (p : UInt8) : Except Fault Int64 × BitReader :=
  let payload (width : Nat) :=
    match r.readBits width with
    | (.error e, r) => (.error e, r)
    | (.ok bits, r) => (.ok (signExtend bits width), r)
  if p = 0b10 then payload 14
  else if p = 0b110 then payload 17
  else if p = 0b1110 then payload 20
  else if p = 0b1111 then
    match r.readBits 64 with
    | (.error e, r) => (.error e, r)
    | (.ok bits, r) => (.ok bits.toInt64, r)
  else (.ok 0, r)

namespace XORIterator

/-- The constructor. -/
def new (bytes : Bytes) : XORIterator :=
  if kHeaderSize ≤ bytes.length then
    { reader := BitReader.new (bytes.drop kHeaderSize), numTotal := headerCount bytes }
  else { reader := BitReader.new [] }

def readValue (it : XORIterator) : Bool × XORIterator :=
  match xorRead it.reader it.v it.window with
  | (.error e, r, win) => (false, { it with reader := r, window := win, err := some e })
  | (.ok v, r, win) =>
    (true, { it with reader := r, v := v, window := win, numRead := it.numRead + 1 })

/-- The first sample: a signed varint and 64 raw bits. -/
def nextFirst (it : XORIterator) : Bool × XORIterator :=
  match it.reader.readVarint with
  | (.error e, r) => (false, { it with reader := r, err := some e })
  | (.ok t, r) =>
    match r.readBits 64 with
    | (.error e, r) => (false, { it with reader := r, err := some e })
    | (.ok v, r) => (true, { it with reader := r, t := t, v := v, numRead := it.numRead + 1 })

/-- The second sample: an unsigned varint delta. -/
def nextSecond (it : XORIterator) : Bool × XORIterator :=
  match it.reader.readUvarint with
  | (.error e, r) => (false, { it with reader := r, err := some e })
  | (.ok td, r) => readValue { it with reader := r, tDelta := td, t := it.t + td.toInt64 }

/-- Every later sample: a delta of deltas. -/
def nextRest (it : XORIterator) : Bool × XORIterator :=
  match readPrefix it.reader 0 4 with
  | (.error e, r) => (false, { it with reader := r, err := some e })
  | (.ok p, r) =>
    match readDod r p with
    | (.error e, r) => (false, { it with reader := r, err := some e })
    | (.ok dod, r) =>
      let tDelta := (it.tDelta.toInt64 + dod).toUInt64
      readValue { it with reader := r, tDelta := tDelta, t := it.t + tDelta.toInt64 }

/-- `next`: false at the end of the chunk and after an error. -/
def next (it : XORIterator) : Bool × XORIterator :=
  if it.err.isSome || it.numRead = it.numTotal then (false, it)
  else if it.numRead = 0 then it.nextFirst
  else if it.numRead = 1 then it.nextSecond
  else it.nextRest

/-- `while (it.next())`, collecting the samples; one round of `fuel` each. -/
def drainLoop (it : XORIterator) : Nat → List Sample × XORIterator
  | 0 => ([], it)
  | fuel + 1 =>
    match it.next with
    | (false, it) => ([], it)
    | (true, it) =>
      let (samples, last) := drainLoop it fuel
      ({ t := it.t, v := it.v } :: samples, last)

/-- The samples up to the first `false` of `next`, and the iterator it leaves.  Every `true` counts
one more sample read, so `numTotal` bounds the rounds. -/
def drain (it : XORIterator) : List Sample × XORIterator :=
  it.drainLoop (it.numTotal + 1)

end XORIterator

/-! ## Chunk -/

/-- `XORChunk`. -/
structure XORChunk where
  writer : BitWriter
  deriving DecidableEq, Repr

namespace XORChunk

/-- The constructor: an empty chunk is its two header bytes. -/
def new : XORChunk := { writer := { stream := List.replicate kHeaderSize 0 } }

def fromBytes (bytes : Bytes) : XORChunk := { writer := new.writer.reset bytes }

def bytes (c : XORChunk) : Bytes := c.writer.stream

def numSamples (c : XORChunk) : Nat := headerCount c.bytes

def iterator (c : XORChunk) : XORIterator := XORIterator.new c.bytes

/-- `compact`: the buffer leaves the writer and is adopted again. -/
def compact (c : XORChunk) : XORChunk :=
  let (bytes, w) := c.writer.release
  { writer := w.reset bytes }

/-- `appender`: replays the samples to recover the encoder state. -/
def appender (c : XORChunk) : Except Fault XORAppender :=
  if c.bytes.length = kHeaderSize then .ok {}
  else
    let it := c.iterator.drain.2
    match it.err with
    | some e => .error e
    | none => .ok { t := it.t, v := it.v, tDelta := it.tDelta, window := it.window }

/-- `a.append(t, v)` for an appender `a` bound to the chunk. -/
def append (c : XORChunk) (a : XORAppender) (s : Sample) : Bool × XORChunk × XORAppender :=
  let (ok, w, a) := a.append c.writer s.t s.v
  (ok, { writer := w }, a)

/-- The samples a fresh iterator yields, and the iterator when it stops. -/
def samples (c : XORChunk) : List Sample × XORIterator := c.iterator.drain

end XORChunk
end MerlionTsdb.Chunkenc
