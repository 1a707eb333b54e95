import MerlionTsdb.Encoding.Varint
import MerlionTsdb.Lib.BitString
import Mathlib.Tactic.IntervalCases

/-!
# Bit streams

`bstream.hpp` / `bstream.cpp`: the bit writer that packs most significant bits first and the reader
that serves bits from a 64-bit buffer.  The writer keeps the number of free bits of its last byte,
the reader a partly consumed buffer; both are related to plain bit strings, the writer by `Holds`
and the reader by `rem`.
-/

namespace MerlionTsdb.Encoding

open BitString

/-! ## Writer -/

/-- `BitWriter`: `count` is the number of free low bits of the last byte. -/
structure BitWriter where
  stream : Bytes := []
  count : Nat := 0
  deriving DecidableEq, Repr

/-- `stream.back() |= x`. -/
def orBack (x : UInt8) : Bytes → Bytes
  | [] => []
  | [b] => [b ||| x]
  | b :: bs => b :: orBack x bs

namespace BitWriter

def writeBit (w : BitWriter) (b : Bool) : BitWriter :=
  let w := if w.count = 0 then { stream := w.stream ++ [0], count := 8 } else w
  let stream := if b then orBack (1 <<< UInt8.ofNat (w.count - 1)) w.stream else w.stream
  { stream := stream, count := w.count - 1 }

def writeByte (w : BitWriter) (byt : UInt8) : BitWriter :=
  if w.count = 0 then { w with stream := w.stream ++ [byt] }
  else
    { w with
      stream := orBack (byt >>> UInt8.ofNat (8 - w.count)) w.stream
        ++ [byt <<< UInt8.ofNat w.count] }

/-- `while (nbits >= 8)`: one byte off the top of `u` each time round. -/
def writeTopBytes (w : BitWriter) (u : UInt64) : Nat → BitWriter × UInt64
  | 0 => (w, u)
  | n + 1 => writeTopBytes (w.writeByte (u >>> 56).toUInt8) (u <<< 8) n

/-- `while (nbits > 0)`: one bit off the top of `u` each time round. -/
def writeTopBits (w : BitWriter) (u : UInt64) : Nat → BitWriter
  | 0 => w
  | n + 1 => writeTopBits (w.writeBit (u >>> 63 ≠ 0)) (u <<< 1) n

/-- Writes the `nbits` right-most bits of `u`, with `nbits` at most 64. -/
def writeBits (w : BitWriter) (u : UInt64) (nbits : Nat) : BitWriter :=
  if nbits = 0 then w
  else
    let (w, u) := writeTopBytes w (u <<< UInt64.ofNat (64 - nbits)) (nbits / 8)
    writeTopBits w u (nbits % 8)

/-- `reset`: adopts `stream`; the bit position inside the last byte is forgotten. -/
def reset (_w : BitWriter) (stream : Bytes) : BitWriter :=
  { stream := stream, count := 0 }

/-- `release`: the buffer, and the emptied writer. -/
def release (w : BitWriter) : Bytes × BitWriter :=
  (w.stream, { stream := [], count := 0 })

end BitWriter

/-! ## Reader -/

/-- How a read stops: an error the code returns, or a step the language leaves undefined (a shift
by a negative amount, a failed assertion). -/
inductive Fault
  | error (e : ReadError)
  | undefined
  deriving DecidableEq, Repr

/-- `BitReader`: the low `valid` bits of `buffer` are still to be served, then the bytes of `stream`
from `streamOffset` on.  `last` is the cached tail byte. -/
structure BitReader where
  stream : Bytes
  streamOffset : Nat := 0
  buffer : UInt64 := 0
  valid : Nat := 0
  last : UInt8 := 0
  deriving DecidableEq, Repr

/-- `memcpy` of bytes into a 64-bit word of a little-endian host. -/
def loadLe : Bytes → UInt64
  | [] => 0
  | b :: bs => b.toUInt64 ||| (loadLe bs <<< 8)

/-- The byte reversal of the fast path of `load_next_buffer`. -/
def swapBytes (b : UInt64) : UInt64 :=
  (b &&& 0x00000000000000FF) <<< 56 |||
  (b &&& 0x000000000000FF00) <<< 40 |||
  (b &&& 0x0000000000FF0000) <<< 24 |||
  (b &&& 0x00000000FF000000) <<< 8 |||
  (b &&& 0x000000FF00000000) >>> 8 |||
  (b &&& 0x0000FF0000000000) >>> 24 |||
  (b &&& 0x00FF000000000000) >>> 40 |||
  (b &&& 0xFF00000000000000) >>> 56

/-- The slow-path loop: byte `i` of the `nbytes` read goes to bits `8 * (nbytes - i - 1)` on. -/
def packBytes (nbytes : Nat) (i : Nat) : Bytes → UInt64 → UInt64
  | [], b => b
  | c :: cs, b =>
    packBytes nbytes (i + 1) cs (b ||| (c.toUInt64 <<< UInt64.ofNat (8 * (nbytes - i - 1))))

namespace BitReader

/-- The constructor. -/
def new (bytes : Bytes) : BitReader :=
  { stream := bytes, last := bytes.getLastD 0 }

/-- `load_next_buffer`, with `none` for the `false` it returns at the end of the stream. -/
def loadNextBuffer (r : BitReader) (nbits : Nat) : Option BitReader :=
  if r.stream.length ≤ r.streamOffset then none
  else if r.streamOffset + 8 < r.stream.length then
    some { r with
      buffer := swapBytes (loadLe ((r.stream.drop r.streamOffset).take 8))
      streamOffset := r.streamOffset + 8
      valid := 64 }
  else
    let nbytes := min (nbits / 8 + 1) (r.stream.length - r.streamOffset)
    let atTail := r.streamOffset + nbytes = r.stream.length
    let skip := if atTail then 1 else 0
    let b : UInt64 := if atTail then r.last.toUInt64 else 0
    some { r with
      buffer := packBytes nbytes 0 ((r.stream.drop r.streamOffset).take (nbytes - skip)) b
      streamOffset := r.streamOffset + nbytes
      valid := nbytes * 8 }

def readBit (r : BitReader) : Except Fault Bool × BitReader :=
  let loaded := if r.valid = 0 then r.loadNextBuffer 1 else some r
  match loaded with
  | none => (.error (.error .endOfStream), r)
  | some r =>
    let valid := r.valid - 1
    (.ok (r.buffer &&& (1 <<< UInt64.ofNat valid) ≠ 0), { r with valid := valid })

/-- The second buffer load of `read_bits`, with `remaining` bits still wanted after `v`.  When the
tail holds fewer, `valid_ - remaining` is negative and the source shifts by it. -/
def readBitsRest (r : BitReader) (v : UInt64) (remaining : Nat) : Except Fault UInt64 × BitReader :=
  match r.loadNextBuffer remaining with
  | none => (.error (.error .endOfStream), r)
  | some r =>
    if r.valid < remaining then (.error .undefined, r)
    else
      let hiMask : UInt64 := (1 <<< UInt64.ofNat remaining) - 1
      (.ok (v ||| ((r.buffer >>> UInt64.ofNat (r.valid - remaining)) &&& hiMask)),
        { r with valid := r.valid - remaining })

/-- `read_bits`; more than 64 bits fail its assertion. -/
def readBits (r : BitReader) (nbits : Nat) : Except Fault UInt64 × BitReader :=
  if 64 < nbits then (.error .undefined, r)
  else if nbits = 0 then (.ok 0, r)
  else
    let loaded := if r.valid = 0 then r.loadNextBuffer nbits else some r
    match loaded with
    | none => (.error (.error .endOfStream), r)
    | some r =>
      if nbits ≤ r.valid then
        let mask : UInt64 := if nbits = 64 then ~~~0 else (1 <<< UInt64.ofNat nbits) - 1
        let valid := r.valid - nbits
        (.ok ((r.buffer >>> UInt64.ofNat valid) &&& mask), { r with valid := valid })
      else
        -- Need bits from two consecutive buffer loads.
        let lowMask : UInt64 := (1 <<< UInt64.ofNat r.valid) - 1
        let remaining := nbits - r.valid
        readBitsRest { r with valid := 0 } ((r.buffer &&& lowMask) <<< UInt64.ofNat remaining)
          remaining

def readByte (r : BitReader) : Except Fault UInt8 × BitReader :=
  match r.readBits 8 with
  | (.error e, r) => (.error e, r)
  | (.ok v, r) => (.ok v.toUInt8, r)

/-- The loop of `read_uvarint`, with `fuel` of the ten rounds left. -/
def readUvarintLoop (r : BitReader) (x : UInt64) (s : Nat) : Nat → Except Fault UInt64 × BitReader
  | 0 => (.error (.error .varintOverflow), r)
  | fuel + 1 =>
    match r.readByte with
    | (.error e, r) => (.error e, r)
    | (.ok b, r) =>
      if b < 0x80 then
        if fuel = 0 ∧ 1 < b then (.error (.error .varintOverflow), r)
        else (.ok (x ||| (b.toUInt64 <<< UInt64.ofNat s)), r)
      else readUvarintLoop r (x ||| ((b &&& 0x7F).toUInt64 <<< UInt64.ofNat s)) (s + 7) fuel

def readUvarint (r : BitReader) : Except Fault UInt64 × BitReader :=
  readUvarintLoop r 0 0 Varint.maxVarintLen64

def readVarint (r : BitReader) : Except Fault Int64 × BitReader :=
  match r.readUvarint with
  | (.error e, r) => (.error e, r)
  | (.ok ux, r) => (.ok (Varint.unzigzag ux), r)

/-- True when all input is consumed and nothing is buffered. -/
def atEnd (r : BitReader) : Bool :=
  r.stream.length ≤ r.streamOffset && r.valid = 0

end BitReader

/-! ## What the writer holds -/

theorem orBack_append (x : UInt8) (init : Bytes) (b : UInt8) :
    orBack x (init ++ [b]) = init ++ [b ||| x] := by
  induction init with
  | nil => rfl
  | cons a init ih =>
    cases init with
    | nil => rfl
    | cons c init => exact congrArg (a :: ·) ih

/-- The bits of a byte whose `c` low bits are free, after `y` is or-ed into them. -/
theorem ofNat_fill {x y : UInt8} {l : List Bool} {c : Nat}
    (hx : ofNat 8 x.toNat = l ++ List.replicate c false) (hy : y.toNat < 2 ^ c) :
    ofNat 8 (x ||| y).toNat = l ++ ofNat c y.toNat := by
  have hlen : l.length + c = 8 := by
    have h := congrArg List.length hx
    simpa using h.symm
  have hval : x.toNat = toNat l <<< c := by
    apply eq_of_ofNat_eq (n := 8) x.toNat_lt
    · rw [Nat.shiftLeft_eq, ← hlen, pow_add]
      exact Nat.mul_lt_mul_of_pos_right (toNat_lt l) (Nat.two_pow_pos c)
    · rw [hx, ← hlen, ofNat_shiftLeft, ofNat_toNat]
  rw [UInt8.toNat_or, hval, ← hlen, ofNat_shiftLeft_or _ _ hy, ofNat_toNat]

/-- The free bits of a stream lie in its last byte. -/
theorem exists_last_byte {stream : Bytes} {l : List Bool} {c : Nat}
    (hbits : ofBytes stream = l ++ List.replicate c false) (hpos : 0 < c) (hc : c ≤ 8) :
    ∃ init x l', stream = init ++ [x] ∧ l = ofBytes init ++ l' ∧
      ofNat 8 x.toNat = l' ++ List.replicate c false := by
  have hlen := congrArg List.length hbits
  rw [length_ofBytes, List.length_append, List.length_replicate] at hlen
  have hne : stream ≠ [] := by
    rintro rfl
    rw [List.length_nil] at hlen
    omega
  obtain ⟨init, x, rfl⟩ : ∃ init x, stream = init ++ [x] :=
    ⟨_, _, (List.dropLast_append_getLast hne).symm⟩
  rw [List.length_append, List.length_singleton] at hlen
  rw [ofBytes_append, ofBytes_singleton] at hbits
  obtain ⟨l', rfl⟩ : ofBytes init <+: l := by
    have hinit : ofBytes init <+: l ++ List.replicate c false := ⟨_, hbits⟩
    exact List.prefix_of_prefix_length_le hinit ⟨_, rfl⟩ (by rw [length_ofBytes]; omega)
  rw [List.append_assoc] at hbits
  exact ⟨init, x, l', rfl, rfl, List.append_cancel_left hbits⟩

/-- Or-ing `y` into the free bits of the last byte. -/
theorem ofBytes_orBack {stream : Bytes} {l : List Bool} {c : Nat} {y : UInt8}
    (hbits : ofBytes stream = l ++ List.replicate c false) (hpos : 0 < c) (hc : c ≤ 8)
    (hy : y.toNat < 2 ^ c) :
    ofBytes (orBack y stream) = l ++ ofNat c y.toNat := by
  obtain ⟨init, x, l', rfl, rfl, hx⟩ := exists_last_byte hbits hpos hc
  rw [orBack_append, ofBytes_append, ofBytes_singleton, ofNat_fill hx hy, List.append_assoc]

theorem toNat_one_shiftLeft {c : Nat} (hc : c < 8) : ((1 : UInt8) <<< UInt8.ofNat c).toNat = 2 ^ c := by
  interval_cases c <;> rfl

/-- One bit written at the highest free position. -/
theorem ofBytes_setBit {stream : Bytes} {l : List Bool} {c : Nat} (b : Bool)
    (hbits : ofBytes stream = l ++ List.replicate (c + 1) false) (hc : c < 8) :
    ofBytes (if b then orBack (1 <<< UInt8.ofNat c) stream else stream) =
      l ++ [b] ++ List.replicate c false := by
  cases b
  · rw [if_neg Bool.false_ne_true, hbits, List.replicate_succ, List.append_assoc,
      List.singleton_append]
  · rw [if_pos rfl, ofBytes_orBack hbits (by omega) (by omega)
      (by rw [toNat_one_shiftLeft hc]; exact Nat.pow_lt_pow_right (by omega) (by omega)),
      toNat_one_shiftLeft hc, Nat.add_comm c, ← Nat.one_shiftLeft, ofNat_shiftLeft,
      ← List.append_assoc]
    rfl

namespace BitWriter

/-- `w` holds exactly the bits `l`: the free bits of the last byte are zero and follow them. -/
def Holds (w : BitWriter) (l : List Bool) : Prop :=
  w.count < 8 ∧ ofBytes w.stream = l ++ List.replicate w.count false

theorem holds_reset (w : BitWriter) (bs : Bytes) : (w.reset bs).Holds (ofBytes bs) :=
  ⟨Nat.zero_lt_succ 7, (List.append_nil _).symm⟩

theorem Holds.writeBit {w : BitWriter} {l : List Bool} (h : w.Holds l) (b : Bool) :
    (w.writeBit b).Holds (l ++ [b]) := by
  obtain ⟨stream, count⟩ := w
  obtain ⟨hcount, hbits⟩ := h
  cases count with
  | zero =>
    have hfresh : ofBytes (stream ++ [0]) = l ++ List.replicate (7 + 1) false := by
      rw [ofBytes_append, hbits, List.append_assoc]; rfl
    refine ⟨?_, ofBytes_setBit (c := 7) b hfresh (by decide)⟩
    show 8 - 1 < 8
    omega
  | succ c =>
    have hc : c < 8 := Nat.lt_of_succ_lt hcount
    exact ⟨hc, ofBytes_setBit b hbits hc⟩

theorem Holds.writeByte {w : BitWriter} {l : List Bool} (h : w.Holds l) (byt : UInt8) :
    (w.writeByte byt).Holds (l ++ ofNat 8 byt.toNat) := by
  obtain ⟨hcount, hbits⟩ := h
  unfold BitWriter.writeByte
  by_cases hzero : w.count = 0
  · rw [if_pos hzero]
    refine ⟨hcount, ?_⟩
    rw [hzero, List.replicate_zero, List.append_nil] at hbits ⊢
    rw [ofBytes_append, hbits, ofBytes_singleton]
  · rw [if_neg hzero]
    refine ⟨hcount, ?_⟩
    -- The high bits fill the last byte, and the low ones open a new one.
    have hhigh : (byt >>> UInt8.ofNat (8 - w.count)).toNat = byt.toNat >>> (8 - w.count) := by
      rw [UInt8.toNat_shiftRight, UInt8.toNat_ofNat_of_lt' (by rw [UInt8.size]; omega),
        Nat.mod_eq_of_lt (by omega)]
    have hlow : (byt <<< UInt8.ofNat w.count).toNat = byt.toNat <<< w.count % 2 ^ 8 := by
      rw [UInt8.toNat_shiftLeft, UInt8.toNat_ofNat_of_lt' (by rw [UInt8.size]; omega),
        Nat.mod_eq_of_lt hcount]
    have hfit : byt.toNat >>> (8 - w.count) < 2 ^ w.count := by
      rw [Nat.shiftRight_eq_div_pow]
      apply Nat.div_lt_of_lt_mul
      rw [← pow_add, Nat.sub_add_cancel (by omega)]
      exact byt.toNat_lt
    have hsum : 8 = (8 - w.count) + w.count := by omega
    have hbyte : ofNat 8 byt.toNat =
        ofNat w.count (byt.toNat >>> (8 - w.count)) ++ ofNat (8 - w.count) byt.toNat := by
      rw [← ofNat_add]; congr 1; omega
    have htail : ofNat 8 (byt.toNat <<< w.count % 2 ^ 8) =
        ofNat (8 - w.count) byt.toNat ++ List.replicate w.count false := by
      rw [ofNat_mod le_rfl, ← ofNat_shiftLeft, ← hsum]
    rw [ofBytes_append, ofBytes_singleton,
      ofBytes_orBack hbits (Nat.pos_of_ne_zero hzero) (by omega) (by rw [hhigh]; exact hfit),
      hhigh, hlow, hbyte, htail]
    simp only [List.append_assoc]

/-- Shifting a 64-bit word left by `k` drops its `k` top bits. -/
theorem ofNat_word_shiftLeft (u : UInt64) {k : Nat} (hk : k < 64) :
    ofNat 64 (u <<< UInt64.ofNat k).toNat =
      (ofNat 64 u.toNat).drop k ++ List.replicate k false := by
  have hsum : 64 = (64 - k) + k := by omega
  have hdrop : (ofNat 64 u.toNat).drop k = ofNat (64 - k) u.toNat := by
    nth_rewrite 1 [show 64 = k + (64 - k) by omega]
    rw [ofNat_add, List.drop_left' (length_ofNat _ _)]
  have hshift : (u <<< UInt64.ofNat k).toNat = u.toNat <<< k % 2 ^ 64 := by
    rw [UInt64.toNat_shiftLeft, UInt64.toNat_ofNat_of_lt' (by rw [UInt64.size]; omega),
      Nat.mod_eq_of_lt hk]
  rw [hshift, ofNat_mod le_rfl, hdrop, ← ofNat_shiftLeft, ← hsum]

theorem ofNat_top_byte (u : UInt64) :
    ofNat 8 (u >>> 56).toUInt8.toNat = (ofNat 64 u.toNat).take 8 := by
  have hshift : (u >>> 56).toNat = u.toNat >>> 56 := UInt64.toNat_shiftRight u 56
  rw [UInt64.toNat_toUInt8, ofNat_mod le_rfl, hshift, show 64 = 8 + 56 from rfl, ofNat_add,
    List.take_left' (length_ofNat _ _)]

theorem ofNat_top_bit (u : UInt64) : [decide (u >>> 63 ≠ 0)] = (ofNat 64 u.toNat).take 1 := by
  have hshift : (u >>> 63).toNat = u.toNat >>> 63 := UInt64.toNat_shiftRight u 63
  have hlt : u.toNat >>> 63 < 2 := by
    rw [Nat.shiftRight_eq_div_pow]
    exact Nat.div_lt_of_lt_mul u.toNat_lt
  have hbit : u.toNat.testBit 63 = decide (u >>> 63 ≠ 0) := by
    have hne : u >>> 63 ≠ 0 ↔ u.toNat >>> 63 ≠ 0 := by
      rw [← hshift]
      exact (UInt64.toNat_inj (b := 0)).not.symm
    rw [Nat.testBit, Nat.one_and_eq_mod_two, Nat.mod_eq_of_lt hlt]
    exact Bool.eq_iff_iff.mpr (by simpa using hne.symm)
  rw [ofNat, List.take_succ_cons, List.take_zero, hbit]

/-- Writing `n` bytes off the top of `u` writes its `8 * n` top bits and moves up the next ones. -/
theorem Holds.writeTopBytes {w : BitWriter} {l : List Bool} (h : w.Holds l) (u : UInt64) (n : Nat)
    {k : Nat} (hk : 8 * n + k ≤ 64) :
    (w.writeTopBytes u n).1.Holds (l ++ (ofNat 64 u.toNat).take (8 * n)) ∧
      (ofNat 64 (w.writeTopBytes u n).2.toNat).take k =
        ((ofNat 64 u.toNat).drop (8 * n)).take k := by
  induction n generalizing w l u with
  | zero => exact ⟨by simpa [BitWriter.writeTopBytes] using h, rfl⟩
  | succ n ih =>
    have hnext := ofNat_word_shiftLeft u (k := 8) (by decide)
    have htake : ∀ m ≤ 56, (ofNat 64 (u <<< 8).toNat).take m = ((ofNat 64 u.toNat).drop 8).take m := by
      intro m hm
      rw [show u <<< 8 = u <<< UInt64.ofNat 8 from rfl, hnext, List.take_append_of_le_length]
      rw [List.length_drop, length_ofNat]
      exact hm
    obtain ⟨ihbits, ihnext⟩ := ih (h.writeByte (u >>> 56).toUInt8) (u <<< 8) (by omega)
    rw [BitWriter.writeTopBytes]
    constructor
    · rw [ofNat_top_byte, htake _ (by omega), List.append_assoc, ← List.take_add] at ihbits
      rwa [Nat.mul_succ, Nat.add_comm]
    · rw [ihnext, show u <<< 8 = u <<< UInt64.ofNat 8 from rfl, hnext, List.drop_append_of_le_length
        (by rw [List.length_drop, length_ofNat]; omega), List.take_append_of_le_length
        (by simp only [List.length_drop, length_ofNat]; omega), List.drop_drop, Nat.mul_succ,
        Nat.add_comm 8]

theorem Holds.writeTopBits {w : BitWriter} {l : List Bool} (h : w.Holds l) (u : UInt64) (n : Nat)
    (hn : n ≤ 64) : (w.writeTopBits u n).Holds (l ++ (ofNat 64 u.toNat).take n) := by
  induction n generalizing w l u with
  | zero => simpa [BitWriter.writeTopBits] using h
  | succ n ih =>
    have hnext := ofNat_word_shiftLeft u (k := 1) (by decide)
    have hbits := ih (h.writeBit (u >>> 63 ≠ 0)) (u <<< 1) (by omega)
    rw [ofNat_top_bit, show u <<< 1 = u <<< UInt64.ofNat 1 from rfl, hnext,
      List.take_append_of_le_length (by rw [List.length_drop, length_ofNat]; omega),
      List.append_assoc, ← List.take_add, Nat.add_comm 1] at hbits
    exact hbits

/-- `write_bits` appends the `nbits` low bits of `u`. -/
theorem Holds.writeBits {w : BitWriter} {l : List Bool} (h : w.Holds l) (u : UInt64) {nbits : Nat}
    (hn : nbits ≤ 64) : (w.writeBits u nbits).Holds (l ++ ofNat nbits u.toNat) := by
  unfold BitWriter.writeBits
  by_cases hzero : nbits = 0
  · subst hzero
    simpa using h
  · rw [if_neg hzero]
    have hdiv := Nat.div_add_mod nbits 8
    have htop : (ofNat 64 (u <<< UInt64.ofNat (64 - nbits)).toNat).take nbits =
        ofNat nbits u.toNat := by
      have hsplit : ofNat 64 u.toNat =
          ofNat (64 - nbits) (u.toNat >>> nbits) ++ ofNat nbits u.toNat := by
        rw [← ofNat_add, Nat.sub_add_cancel hn]
      rw [ofNat_word_shiftLeft u (by omega), hsplit, List.drop_left' (length_ofNat _ _),
        List.take_left' (length_ofNat _ _)]
    obtain ⟨hbytes, hrest⟩ := h.writeTopBytes (u <<< UInt64.ofNat (64 - nbits)) (nbits / 8)
      (k := nbits % 8) (by omega)
    have hbits := hbytes.writeTopBits
      (w.writeTopBytes (u <<< UInt64.ofNat (64 - nbits)) (nbits / 8)).2 (nbits % 8) (by omega)
    rw [hrest, List.append_assoc, ← List.take_add, hdiv, htop] at hbits
    exact hbits

end BitWriter

/-! ## What the reader serves -/

theorem toNat_loadLe {bs : Bytes} (h : bs.length ≤ 8) : (loadLe bs).toNat = leNat bs := by
  induction bs with
  | nil => rfl
  | cons b bs ih =>
    rw [List.length_cons] at h
    have hlt : leNat bs < 2 ^ 56 :=
      lt_of_lt_of_le (leNat_lt bs) (Nat.pow_le_pow_right (by omega) (by omega))
    have hb : b.toNat < 2 ^ 8 := b.toNat_lt
    have hshift : (loadLe bs <<< 8).toNat = leNat bs <<< 8 := by
      rw [UInt64.toNat_shiftLeft, ih (by omega)]
      change leNat bs <<< 8 % 2 ^ 64 = _
      rw [Nat.mod_eq_of_lt]
      rw [Nat.shiftLeft_eq]
      omega
    rw [loadLe, UInt64.toNat_or, UInt8.toNat_toUInt64, hshift, Nat.or_comm,
      ← Nat.shiftLeft_add_eq_or_of_lt hb, Nat.shiftLeft_eq, leNat]
    omega

/-- Byte `k` of the low half of a word, mirrored into the high half. -/
theorem toNat_byte_up (x : UInt64) {m s : UInt64} {k : Nat} (hm : m.toNat = 255 <<< (8 * k))
    (hs : s.toNat = 56 - 16 * k) (hk : k ≤ 3) :
    ((x &&& m) <<< s).toNat = (x.toNat >>> (8 * k) % 256) <<< (8 * (7 - k)) := by
  have hb : x.toNat >>> (8 * k) % 256 < 2 ^ 8 := Nat.mod_lt _ (by decide)
  have hsum : 8 * k + (56 - 16 * k) = 8 * (7 - k) := by omega
  have hfit : (x.toNat >>> (8 * k) % 256) <<< (8 * (7 - k)) < 2 ^ 64 := by
    rw [Nat.shiftLeft_eq]
    calc x.toNat >>> (8 * k) % 256 * 2 ^ (8 * (7 - k))
        < 2 ^ 8 * 2 ^ (8 * (7 - k)) := Nat.mul_lt_mul_of_pos_right hb (Nat.two_pow_pos _)
      _ ≤ 2 ^ 64 := by
        rw [← pow_add]
        exact Nat.pow_le_pow_right (by omega) (by omega)
  rw [UInt64.toNat_shiftLeft, UInt64.toNat_and, hm, hs,
    Nat.mod_eq_of_lt (show 56 - 16 * k < 64 by omega), and_byte_mask, ← Nat.shiftLeft_add, hsum,
    Nat.mod_eq_of_lt hfit]

/-- Byte `k` of the high half of a word, mirrored into the low half. -/
theorem toNat_byte_down (x : UInt64) {m s : UInt64} {k : Nat} (hm : m.toNat = 255 <<< (8 * k))
    (hs : s.toNat = 16 * k - 56) (hk : 4 ≤ k) (hk' : k ≤ 7) :
    ((x &&& m) >>> s).toNat = (x.toNat >>> (8 * k) % 256) <<< (8 * (7 - k)) := by
  have hsum : 8 * k = 8 * (7 - k) + (16 * k - 56) := by omega
  rw [UInt64.toNat_shiftRight, UInt64.toNat_and, hm, hs,
    Nat.mod_eq_of_lt (show 16 * k - 56 < 64 by omega), and_byte_mask]
  nth_rewrite 2 [hsum]
  rw [Nat.shiftLeft_add, Nat.shiftLeft_shiftRight]

/-- The byte reversal turns eight bytes loaded low end first into their big-endian number. -/
theorem toNat_swapBytes_loadLe {bs : Bytes} (h : bs.length = 8) :
    (swapBytes (loadLe bs)).toNat = beNat bs := by
  match bs, h with
  | [b0, b1, b2, b3, b4, b5, b6, b7], _ =>
    have h0 := b0.toNat_lt
    have h1 := b1.toNat_lt
    have h2 := b2.toNat_lt
    have h3 := b3.toNat_lt
    have h4 := b4.toNat_lt
    have h5 := b5.toNat_lt
    have h6 := b6.toNat_lt
    have h7 := b7.toNat_lt
    have hbyte : ∀ (k : Nat) (b : UInt8), leNat [b0, b1, b2, b3, b4, b5, b6, b7] / 256 ^ k % 256 =
        b.toNat → (loadLe [b0, b1, b2, b3, b4, b5, b6, b7]).toNat >>> (8 * k) % 256 = b.toNat := by
      intro k b hb
      rw [toNat_loadLe le_rfl, Nat.shiftRight_eq_div_pow, pow_mul]
      exact hb
    simp only [leNat] at hbyte
    rw [swapBytes]
    simp only [UInt64.toNat_or]
    rw [toNat_byte_up (k := 0) _ rfl rfl (by omega), toNat_byte_up (k := 1) _ rfl rfl (by omega),
      toNat_byte_up (k := 2) _ rfl rfl (by omega), toNat_byte_up (k := 3) _ rfl rfl (by omega),
      toNat_byte_down (k := 4) _ rfl rfl (by omega) (by omega),
      toNat_byte_down (k := 5) _ rfl rfl (by omega) (by omega),
      toNat_byte_down (k := 6) _ rfl rfl (by omega) (by omega),
      toNat_byte_down (k := 7) _ rfl rfl (by omega) (by omega),
      hbyte 0 b0 (by omega), hbyte 1 b1 (by omega), hbyte 2 b2 (by omega), hbyte 3 b3 (by omega),
      hbyte 4 b4 (by omega), hbyte 5 b5 (by omega), hbyte 6 b6 (by omega), hbyte 7 b7 (by omega)]
    simp only [beNat_cons_eq_or, List.length_cons, List.length_nil, Nat.or_assoc,
      show beNat [] = 0 from rfl, Nat.or_zero]

theorem toNat_packBytes {n : Nat} (hn : n ≤ 8) (cs : Bytes) (i : Nat) (b : UInt64)
    (h : i + cs.length ≤ n) :
    (packBytes n i cs b).toNat = b.toNat ||| beNat cs <<< (8 * (n - i - cs.length)) := by
  induction cs generalizing i b with
  | nil => rw [packBytes, beNat, Nat.zero_shiftLeft, Nat.or_zero]
  | cons c cs ih =>
    rw [List.length_cons] at h ⊢
    have hc : c.toNat < 2 ^ 8 := c.toNat_lt
    have hshift : (c.toUInt64 <<< UInt64.ofNat (8 * (n - i - 1))).toNat =
        c.toNat <<< (8 * (n - i - 1)) := by
      rw [UInt64.toNat_shiftLeft, UInt8.toNat_toUInt64,
        UInt64.toNat_ofNat_of_lt' (by rw [UInt64.size]; omega), Nat.mod_eq_of_lt (a := _ * _) (by omega),
        Nat.shiftLeft_eq, Nat.mod_eq_of_lt]
      calc c.toNat * 2 ^ (8 * (n - i - 1))
          < 2 ^ 8 * 2 ^ (8 * (n - i - 1)) := Nat.mul_lt_mul_of_pos_right hc (Nat.two_pow_pos _)
        _ ≤ 2 ^ 64 := by
          rw [← pow_add]
          exact Nat.pow_le_pow_right (by omega) (by omega)
    rw [packBytes, ih (i + 1) _ (by omega), UInt64.toNat_or, hshift, beNat_cons_eq_or,
      Nat.shiftLeft_or_distrib, ← Nat.shiftLeft_add, Nat.or_assoc]
    congr 3 <;> omega

theorem toNat_bit_word {n : Nat} (hn : n < 64) : ((1 : UInt64) <<< UInt64.ofNat n).toNat = 2 ^ n := by
  rw [UInt64.toNat_shiftLeft, UInt64.toNat_ofNat_of_lt' (by rw [UInt64.size]; omega),
    Nat.mod_eq_of_lt hn]
  change 1 <<< n % 2 ^ 64 = _
  rw [Nat.one_shiftLeft, Nat.mod_eq_of_lt (Nat.pow_lt_pow_right (by omega) hn)]

/-- A word masked to its `n` low bits. -/
theorem toNat_and_lowMask (x : UInt64) {n : Nat} (hn : n < 64) :
    (x &&& ((1 <<< UInt64.ofNat n) - 1)).toNat = x.toNat % 2 ^ n := by
  have hle : (1 : UInt64) ≤ 1 <<< UInt64.ofNat n := by
    rw [UInt64.le_iff_toNat_le, toNat_bit_word hn]
    exact Nat.two_pow_pos n
  rw [UInt64.toNat_and, UInt64.toNat_sub_of_le _ _ hle, toNat_bit_word hn]
  exact Nat.and_two_pow_sub_one_eq_mod _ n

theorem toNat_shiftRight_ofNat (x : UInt64) {n : Nat} (hn : n < 64) :
    (x >>> UInt64.ofNat n).toNat = x.toNat >>> n := by
  rw [UInt64.toNat_shiftRight, UInt64.toNat_ofNat_of_lt' (by rw [UInt64.size]; omega),
    Nat.mod_eq_of_lt hn]

theorem and_bit_ne_zero (x : UInt64) {n : Nat} (hn : n < 64) :
    decide (x &&& (1 <<< UInt64.ofNat n) ≠ 0) = x.toNat.testBit n := by
  rw [Bool.eq_iff_iff, decide_eq_true_iff, ne_eq, ← UInt64.toNat_inj, UInt64.toNat_and,
    toNat_bit_word hn, Nat.and_two_pow]
  change ¬ _ = 0 ↔ _
  cases x.toNat.testBit n <;> simp

namespace BitReader

/-- The bits `r` has still to serve. -/
def rem (r : BitReader) : List Bool :=
  ofNat r.valid r.buffer.toNat ++ ofBytes (r.stream.drop r.streamOffset)

/-- `r` will serve exactly the bits `l`. -/
structure Reads (r : BitReader) (l : List Bool) : Prop where
  valid_le : r.valid ≤ 64
  last_eq : r.last = r.stream.getLastD 0
  rem_eq : r.rem = l

theorem reads_new (bs : Bytes) : (new bs).Reads (ofBytes bs) :=
  ⟨Nat.zero_le 64, rfl, List.nil_append _⟩

/-- The slow path packs the bytes it takes, the cached last byte included. -/
theorem ofNat_slow_load {r : BitReader} {n : Nat} (hlast : r.last = r.stream.getLastD 0)
    (hpos : 0 < n) (hn : n ≤ 8) (hlen : r.streamOffset + n ≤ r.stream.length) :
    ofNat (8 * n) (packBytes n 0
        ((r.stream.drop r.streamOffset).take
          (n - if r.streamOffset + n = r.stream.length then 1 else 0))
        (if r.streamOffset + n = r.stream.length then r.last.toUInt64 else 0)).toNat =
      ofBytes ((r.stream.drop r.streamOffset).take n) := by
  set bytes := r.stream.drop r.streamOffset with hbytes
  have hblen : n ≤ bytes.length := by rw [hbytes, List.length_drop]; omega
  by_cases htail : r.streamOffset + n = r.stream.length
  · -- At the end of the stream the last byte comes from the cache.
    have hall : bytes.length = n := by rw [hbytes, List.length_drop]; omega
    have hne : bytes ≠ [] := List.ne_nil_of_length_pos (by omega)
    have hget : bytes.getLast hne = r.last := by
      have hsome : bytes.getLast? = r.stream.getLast? := by
        rw [hbytes, List.getLast?_drop, if_neg (by omega)]
      rw [hlast, List.getLastD_eq_getLast?, ← hsome, List.getLast?_eq_some_getLast hne,
        Option.getD_some]
    have hsplit : bytes = bytes.take (n - 1) ++ [r.last] := by
      rw [← hget, ← hall, ← List.dropLast_eq_take, List.dropLast_append_getLast]
    have hcs : (bytes.take (n - 1)).length = n - 1 := by rw [List.length_take]; omega
    have hinit := ofNat_beNat (bytes.take (n - 1))
    rw [hcs] at hinit
    have hlt : r.last.toNat < 2 ^ 8 := r.last.toNat_lt
    rw [if_pos htail, if_pos htail, toNat_packBytes hn _ _ _ (by omega), hcs, Nat.sub_zero,
      show 8 * (n - (n - 1)) = 8 by omega, UInt8.toNat_toUInt64, Nat.or_comm,
      show bytes.take n = bytes from List.take_of_length_le (le_of_eq hall), show 8 * n = 8 * (n - 1) + 8 by omega,
      ofNat_shiftLeft_or _ _ hlt, hinit]
    nth_rewrite 2 [hsplit]
    rw [ofBytes_append, ofBytes_singleton]
  · rw [if_neg htail, if_neg htail, Nat.sub_zero, toNat_packBytes hn _ _ _ (by simp)]
    have hcs : (bytes.take n).length = n := by rw [List.length_take, Nat.min_eq_left hblen]
    rw [hcs, Nat.sub_zero, Nat.sub_self, Nat.mul_zero, Nat.shiftLeft_zero,
      show (0 : UInt64).toNat = 0 from rfl, Nat.zero_or]
    nth_rewrite 1 [← hcs]
    exact ofNat_beNat _

theorem loadNextBuffer_reads {r : BitReader} {l : List Bool} {n : Nat} (h : r.Reads l)
    (hempty : r.valid = 0) (hpos : 0 < n) (hn : n ≤ l.length) (hn64 : n ≤ 64) :
    ∃ r', r.loadNextBuffer n = some r' ∧ r'.Reads l ∧ n ≤ r'.valid := by
  obtain ⟨-, hlast, hrem⟩ := h
  rw [rem, hempty, ofNat_zero_length, List.nil_append] at hrem
  have hlen : l.length = 8 * (r.stream.length - r.streamOffset) := by
    rw [← hrem, length_ofBytes, List.length_drop]
  rw [loadNextBuffer, if_neg (by omega)]
  by_cases hfast : r.streamOffset + 8 < r.stream.length
  · rw [if_pos hfast]
    refine ⟨_, rfl, ⟨le_rfl, hlast, ?_⟩, hn64⟩
    have h8 : ((r.stream.drop r.streamOffset).take 8).length = 8 := by
      rw [List.length_take, List.length_drop]
      omega
    have hbits := ofNat_beNat ((r.stream.drop r.streamOffset).take 8)
    rw [h8] at hbits
    rw [rem]
    dsimp only
    rw [toNat_swapBytes_loadLe h8, hbits, ← ofBytes_append, ← List.drop_drop, List.take_append_drop,
      hrem]
  · rw [if_neg hfast]
    dsimp only
    set m := min (n / 8 + 1) (r.stream.length - r.streamOffset) with hm
    have hmn : n ≤ 8 * m ∧ 0 < m ∧ m ≤ 8 ∧ r.streamOffset + m ≤ r.stream.length := by omega
    obtain ⟨hnm, hmpos, hm8, hmlen⟩ := hmn
    refine ⟨_, rfl, ⟨by dsimp only; omega, hlast, ?_⟩, by dsimp only; omega⟩
    rw [rem]
    dsimp only
    rw [Nat.mul_comm m, ofNat_slow_load hlast hmpos hm8 hmlen, ← ofBytes_append, ← List.drop_drop,
      List.take_append_drop, hrem]

/-- Serving `n` of the buffered bits: the value they denote, and what is left. -/
theorem serve_buffered {r : BitReader} {x n : Nat} {l : List Bool} (h : r.Reads (ofNat n x ++ l))
    (hn : n ≤ r.valid) :
    (r.buffer.toNat >>> (r.valid - n)) % 2 ^ n = x % 2 ^ n ∧
      ({ r with valid := r.valid - n } : BitReader).Reads l := by
  obtain ⟨hvalid, hlast, hrem⟩ := h
  have hsplit : r.valid = n + (r.valid - n) := by omega
  rw [rem, hsplit, ofNat_add, List.append_assoc] at hrem
  obtain ⟨hhead, htail⟩ := List.append_inj hrem (by rw [length_ofNat, length_ofNat])
  exact ⟨ofNat_inj hhead, ⟨(Nat.sub_le _ _).trans hvalid, hlast, htail⟩⟩

theorem readBit_reads {r : BitReader} {b : Bool} {l : List Bool} (h : r.Reads (b :: l)) :
    ∃ r', r.readBit = (.ok b, r') ∧ r'.Reads l := by
  obtain ⟨r₁, hload, h₁, hpos⟩ : ∃ r₁, (if r.valid = 0 then r.loadNextBuffer 1 else some r) =
      some r₁ ∧ r₁.Reads (b :: l) ∧ 1 ≤ r₁.valid := by
    by_cases hempty : r.valid = 0
    · rw [if_pos hempty]
      exact loadNextBuffer_reads h hempty Nat.one_pos (by rw [List.length_cons]; omega) (by omega)
    · rw [if_neg hempty]
      exact ⟨r, rfl, h, Nat.pos_of_ne_zero hempty⟩
  obtain ⟨v, hv⟩ : ∃ v, r₁.valid = v + 1 := ⟨r₁.valid - 1, by omega⟩
  obtain ⟨hvalid, hlast, hrem⟩ := h₁
  rw [rem, hv, ofNat, List.cons_append, List.cons.injEq] at hrem
  rw [readBit, hload]
  dsimp only
  refine ⟨_, Prod.ext (congrArg Except.ok ?_) rfl, ⟨(Nat.sub_le _ _).trans hvalid, hlast, ?_⟩⟩
  · rw [hv, Nat.add_sub_cancel, ← hrem.1]
    exact and_bit_ne_zero _ (by omega)
  · rw [rem, ← hrem.2]
    dsimp only
    rw [hv, Nat.add_sub_cancel]

/-- The two-load case: the buffer runs out after `r.valid` of the `n` bits. -/
theorem readBitsRest_reads {r : BitReader} {x : UInt64} {n : Nat} {l : List Bool}
    (h : r.Reads (ofNat n x.toNat ++ l)) (hpos : 0 < r.valid) (hshort : r.valid < n)
    (hx : x.toNat < 2 ^ n) (hn : n ≤ 64) :
    ∃ r', readBitsRest { r with valid := 0 }
      ((r.buffer &&& ((1 <<< UInt64.ofNat r.valid) - 1)) <<< UInt64.ofNat (n - r.valid))
      (n - r.valid) = (.ok x, r') ∧ r'.Reads l := by
  obtain ⟨k, rfl⟩ : ∃ k, n = r.valid + k := ⟨n - r.valid, by omega⟩
  rw [Nat.add_sub_cancel_left]
  obtain ⟨hvalid, hlast, hrem⟩ := h
  rw [rem, ofNat_add, List.append_assoc] at hrem
  -- The buffer holds the high bits, and the stream behind it the low ones.
  obtain ⟨hhead, htail⟩ := List.append_inj hrem (by rw [length_ofNat, length_ofNat])
  have hempty : ({ r with valid := 0 } : BitReader).Reads (ofNat k x.toNat ++ l) :=
    ⟨Nat.zero_le 64, hlast, htail⟩
  obtain ⟨r₂, hload, h₂, hk⟩ := loadNextBuffer_reads hempty rfl (show 0 < k by omega)
    (by rw [List.length_append, length_ofNat]; omega) (by omega)
  obtain ⟨hval, hnext⟩ := serve_buffered h₂ hk
  rw [readBitsRest, hload]
  dsimp only
  rw [if_neg (by omega)]
  refine ⟨_, Prod.ext (congrArg Except.ok ?_) rfl, hnext⟩
  have hvalid₂ := h₂.valid_le
  have hhigh : r.buffer.toNat % 2 ^ r.valid = x.toNat >>> k := by
    rw [ofNat_inj hhead, Nat.mod_eq_of_lt]
    rw [Nat.shiftRight_eq_div_pow]
    exact Nat.div_lt_of_lt_mul (by rwa [← pow_add, Nat.add_comm k])
  have hfit : x.toNat >>> k <<< k < 2 ^ 64 := by
    rw [Nat.shiftRight_eq_div_pow, Nat.shiftLeft_eq]
    exact lt_of_le_of_lt (Nat.div_mul_le_self _ _) x.toNat_lt
  have hlow := Nat.mod_lt x.toNat (Nat.two_pow_pos k)
  rw [← UInt64.toNat_inj, UInt64.toNat_or, toNat_and_lowMask _ (by omega),
    toNat_shiftRight_ofNat _ (by omega), hval, UInt64.toNat_shiftLeft,
    toNat_and_lowMask _ (by omega), hhigh, UInt64.toNat_ofNat_of_lt' (by rw [UInt64.size]; omega),
    Nat.mod_eq_of_lt (show k < 64 by omega), Nat.mod_eq_of_lt hfit,
    ← Nat.shiftLeft_add_eq_or_of_lt hlow, Nat.shiftLeft_eq, Nat.shiftRight_eq_div_pow, Nat.mul_comm]
  exact Nat.div_add_mod _ _

theorem readBits_reads {r : BitReader} {x : UInt64} {n : Nat} {l : List Bool}
    (h : r.Reads (ofNat n x.toNat ++ l)) (hx : x.toNat < 2 ^ n) (hn : n ≤ 64) :
    ∃ r', r.readBits n = (.ok x, r') ∧ r'.Reads l := by
  have hlen : n ≤ (ofNat n x.toNat ++ l).length := by
    rw [List.length_append, length_ofNat]
    omega
  rw [readBits, if_neg (by omega)]
  by_cases hzero : n = 0
  · subst hzero
    rw [if_pos rfl]
    have hx0 : x = 0 := UInt64.toNat_inj.mp (Nat.lt_one_iff.mp hx)
    exact ⟨r, by rw [hx0], h⟩
  rw [if_neg hzero]
  -- An empty buffer is loaded first; then at least one bit is in it.
  obtain ⟨r₁, hload, h₁, hpos⟩ : ∃ r₁, (if r.valid = 0 then r.loadNextBuffer n else some r) =
      some r₁ ∧ r₁.Reads (ofNat n x.toNat ++ l) ∧ 0 < r₁.valid := by
    by_cases hempty : r.valid = 0
    · rw [if_pos hempty]
      obtain ⟨r₁, hload, h₁, hvalid⟩ :=
        loadNextBuffer_reads h hempty (Nat.pos_of_ne_zero hzero) hlen hn
      exact ⟨r₁, hload, h₁, by omega⟩
    · rw [if_neg hempty]
      exact ⟨r, rfl, h, Nat.pos_of_ne_zero hempty⟩
  rw [hload]
  dsimp only
  by_cases hfits : n ≤ r₁.valid
  · -- All bits are in the buffer; a mask of 64 bits is written out in the source.
    rw [if_pos hfits]
    obtain ⟨hval, hnext⟩ := serve_buffered h₁ hfits
    rw [Nat.mod_eq_of_lt hx] at hval
    refine ⟨_, Prod.ext (congrArg Except.ok ?_) rfl, hnext⟩
    have hvalid := h₁.valid_le
    rw [← UInt64.toNat_inj]
    by_cases h64 : n = 64
    · rw [if_pos h64, UInt64.toNat_and, toNat_shiftRight_ofNat _ (by omega)]
      rw [h64] at hval ⊢
      rw [← hval]
      exact Nat.and_two_pow_sub_one_eq_mod _ 64
    · rw [if_neg h64, toNat_and_lowMask _ (by omega), toNat_shiftRight_ofNat _ (by omega), hval]
  · -- The rest of the bits comes with the next load.
    rw [if_neg hfits]
    exact readBitsRest_reads h₁ hpos (by omega) hx hn

theorem readByte_reads {r : BitReader} {b : UInt8} {l : List Bool}
    (h : r.Reads (ofNat 8 b.toNat ++ l)) : ∃ r', r.readByte = (.ok b, r') ∧ r'.Reads l := by
  have hb : b.toUInt64.toNat = b.toNat := UInt8.toNat_toUInt64 b
  rw [← hb] at h
  obtain ⟨r', hbits, h'⟩ := readBits_reads h (by rw [hb]; exact b.toNat_lt) (by omega)
  refine ⟨r', ?_, h'⟩
  rw [readByte, hbits]
  exact congrArg (fun b ↦ (Except.ok b, r')) (UInt8.toUInt8_toUInt64 b)

/-- Off a bit stream, the varint loop decodes what it decodes off the byte buffer. -/
theorem readUvarintLoop_reads {l : List Bool} {v : UInt64} {m : Nat} (bs : Bytes) (r : BitReader)
    (i : Nat) (x : UInt64) (s fuel : Nat) (hfuel : i + fuel = Varint.maxVarintLen64)
    (hbuf : Varint.readUvarintLoop i x s bs = .ok (v, m)) (h : r.Reads (ofBytes bs ++ l)) :
    ∃ r', r.readUvarintLoop x s fuel = (.ok v, r') ∧ r'.Reads (ofBytes (bs.drop (m - i)) ++ l) := by
  induction bs generalizing r i x s fuel with
  | nil => cases hbuf
  | cons b bs ih =>
    rw [Varint.maxVarintLen64] at hfuel
    rw [Varint.readUvarintLoop, Varint.maxVarintLen64] at hbuf
    by_cases hten : i = 10
    · rw [if_pos hten] at hbuf
      cases hbuf
    rw [if_neg hten] at hbuf
    obtain ⟨fuel, rfl⟩ : ∃ f, fuel = f + 1 := ⟨fuel - 1, by omega⟩
    rw [ofBytes_cons, List.append_assoc] at h
    obtain ⟨r₁, hbyte, h₁⟩ := readByte_reads h
    rw [readUvarintLoop, hbyte]
    dsimp only
    by_cases hend : b < 0x80
    · rw [if_pos hend] at hbuf ⊢
      -- One loop counts the bytes up to ten, the other down from ten.
      have hlast : (i = 10 - 1 ∧ 1 < b) ↔ (fuel = 0 ∧ 1 < b) := by
        constructor <;> rintro ⟨hi, hb⟩ <;> exact ⟨by omega, hb⟩
      by_cases hover : i = 10 - 1 ∧ 1 < b
      · rw [if_pos hover] at hbuf
        cases hbuf
      · rw [if_neg hover, Except.ok.injEq, Prod.mk.injEq] at hbuf
        obtain ⟨rfl, rfl⟩ := hbuf
        rw [if_neg (mt hlast.mpr hover)]
        refine ⟨r₁, rfl, ?_⟩
        rw [Nat.add_sub_cancel_left]
        exact h₁
    · rw [if_neg hend] at hbuf ⊢
      have hm : i + 1 ≤ m := Varint.readUvarintLoop_count_le hbuf
      obtain ⟨r', hloop, h'⟩ := ih r₁ (i + 1) _ _ fuel (by rw [Varint.maxVarintLen64]; omega) hbuf h₁
      refine ⟨r', hloop, ?_⟩
      rw [show m - i = m - (i + 1) + 1 by omega]
      exact h'

theorem readUvarint_reads {r : BitReader} {x : UInt64} {l : List Bool}
    (h : r.Reads (ofBytes (Varint.putUvarint x) ++ l)) :
    ∃ r', r.readUvarint = (.ok x, r') ∧ r'.Reads l := by
  have hbuf := Varint.readUvarint_putUvarint x []
  rw [List.append_nil, Varint.readUvarint,
    if_neg (by rw [List.isEmpty_iff]; exact Varint.putUvarint_ne_nil x)] at hbuf
  obtain ⟨r', hloop, h'⟩ := readUvarintLoop_reads _ r 0 0 0 _ (Nat.zero_add _) hbuf h
  rw [Nat.sub_zero, List.drop_length] at h'
  exact ⟨r', hloop, h'⟩

theorem readVarint_reads {r : BitReader} {x : Int64} {l : List Bool}
    (h : r.Reads (ofBytes (Varint.putVarint x) ++ l)) :
    ∃ r', r.readVarint = (.ok x, r') ∧ r'.Reads l := by
  obtain ⟨r', hread, h'⟩ := readUvarint_reads h
  refine ⟨r', ?_, h'⟩
  rw [readVarint, hread]
  dsimp only
  rw [Varint.unzigzag_zigzag]

end BitReader
end MerlionTsdb.Encoding
