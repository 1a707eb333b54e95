import MerlionTsdb.Chunkenc.XorCodec

/-!
# The size of XOR chunks

How many bits each write of the appender adds, whatever the stream holds.
-/

namespace MerlionTsdb.Encoding

/-- The writer has written `n` bits, the free ones of the last byte not counted. -/
def BitWriter.Spans (w : BitWriter) (n : Nat) : Prop :=
  w.count < 8 ∧ 8 * w.stream.length = n + w.count

theorem length_orBack (x : UInt8) (bs : Bytes) : (orBack x bs).length = bs.length := by
  induction bs with
  | nil => rfl
  | cons b bs ih =>
    cases bs with
    | nil => rfl
    | cons c bs =>
      show (b :: orBack x (c :: bs)).length = _
      rw [List.length_cons, ih]
      rfl

namespace BitWriter.Spans

variable {w : BitWriter} {n : Nat}

theorem writeBit (h : w.Spans n) (b : Bool) : (w.writeBit b).Spans (n + 1) := by
  obtain ⟨hcount, hlen⟩ := h
  -- A bit opens a new byte, or takes a free position of the last one.
  by_cases hzero : w.count = 0
  · unfold BitWriter.writeBit
    rw [if_pos hzero]
    cases b <;>
      simp only [Bool.false_eq_true, ↓reduceIte, Spans, length_orBack, List.length_append,
        List.length_singleton] <;>
      omega
  · unfold BitWriter.writeBit
    rw [if_neg hzero]
    cases b <;>
      simp only [Bool.false_eq_true, ↓reduceIte, Spans, length_orBack] <;>
      omega

theorem writeByte (h : w.Spans n) (byt : UInt8) : (w.writeByte byt).Spans (n + 8) := by
  obtain ⟨hcount, hlen⟩ := h
  unfold BitWriter.writeByte
  split
  · constructor
    · exact hcount
    · show 8 * (w.stream ++ [byt]).length = n + 8 + w.count
      rw [List.length_append, List.length_singleton]
      omega
  · constructor
    · exact hcount
    · simp only [length_orBack, List.length_append, List.length_singleton]
      omega

theorem foldl_writeByte (h : w.Spans n) (bs : Bytes) :
    (bs.foldl BitWriter.writeByte w).Spans (n + 8 * bs.length) := by
  induction bs generalizing w n with
  | nil => exact h
  | cons b bs ih =>
    have hrest := ih (h.writeByte b)
    rw [List.length_cons, Nat.mul_add, Nat.add_comm (8 * bs.length), ← Nat.add_assoc]
    exact hrest

theorem writeTopBytes (h : w.Spans n) (u : UInt64) (k : Nat) :
    (w.writeTopBytes u k).1.Spans (n + 8 * k) := by
  induction k generalizing w u n with
  | zero => exact h
  | succ k ih =>
    have hrest := ih (h.writeByte (u >>> 56).toUInt8) (u <<< 8)
    rw [Nat.mul_add, Nat.add_comm (8 * k), ← Nat.add_assoc]
    exact hrest

theorem writeTopBits (h : w.Spans n) (u : UInt64) (k : Nat) :
    (w.writeTopBits u k).Spans (n + k) := by
  induction k generalizing w u n with
  | zero => exact h
  | succ k ih =>
    have hrest := ih (h.writeBit (u >>> 63 ≠ 0)) (u <<< 1)
    rw [Nat.add_assoc, Nat.add_comm 1] at hrest
    exact hrest

theorem writeBits (h : w.Spans n) (u : UInt64) (k : Nat) : (w.writeBits u k).Spans (n + k) := by
  unfold BitWriter.writeBits
  split
  · rename_i hzero
    rw [hzero]
    exact h
  · have hbytes := h.writeTopBytes (u <<< UInt64.ofNat (64 - k)) (k / 8)
    have hbits := hbytes.writeTopBits
      (w.writeTopBytes (u <<< UInt64.ofNat (64 - k)) (k / 8)).2 (k % 8)
    rw [Nat.add_assoc, Nat.div_add_mod] at hbits
    exact hbits

/-- The bytes behind a number of bits. -/
theorem length_le (h : w.Spans n) : 8 * w.stream.length ≤ n + 7 := by
  obtain ⟨hcount, hlen⟩ := h
  omega

end BitWriter.Spans
end MerlionTsdb.Encoding

namespace MerlionTsdb.Chunkenc

open Encoding

variable {w : BitWriter} {n : Nat}

/-- A value takes one bit to 77: two of control, 11 for the window, at most 64 of its own. -/
theorem xorWrite_spans (h : w.Spans n) (newV prevV : UInt64) (win : Window) :
    ∃ k, 1 ≤ k ∧ k ≤ 77 ∧ (xorWrite w newV prevV win).1.Spans (n + k) := by
  unfold xorWrite
  by_cases hsame : newV ^^^ prevV = 0
  · dsimp only
    rw [if_pos hsame]
    exact ⟨1, by omega, by omega, h.writeBit false⟩
  · have hzeros := countZeros_lt hsame
    have hlead := toNat_clamped_leading hsame
    have htrail : (UInt8.ofNat (countrZero (newV ^^^ prevV))).toNat = countrZero (newV ^^^ prevV) :=
      UInt8.toNat_ofNat_of_lt' (by rw [UInt8.size]; omega)
    dsimp only
    rw [if_neg hsame]
    generalize UInt8.ofNat (countrZero (newV ^^^ prevV)) = trailing at htrail
    generalize (if 32 ≤ UInt8.ofNat (countlZero (newV ^^^ prevV)) then 31
      else UInt8.ofNat (countlZero (newV ^^^ prevV))) = leading at hlead
    -- A window inside the zeros of the delta leaves at most 64 significant bits.
    have hsig : ∀ l t : UInt8, l ≤ leading → t ≤ trailing → (64 - l - t).toNat ≤ 64 := by
      intro l t hl ht
      rw [UInt8.le_iff_toNat_le] at hl ht
      rw [UInt8.toNat_sub_of_le, UInt8.toNat_sub_of_le]
      · exact (Nat.sub_le _ _).trans (Nat.sub_le _ _)
      · rw [UInt8.le_iff_toNat_le]
        change _ ≤ 64
        omega
      · rw [UInt8.le_iff_toNat_le, UInt8.toNat_sub_of_le]
        · change _ ≤ 64 - _
          omega
        · rw [UInt8.le_iff_toNat_le]
          change _ ≤ 64
          omega
    split
    · rename_i hreuse
      have hbound := hsig win.leading win.trailing hreuse.2.1 hreuse.2.2
      refine ⟨2 + (64 - win.leading - win.trailing).toNat, by omega, by omega, ?_⟩
      have hbits := ((h.writeBit true).writeBit false).writeBits
        ((newV ^^^ prevV) >>> win.trailing.toUInt64) (64 - win.leading - win.trailing).toNat
      rw [Nat.add_assoc n] at hbits
      rw [← Nat.add_assoc]
      exact hbits
    · have hbound := hsig leading trailing (UInt8.le_refl _) (UInt8.le_refl _)
      refine ⟨13 + (64 - leading - trailing).toNat, by omega, by omega, ?_⟩
      have hbits := ((((h.writeBit true).writeBit true).writeBits leading.toUInt64 5).writeBits
        (64 - leading - trailing).toUInt64 6).writeBits
          ((newV ^^^ prevV) >>> trailing.toUInt64) (64 - leading - trailing).toNat
      rw [Nat.add_assoc n, Nat.add_assoc n, Nat.add_assoc n] at hbits
      rw [← Nat.add_assoc]
      exact hbits

/-- A delta of deltas takes one bit to 68. -/
theorem writeDod_spans (h : w.Spans n) (dod : Int64) :
    ∃ k, 1 ≤ k ∧ k ≤ 68 ∧ (writeDod w dod).Spans (n + k) := by
  unfold writeDod
  by_cases hzero : dod = 0
  · rw [if_pos hzero]
    exact ⟨1, by omega, by omega, h.writeBit false⟩
  · rw [if_neg hzero]
    split
    · refine ⟨16, by omega, by omega, ?_⟩
      exact (h.writeByte _).writeByte _
    · split
      · refine ⟨20, by omega, by omega, ?_⟩
        exact (h.writeBits 0b110 3).writeBits dod.toUInt64 17
      · split
        · refine ⟨24, by omega, by omega, ?_⟩
          exact (h.writeBits 0b1110 4).writeBits dod.toUInt64 20
        · refine ⟨68, by omega, by omega, ?_⟩
          exact (h.writeBits 0b1111 4).writeBits dod.toUInt64 64

theorem setHeader_spans (h : w.Spans n) (m : Nat) : (setHeader w m).Spans n := by
  obtain ⟨hcount, hlen⟩ := h
  refine ⟨hcount, ?_⟩
  show 8 * ((w.stream.set 0 _).set 1 _).length = n + w.count
  rw [List.length_set, List.length_set]
  exact hlen

/-- An accepted sample takes at least two bits: at most 144 as the first of its chunk, 157 as the
second, and 145 as any later one. -/
theorem append_spans {a : XORAppender} (h : w.Spans n) (t : Int64) (v : UInt64)
    (hfull : headerCount w.stream ≠ kMaxSamples) :
    ∃ k m, (a.append w t v).2.1 = setHeader m (headerCount w.stream + 1) ∧ m.Spans (n + k) ∧
      2 ≤ k ∧ k ≤ 157 ∧ (headerCount w.stream = 0 → k ≤ 144) ∧
      (2 ≤ headerCount w.stream → k ≤ 145) := by
  unfold XORAppender.append
  dsimp only
  rw [if_neg hfull]
  match hnum : headerCount w.stream with
  | 0 =>
    have hlen : (Varint.putVarint t).length ≤ 10 := Varint.putUvarint_length_le _
    have hbits := (h.foldl_writeByte (Varint.putVarint t)).writeBits v 64
    rw [Nat.add_assoc] at hbits
    exact ⟨_, _, rfl, hbits, by omega, by omega, fun _ ↦ by omega, fun hle ↦ by omega⟩
  | 1 =>
    have hlen : (Varint.putUvarint (t - a.t).toUInt64).length ≤ 10 :=
      Varint.putUvarint_length_le _
    have hpos := List.length_pos_iff.mpr (Varint.putUvarint_ne_nil (t - a.t).toUInt64)
    obtain ⟨k, hk1, hk, hspans⟩ := xorWrite_spans
      (h.foldl_writeByte (Varint.putUvarint (t - a.t).toUInt64)) v a.v a.window
    rw [Nat.add_assoc] at hspans
    exact ⟨_, _, rfl, hspans, by omega, by omega, fun hzero ↦ by omega, fun hle ↦ by omega⟩
  | m + 2 =>
    obtain ⟨k, hk1, hk, hdod⟩ := writeDod_spans h ((t - a.t).toUInt64 - a.tDelta).toInt64
    obtain ⟨j, hj1, hj, hspans⟩ := xorWrite_spans hdod v a.v a.window
    rw [Nat.add_assoc] at hspans
    exact ⟨_, _, rfl, hspans, by omega, by omega, fun hzero ↦ by omega, fun _ ↦ by omega⟩

/-- The two header bytes hold the count that was set. -/
theorem headerCount_setHeader {w : BitWriter} (hlen : 2 ≤ w.stream.length) {m : Nat}
    (hm : m < 65536) : headerCount (setHeader w m).stream = m := by
  obtain ⟨b₀, b₁, rest, hstream⟩ : ∃ b₀ b₁ rest, w.stream = b₀ :: b₁ :: rest := by
    match hs : w.stream with
    | [] | [_] =>
      rw [hs] at hlen
      simp at hlen
    | b₀ :: b₁ :: rest => exact ⟨b₀, b₁, rest, rfl⟩
  show headerCount ((w.stream.set 0 (UInt8.ofNat (m / 256))).set 1 (UInt8.ofNat m)) = m
  rw [hstream]
  show (UInt8.ofNat (m / 256)).toNat * 256 + (UInt8.ofNat m).toNat = m
  rw [UInt8.toNat_ofNat', UInt8.toNat_ofNat']
  omega

/-! ## Chunks -/

/-- The bits of a chunk, header included: at least two for each sample.  It is at most 1024 bytes long,
and shorter while it holds less than two samples. -/
def XORChunk.Sized (c : XORChunk) : Prop :=
  ∃ n, c.writer.Spans n ∧ 16 + 2 * c.numSamples ≤ n ∧ (c.numSamples = 0 → n ≤ 16) ∧
    (c.numSamples = 1 → n ≤ 160) ∧ c.bytes.length ≤ 1024

theorem XORChunk.sized_new : XORChunk.new.Sized := by
  refine ⟨16, ⟨by decide, rfl⟩, by decide, fun _ ↦ le_rfl, fun h ↦ ?_, by decide⟩
  cases h

/-- A chunk of at most 1005 bytes is still sized after one more sample. -/
theorem XORChunk.Sized.append {c : XORChunk} (h : c.Sized) (hroom : c.bytes.length ≤ 1005)
    (a : XORAppender) (x : Sample) : (c.append a x).2.1.Sized := by
  by_cases hfull : headerCount c.writer.stream = kMaxSamples
  · -- A full chunk is left as it is.
    have hsame : (c.append a x).2.1 = c := by
      unfold XORChunk.append XORAppender.append
      dsimp only
      rw [if_pos hfull]
    rw [hsame]
    exact h
  · obtain ⟨n, hspans, hlow, hzero, hone, -⟩ := h
    obtain ⟨k, m, hwriter, hm, hk2, hk, hfirst, hlater⟩ := @append_spans _ _ a hspans x.t x.v hfull
    obtain ⟨hcount, hlen⟩ := hm
    obtain ⟨hcount', hlen'⟩ := hspans
    have hnum : headerCount c.writer.stream = c.numSamples := rfl
    have hbytes : c.writer.stream.length ≤ 1005 := hroom
    have hwriter' : (c.append a x).2.1.writer = setHeader m (c.numSamples + 1) := hwriter
    -- One sample writes at most 157 bits.
    have hlong : m.stream.length ≤ 1024 ∧ 2 ≤ m.stream.length := by
      rw [hnum] at hfirst hlater
      omega
    have hmax : c.numSamples + 1 < 65536 := by omega
    have hnum' : (c.append a x).2.1.numSamples = c.numSamples + 1 := by
      show headerCount (c.append a x).2.1.writer.stream = _
      rw [hwriter', headerCount_setHeader hlong.2 hmax]
    refine ⟨n + k, ?_, by omega, by omega, ?_, ?_⟩
    · rw [hwriter']
      exact setHeader_spans ⟨hcount, hlen⟩ _
    · intro hsecond
      rw [hnum] at hfirst
      omega
    · show (c.append a x).2.1.writer.stream.length ≤ 1024
      rw [hwriter']
      show ((m.stream.set 0 _).set 1 _).length ≤ 1024
      rw [List.length_set, List.length_set]
      exact hlong.1

end MerlionTsdb.Chunkenc
