import MerlionTsdb.Encoding.BitRuns

/-!
# Varints in a bit stream

Wherever bytes lie in a bit stream, the decoder over bits accepts what the decoder over bytes accepts.
-/

namespace MerlionTsdb

open BitString

namespace Encoding

/-- A decoder over bytes and one over bits accept with one value, or both report an error. -/
inductive Agree {α : Type} : Except ReadError (α × Nat) → Except Fault α × BitReader → Prop
  | ok (v : α) (n : Nat) (r : BitReader) : Agree (.ok (v, n)) (.ok v, r)
  | error (e e' : ReadError) (r : BitReader) : Agree (.error e) (.error (.error e'), r)

theorem Agree.ok_iff {α : Type} {buf : Except ReadError (α × Nat)} {bits : Except Fault α × BitReader}
    (h : Agree buf bits) (v : α) : bits.1 = .ok v ↔ ∃ n, buf = .ok (v, n) := by
  cases h with
  | ok w n r =>
    dsimp only
    rw [Except.ok.injEq]
    constructor
    · rintro rfl
      exact ⟨n, rfl⟩
    · rintro ⟨m, hm⟩
      cases hm
      rfl
  | error e e' r =>
    apply iff_of_false
    · intro h
      cases h
    · rintro ⟨n, hn⟩
      cases hn

theorem Agree.ne_undefined {α : Type} {buf : Except ReadError (α × Nat)}
    {bits : Except Fault α × BitReader} (h : Agree buf bits) : bits.1 ≠ .error .undefined := by
  cases h <;> exact fun hu ↦ by cases hu

namespace BitReader

variable {r : BitReader} {bs : Bytes} {pad : List Bool}

/-- A byte that does not fit is the end of the stream: a second load is one byte at least. -/
theorem readByte_short {l : List Bool} (h : r.Reads l) (hlen : l.length < 8) :
    ∃ r', r.readByte = (.error (.error .endOfStream), r') := by
  have hfed : ¬ r.Starved 8 := fun hstarved ↦ by
    have hmore := hstarved.2.1
    have htotal := hstarved.2.2
    omega
  have hshort := readBits_short h (show 8 ≤ 64 by decide) hlen
  rw [if_neg hfed] at hshort
  rcases hbits : r.readBits 8 with ⟨a, r'⟩
  rw [hbits] at hshort
  have ha : a = .error (.error .endOfStream) := hshort
  unfold readByte
  rw [hbits, ha]
  exact ⟨r', rfl⟩

/-- What the loop over bytes refuses, the loop over bits refuses too. -/
theorem readUvarintLoop_fails {e : ReadError} {i s fuel : Nat} {x : UInt64} (hpad : pad.length < 8)
    (hfuel : i + fuel = Varint.maxVarintLen64) (hbuf : Varint.readUvarintLoop i x s bs = .error e)
    (h : r.Reads (ofBytes bs ++ pad)) :
    ∃ e' r', r.readUvarintLoop x s fuel = (.error (.error e'), r') := by
  induction bs generalizing r i x s fuel with
  | nil =>
    cases fuel with
    | zero => exact ⟨_, r, rfl⟩
    | succ fuel =>
      obtain ⟨r', hbyte⟩ := readByte_short h hpad
      unfold readUvarintLoop
      rw [hbyte]
      exact ⟨_, r', rfl⟩
  | cons b bs ih =>
    rw [Varint.maxVarintLen64] at hfuel
    cases fuel with
    | zero => exact ⟨_, r, rfl⟩
    | succ fuel =>
      have hten : ¬ i = 10 := by omega
      rw [ofBytes_cons, List.append_assoc] at h
      obtain ⟨r₁, hbyte, h₁⟩ := readByte_reads h
      rw [Varint.readUvarintLoop, Varint.maxVarintLen64, if_neg hten] at hbuf
      unfold readUvarintLoop
      rw [hbyte]
      dsimp only
      by_cases hend : b < 0x80
      · rw [if_pos hend] at hbuf ⊢
        by_cases hover : i = 10 - 1 ∧ 1 < b
        · -- One loop counts the bytes up to ten, the other down from ten.
          rw [if_pos ⟨by omega, hover.2⟩]
          exact ⟨_, r₁, rfl⟩
        · rw [if_neg hover] at hbuf
          cases hbuf
      · -- The byte buffer may end here and the stream not, if more bits follow.
        rw [if_neg hend] at hbuf ⊢
        exact ih (by rw [Varint.maxVarintLen64]; omega) hbuf h₁

/-- Off any stream the bytes are read as off their buffer, or refused by both decoders. -/
theorem readUvarint_agrees (h : r.Reads (ofBytes bs ++ pad)) (hpad : pad.length < 8) :
    Agree (Varint.readUvarint bs) r.readUvarint := by
  have hloop : ∀ e, Varint.readUvarintLoop 0 0 0 bs = .error e →
      ∃ e' r', r.readUvarint = (.error (.error e'), r') :=
    fun e herr ↦ readUvarintLoop_fails hpad (Nat.zero_add _) herr h
  unfold Varint.readUvarint
  by_cases hempty : bs.isEmpty
  · rw [if_pos hempty]
    rw [List.isEmpty_iff.mp hempty] at hloop
    obtain ⟨e', r', hread⟩ := hloop _ rfl
    rw [hread]
    exact .error _ e' r'
  · rw [if_neg hempty]
    rcases hbuf : Varint.readUvarintLoop 0 0 0 bs with e | ⟨v, n⟩
    · obtain ⟨e', r', hread⟩ := hloop e hbuf
      rw [hread]
      exact .error e e' r'
    · obtain ⟨r', hread, -⟩ := readUvarintLoop_reads bs r 0 0 0 _ (Nat.zero_add _) hbuf h
      unfold readUvarint
      rw [hread]
      exact .ok v n r'

theorem readVarint_agrees (h : r.Reads (ofBytes bs ++ pad)) (hpad : pad.length < 8) :
    Agree (Varint.readVarint bs) r.readVarint := by
  have hread := readUvarint_agrees h hpad
  unfold Varint.readVarint readVarint
  generalize Varint.readUvarint bs = buf at hread
  generalize r.readUvarint = bits at hread
  cases hread with
  | ok v n r' => exact .ok _ n r'
  | error e e' r' => exact .error e e' r'

end BitReader

/-- The bytes `bs` in a stream: calls of a reader have taken the bits in front of them, and what
follows them is less than a byte. -/
structure Placement (bs : Bytes) where
  stream : Bytes
  lead : List Bool
  pad : List Bool
  bits_eq : ofBytes stream = lead ++ (ofBytes bs ++ pad)
  pad_lt : pad.length < 8
  calls : List BitCall
  calls_eq : (calls.map BitCall.size).sum = lead.length

namespace Placement

variable {bs : Bytes}

def reader (p : Placement bs) : BitReader :=
  (BitReader.new p.stream).after p.calls

theorem reads (p : Placement bs) : p.reader.Reads (ofBytes bs ++ p.pad) := by
  have hnew := BitReader.reads_new p.stream
  rw [p.bits_eq] at hnew
  exact (hnew.runReads p.calls_eq).2

theorem flatMap_written_bits (lead : List Bool) :
    (lead.map WriteCall.bit).flatMap WriteCall.written = lead := by
  induction lead with
  | nil => rfl
  | cons b lead ih => exact congrArg (b :: ·) ih

theorem flatMap_written_bytes (bs : Bytes) :
    (bs.map WriteCall.byte).flatMap WriteCall.written = ofBytes bs := by
  rw [List.flatMap_map]
  rfl

theorem sum_size_bits (n : Nat) : ((List.replicate n BitCall.bit).map BitCall.size).sum = n := by
  rw [List.map_replicate, List.sum_replicate_nat]
  exact Nat.mul_one n

/-- Bytes can be placed behind any bits: the writer puts them there, and a reader takes the bits in
front one by one. -/
theorem exists_lead (bs : Bytes) (lead : List Bool) : ∃ p : Placement bs, p.lead = lead := by
  obtain ⟨-, pad, hpad, hbits⟩ :=
    BitWriter.ofBytes_appended [] (lead.map WriteCall.bit ++ bs.map WriteCall.byte)
  rw [List.flatMap_append, flatMap_written_bits, flatMap_written_bytes, List.append_assoc] at hbits
  exact ⟨{ stream := _
           lead := lead
           pad := _
           bits_eq := hbits
           pad_lt := by rw [List.length_replicate]; exact hpad
           calls := List.replicate lead.length .bit
           calls_eq := sum_size_bits lead.length }, rfl⟩

end Placement
end Encoding

open Encoding

/-- The varint coders, exactly.  What is written is read back with its length, whatever follows.  The
decoder over bytes accepts a terminated number of at most ten groups whose sum is below `2 ^ 64`, and
returns the sum.  The decoder over bits accepts the same bytes at any bit offset, with the same value,
and never runs into an undefined shift. -/
theorem Varint.decoders_exact :
    (∀ (x : UInt64) (rest : Bytes),
      Varint.readUvarint (Varint.putUvarint x ++ rest) = .ok (x, (Varint.putUvarint x).length) ∧
        (Varint.putUvarint x).length ≤ Varint.maxVarintLen64) ∧
    (∀ (y : Int64) (rest : Bytes),
      Varint.readVarint (Varint.putVarint y ++ rest) = .ok (y, (Varint.putVarint y).length) ∧
        (Varint.putVarint y).length ≤ Varint.maxVarintLen64) ∧
    (∀ (bs : Bytes) (v : UInt64) (n : Nat), Varint.readUvarint bs = .ok (v, n) ↔
      ∃ gs, gs <+: bs ∧ Varint.Terminated gs ∧ gs.length = n ∧ n ≤ Varint.maxVarintLen64 ∧
        Varint.groupSum gs < 2 ^ 64 ∧ v.toNat = Varint.groupSum gs) ∧
    (∀ (bs : Bytes) (lead : List Bool), ∃ p : Placement bs, p.lead = lead) ∧
    ∀ (bs : Bytes) (p : Placement bs),
      (∀ v, p.reader.readUvarint.1 = .ok v ↔ ∃ n, Varint.readUvarint bs = .ok (v, n)) ∧
      (∀ y, p.reader.readVarint.1 = .ok y ↔ ∃ n, Varint.readVarint bs = .ok (y, n)) ∧
      p.reader.readUvarint.1 ≠ .error .undefined ∧ p.reader.readVarint.1 ≠ .error .undefined := by
  refine ⟨fun x rest ↦ ⟨Varint.readUvarint_putUvarint x rest, Varint.putUvarint_length_le x⟩,
    fun y rest ↦ ⟨Varint.readVarint_putVarint y rest, Varint.putUvarint_length_le _⟩,
    fun bs v n ↦ Varint.readUvarint_iff, Placement.exists_lead, fun bs p ↦ ?_⟩
  have hu := BitReader.readUvarint_agrees p.reads p.pad_lt
  have hs := BitReader.readVarint_agrees p.reads p.pad_lt
  exact ⟨hu.ok_iff, hs.ok_iff, hu.ne_undefined, hs.ne_undefined⟩

end MerlionTsdb
