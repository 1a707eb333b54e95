import MerlionTsdb.Block.ChunkLayout
import MerlionTsdb.Encoding.Crc32cBits

/-!
# What the checksum of a chunk detects

The writer and the reader of chunks fold the encoding byte and the data in two parts.  That is the CRC
of the two together, so a reader refuses a record damaged within four consecutive bytes of them.
-/

namespace MerlionTsdb.Block

open Crc32c

theorem chunkCrc_eq_compute (enc : UInt8) (data : Bytes) :
    chunkCrc enc data = compute (enc :: data) := by
  unfold chunkCrc
  rw [← update_append]
  rfl

/-- Two strings of one length that differ, all within four consecutive places. -/
structure DifferWithinFour (as bs : Bytes) : Prop where
  length_eq : as.length = bs.length
  ne : as ≠ bs
  within : ∃ i, ∀ j, as[j]? ≠ bs[j]? → i ≤ j ∧ j < i + 4

theorem DifferWithinFour.compute_ne {as bs : Bytes} (h : DifferWithinFour as bs) :
    compute as ≠ compute bs := by
  rcases h.within with ⟨i, hi⟩
  exact Crc32c.compute_ne h.length_eq h.ne hi

/-- A record whose bytes were damaged so under their checksum is refused. -/
theorem readRecord_damaged (pre post : Bytes) {c damaged : ChunkPayload}
    (hdiffer : DifferWithinFour (c.encoding.tag :: c.data) (damaged.encoding.tag :: damaged.data))
    (hsize : pre.length +
      (storedRecord damaged (chunkCrc c.encoding.tag c.data)).length < 2 ^ 64) :
    readRecord (pre ++ (storedRecord damaged (chunkCrc c.encoding.tag c.data) ++ post)) pre.length =
      .error (.error .illegalByteSequence) := by
  rw [readRecord_stored pre post damaged _ hsize, chunkCrc_eq_compute, chunkCrc_eq_compute]
  exact if_neg hdiffer.compute_ne.symm

/-- `compute` is the CRC taken bit by bit; folding parts of a string in turn, as the chunk writer and
reader do, gives the same value; and strings of one length that differ within four consecutive bytes
have different CRCs. -/
theorem crc32c_exact :
    (∀ data : Bytes, (compute data).toBitVec =
      ReflectedCrc.crc 0x82F63B78#32 0xFFFFFFFF#32 0xFFFFFFFF#32 data) ∧
    (∀ parts : List Bytes, finalize (parts.foldl update kInit) = compute parts.flatten) ∧
    (∀ (enc : UInt8) (data : Bytes), chunkCrc enc data = compute (enc :: data)) ∧
    ∀ as bs : Bytes, DifferWithinFour as bs → compute as ≠ compute bs :=
  ⟨toBitVec_compute, fun parts ↦ congrArg finalize (foldl_update kInit parts), chunkCrc_eq_compute,
    fun _ _ ↦ DifferWithinFour.compute_ne⟩

/-- Two strings of six bytes that differ in the second and the fifth. -/
theorem crc32c_exact_four_bytes :
    DifferWithinFour [1, 2, 3, 4, 5, 6] [1, 0, 3, 4, 0, 6] ∧
      compute [1, 2, 3, 4, 5, 6] ≠ compute [1, 0, 3, 4, 0, 6] := by
  have hdiffer : DifferWithinFour [1, 2, 3, 4, 5, 6] [1, 0, 3, 4, 0, 6] := by
    refine ⟨rfl, by decide, 1, fun j hj ↦ ?_⟩
    by_contra hout
    apply hj
    rcases j with _ | _ | _ | _ | _ | _ | j
    · rfl
    · omega
    · omega
    · omega
    · omega
    · rfl
    · rfl
  exact ⟨hdiffer, crc32c_exact.2.2.2 _ _ hdiffer⟩

end MerlionTsdb.Block
