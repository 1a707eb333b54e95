import MerlionTsdb.Encoding.Crc32c
import MerlionTsdb.Lib.ReflectedCrc

/-!
# The CRC bit by bit

The table implementation is the reflected CRC of the Castagnoli polynomial, and it tells apart any two
strings of one length that differ within four bytes.
-/

namespace MerlionTsdb.Crc32c

open ReflectedCrc

/-- The reversed Castagnoli polynomial. -/
abbrev poly : BitVec 32 := 0x82F63B78#32

theorem msb_poly : poly.msb = true := by decide

theorem and_one_ne_zero (c : UInt32) : c &&& 1 ≠ 0 ↔ c.toBitVec.getLsbD 0 = true := by
  have hlow : (c &&& 1).toNat = c.toNat % 2 := by
    rw [UInt32.toNat_and]
    exact Nat.and_one_is_mod _
  rw [ne_eq, ← UInt32.toNat_inj, hlow]
  show ¬ c.toNat % 2 = 0 ↔ c.toNat.testBit 0 = true
  rw [Nat.testBit_zero, decide_eq_true_iff, Nat.mod_two_not_eq_zero]

theorem toBitVec_tableRound (c : UInt32) : (tableRound c).toBitVec = shift poly c.toBitVec := by
  have hdown : (c >>> 1).toBitVec = c.toBitVec >>> 1 := rfl
  unfold tableRound shift
  by_cases h : c &&& 1 ≠ 0
  · rw [if_pos h, if_pos ((and_one_ne_zero c).mp h), UInt32.toBitVec_xor, hdown, BitVec.xor_comm]
    rfl
  · rw [if_neg h, if_neg (mt (and_one_ne_zero c).mpr h), hdown]

theorem toBitVec_repeat (n : Nat) (c : UInt32) :
    (Nat.repeat tableRound n c).toBitVec = (shift poly)^[n] c.toBitVec := by
  induction n with
  | zero => rfl
  | succ n ih => rw [Nat.repeat, toBitVec_tableRound, ih, Function.iterate_succ_apply']

theorem toBitVec_kTable {i : Nat} (hi : i < 256) :
    (kTable.getD i 0).toBitVec = (shift poly)^[8] (BitVec.ofNat 32 i) := by
  have hentry : kTable[i]? = some (tableEntry i) := by
    unfold kTable
    rw [List.getElem?_map, List.getElem?_range hi, Option.map_some]
  rw [List.getD_eq_getElem?_getD, hentry]
  exact toBitVec_repeat 8 (UInt32.ofNat i)

/-- The step over one byte is the eight steps over its bits. -/
theorem toBitVec_updateByte (state : UInt32) (b : UInt8) :
    (updateByte state b).toBitVec = feedAll poly state.toBitVec (lsbBits 8 b.toNat) := by
  -- The low byte picks the entry of the table, and the rest is shifted down.
  have hindex : ((state ^^^ b.toUInt32) &&& 0xFF).toNat = (state ^^^ b.toUInt32).toNat % 256 := by
    rw [UInt32.toNat_and]
    exact Nat.and_two_pow_sub_one_eq_mod _ 8
  have hbyte : b.toUInt32.toBitVec = BitVec.ofNat 32 b.toNat := by
    apply BitVec.eq_of_toNat_eq
    rw [BitVec.toNat_ofNat, Nat.mod_eq_of_lt (b.toNat_lt.trans (by decide))]
    exact UInt8.toNat_toUInt32 b
  have hdown : (state.toBitVec ^^^ BitVec.ofNat 32 b.toNat) >>> 8 = state.toBitVec >>> 8 := by
    have hclear : BitVec.ofNat 32 b.toNat >>> 8 = 0#32 := by
      apply BitVec.eq_of_toNat_eq
      have hb := b.toNat_lt
      rw [BitVec.toNat_ushiftRight, BitVec.toNat_ofNat, Nat.shiftRight_eq_div_pow]
      show b.toNat % 2 ^ 32 / 2 ^ 8 = 0
      omega
    rw [BitVec.ushiftRight_xor_distrib, hclear, BitVec.xor_zero]
  rw [feedAll_lsbBits (by decide) b.toNat_lt, iterate_shift_split 8, hdown]
  unfold updateByte
  rw [UInt32.toBitVec_xor, hindex, toBitVec_kTable (Nat.mod_lt _ (by decide))]
  rw [← UInt32.toNat_toBitVec, UInt32.toBitVec_xor, hbyte]
  rfl

theorem toBitVec_update (state : UInt32) (data : Bytes) :
    (update state data).toBitVec = feedAll poly state.toBitVec (messageBits data) := by
  induction data generalizing state with
  | nil => rfl
  | cons b data ih =>
    show (update (updateByte state b) data).toBitVec =
      feedAll poly state.toBitVec (lsbBits 8 b.toNat ++ messageBits data)
    rw [ih, toBitVec_updateByte, feedAll_append]

/-- `compute` is the CRC taken one bit at a time. -/
theorem toBitVec_compute (data : Bytes) :
    (compute data).toBitVec = crc poly 0xFFFFFFFF#32 0xFFFFFFFF#32 data := by
  unfold compute finalize crc
  rw [UInt32.toBitVec_xor, toBitVec_update]
  rfl

/-! ## Parts -/

/-- Folding in parts is folding in the whole. -/
theorem foldl_update (state : UInt32) (parts : List Bytes) :
    parts.foldl update state = update state parts.flatten := by
  induction parts generalizing state with
  | nil => rfl
  | cons part parts ih => rw [List.foldl_cons, ih, List.flatten_cons, update_append]

/-! ## Differences -/

/-- The bytes of a string before, within and behind four consecutive places. -/
theorem split_four (bs : Bytes) (i : Nat) :
    bs = bs.take i ++ ((bs.drop i).take 4 ++ bs.drop (i + 4)) := by
  rw [← List.drop_drop, List.take_append_drop, List.take_append_drop]

theorem toBitVec_split (bs : Bytes) (i : Nat) :
    (update kInit bs).toBitVec = feedAll poly (update kInit (bs.take i)).toBitVec
      (messageBits ((bs.drop i).take 4 ++ bs.drop (i + 4))) := by
  conv_lhs => rw [split_four bs i]
  rw [update_append, toBitVec_update]

theorem compute_ne {as bs : Bytes} (hlen : as.length = bs.length) (hne : as ≠ bs) {i : Nat}
    (hwithin : ∀ j, as[j]? ≠ bs[j]? → i ≤ j ∧ j < i + 4) : compute as ≠ compute bs := by
  intro heq
  have hfront : as.take i = bs.take i := by
    apply List.ext_getElem?
    intro j
    rw [List.getElem?_take, List.getElem?_take]
    by_cases hj : j < i
    · have hsame : as[j]? = bs[j]? := by
        by_contra hdiff
        have := hwithin j hdiff
        omega
      rw [hsame]
    · rw [if_neg hj, if_neg hj]
  have hback : as.drop (i + 4) = bs.drop (i + 4) := by
    apply List.ext_getElem?
    intro j
    rw [List.getElem?_drop, List.getElem?_drop]
    by_contra hdiff
    have := hwithin _ hdiff
    omega
  have hstate : (update kInit as).toBitVec = (update kInit bs).toBitVec := by
    unfold compute finalize at heq
    rw [(UInt32.xor_left_inj _).mp heq]
  -- Behind the common front the registers agree, so the block in the middle decides.
  rw [toBitVec_split as i, toBitVec_split bs i, hfront, hback] at hstate
  have hblock : (as.drop i).take 4 = (bs.drop i).take 4 := by
    apply feedAll_burst msb_poly _ _ _ _ hstate
    · rw [List.length_take, List.length_take, List.length_drop, List.length_drop, hlen]
    · rw [List.length_take]
      omega
  apply hne
  rw [split_four as i, split_four bs i, hfront, hblock, hback]

end MerlionTsdb.Crc32c
