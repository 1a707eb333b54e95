import MerlionTsdb.Chunkenc.Xor

/-!
# The XOR code

What `xor_write` and the delta-of-delta writer append to a bit stream is what `xor_read` and the
prefix reader take off it again, from any bit offset and with anything behind it.
-/

namespace MerlionTsdb.Chunkenc

open Encoding BitString

/-! ## Significant bits -/

theorem toNat_lt_countlZero (x : UInt64) : x.toNat < 2 ^ (64 - countlZero x) :=
  BitVec.toNat_lt_two_pow_sub_clz

theorem testBit_lt_countrZero (x : UInt64) {i : Nat} (h : i < countrZero x) :
    x.toNat.testBit i = false :=
  BitVec.getLsbD_false_of_lt_ctz h

/-- A nonzero word has a set bit between its leading and its trailing zeros. -/
theorem countZeros_lt {x : UInt64} (h : x ≠ 0) : countlZero x + countrZero x < 64 := by
  have hne : x.toBitVec ≠ 0#64 := fun hzero ↦ h (UInt64.toBitVec_inj.mp hzero)
  have hbit : x.toNat.testBit (countrZero x) = true := BitVec.getLsbD_true_ctz_of_ne_zero hne
  have hle : 2 ^ countrZero x ≤ x.toNat := Nat.ge_two_pow_of_testBit hbit
  have hlt : countrZero x < 64 - countlZero x :=
    (Nat.pow_lt_pow_iff_right (by omega)).mp (hle.trans_lt (toNat_lt_countlZero x))
  omega

/-- Cutting off zero bits and shifting back loses nothing. -/
theorem shiftRight_shiftLeft_of_le {x : UInt64} {k : UInt8} (h : k.toNat ≤ countrZero x)
    (hk : k.toNat < 64) : x >>> k.toUInt64 <<< k.toUInt64 = x := by
  have hmod : k.toUInt64.toNat % 64 = k.toNat := by
    rw [UInt8.toNat_toUInt64, Nat.mod_eq_of_lt hk]
  rw [← UInt64.toNat_inj, UInt64.toNat_shiftLeft, UInt64.toNat_shiftRight, hmod]
  apply Nat.eq_of_testBit_eq
  intro i
  rw [Nat.testBit_mod_two_pow, Nat.testBit_shiftLeft, Nat.testBit_shiftRight]
  by_cases hi : k.toNat ≤ i
  · rw [decide_eq_true hi, Bool.true_and, Nat.add_sub_cancel' hi]
    by_cases h64 : i < 64
    · rw [decide_eq_true h64, Bool.true_and]
    · rw [decide_eq_false h64, Bool.false_and]
      have hlt : x.toNat < 2 ^ i :=
        x.toNat_lt.trans_le (Nat.pow_le_pow_right (by omega) (by omega))
      exact (Nat.testBit_lt_two_pow hlt).symm
  · rw [decide_eq_false hi, Bool.false_and, Bool.and_false, testBit_lt_countrZero x (by omega)]

theorem toNat_shiftRight_lt {x : UInt64} {k : UInt8} {n : Nat} (hk : k.toNat < 64)
    (hx : x.toNat < 2 ^ (n + k.toNat)) : (x >>> k.toUInt64).toNat < 2 ^ n := by
  rw [UInt64.toNat_shiftRight, UInt8.toNat_toUInt64, Nat.mod_eq_of_lt hk, Nat.shiftRight_eq_div_pow]
  exact Nat.div_lt_of_lt_mul (by rwa [← pow_add, Nat.add_comm])

/-- The window of an iterator: five bits of leading zeros, and at least one significant bit. -/
def Window.Legal (win : Window) : Prop :=
  win.leading.toNat ≤ 31 ∧ win.leading.toNat + win.trailing.toNat ≤ 63

/-- The appender's window `a` against the iterator's: the same, or not set yet. -/
def Window.Matches (a win : Window) : Prop :=
  win.Legal ∧ (a = win ∨ a.leading = 0xFF)

theorem Window.Legal.toNat_sigbits {win : Window} (h : win.Legal) :
    (64 - win.leading - win.trailing).toNat = 64 - win.leading.toNat - win.trailing.toNat := by
  obtain ⟨hl, hsum⟩ := h
  rw [UInt8.toNat_sub_of_le, UInt8.toNat_sub_of_le]
  · rfl
  · rw [UInt8.le_iff_toNat_le]; change _ ≤ 64; omega
  · rw [UInt8.le_iff_toNat_le, UInt8.toNat_sub_of_le]
    · change _ ≤ 64 - _; omega
    · rw [UInt8.le_iff_toNat_le]; change _ ≤ 64; omega

/-! ## Values -/

theorem xorReadBits_reads {r : BitReader} {delta v : UInt64} {win : Window} {mbits : UInt8}
    {rest : List Bool} (hwin : win.Legal)
    (hbits : mbits.toNat = 64 - win.leading.toNat - win.trailing.toNat)
    (hlead : win.leading.toNat ≤ countlZero delta) (htrail : win.trailing.toNat ≤ countrZero delta)
    (h : r.Reads (ofNat mbits.toNat (delta >>> win.trailing.toUInt64).toNat ++ rest)) :
    ∃ r', xorReadBits r v win mbits = (.ok (v ^^^ delta), r', win) ∧ r'.Reads rest := by
  obtain ⟨hl, hsum⟩ := hwin
  have hlt : delta.toNat < 2 ^ (mbits.toNat + win.trailing.toNat) :=
    (toNat_lt_countlZero delta).trans_le (Nat.pow_le_pow_right (by omega) (by omega))
  obtain ⟨r', hread, h'⟩ :=
    BitReader.readBits_reads h (toNat_shiftRight_lt (by omega) hlt) (by omega)
  have hshift : ¬ 64 ≤ win.trailing := by
    rw [UInt8.le_iff_toNat_le]
    change ¬ 64 ≤ _
    omega
  refine ⟨r', ?_, h'⟩
  rw [xorReadBits, hread]
  dsimp only
  rw [if_neg hshift, shiftRight_shiftLeft_of_le htrail (by omega)]

theorem xorRead_reuse {r : BitReader} {delta v : UInt64} {win : Window} {rest : List Bool}
    (hwin : win.Legal) (hlead : win.leading.toNat ≤ countlZero delta)
    (htrail : win.trailing.toNat ≤ countrZero delta)
    (h : r.Reads (true :: false :: (ofNat (64 - win.leading - win.trailing).toNat
      (delta >>> win.trailing.toUInt64).toNat ++ rest))) :
    ∃ r', xorRead r v win = (.ok (v ^^^ delta), r', win) ∧ r'.Reads rest := by
  obtain ⟨r₁, hread₁, h₁⟩ := BitReader.readBit_reads h
  obtain ⟨r₂, hread₂, h₂⟩ := BitReader.readBit_reads h₁
  obtain ⟨r₃, hread₃, h₃⟩ := xorReadBits_reads (v := v) hwin hwin.toNat_sigbits hlead htrail h₂
  refine ⟨r₃, ?_, h₃⟩
  rw [xorRead, hread₁]
  dsimp only
  rw [hread₂]
  exact hread₃

/-- Six bits hold the count of significant bits, 64 of them sent as zero. -/
theorem promote_sigbits {m : UInt8} {sb : UInt64} (hm : 0 < m.toNat) (hm64 : m.toNat ≤ 64)
    (hsb : sb.toNat = m.toNat % 64) : (if sb.toUInt8 = 0 then 64 else sb.toUInt8) = m := by
  have hnat : sb.toUInt8.toNat = m.toNat % 64 := by
    rw [UInt64.toNat_toUInt8, hsb]
    omega
  by_cases h64 : m.toNat = 64
  · rw [h64] at hnat
    rw [if_pos (UInt8.toNat_inj.mp hnat)]
    exact UInt8.toNat_inj.mp h64.symm
  · rw [Nat.mod_eq_of_lt (by omega)] at hnat
    rw [UInt8.toNat_inj.mp hnat, if_neg]
    rintro rfl
    exact absurd hm (by decide)

theorem xorRead_fresh {r : BitReader} {delta v : UInt64} {win : Window} (old : Window) {rest : List Bool}
    (hwin : win.Legal) (hlead : win.leading.toNat ≤ countlZero delta)
    (htrail : win.trailing.toNat ≤ countrZero delta)
    (h : r.Reads (true :: true :: (ofNat 5 win.leading.toUInt64.toNat ++
      (ofNat 6 (64 - win.leading - win.trailing).toUInt64.toNat ++
        (ofNat (64 - win.leading - win.trailing).toNat (delta >>> win.trailing.toUInt64).toNat ++
          rest))))) :
    ∃ r', xorRead r v old = (.ok (v ^^^ delta), r', win) ∧ r'.Reads rest := by
  have hsig := hwin.toNat_sigbits
  obtain ⟨hl, hsum⟩ := id hwin
  obtain ⟨r₁, hread₁, h₁⟩ := BitReader.readBit_reads h
  obtain ⟨r₂, hread₂, h₂⟩ := BitReader.readBit_reads h₁
  obtain ⟨r₃, hread₃, h₃⟩ := BitReader.readBits_reads h₂
    (by rw [UInt8.toNat_toUInt64]; omega) (by omega)
  -- The count may be 64, so what is read back is its low six bits.
  have hsix : ofNat 6 (64 - win.leading - win.trailing).toUInt64.toNat =
      ofNat 6 (UInt64.ofNat ((64 - win.leading - win.trailing).toNat % 64)).toNat := by
    rw [UInt8.toNat_toUInt64, UInt64.toNat_ofNat_of_lt' (by rw [UInt64.size]; omega),
      show 64 = 2 ^ 6 from rfl, ofNat_mod le_rfl]
  rw [hsix] at h₃
  have hsb : (UInt64.ofNat ((64 - win.leading - win.trailing).toNat % 64)).toNat =
      (64 - win.leading - win.trailing).toNat % 64 :=
    UInt64.toNat_ofNat_of_lt' (by rw [UInt64.size]; omega)
  obtain ⟨r₄, hread₄, h₄⟩ := BitReader.readBits_reads h₃ (by rw [hsb]; omega) (by omega)
  obtain ⟨r₅, hread₅, h₅⟩ := xorReadBits_reads (v := v) hwin hsig hlead htrail h₄
  refine ⟨r₅, ?_, h₅⟩
  have hmbits := promote_sigbits (m := 64 - win.leading - win.trailing) (by omega) (by omega) hsb
  have htrailing : 64 - win.leading - (64 - win.leading - win.trailing) = win.trailing := by
    rw [← UInt8.toNat_inj, UInt8.toNat_sub_of_le, UInt8.toNat_sub_of_le, hsig]
    · change 64 - _ - _ = _
      omega
    · rw [UInt8.le_iff_toNat_le]; change _ ≤ 64; omega
    · rw [UInt8.le_iff_toNat_le, hsig, UInt8.toNat_sub_of_le]
      · change _ ≤ 64 - _; omega
      · rw [UInt8.le_iff_toNat_le]; change _ ≤ 64; omega
  rw [xorRead, hread₁]
  dsimp only
  rw [hread₂]
  dsimp only
  rw [hread₃]
  dsimp only
  rw [hread₄]
  dsimp only
  rw [hmbits, UInt8.toUInt8_toUInt64, htrailing]
  exact hread₅

theorem toNat_clamped_leading {delta : UInt64} (h : delta ≠ 0) :
    (if 32 ≤ UInt8.ofNat (countlZero delta) then 31 else UInt8.ofNat (countlZero delta)).toNat =
      min 31 (countlZero delta) := by
  have hzeros := countZeros_lt h
  have hof : (UInt8.ofNat (countlZero delta)).toNat = countlZero delta :=
    UInt8.toNat_ofNat_of_lt' (by rw [UInt8.size]; omega)
  split
  · rename_i h32
    rw [UInt8.le_iff_toNat_le, hof] at h32
    change 32 ≤ _ at h32
    change 31 = _
    omega
  · rename_i h32
    rw [UInt8.le_iff_toNat_le, hof] at h32
    change ¬ 32 ≤ _ at h32
    rw [hof]
    omega

/-- Whatever `xor_write` appends, `xor_read` reads back, and the two windows still match. -/
theorem xorWrite_decodes {w : BitWriter} {l : List Bool} (hw : w.Holds l) (newV prevV : UInt64)
    {a win : Window} (hwin : a.Matches win) :
    ∃ bits, (xorWrite w newV prevV a).1.Holds (l ++ bits) ∧
      (newV = prevV → bits = [false]) ∧ (newV ≠ prevV → ∃ more, bits = true :: more) ∧
      ∃ win', (xorWrite w newV prevV a).2.Matches win' ∧
        ∀ r rest, r.Reads (bits ++ rest) →
          ∃ r', xorRead r prevV win = (.ok newV, r', win') ∧ r'.Reads rest := by
  obtain ⟨hlegal, hsame⟩ := hwin
  rw [xorWrite]
  dsimp only
  by_cases hzero : newV ^^^ prevV = 0
  · -- The value before: one zero bit.
    have heq : newV = prevV := UInt64.xor_eq_zero_iff.mp hzero
    rw [if_pos hzero]
    refine ⟨[false], hw.writeBit false, fun _ ↦ rfl, fun hne ↦ absurd heq hne, win,
      ⟨hlegal, hsame⟩, ?_⟩
    intro r rest hr
    obtain ⟨r', hread, h'⟩ := BitReader.readBit_reads hr
    refine ⟨r', ?_, h'⟩
    rw [xorRead, hread, heq]
  have hne : newV ≠ prevV := fun heq ↦ hzero (UInt64.xor_eq_zero_iff.mpr heq)
  have hvalue : prevV ^^^ (newV ^^^ prevV) = newV := by
    rw [UInt64.xor_comm newV, ← UInt64.xor_assoc, UInt64.xor_self, UInt64.zero_xor]
  rw [if_neg hzero]
  have hzeros := countZeros_lt hzero
  have hl := toNat_clamped_leading hzero
  have ht : (UInt8.ofNat (countrZero (newV ^^^ prevV))).toNat = countrZero (newV ^^^ prevV) :=
    UInt8.toNat_ofNat_of_lt' (by rw [UInt8.size]; omega)
  -- From here on only the bounds on the two counts matter.
  generalize newV ^^^ prevV = delta at *
  generalize (if 32 ≤ UInt8.ofNat (countlZero delta) then 31 else UInt8.ofNat (countlZero delta)) =
    newLeading at *
  generalize UInt8.ofNat (countrZero delta) = newTrailing at *
  by_cases hreuse : a.leading ≠ 0xFF ∧ a.leading ≤ newLeading ∧ a.trailing ≤ newTrailing
  · -- The window is reused, so it is the iterator's too.
    rw [if_pos hreuse]
    obtain ⟨hset, hlead, htrail⟩ := hreuse
    obtain rfl : a = win := hsame.resolve_right hset
    rw [UInt8.le_iff_toNat_le, hl] at hlead
    rw [UInt8.le_iff_toNat_le, ht] at htrail
    have hsig : (64 - a.leading - a.trailing).toNat ≤ 64 := by
      rw [hlegal.toNat_sigbits]
      omega
    refine ⟨true :: false :: ofNat (64 - a.leading - a.trailing).toNat
      (delta >>> a.trailing.toUInt64).toNat, ?_, fun heq ↦ absurd heq hne, fun _ ↦ ⟨_, rfl⟩, a,
      ⟨hlegal, Or.inl rfl⟩, ?_⟩
    · have hbits := ((hw.writeBit true).writeBit false).writeBits
        (delta >>> a.trailing.toUInt64) hsig
      rw [List.append_assoc, List.append_assoc] at hbits
      exact hbits
    · intro r rest hr
      have hread := xorRead_reuse (v := prevV) hlegal (by omega) htrail hr
      rwa [hvalue] at hread
  · -- A fresh window, whose fields are written in front of the bits.
    rw [if_neg hreuse]
    set fresh : Window := { leading := newLeading, trailing := newTrailing } with hfresh
    have hfreshLegal : fresh.Legal := ⟨by rw [hl]; omega, by rw [hl, ht]; omega⟩
    have hsig : (64 - newLeading - newTrailing).toNat ≤ 64 := by
      rw [show newLeading = fresh.leading from rfl, show newTrailing = fresh.trailing from rfl,
        hfreshLegal.toNat_sigbits]
      omega
    refine ⟨true :: true :: (ofNat 5 newLeading.toUInt64.toNat ++
      (ofNat 6 (64 - newLeading - newTrailing).toUInt64.toNat ++
        ofNat (64 - newLeading - newTrailing).toNat (delta >>> newTrailing.toUInt64).toNat)),
      ?_, fun heq ↦ absurd heq hne, fun _ ↦ ⟨_, rfl⟩, fresh, ⟨hfreshLegal, Or.inl rfl⟩, ?_⟩
    · have hbits := ((((hw.writeBit true).writeBit true).writeBits newLeading.toUInt64
        (show 5 ≤ 64 by omega)).writeBits (64 - newLeading - newTrailing).toUInt64
        (show 6 ≤ 64 by omega)).writeBits (delta >>> newTrailing.toUInt64) hsig
      simp only [List.append_assoc] at hbits
      exact hbits
    · intro r rest hr
      simp only [List.cons_append, List.append_assoc] at hr
      have hread := xorRead_fresh (v := prevV) win hfreshLegal
        (show newLeading.toNat ≤ _ by omega) (show newTrailing.toNat ≤ _ by omega) hr
      rwa [hvalue] at hread

/-! ## Deltas of deltas -/

theorem bitRange_iff {x : Int64} {n : Nat} (hn : n = 14 ∨ n = 17 ∨ n = 20) :
    bitRange x n = true ↔ -(2 ^ (n - 1) - 1 : Int) ≤ x.toInt ∧ x.toInt ≤ 2 ^ (n - 1) := by
  rw [bitRange, Bool.and_eq_true, decide_eq_true_iff, decide_eq_true_iff, Int64.le_iff_toInt_le,
    Int64.le_iff_toInt_le]
  rcases hn with rfl | rfl | rfl <;> exact Iff.rfl

/-- A value in range comes back from its `n` low bits. -/
theorem signExtend_low_bits {x : Int64} {bits : UInt64} {n : Nat} (hn : n = 14 ∨ n = 17 ∨ n = 20)
    (hx : bitRange x n = true) (hbits : bits.toNat = x.toUInt64.toNat % 2 ^ n) :
    signExtend bits n = x := by
  rw [bitRange_iff hn] at hx
  have hcond : x.toInt = if 2 * x.toUInt64.toNat < 2 ^ 64 then (x.toUInt64.toNat : Int)
      else (x.toUInt64.toNat : Int) - 2 ^ 64 := BitVec.toInt_eq_toNat_cond x.toBitVec
  have hlt := x.toUInt64.toNat_lt
  suffices hword : (if (1 : UInt64) <<< UInt64.ofNat (n - 1) < bits
      then bits - (1 : UInt64) <<< UInt64.ofNat n else bits) = x.toUInt64 by
    rw [signExtend, hword, Int64.toInt64_toUInt64]
  have hone : ∀ k < 64, ((1 : UInt64) <<< UInt64.ofNat k).toNat = 2 ^ k := fun k ↦ toNat_bit_word
  rw [← UInt64.toNat_inj]
  rcases hn with rfl | rfl | rfl
  all_goals
    split <;> rename_i hsign <;>
      rw [UInt64.lt_iff_toNat_lt, hone _ (by decide), hbits] at hsign <;>
      norm_num at hx hsign hcond hbits hlt
    · rw [UInt64.toNat_sub, hone _ (by decide), hbits]
      split at hcond <;> omega
    · rw [hbits]
      split at hcond <;> omega

theorem ofNat_sshiftRight_low (x : Int64) :
    ofNat 6 (x >>> 8).toUInt64.toNat = ofNat 6 (x.toUInt64.toNat >>> 8) := by
  apply ofNat_congr
  intro i hi
  have hbit : (x >>> 8).toUInt64.toNat.testBit i = (x.toBitVec.sshiftRight 8).getLsbD i := rfl
  rw [hbit, BitVec.getLsbD_sshiftRight, Nat.testBit_shiftRight,
    decide_eq_false (show ¬ 64 ≤ i by omega), if_pos (show 8 + i < 64 by omega)]
  rfl

/-- The two bytes of the 14-bit form are the prefix and the 14 low bits. -/
theorem ofNat_dod_bytes (dod : Int64) :
    ofNat 8 ((0x80 : UInt8) ||| ((dod >>> 8).toUInt64.toUInt8 &&& 0x3F)).toNat ++
        ofNat 8 dod.toUInt64.toUInt8.toNat = [true, false] ++ ofNat 14 dod.toUInt64.toNat := by
  have hhigh : ((0x80 : UInt8) ||| ((dod >>> 8).toUInt64.toUInt8 &&& 0x3F)).toNat =
      2 <<< 6 ||| (dod >>> 8).toUInt64.toNat % 2 ^ 6 := by
    rw [UInt8.toNat_or, UInt8.toNat_and, UInt64.toNat_toUInt8]
    change 128 ||| (_ % 2 ^ 8 &&& 2 ^ 6 - 1) = _
    rw [Nat.and_two_pow_sub_one_eq_mod, Nat.mod_mod_of_dvd _ (by decide)]
    rfl
  rw [hhigh, show 8 = 2 + 6 from rfl, ofNat_shiftLeft_or 2 2 (Nat.mod_lt _ (by decide)),
    ofNat_mod le_rfl, ofNat_sshiftRight_low, UInt64.toNat_toUInt8, ofNat_mod le_rfl, List.append_assoc]
  exact congrArg ([true, false] ++ ·) (ofNat_add 6 8 dod.toUInt64.toNat).symm

/-- `p` with `k` one bits shifted in. -/
def pushOnes (p : UInt8) : Nat → UInt8
  | 0 => p
  | k + 1 => pushOnes (p <<< 1 ||| 1) k

theorem readPrefix_ones {r : BitReader} {l : List Bool} (k i : Nat) (p : UInt8)
    (h : r.Reads (List.replicate k true ++ false :: l)) (hk : k < i) :
    ∃ r', readPrefix r p i = (.ok (pushOnes p k <<< 1), r') ∧ r'.Reads l := by
  induction k generalizing r i p with
  | zero =>
    obtain ⟨i, rfl⟩ : ∃ j, i = j + 1 := ⟨i - 1, by omega⟩
    obtain ⟨r₁, hread, h₁⟩ := BitReader.readBit_reads h
    exact ⟨r₁, by rw [readPrefix, hread]; rfl, h₁⟩
  | succ k ih =>
    obtain ⟨i, rfl⟩ : ∃ j, i = j + 1 := ⟨i - 1, by omega⟩
    obtain ⟨r₁, hread, h₁⟩ := BitReader.readBit_reads h
    obtain ⟨r', hrest, h'⟩ := ih i (p <<< 1 ||| 1) h₁ (by omega)
    exact ⟨r', by rw [readPrefix, hread]; exact hrest, h'⟩

theorem readPrefix_all_ones {r : BitReader} {l : List Bool} (i : Nat) (p : UInt8)
    (h : r.Reads (List.replicate i true ++ l)) :
    ∃ r', readPrefix r p i = (.ok (pushOnes p i), r') ∧ r'.Reads l := by
  induction i generalizing r p with
  | zero => exact ⟨r, rfl, h⟩
  | succ i ih =>
    obtain ⟨r₁, hread, h₁⟩ := BitReader.readBit_reads h
    obtain ⟨r', hrest, h'⟩ := ih (p <<< 1 ||| 1) h₁
    exact ⟨r', by rw [readPrefix, hread]; exact hrest, h'⟩

/-- A payload of `n` low bits behind the prefix of `k` ones and a zero. -/
theorem readDod_payload {dod : Int64} {n k : Nat} (hn : n = 14 ∨ n = 17 ∨ n = 20) (hk : k < 4)
    (hrange : bitRange dod n = true)
    (hform : ∀ r, readDod r (pushOnes 0 k <<< 1) = match r.readBits n with
      | (.error e, r) => (.error e, r)
      | (.ok bits, r) => (.ok (signExtend bits n), r))
    {r : BitReader} {rest : List Bool}
    (h : r.Reads (List.replicate k true ++ false :: (ofNat n dod.toUInt64.toNat ++ rest))) :
    ∃ p r₁ r₂, readPrefix r 0 4 = (.ok p, r₁) ∧ readDod r₁ p = (.ok dod, r₂) ∧ r₂.Reads rest := by
  obtain ⟨r₁, hprefix, h₁⟩ := readPrefix_ones k 4 0 h hk
  have hpow : 2 ^ n ≤ 2 ^ 20 := Nat.pow_le_pow_right (by omega) (by omega)
  have hlow := Nat.mod_lt dod.toUInt64.toNat (Nat.two_pow_pos n)
  have hval : (UInt64.ofNat (dod.toUInt64.toNat % 2 ^ n)).toNat = dod.toUInt64.toNat % 2 ^ n :=
    UInt64.toNat_ofNat_of_lt' (by rw [UInt64.size]; omega)
  rw [← ofNat_mod (v := dod.toUInt64.toNat) (le_refl n), ← hval] at h₁
  obtain ⟨r₂, hread, h₂⟩ := BitReader.readBits_reads h₁ (by rw [hval]; exact hlow) (by omega)
  refine ⟨_, r₁, r₂, hprefix, ?_, h₂⟩
  rw [hform, hread]
  dsimp only
  rw [signExtend_low_bits hn hrange hval]

/-- A form with a prefix of `k` ones and a zero in front of the `n` low bits is read back. -/
theorem lowBits_decode {w : BitWriter} {l : List Bool} {dod : Int64} {n k : Nat}
    (hn : n = 14 ∨ n = 17 ∨ n = 20) (hk : k + 1 < 4) (hrange : bitRange dod n = true)
    (hform : ∀ r, readDod r (pushOnes 0 (k + 1) <<< 1) = match r.readBits n with
      | (.error e, r) => (.error e, r)
      | (.ok bits, r) => (.ok (signExtend bits n), r))
    (hne : dod ≠ 0)
    (hw : w.Holds (l ++ (List.replicate (k + 1) true ++ [false] ++ ofNat n dod.toUInt64.toNat))) :
    ∃ bits, w.Holds (l ++ bits) ∧
      (dod = 0 → bits = [false]) ∧ (dod ≠ 0 → ∃ more, bits = true :: more) ∧
      ∀ r rest, r.Reads (bits ++ rest) →
        ∃ p r₁ r₂, readPrefix r 0 4 = (.ok p, r₁) ∧ readDod r₁ p = (.ok dod, r₂) ∧
          r₂.Reads rest := by
  refine ⟨_, hw, fun h ↦ absurd h hne, fun _ ↦ ⟨_, rfl⟩, fun r rest hr ↦ ?_⟩
  rw [List.append_assoc, List.append_assoc] at hr
  exact readDod_payload hn hk hrange hform hr

/-- Whatever is written for a delta of deltas is read back. -/
theorem writeDod_decodes {w : BitWriter} {l : List Bool} (hw : w.Holds l) (dod : Int64) :
    ∃ bits, (writeDod w dod).Holds (l ++ bits) ∧
      (dod = 0 → bits = [false]) ∧ (dod ≠ 0 → ∃ more, bits = true :: more) ∧
      ∀ r rest, r.Reads (bits ++ rest) →
        ∃ p r₁ r₂, readPrefix r 0 4 = (.ok p, r₁) ∧ readDod r₁ p = (.ok dod, r₂) ∧
          r₂.Reads rest := by
  rw [writeDod]
  by_cases hzero : dod = 0
  · subst hzero
    rw [if_pos rfl]
    refine ⟨[false], hw.writeBit false, fun _ ↦ rfl, fun hne ↦ absurd rfl hne, ?_⟩
    intro r rest hr
    obtain ⟨r₁, hread, h₁⟩ := readPrefix_ones 0 4 0 hr (by omega)
    exact ⟨_, r₁, r₁, hread, rfl, h₁⟩
  rw [if_neg hzero]
  by_cases h14 : bitRange dod 14 = true
  · -- Two whole bytes, the first with the prefix in its top bits.
    rw [if_pos h14]
    have hbits := (hw.writeByte ((0x80 : UInt8) ||| ((dod >>> 8).toUInt64.toUInt8 &&& 0x3F)))
      |>.writeByte dod.toUInt64.toUInt8
    rw [List.append_assoc, ofNat_dod_bytes] at hbits
    exact lowBits_decode (k := 0) (by omega) (by omega) h14 (fun _ ↦ rfl) hzero hbits
  rw [if_neg h14]
  by_cases h17 : bitRange dod 17 = true
  · rw [if_pos h17]
    have hbits := (hw.writeBits 0b110 (show 3 ≤ 64 by omega)).writeBits dod.toUInt64
      (show 17 ≤ 64 by omega)
    rw [List.append_assoc] at hbits
    exact lowBits_decode (k := 1) (by omega) (by omega) h17 (fun _ ↦ rfl) hzero hbits
  rw [if_neg h17]
  by_cases h20 : bitRange dod 20 = true
  · rw [if_pos h20]
    have hbits := (hw.writeBits 0b1110 (show 4 ≤ 64 by omega)).writeBits dod.toUInt64
      (show 20 ≤ 64 by omega)
    rw [List.append_assoc] at hbits
    exact lowBits_decode (k := 2) (by omega) (by omega) h20 (fun _ ↦ rfl) hzero hbits
  · -- The prefix ends without a zero, and the value is written whole.
    rw [if_neg h20]
    refine ⟨[true, true, true, true] ++ ofNat 64 dod.toUInt64.toNat, ?_, fun h ↦ absurd h hzero,
      fun _ ↦ ⟨_, rfl⟩, fun r rest hr ↦ ?_⟩
    · rw [← List.append_assoc]
      exact (hw.writeBits 0b1111 (show 4 ≤ 64 by omega)).writeBits _ (by omega)
    · rw [List.append_assoc] at hr
      obtain ⟨r₁, hprefix, h₁⟩ := readPrefix_all_ones 4 0 hr
      obtain ⟨r₂, hread, h₂⟩ := BitReader.readBits_reads h₁ dod.toUInt64.toNat_lt (by omega)
      refine ⟨_, r₁, r₂, hprefix, ?_, h₂⟩
      change (match r₁.readBits 64 with
        | (.error e, r) => (Except.error e, r)
        | (.ok bits, r) => (.ok bits.toInt64, r)) = _
      rw [hread]
      dsimp only
      rw [Int64.toInt64_toUInt64]

end MerlionTsdb.Chunkenc
