import Mathlib.Data.Nat.Bitwise
import Mathlib.Tactic.Ring

/-!
# Variable-length integers

`varint.hpp` / `varint.cpp`: LEB128 unsigned integers and zigzag signed integers, in the layout of
Go's `encoding/binary`.  The decoder accepts the groups of one number whose sum, without a bound, is
below `2 ^ 64`.  The round trip that follows is what every framed format of the store rests on: a
decoder fed the encoder's bytes, whatever follows them, returns the value and the number of bytes
written.
-/

namespace MerlionTsdb

abbrev Bytes := List UInt8

namespace Encoding

/-- `encoding::ReadError`. -/
inductive ReadError
  | endOfStream
  | unexpectedEnd
  | varintOverflow
  deriving DecidableEq, Repr

end Encoding

namespace Varint

open Encoding

def maxVarintLen64 : Nat := 10

/-- The `while (x >= 0x80)` loop.  The first argument is the room left in the ten-byte buffer the
callers pass; ten groups of seven bits hold any 64-bit value, so it does not run out. -/
def putUvarintLoop : Nat → UInt64 → Bytes
  | 0, _ => []
  | room + 1, x =>
    if 0x80 ≤ x then (x.toUInt8 ||| 0x80) :: putUvarintLoop room (x >>> 7) else [x.toUInt8]

def putUvarint (x : UInt64) : Bytes :=
  putUvarintLoop maxVarintLen64 x

/-- Zigzag: `(x << 1) ^ (x >> 63)`, the second shift arithmetic. -/
def putVarint (x : Int64) : Bytes :=
  putUvarint ((x.toUInt64 <<< 1) ^^^ (x >>> 63).toUInt64)

/-- The loop of `read_uvarint`; `i` counts the bytes read and `s` is the shift of the next group. -/
def readUvarintLoop (i : Nat) (x : UInt64) (s : Nat) : Bytes → Except ReadError (UInt64 × Nat)
  | [] => .error .unexpectedEnd
  | b :: bs =>
    if i = maxVarintLen64 then .error .varintOverflow
    else if b < 0x80 then
      if i = maxVarintLen64 - 1 ∧ 1 < b then .error .varintOverflow
      else .ok (x ||| (b.toUInt64 <<< UInt64.ofNat s), i + 1)
    else readUvarintLoop (i + 1) (x ||| ((b &&& 0x7F).toUInt64 <<< UInt64.ofNat s)) (s + 7) bs

/-- The value and the number of bytes it took. -/
def readUvarint (buf : Bytes) : Except ReadError (UInt64 × Nat) :=
  if buf.isEmpty then .error .endOfStream else readUvarintLoop 0 0 0 buf

/-- Undoes the zigzag map. -/
def unzigzag (ux : UInt64) : Int64 :=
  let x := (ux >>> 1).toInt64
  if ux &&& 1 ≠ 0 then ~~~x else x

def readVarint (buf : Bytes) : Except ReadError (Int64 × Nat) :=
  match readUvarint buf with
  | .error e => .error e
  | .ok (ux, n) => .ok (unzigzag ux, n)

/-! ## One group -/

theorem toNat_low_group (x : UInt64) :
    ((x.toUInt8 ||| 0x80) &&& 0x7F).toNat = x.toNat % 128 := by
  rw [UInt8.toNat_and, UInt8.toNat_or, UInt64.toNat_toUInt8]
  apply Nat.eq_of_testBit_eq
  intro i
  rw [show 128 = 2 ^ 7 from rfl, Nat.testBit_mod_two_pow, Nat.testBit_and, Nat.testBit_or,
    Nat.testBit_mod_two_pow, show UInt8.toNat 127 = 2 ^ 7 - 1 from rfl, Nat.testBit_two_pow_sub_one,
    show UInt8.toNat 128 = 2 ^ 7 from rfl, Nat.testBit_two_pow]
  by_cases hi : i < 7
  · simp [hi, show i < 8 by omega, show ¬ 7 = i by omega]
  · simp [hi]

theorem continued_group (x : UInt64) : ¬ (x.toUInt8 ||| 0x80) < 0x80 := by
  rw [UInt8.lt_iff_toNat_lt, UInt8.toNat_or]
  exact Nat.not_lt.mpr Nat.right_le_or

/-- Adding the group at bit `7 * i` to an accumulator that holds the groups below it. -/
theorem toNat_or_group {acc : UInt64} {b : UInt8} {i : Nat} (hacc : acc.toNat < 2 ^ (7 * i))
    (hi : i ≤ 9) (hfit : b.toNat * 2 ^ (7 * i) < 2 ^ 64) :
    (acc ||| (b.toUInt64 <<< UInt64.ofNat (7 * i))).toNat = acc.toNat + b.toNat * 2 ^ (7 * i) := by
  rw [UInt64.toNat_or, UInt64.toNat_shiftLeft, UInt8.toNat_toUInt64,
    UInt64.toNat_ofNat_of_lt' (by rw [UInt64.size]; omega),
    Nat.mod_eq_of_lt (show 7 * i < 64 by omega), Nat.shiftLeft_eq, Nat.mod_eq_of_lt hfit,
    Nat.or_comm, ← Nat.shiftLeft_eq, ← Nat.shiftLeft_add_eq_or_of_lt hacc, Nat.add_comm]

/-! ## Sizes -/

theorem putUvarintLoop_length_le (room : Nat) (x : UInt64) :
    (putUvarintLoop room x).length ≤ room := by
  induction room generalizing x with
  | zero => rfl
  | succ room ih =>
    rw [putUvarintLoop]
    split
    · rw [List.length_cons]
      exact Nat.succ_le_succ (ih _)
    · simp

theorem putUvarint_length_le (x : UInt64) : (putUvarint x).length ≤ maxVarintLen64 :=
  putUvarintLoop_length_le _ x

theorem putUvarint_ne_nil (x : UInt64) : putUvarint x ≠ [] := by
  rw [putUvarint, maxVarintLen64, putUvarintLoop]
  split <;> exact List.cons_ne_nil _ _

/-- `k + 1` groups for a number of that many groups. -/
theorem length_putUvarintLoop {k room : Nat} (hk : k < room) {x : UInt64}
    (hlow : k = 0 ∨ 128 ^ k ≤ x.toNat) (hhigh : x.toNat < 128 ^ (k + 1)) :
    (putUvarintLoop room x).length = k + 1 := by
  induction k generalizing room x with
  | zero =>
    obtain ⟨room, rfl⟩ := Nat.exists_eq_add_one.mpr hk
    have hsmall : ¬ 0x80 ≤ x := by
      rw [UInt64.le_iff_toNat_le]
      exact Nat.not_le.mpr hhigh
    unfold putUvarintLoop
    rw [if_neg hsmall]
    rfl
  | succ k ih =>
    obtain ⟨room, rfl⟩ := Nat.exists_eq_add_one.mpr (Nat.zero_lt_of_lt hk)
    have hge : 128 ^ (k + 1) ≤ x.toNat := hlow.resolve_left (Nat.succ_ne_zero k)
    have hbig : 0x80 ≤ x := by
      rw [UInt64.le_iff_toNat_le]
      exact (Nat.le_self_pow (Nat.succ_ne_zero k) 128).trans hge
    have hshift : (x >>> 7).toNat = x.toNat / 128 := by
      rw [UInt64.toNat_shiftRight, Nat.shiftRight_eq_div_pow]
      rfl
    rw [pow_succ] at hge hhigh
    unfold putUvarintLoop
    rw [if_pos hbig, List.length_cons, ih (Nat.lt_of_succ_lt_succ hk)]
    · right
      rw [hshift]
      exact (Nat.le_div_iff_mul_le (by decide)).mpr hge
    · rw [hshift]
      exact Nat.div_lt_of_lt_mul (by rw [Nat.mul_comm]; exact hhigh)

theorem length_putUvarint {k : Nat} (hk : k < 10) {x : UInt64}
    (hlow : k = 0 ∨ 128 ^ k ≤ x.toNat) (hhigh : x.toNat < 128 ^ (k + 1)) :
    (putUvarint x).length = k + 1 := length_putUvarintLoop hk hlow hhigh

/-- The groups read come out of the buffer, and there is at least one. -/
theorem readUvarintLoop_count {bs : Bytes} {i s m : Nat} {x v : UInt64}
    (h : readUvarintLoop i x s bs = .ok (v, m)) : i < m ∧ m ≤ i + bs.length := by
  induction bs generalizing i x s with
  | nil => cases h
  | cons b bs ih =>
    rw [Varint.readUvarintLoop] at h
    rw [List.length_cons]
    split at h
    · cases h
    · split at h
      · split at h
        · cases h
        · cases h
          omega
      · have := ih h
        omega

theorem readUvarintLoop_count_le {bs : Bytes} {i s m : Nat} {x v : UInt64}
    (h : readUvarintLoop i x s bs = .ok (v, m)) : i ≤ m :=
  (readUvarintLoop_count h).1.le

theorem readUvarint_count {bs : Bytes} {m : Nat} {v : UInt64} (h : readUvarint bs = .ok (v, m)) :
    0 < m ∧ m ≤ bs.length := by
  unfold readUvarint at h
  split at h
  · cases h
  · have hcount := readUvarintLoop_count h
    omega

/-! ## What the decoder accepts -/

/-- One number: every byte but the last has its top bit set. -/
def Terminated : Bytes → Prop
  | [] => False
  | b :: bs => if b < 0x80 then bs = [] else Terminated bs

/-- The sum of the 7-bit groups, without a bound. -/
def groupSum : Bytes → Nat
  | [] => 0
  | b :: bs => b.toNat % 128 + 128 * groupSum bs

theorem terminated_cons_small {b : UInt8} {bs : Bytes} (hb : b < 0x80) :
    Terminated (b :: bs) ↔ bs = [] := by
  unfold Terminated
  rw [if_pos hb]

theorem terminated_cons_large {b : UInt8} {bs : Bytes} (hb : ¬ b < 0x80) :
    Terminated (b :: bs) ↔ Terminated bs := by
  conv_lhs => unfold Terminated
  rw [if_neg hb]

/-- A number at the start of a byte string is its first byte, or goes on behind it. -/
theorem exists_terminated_small {P : Bytes → Prop} {b : UInt8} {bs : Bytes} (hb : b < 0x80) :
    (∃ gs, gs <+: b :: bs ∧ Terminated gs ∧ P gs) ↔ P [b] := by
  constructor
  · rintro ⟨gs, hpre, hgs, hp⟩
    cases gs with
    | nil => exact hgs.elim
    | cons g gs =>
      have hg : g = b := (List.cons_prefix_cons.mp hpre).1
      rw [hg, terminated_cons_small hb] at hgs
      rwa [hg, hgs] at hp
  · intro hp
    exact ⟨[b], ⟨bs, rfl⟩, (terminated_cons_small hb).mpr rfl, hp⟩

theorem exists_terminated_large {P : Bytes → Prop} {b : UInt8} {bs : Bytes} (hb : ¬ b < 0x80) :
    (∃ gs, gs <+: b :: bs ∧ Terminated gs ∧ P gs) ↔
      ∃ gs, gs <+: bs ∧ Terminated gs ∧ P (b :: gs) := by
  constructor
  · rintro ⟨gs, hpre, hgs, hp⟩
    cases gs with
    | nil => exact hgs.elim
    | cons g gs =>
      obtain ⟨hg, hrest⟩ := List.cons_prefix_cons.mp hpre
      rw [hg, terminated_cons_large hb] at hgs
      rw [hg] at hp
      exact ⟨gs, hrest, hgs, hp⟩
  · rintro ⟨gs, hpre, hgs, hp⟩
    exact ⟨b :: gs, List.cons_prefix_cons.mpr ⟨rfl, hpre⟩, (terminated_cons_large hb).mpr hgs, hp⟩

theorem readUvarintLoop_full (x v : UInt64) (s m : Nat) (bs : Bytes) :
    readUvarintLoop maxVarintLen64 x s bs ≠ .ok (v, m) := by
  intro h
  cases bs with
  | nil => cases h
  | cons b bs =>
    unfold readUvarintLoop at h
    rw [if_pos rfl] at h
    cases h

theorem toNat_group {b : UInt8} : (b &&& 0x7F).toNat = b.toNat % 128 := by
  rw [UInt8.toNat_and]
  exact Nat.and_two_pow_sub_one_eq_mod _ 7

/-- One more group takes seven more bits. -/
theorem next_group_lt {acc b i : Nat} (hacc : acc < 2 ^ (7 * i)) (hb : b < 128) :
    acc + b * 2 ^ (7 * i) < 2 ^ (7 * (i + 1)) := by
  calc acc + b * 2 ^ (7 * i)
      < 2 ^ (7 * i) + 127 * 2 ^ (7 * i) :=
        Nat.add_lt_add_of_lt_of_le hacc (Nat.mul_le_mul_right _ (by omega))
    _ = 2 ^ (7 * (i + 1)) := by rw [Nat.mul_succ, pow_add]; omega

/-- The group of the last byte leaves a 64-bit number exactly when it passes the check of the loop. -/
theorem last_group_fits {acc b i : Nat} (hi : i ≤ 9) (hacc : acc < 2 ^ (7 * i)) (hb : b < 128) :
    acc + b * 2 ^ (7 * i) < 2 ^ 64 ↔ ¬ (i = 9 ∧ 1 < b) := by
  by_cases h9 : i = 9
  · subst h9
    omega
  · -- Up to nine groups stay within 63 bits.
    have hgroup : acc + b * 2 ^ (7 * i) < 2 ^ 63 :=
      (next_group_lt hacc hb).trans_le (Nat.pow_le_pow_right (by omega) (by omega))
    exact iff_of_true (by omega) fun h ↦ h9 h.1

/-- The loop behind `i` groups, whose sum is in the accumulator. -/
theorem readUvarintLoop_iff {bs : Bytes} {i m : Nat} {acc v : UInt64} (hi : i ≤ 9)
    (hacc : acc.toNat < 2 ^ (7 * i)) :
    readUvarintLoop i acc (7 * i) bs = .ok (v, m) ↔
      ∃ gs, gs <+: bs ∧ Terminated gs ∧ i + gs.length = m ∧ m ≤ maxVarintLen64 ∧
        acc.toNat + groupSum gs * 2 ^ (7 * i) < 2 ^ 64 ∧
        v.toNat = acc.toNat + groupSum gs * 2 ^ (7 * i) := by
  induction bs generalizing i acc with
  | nil =>
    apply iff_of_false
    · intro h
      cases h
    · rintro ⟨gs, hpre, hgs, -⟩
      rw [List.prefix_nil.mp hpre] at hgs
      exact hgs
  | cons b bs ih =>
    have hten : ¬ i = maxVarintLen64 := by
      rw [maxVarintLen64]
      omega
    conv_lhs => unfold readUvarintLoop
    rw [if_neg hten]
    by_cases hb : b < 0x80
    · have hsmall : b.toNat < 128 := UInt8.lt_iff_toNat_lt.mp hb
      have hsum : groupSum [b] = b.toNat := Nat.mod_eq_of_lt hsmall
      have hcheck : (i = maxVarintLen64 - 1 ∧ 1 < b) ↔ (i = 9 ∧ 1 < b.toNat) := by
        rw [UInt8.lt_iff_toNat_lt]
        rfl
      -- The code's check on a tenth byte is the bound on the sum.
      have hfits := last_group_fits hi hacc hsmall
      rw [if_pos hb, exists_terminated_small hb, hsum]
      by_cases hover : i = maxVarintLen64 - 1 ∧ 1 < b
      · rw [if_pos hover]
        apply iff_of_false
        · intro h
          cases h
        · intro h
          exact hfits.mp h.2.2.1 (hcheck.mp hover)
      · have hlt := hfits.mpr fun h ↦ hover (hcheck.mpr h)
        have hval := toNat_or_group (b := b) hacc hi (by omega)
        rw [if_neg hover, Except.ok.injEq, Prod.mk.injEq, ← UInt64.toNat_inj, hval,
          List.length_singleton, maxVarintLen64]
        constructor
        · rintro ⟨hv, hm⟩
          exact ⟨hm, by omega, hlt, hv.symm⟩
        · rintro ⟨hm, -, -, hv⟩
          exact ⟨hv.symm, hm⟩
    · rw [if_neg hb, exists_terminated_large hb]
      by_cases h9 : i = 9
      · -- The tenth byte continues, and there is no eleventh.
        subst h9
        apply iff_of_false
        · exact readUvarintLoop_full _ _ _ _ _
        · rintro ⟨gs, -, hgs, hm, hle, -⟩
          cases gs with
          | nil => exact hgs
          | cons g gs =>
            rw [List.length_cons, List.length_cons] at hm
            rw [maxVarintLen64] at hle
            omega
      · -- The group joins the sum, and the loop goes on behind `i + 1` groups.
        have hlow : b.toNat % 128 * 2 ^ (7 * i) < 2 ^ 64 := by
          have hfits := last_group_fits hi hacc (Nat.mod_lt b.toNat (show 0 < 128 by decide))
          have hlt := hfits.mpr fun h ↦ h9 h.1
          omega
        have hval := toNat_or_group (b := b &&& 0x7F) hacc hi (by rw [toNat_group]; exact hlow)
        rw [toNat_group] at hval
        have hnext := next_group_lt hacc (Nat.mod_lt b.toNat (show 0 < 128 by decide))
        have hsum : ∀ gs, acc.toNat + b.toNat % 128 * 2 ^ (7 * i) +
            groupSum gs * 2 ^ (7 * (i + 1)) = acc.toNat + groupSum (b :: gs) * 2 ^ (7 * i) := by
          intro gs
          rw [groupSum, Nat.mul_succ, pow_add]
          ring
        rw [show 7 * i + 7 = 7 * (i + 1) by ring,
          ih (show i + 1 ≤ 9 by omega) (by rw [hval]; exact hnext), hval]
        simp only [hsum, List.length_cons, Nat.add_assoc, Nat.add_comm 1]

/-- The decoder accepts a terminated number of at most ten groups whose sum is below `2 ^ 64`, and
returns that sum and the number of groups. -/
theorem readUvarint_iff {bs : Bytes} {v : UInt64} {n : Nat} :
    readUvarint bs = .ok (v, n) ↔
      ∃ gs, gs <+: bs ∧ Terminated gs ∧ gs.length = n ∧ n ≤ maxVarintLen64 ∧
        groupSum gs < 2 ^ 64 ∧ v.toNat = groupSum gs := by
  unfold readUvarint
  by_cases hempty : bs.isEmpty
  · rw [if_pos hempty]
    apply iff_of_false
    · intro h
      cases h
    · rintro ⟨gs, hpre, hgs, -⟩
      rw [List.isEmpty_iff.mp hempty] at hpre
      rw [List.prefix_nil.mp hpre] at hgs
      exact hgs
  · have hloop := @readUvarintLoop_iff bs 0 n 0 v (Nat.zero_le 9) (by decide)
    have hzero : (0 : UInt64).toNat = 0 := rfl
    rw [if_neg hempty]
    simpa only [hzero, Nat.mul_zero, pow_zero, Nat.mul_one, Nat.zero_add] using hloop

/-! ## Round trip -/

theorem single_group {x : UInt64} (hx : ¬ 0x80 ≤ x) :
    Terminated [x.toUInt8] ∧ groupSum [x.toUInt8] = x.toNat := by
  rw [UInt64.not_le, UInt64.lt_iff_toNat_lt] at hx
  have hsmall : x.toNat < 128 := hx
  have hbyte : x.toUInt8.toNat = x.toNat := by
    rw [UInt64.toNat_toUInt8]
    exact Nat.mod_eq_of_lt (by omega)
  have hend : x.toUInt8 < 0x80 := by
    rw [UInt8.lt_iff_toNat_lt, hbyte]
    exact hsmall
  rw [terminated_cons_small hend, groupSum, groupSum, hbyte]
  exact ⟨rfl, Nat.mod_eq_of_lt hsmall⟩

/-- The encoder writes one number, the one it is given. -/
theorem putUvarintLoop_groups {room : Nat} {x : UInt64} (hx : x.toNat < 128 ^ (room + 1)) :
    Terminated (putUvarintLoop (room + 1) x) ∧
      groupSum (putUvarintLoop (room + 1) x) = x.toNat := by
  induction room generalizing x with
  | zero =>
    have hsmall : ¬ 0x80 ≤ x := by
      rw [UInt64.le_iff_toNat_le]
      exact Nat.not_le.mpr hx
    unfold putUvarintLoop
    rw [if_neg hsmall]
    exact single_group hsmall
  | succ room ih =>
    unfold putUvarintLoop
    by_cases hbig : 0x80 ≤ x
    · have hshift : (x >>> 7).toNat = x.toNat / 128 := by
        rw [UInt64.toNat_shiftRight, Nat.shiftRight_eq_div_pow]
        rfl
      have hrest : (x >>> 7).toNat < 128 ^ (room + 1) := by
        rw [hshift]
        apply Nat.div_lt_of_lt_mul
        rwa [Nat.mul_comm, ← pow_succ]
      obtain ⟨hgroups, hsum⟩ := ih hrest
      rw [if_pos hbig, terminated_cons_large (continued_group x), groupSum, ← toNat_group,
        toNat_low_group, hsum, hshift]
      exact ⟨hgroups, Nat.mod_add_div x.toNat 128⟩
    · rw [if_neg hbig]
      exact single_group hbig

theorem readUvarint_putUvarint (x : UInt64) (rest : Bytes) :
    readUvarint (putUvarint x ++ rest) = .ok (x, (putUvarint x).length) := by
  have hx : x.toNat < 128 ^ (9 + 1) := x.toNat_lt.trans_le (by decide)
  obtain ⟨hgroups, hsum⟩ := putUvarintLoop_groups hx
  apply readUvarint_iff.mpr
  exact ⟨putUvarint x, List.prefix_append _ _, hgroups, rfl, putUvarint_length_le x,
    hsum ▸ x.toNat_lt, hsum.symm⟩

/-! ## Zigzag -/

theorem sshiftRight_sign (x : BitVec 64) :
    x.sshiftRight 63 = if x.msb then BitVec.allOnes 64 else 0#64 := by
  ext i hi
  rw [BitVec.getElem_sshiftRight]
  by_cases h0 : i = 0
  · subst h0
    cases h : x.msb <;> rw [BitVec.msb_eq_getLsbD_last] at h <;> simpa using h
  · rw [dif_neg (by omega)]
    cases x.msb
    · simp
    · simp only [if_true, BitVec.getElem_allOnes]

/-- The zigzag value shifted down is the number, complemented when it is negative. -/
theorem zigzag_shiftRight (x : BitVec 64) :
    ((x <<< 1) ^^^ x.sshiftRight 63) >>> 1 = if x.msb then ~~~x else x := by
  have htop : x.getLsbD 63 = x.msb := (BitVec.msb_eq_getLsbD_last x).symm
  rw [sshiftRight_sign]
  cases h : x.msb
  · rw [if_neg Bool.false_ne_true, if_neg Bool.false_ne_true, BitVec.xor_zero]
    ext i hi
    by_cases h63 : i = 63
    · subst h63; simp; simpa [h] using htop
    · simp; grind
  · rw [if_pos rfl, if_pos rfl, BitVec.xor_allOnes]
    ext i hi
    by_cases h63 : i = 63
    · subst h63; simp; simpa [h] using htop
    · simp; grind

/-- The low zigzag bit is the sign. -/
theorem zigzag_low_bit (x : BitVec 64) :
    ((x <<< 1) ^^^ x.sshiftRight 63) &&& 1#64 ≠ 0#64 ↔ x.msb = true := by
  rw [sshiftRight_sign]
  cases h : x.msb
  · simp
    ext i hi
    simp
    grind
  · rw [if_pos rfl, BitVec.xor_allOnes]
    simp only [ne_eq, iff_true]
    intro hzero
    simpa using congrArg (fun z : BitVec 64 ↦ z[0]) hzero

theorem unzigzag_zigzag (x : Int64) :
    unzigzag ((x.toUInt64 <<< 1) ^^^ (x >>> 63).toUInt64) = x := by
  have hbits : ((x.toUInt64 <<< 1) ^^^ (x >>> 63).toUInt64).toBitVec =
      (x.toBitVec <<< 1) ^^^ x.toBitVec.sshiftRight 63 := rfl
  have hsign : ((x.toUInt64 <<< 1) ^^^ (x >>> 63).toUInt64) &&& 1 ≠ 0 ↔ x.toBitVec.msb = true := by
    rw [← zigzag_low_bit, ← hbits, ne_eq, ne_eq, ← UInt64.toBitVec_inj]
    rfl
  have hshift : (((x.toUInt64 <<< 1) ^^^ (x >>> 63).toUInt64) >>> 1).toBitVec =
      if x.toBitVec.msb then ~~~x.toBitVec else x.toBitVec := by
    rw [← zigzag_shiftRight, ← hbits]
    rfl
  rw [unzigzag, ← Int64.toBitVec_inj]
  by_cases hm : x.toBitVec.msb = true
  · rw [if_pos (hsign.mpr hm)]
    rw [if_pos hm] at hshift
    change ~~~(((x.toUInt64 <<< 1) ^^^ (x >>> 63).toUInt64) >>> 1).toBitVec = _
    rw [hshift, BitVec.not_not]
  · rw [if_neg (fun h ↦ hm (hsign.mp h))]
    rw [if_neg hm] at hshift
    exact hshift

theorem readVarint_putVarint (x : Int64) (rest : Bytes) :
    readVarint (putVarint x ++ rest) = .ok (x, (putVarint x).length) := by
  rw [readVarint, putVarint, readUvarint_putUvarint]
  dsimp only
  rw [unzigzag_zigzag]

end Varint
end MerlionTsdb
