import MerlionTsdb.Lib.BitString
import Mathlib.Logic.Function.Iterate

/-!
# Reflected cyclic redundancy checks

A register of `w` bits that takes a message bit by bit, each byte low bit first.  A bit falls off the
low end at each step, and the polynomial `p` is added when it differs from the message bit.  A step is
linear in the register, so a block of bits may be added to the register at once before it is shifted;
and it can be undone when the top bit of `p` is set, so a difference is never lost.
-/

namespace ReflectedCrc

open BitString

variable {w : Nat} (p : BitVec w)

/-- One step without input. -/
def shift (c : BitVec w) : BitVec w :=
  if c.getLsbD 0 then (c >>> 1) ^^^ p else c >>> 1

/-- One bit of the message. -/
def feed (c : BitVec w) (b : Bool) : BitVec w :=
  if c.getLsbD 0 ^^ b then (c >>> 1) ^^^ p else c >>> 1

def feedAll (c : BitVec w) (bits : List Bool) : BitVec w :=
  bits.foldl (feed p) c

/-- The `n` low bits of `v`, least significant first. -/
def lsbBits : Nat → Nat → List Bool
  | 0, _ => []
  | n + 1, v => v.testBit 0 :: lsbBits n (v / 2)

/-- The bits of a message. -/
def messageBits (bs : List UInt8) : List Bool :=
  bs.flatMap fun b ↦ lsbBits 8 b.toNat

/-- The check of a message, one bit at a time. -/
def crc (start xorOut : BitVec w) (bs : List UInt8) : BitVec w :=
  feedAll p start (messageBits bs) ^^^ xorOut

variable {p}

/-! ## One step -/

theorem getLsbD_shift (c : BitVec w) (i : Nat) :
    (shift p c).getLsbD i = (c.getLsbD (i + 1) ^^ (c.getLsbD 0 && p.getLsbD i)) := by
  unfold shift
  cases h : c.getLsbD 0
  · simp [Nat.add_comm]
  · simp [Nat.add_comm]

theorem shift_xor (a b : BitVec w) : shift p (a ^^^ b) = shift p a ^^^ shift p b := by
  apply BitVec.eq_of_getLsbD_eq
  intro i hi
  simp only [getLsbD_shift, BitVec.getLsbD_xor]
  cases a.getLsbD 0 <;> cases b.getLsbD 0 <;> simp <;> grind

/-- A clear low end only moves down. -/
theorem shift_of_even {c : BitVec w} (h : c.getLsbD 0 = false) : shift p c = c >>> 1 := by
  unfold shift
  rw [h, if_neg Bool.false_ne_true]

theorem feed_eq_shift (c : BitVec w) (b : Bool) :
    feed p c b = shift p (c ^^^ BitVec.ofNat w b.toNat) := by
  cases w with
  | zero => exact Subsingleton.elim _ _
  | succ w =>
    have hlow : (c ^^^ BitVec.ofNat (w + 1) b.toNat).getLsbD 0 = (c.getLsbD 0 ^^ b) := by
      cases b <;> simp
    have hdown : (c ^^^ BitVec.ofNat (w + 1) b.toNat) >>> 1 = c >>> 1 := by
      apply BitVec.eq_of_getLsbD_eq
      intro i hi
      have hbit : b.toNat.testBit (1 + i) = false :=
        Nat.testBit_lt_two_pow ((Bool.toNat_lt b).trans_le
          (Nat.le_self_pow (by omega) 2))
      rw [BitVec.getLsbD_ushiftRight, BitVec.getLsbD_ushiftRight, BitVec.getLsbD_xor,
        BitVec.getLsbD_ofNat, hbit, Bool.and_false, Bool.xor_false]
    unfold feed shift
    rw [hlow, hdown]

/-- The top bit tells which bit fell off, so the register before the step is determined. -/
theorem shift_injective (hp : p.msb = true) : Function.Injective (shift p) := by
  intro a b hab
  rw [BitVec.msb_eq_getLsbD_last] at hp
  have hbits : ∀ i, (shift p a).getLsbD i = (shift p b).getLsbD i := fun i ↦ by rw [hab]
  simp only [getLsbD_shift] at hbits
  have hzero : a.getLsbD 0 = b.getLsbD 0 := by
    have htop := hbits (w - 1)
    rw [hp, BitVec.getLsbD_of_ge a _ (by omega), BitVec.getLsbD_of_ge b _ (by omega)] at htop
    simpa using htop
  apply BitVec.eq_of_getLsbD_eq
  intro i hi
  cases i with
  | zero => exact hzero
  | succ i =>
    have hi' := hbits i
    rw [hzero] at hi'
    exact Bool.xor_left_inj.mp hi'

/-! ## Blocks of bits -/

theorem iterate_shift_xor (k : Nat) (a b : BitVec w) :
    (shift p)^[k] (a ^^^ b) = (shift p)^[k] a ^^^ (shift p)^[k] b := by
  induction k generalizing a b with
  | zero => rfl
  | succ k ih => rw [Function.iterate_succ_apply, Function.iterate_succ_apply,
      Function.iterate_succ_apply, shift_xor, ih]

/-- `k` steps move a register down whose `k` low bits are clear. -/
theorem iterate_shift_of_low_zero {k : Nat} {c : BitVec w} (h : ∀ i < k, c.getLsbD i = false) :
    (shift p)^[k] c = c >>> k := by
  induction k generalizing c with
  | zero => rfl
  | succ k ih =>
    have hrest : ∀ i < k, (c >>> 1).getLsbD i = false := by
      intro i hi
      rw [BitVec.getLsbD_ushiftRight]
      exact h _ (by omega)
    rw [Function.iterate_succ_apply, shift_of_even (h 0 (Nat.succ_pos k)), ih hrest,
      ← BitVec.shiftRight_add, Nat.add_comm]

/-- The bits that fall off decide what is added to the rest, which only moves down. -/
theorem iterate_shift_split (k : Nat) (c : BitVec w) :
    (shift p)^[k] c = (shift p)^[k] (BitVec.ofNat w (c.toNat % 2 ^ k)) ^^^ (c >>> k) := by
  have hlow : ∀ i, (BitVec.ofNat w (c.toNat % 2 ^ k)).getLsbD i =
      (decide (i < k) && c.getLsbD i) := by
    intro i
    rw [BitVec.getLsbD_ofNat, Nat.testBit_mod_two_pow, BitVec.testBit_toNat]
    by_cases hi : i < w
    · simp [hi]
    · simp [BitVec.getLsbD_of_ge c i (by omega)]
  -- The rest of the register, with its low end clear.
  have hrest : ∀ i < k, (c ^^^ BitVec.ofNat w (c.toNat % 2 ^ k)).getLsbD i = false := by
    intro i hi
    rw [BitVec.getLsbD_xor, hlow, decide_eq_true hi, Bool.true_and, Bool.xor_self]
  have hdown : (c ^^^ BitVec.ofNat w (c.toNat % 2 ^ k)) >>> k = c >>> k := by
    apply BitVec.eq_of_getLsbD_eq
    intro i hi
    rw [BitVec.getLsbD_ushiftRight, BitVec.getLsbD_ushiftRight, BitVec.getLsbD_xor, hlow,
      decide_eq_false (by omega), Bool.false_and, Bool.xor_false]
  have hsplit : c = BitVec.ofNat w (c.toNat % 2 ^ k) ^^^
      (c ^^^ BitVec.ofNat w (c.toNat % 2 ^ k)) := by
    rw [BitVec.xor_comm c, ← BitVec.xor_assoc, BitVec.xor_self, BitVec.zero_xor]
  conv_lhs => rw [hsplit]
  rw [iterate_shift_xor, iterate_shift_of_low_zero hrest, hdown]

theorem feedAll_append (c : BitVec w) (l r : List Bool) :
    feedAll p c (l ++ r) = feedAll p (feedAll p c l) r := List.foldl_append

/-- A block of at most `w` bits may be added to the register before it is shifted. -/
theorem feedAll_lsbBits {k v : Nat} (hk : k ≤ w) (hv : v < 2 ^ k) (c : BitVec w) :
    feedAll p c (lsbBits k v) = (shift p)^[k] (c ^^^ BitVec.ofNat w v) := by
  induction k generalizing v c with
  | zero =>
    have hzero : v = 0 := Nat.lt_one_iff.mp hv
    rw [hzero]
    exact (BitVec.xor_zero).symm
  | succ k ih =>
    have hhalf : v / 2 < 2 ^ k := Nat.div_lt_of_lt_mul (by rwa [Nat.mul_comm, ← pow_succ])
    -- The low bit of the block, and the block above it.
    have hblock : BitVec.ofNat w v =
        BitVec.ofNat w (v.testBit 0).toNat ^^^ BitVec.ofNat w (v / 2 * 2) := by
      apply BitVec.eq_of_getLsbD_eq
      intro i hi
      simp only [BitVec.getLsbD_xor, BitVec.getLsbD_ofNat, hi, decide_true, Bool.true_and]
      cases i with
      | zero => cases v.testBit 0 <;> simp
      | succ i =>
        have hbit : (v.testBit 0).toNat.testBit (i + 1) = false :=
          Nat.testBit_lt_two_pow ((Bool.toNat_lt _).trans_le (Nat.le_self_pow (by omega) 2))
        rw [hbit, Bool.false_xor, Nat.testBit_succ, Nat.testBit_succ,
          Nat.mul_div_cancel _ (by decide)]
    have heven : (BitVec.ofNat w (v / 2 * 2)).getLsbD 0 = false := by
      rw [BitVec.getLsbD_ofNat, Nat.testBit_zero]
      simp
    have hup : BitVec.ofNat w (v / 2 * 2) >>> 1 = BitVec.ofNat w (v / 2) := by
      apply BitVec.eq_of_getLsbD_eq
      intro i hi
      rw [BitVec.getLsbD_ushiftRight, BitVec.getLsbD_ofNat, BitVec.getLsbD_ofNat, Nat.add_comm 1,
        Nat.testBit_succ, Nat.mul_div_cancel _ (by decide)]
      by_cases hlast : i + 1 < w
      · simp [hi, hlast]
      · have hclear : (v / 2).testBit i = false :=
          Nat.testBit_lt_two_pow (hhalf.trans_le (Nat.pow_le_pow_right (by decide) (by omega)))
        rw [hclear, Bool.and_false, Bool.and_false]
    have hstep : shift p (c ^^^ BitVec.ofNat w v) =
        feed p c (v.testBit 0) ^^^ BitVec.ofNat w (v / 2) := by
      rw [feed_eq_shift, hblock, ← BitVec.xor_assoc, shift_xor, shift_of_even heven, hup]
    rw [Function.iterate_succ_apply, hstep, ← ih (by omega) hhalf]
    rfl

/-! ## Differences -/

theorem feed_injective (hp : p.msb = true) (b : Bool) : Function.Injective fun c ↦ feed p c b := by
  intro a c h
  dsimp only at h
  rw [feed_eq_shift, feed_eq_shift] at h
  exact (BitVec.xor_left_inj _).mp (shift_injective hp h)

/-- Two registers that differ still differ behind any message. -/
theorem feedAll_injective (hp : p.msb = true) (l : List Bool) :
    Function.Injective fun c ↦ feedAll p c l := by
  induction l with
  | nil => exact Function.injective_id
  | cons b l ih => exact ih.comp (feed_injective hp b)

/-! ## Messages -/

theorem messageBits_append (as bs : List UInt8) :
    messageBits (as ++ bs) = messageBits as ++ messageBits bs := List.flatMap_append

theorem lsbBits_add (m n v : Nat) : lsbBits (m + n) v = lsbBits m v ++ lsbBits n (v / 2 ^ m) := by
  induction m generalizing v with
  | zero => rw [Nat.zero_add, pow_zero, Nat.div_one]; rfl
  | succ m ih =>
    rw [Nat.add_right_comm, lsbBits, lsbBits, ih, Nat.div_div_eq_div_mul, pow_succ,
      Nat.mul_comm 2, List.cons_append]

theorem lsbBits_mod (n v : Nat) : lsbBits n (v % 2 ^ n) = lsbBits n v := by
  induction n generalizing v with
  | zero => rfl
  | succ n ih =>
    have hbit : (v % 2 ^ (n + 1)).testBit 0 = v.testBit 0 := by
      rw [Nat.testBit_mod_two_pow, decide_eq_true (Nat.succ_pos n), Bool.true_and]
    have hhalf : v % 2 ^ (n + 1) / 2 = v / 2 % 2 ^ n := by
      rw [pow_succ, Nat.mul_comm, Nat.mod_mul_right_div_self]
    rw [lsbBits, lsbBits, hbit, hhalf, ih]

/-- The bits of a message are those of its little-endian number. -/
theorem messageBits_eq (bs : List UInt8) :
    messageBits bs = lsbBits (8 * bs.length) (leNat bs) := by
  induction bs with
  | nil => rfl
  | cons b bs ih =>
    have hb : b.toNat < 256 := b.toNat_lt
    have hmod : (b.toNat + 256 * leNat bs) % 2 ^ 8 = b.toNat := by omega
    have hdiv : (b.toNat + 256 * leNat bs) / 2 ^ 8 = leNat bs := by omega
    rw [List.length_cons, Nat.mul_succ, Nat.add_comm (8 * bs.length), lsbBits_add, leNat, hdiv,
      ← lsbBits_mod 8, hmod, ← ih]
    rfl

theorem leNat_injective {as bs : List UInt8} (hlen : as.length = bs.length)
    (h : leNat as = leNat bs) : as = bs := by
  induction as generalizing bs with
  | nil => exact (List.length_eq_zero_iff.mp hlen.symm).symm
  | cons a as ih =>
    cases bs with
    | nil => cases hlen
    | cons b bs =>
      have ha : a.toNat < 256 := a.toNat_lt
      have hb : b.toNat < 256 := b.toNat_lt
      rw [leNat, leNat] at h
      have hbyte : a = b := UInt8.toNat_inj.mp (by omega)
      rw [hbyte, ih (Nat.succ.inj hlen) (by omega)]

/-- Two blocks that fit in the register and differ lead to different registers, whatever follows. -/
theorem feedAll_burst (hp : p.msb = true) {as bs : List UInt8} (hlen : as.length = bs.length)
    (hfit : 8 * as.length ≤ w) (c : BitVec w) (rest : List UInt8)
    (h : feedAll p c (messageBits (as ++ rest)) = feedAll p c (messageBits (bs ++ rest))) :
    as = bs := by
  rw [messageBits_append, messageBits_append, feedAll_append, feedAll_append] at h
  have hblock := feedAll_injective hp _ h
  have has := leNat_lt as
  have hbs := leNat_lt bs
  rw [← hlen] at hbs
  rw [messageBits_eq, messageBits_eq, ← hlen, feedAll_lsbBits hfit has, feedAll_lsbBits hfit hbs]
    at hblock
  have hword := (BitVec.xor_right_inj _).mp ((shift_injective hp).iterate _ hblock)
  have hnat := congrArg BitVec.toNat hword
  have hpow : 2 ^ (8 * as.length) ≤ 2 ^ w := Nat.pow_le_pow_right (by decide) hfit
  rw [BitVec.toNat_ofNat, BitVec.toNat_ofNat, Nat.mod_eq_of_lt (has.trans_le hpow),
    Nat.mod_eq_of_lt (hbs.trans_le hpow)] at hnat
  exact leNat_injective hlen hnat

end ReflectedCrc
