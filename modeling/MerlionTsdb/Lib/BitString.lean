import Mathlib.Data.Nat.Bitwise
import Mathlib.Data.List.Basic
import Mathlib.Tactic.Ring

/-!
# Bit strings

Bit strings as lists of booleans, most significant bit first, with the numbers and the byte strings
they stand for.  `ofNat n v` writes the `n` low bits of `v`, `toNat` reads a bit string back, and
`ofBytes` lays the bits of a byte string end to end.  The lemmas say how these compose with the
shifts and masks that packed readers and writers use.
-/

namespace BitString

/-- The `n` low bits of `v`, most significant first. -/
def ofNat : Nat → Nat → List Bool
  | 0, _ => []
  | n + 1, v => v.testBit n :: ofNat n v

/-- The number a bit string denotes. -/
def toNat : List Bool → Nat
  | [] => 0
  | b :: l => b.toNat * 2 ^ l.length + toNat l

/-- The bits of a byte string. -/
def ofBytes (bs : List UInt8) : List Bool :=
  bs.flatMap fun b ↦ ofNat 8 b.toNat

/-- The big-endian number a byte string denotes. -/
def beNat : List UInt8 → Nat
  | [] => 0
  | b :: bs => b.toNat * 2 ^ (8 * bs.length) + beNat bs

/-- The `n` low bytes of `v`, most significant first. -/
def beBytes : Nat → Nat → List UInt8
  | 0, _ => []
  | n + 1, v => UInt8.ofNat (v >>> (8 * n)) :: beBytes n v

/-- The little-endian number a byte string denotes. -/
def leNat : List UInt8 → Nat
  | [] => 0
  | b :: bs => b.toNat + 256 * leNat bs

/-! ## Bits of a number -/

@[simp] theorem ofNat_zero_length (v : Nat) : ofNat 0 v = [] := rfl

@[simp] theorem length_ofNat (n v : Nat) : (ofNat n v).length = n := by
  induction n with
  | zero => rfl
  | succ n ih => rw [ofNat, List.length_cons, ih]

theorem ofNat_congr {n v w : Nat} (h : ∀ i < n, v.testBit i = w.testBit i) :
    ofNat n v = ofNat n w := by
  induction n with
  | zero => rfl
  | succ n ih =>
    rw [ofNat, ofNat, h n (Nat.lt_succ_self n), ih fun i hi ↦ h i (Nat.lt_succ_of_lt hi)]

theorem ofNat_mod {n m v : Nat} (h : n ≤ m) : ofNat n (v % 2 ^ m) = ofNat n v := by
  apply ofNat_congr
  intro i hi
  rw [Nat.testBit_mod_two_pow, decide_eq_true (by omega), Bool.true_and]

theorem ofNat_add (m n v : Nat) : ofNat (m + n) v = ofNat m (v >>> n) ++ ofNat n v := by
  induction m with
  | zero => rw [Nat.zero_add, ofNat, List.nil_append]
  | succ m ih =>
    rw [Nat.add_right_comm, ofNat, ofNat, ih, List.cons_append, Nat.testBit_shiftRight,
      Nat.add_comm m n]

theorem ofNat_zero_value (n : Nat) : ofNat n 0 = List.replicate n false := by
  induction n with
  | zero => rfl
  | succ n ih => rw [ofNat, ih, Nat.zero_testBit, List.replicate_succ]

/-- Shifting left appends zero bits. -/
theorem ofNat_shiftLeft (m n v : Nat) :
    ofNat (m + n) (v <<< n) = ofNat m v ++ List.replicate n false := by
  rw [ofNat_add, Nat.shiftLeft_shiftRight, ← ofNat_zero_value]
  congr 1
  apply ofNat_congr
  intro i hi
  rw [Nat.testBit_shiftLeft, decide_eq_false (by omega), Bool.false_and, Nat.zero_testBit]

/-- A low part smaller than `2 ^ n` fills the bits freed by a left shift. -/
theorem ofNat_shiftLeft_or {n y : Nat} (m v : Nat) (hy : y < 2 ^ n) :
    ofNat (m + n) (v <<< n ||| y) = ofNat m v ++ ofNat n y := by
  rw [ofNat_add]
  congr 1
  · rw [Nat.shiftRight_or_distrib, Nat.shiftLeft_shiftRight, Nat.shiftRight_eq_div_pow,
      Nat.div_eq_of_lt hy, Nat.or_zero]
  · apply ofNat_congr
    intro i hi
    rw [Nat.testBit_or, Nat.testBit_shiftLeft, decide_eq_false (by omega), Bool.false_and,
      Bool.false_or]

/-! ## Numbers of bit strings -/

theorem toNat_lt (l : List Bool) : toNat l < 2 ^ l.length := by
  induction l with
  | nil => simp [toNat]
  | cons b l ih =>
    rw [toNat, List.length_cons, pow_succ]
    cases b
    · simp only [Bool.toNat_false, Nat.zero_mul]; omega
    · simp only [Bool.toNat_true, Nat.one_mul]; omega

theorem toNat_append (l r : List Bool) :
    toNat (l ++ r) = toNat l * 2 ^ r.length + toNat r := by
  induction l with
  | nil => simp [toNat]
  | cons b l ih =>
    rw [List.cons_append, toNat, toNat, ih, List.length_append, pow_add]
    ring

theorem toNat_ofNat (n v : Nat) : toNat (ofNat n v) = v % 2 ^ n := by
  induction n with
  | zero => simp [toNat, Nat.mod_one]
  | succ n ih =>
    rw [ofNat, toNat, ih, length_ofNat, Nat.mod_pow_succ, Nat.toNat_testBit]
    ring

theorem toNat_ofNat_of_lt {n v : Nat} (h : v < 2 ^ n) : toNat (ofNat n v) = v := by
  rw [toNat_ofNat, Nat.mod_eq_of_lt h]

theorem ofNat_toNat (l : List Bool) : ofNat l.length (toNat l) = l := by
  induction l with
  | nil => rfl
  | cons b l ih =>
    have hl := toNat_lt l
    have hor : toNat (b :: l) = b.toNat <<< l.length ||| toNat l := by
      rw [toNat, ← Nat.shiftLeft_add_eq_or_of_lt hl, Nat.shiftLeft_eq]
    rw [hor, List.length_cons, Nat.add_comm, ofNat_shiftLeft_or 1 _ hl, ih]
    cases b <;> rfl

theorem ofNat_inj {n v w : Nat} (h : ofNat n v = ofNat n w) : v % 2 ^ n = w % 2 ^ n := by
  rw [← toNat_ofNat, h, toNat_ofNat]

/-- Equal bit strings of one width below `2 ^ n` denote equal numbers. -/
theorem eq_of_ofNat_eq {n v w : Nat} (hv : v < 2 ^ n) (hw : w < 2 ^ n)
    (h : ofNat n v = ofNat n w) : v = w := by
  rw [← Nat.mod_eq_of_lt hv, ofNat_inj h, Nat.mod_eq_of_lt hw]

/-! ## Byte strings -/

@[simp] theorem ofBytes_nil : ofBytes [] = [] := rfl

theorem ofBytes_cons (b : UInt8) (bs : List UInt8) :
    ofBytes (b :: bs) = ofNat 8 b.toNat ++ ofBytes bs := List.flatMap_cons

theorem ofBytes_append (as bs : List UInt8) : ofBytes (as ++ bs) = ofBytes as ++ ofBytes bs :=
  List.flatMap_append

theorem ofBytes_singleton (b : UInt8) : ofBytes [b] = ofNat 8 b.toNat := by
  rw [ofBytes_cons, ofBytes_nil, List.append_nil]

@[simp] theorem length_ofBytes (bs : List UInt8) : (ofBytes bs).length = 8 * bs.length := by
  induction bs with
  | nil => rfl
  | cons b bs ih =>
    rw [ofBytes_cons, List.length_append, ih, length_ofNat, List.length_cons]
    omega

theorem ofBytes_ne_nil {bs : List UInt8} (h : bs ≠ []) : ofBytes bs ≠ [] := by
  intro hnil
  have hlen := congrArg List.length hnil
  rw [length_ofBytes, List.length_nil] at hlen
  exact h (List.length_eq_zero_iff.mp (by omega))

theorem byte_eq_of_ofNat_eq {a b : UInt8} (h : ofNat 8 a.toNat = ofNat 8 b.toNat) : a = b :=
  UInt8.toNat_inj.mp (eq_of_ofNat_eq a.toNat_lt b.toNat_lt h)

/-- A byte string whose bits start with those of `as` starts with `as`. -/
theorem split_of_ofBytes_eq {as bs : List UInt8} {l : List Bool}
    (h : ofBytes bs = ofBytes as ++ l) : ∃ cs, bs = as ++ cs ∧ ofBytes cs = l := by
  induction as generalizing bs with
  | nil => exact ⟨bs, rfl, h⟩
  | cons a as ih =>
    cases bs with
    | nil =>
      have hlen := congrArg List.length h
      rw [List.length_append, length_ofBytes, length_ofBytes, List.length_cons] at hlen
      rw [List.length_nil] at hlen
      omega
    | cons b bs =>
      rw [ofBytes_cons, ofBytes_cons, List.append_assoc] at h
      obtain ⟨hbyte, htail⟩ := List.append_inj h (by rw [length_ofNat, length_ofNat])
      obtain ⟨cs, hbs, hcs⟩ := ih htail
      rw [byte_eq_of_ofNat_eq hbyte, hbs]
      exact ⟨cs, rfl, hcs⟩

theorem beNat_lt (bs : List UInt8) : beNat bs < 2 ^ (8 * bs.length) := by
  induction bs with
  | nil => simp [beNat]
  | cons b bs ih =>
    have hb : b.toNat + 1 ≤ 2 ^ 8 := b.toNat_lt
    rw [beNat, List.length_cons, Nat.mul_succ, Nat.add_comm (8 * bs.length), pow_add]
    calc b.toNat * 2 ^ (8 * bs.length) + beNat bs
        < b.toNat * 2 ^ (8 * bs.length) + 2 ^ (8 * bs.length) := by omega
      _ = (b.toNat + 1) * 2 ^ (8 * bs.length) := by ring
      _ ≤ 2 ^ 8 * 2 ^ (8 * bs.length) := Nat.mul_le_mul_right _ hb

theorem beNat_cons_eq_or (b : UInt8) (bs : List UInt8) :
    beNat (b :: bs) = b.toNat <<< (8 * bs.length) ||| beNat bs := by
  rw [beNat, ← Nat.shiftLeft_add_eq_or_of_lt (beNat_lt bs), Nat.shiftLeft_eq]

theorem ofNat_beNat (bs : List UInt8) : ofNat (8 * bs.length) (beNat bs) = ofBytes bs := by
  induction bs with
  | nil => rfl
  | cons b bs ih =>
    rw [beNat_cons_eq_or, List.length_cons, Nat.mul_succ, Nat.add_comm (8 * bs.length),
      ofNat_shiftLeft_or 8 _ (beNat_lt bs), ih, ofBytes_cons]

@[simp] theorem length_beBytes (n v : Nat) : (beBytes n v).length = n := by
  induction n with
  | zero => rfl
  | succ n ih => rw [beBytes, List.length_cons, ih]

theorem beNat_beBytes (n v : Nat) : beNat (beBytes n v) = v % 2 ^ (8 * n) := by
  induction n with
  | zero => rw [Nat.mul_zero, pow_zero, Nat.mod_one]; rfl
  | succ n ih =>
    have hbyte : (UInt8.ofNat (v >>> (8 * n))).toNat = v / 2 ^ (8 * n) % 2 ^ 8 := by
      rw [UInt8.toNat_ofNat', Nat.shiftRight_eq_div_pow]
    rw [beBytes, beNat, ih, length_beBytes, hbyte, Nat.mul_succ, pow_add, Nat.mod_mul,
      Nat.mul_comm (2 ^ (8 * n)), Nat.add_comm]

theorem beNat_beBytes_of_lt {n v : Nat} (h : v < 2 ^ (8 * n)) : beNat (beBytes n v) = v := by
  rw [beNat_beBytes, Nat.mod_eq_of_lt h]

theorem leNat_lt (bs : List UInt8) : leNat bs < 2 ^ (8 * bs.length) := by
  induction bs with
  | nil => simp [leNat]
  | cons b bs ih =>
    have hb : b.toNat < 256 := b.toNat_lt
    rw [leNat, List.length_cons, Nat.mul_succ, pow_add]
    omega

/-- One byte picked out by a mask. -/
theorem and_byte_mask (x s : Nat) : x &&& 255 <<< s = ((x >>> s) % 256) <<< s := by
  apply Nat.eq_of_testBit_eq
  intro i
  rw [Nat.testBit_and, Nat.testBit_shiftLeft, Nat.testBit_shiftLeft, show 256 = 2 ^ 8 from rfl,
    Nat.testBit_mod_two_pow, Nat.testBit_shiftRight, show 255 = 2 ^ 8 - 1 from rfl,
    Nat.testBit_two_pow_sub_one]
  by_cases hi : s ≤ i
  · rw [Nat.add_sub_cancel' hi, Bool.and_comm (x.testBit i), Bool.and_assoc]
  · simp [hi]

end BitString
