import MerlionTsdb.Encoding.Varint
import MerlionTsdb.Lib.BitString

/-!
# Big-endian words

The fixed-width big-endian helpers that the page, record, chunk and index files each define for
themselves.
-/

namespace MerlionTsdb.Encoding

open BitString

def putBe16 (x : UInt16) : Bytes :=
  [(x >>> 8).toUInt8, x.toUInt8]

def putBe32 (x : UInt32) : Bytes :=
  [(x >>> 24).toUInt8, (x >>> 16).toUInt8, (x >>> 8).toUInt8, x.toUInt8]

def putBe64 (x : UInt64) : Bytes :=
  [(x >>> 56).toUInt8, (x >>> 48).toUInt8, (x >>> 40).toUInt8, (x >>> 32).toUInt8,
    (x >>> 24).toUInt8, (x >>> 16).toUInt8, (x >>> 8).toUInt8, x.toUInt8]

/-- The readers index their span directly; the callers have checked its length. -/
def readBe16 (b : Bytes) : UInt16 :=
  (b.getD 0 0).toUInt16 <<< 8 ||| (b.getD 1 0).toUInt16

def readBe32 (b : Bytes) : UInt32 :=
  (b.getD 0 0).toUInt32 <<< 24 ||| (b.getD 1 0).toUInt32 <<< 16 |||
    (b.getD 2 0).toUInt32 <<< 8 ||| (b.getD 3 0).toUInt32

def readBe64 (b : Bytes) : UInt64 :=
  (b.getD 0 0).toUInt64 <<< 56 ||| (b.getD 1 0).toUInt64 <<< 48 |||
    (b.getD 2 0).toUInt64 <<< 40 ||| (b.getD 3 0).toUInt64 <<< 32 |||
    (b.getD 4 0).toUInt64 <<< 24 ||| (b.getD 5 0).toUInt64 <<< 16 |||
    (b.getD 6 0).toUInt64 <<< 8 ||| (b.getD 7 0).toUInt64

theorem putBe16_eq (x : UInt16) : putBe16 x = beBytes 2 x.toNat := by
  simp only [putBe16, beBytes, ← UInt8.toNat_inj, List.cons.injEq, UInt16.toNat_toUInt8,
    UInt16.toNat_shiftRight, UInt8.toNat_ofNat']
  exact ⟨rfl, rfl, trivial⟩

theorem putBe32_eq (x : UInt32) : putBe32 x = beBytes 4 x.toNat := by
  simp only [putBe32, beBytes, ← UInt8.toNat_inj, List.cons.injEq, UInt32.toNat_toUInt8,
    UInt32.toNat_shiftRight, UInt8.toNat_ofNat']
  exact ⟨rfl, rfl, rfl, rfl, trivial⟩

theorem putBe64_eq (x : UInt64) : putBe64 x = beBytes 8 x.toNat := by
  simp only [putBe64, beBytes, ← UInt8.toNat_inj, List.cons.injEq, UInt64.toNat_toUInt8,
    UInt64.toNat_shiftRight, UInt8.toNat_ofNat']
  exact ⟨rfl, rfl, rfl, rfl, rfl, rfl, rfl, rfl, trivial⟩

@[simp] theorem length_putBe16 (x : UInt16) : (putBe16 x).length = 2 := rfl

@[simp] theorem length_putBe32 (x : UInt32) : (putBe32 x).length = 4 := rfl

@[simp] theorem length_putBe64 (x : UInt64) : (putBe64 x).length = 8 := rfl

/-- A byte moved up inside a word that has room for it. -/
theorem byte_shiftLeft_mod (b : UInt8) {s n : Nat} (h : s + 8 ≤ n) :
    b.toNat <<< s % 2 ^ n = b.toNat <<< s := by
  have hb : b.toNat < 2 ^ 8 := b.toNat_lt
  rw [Nat.mod_eq_of_lt]
  rw [Nat.shiftLeft_eq]
  calc b.toNat * 2 ^ s < 2 ^ 8 * 2 ^ s := Nat.mul_lt_mul_of_pos_right hb (Nat.two_pow_pos _)
    _ ≤ 2 ^ n := by
      rw [← pow_add]
      exact Nat.pow_le_pow_right (by omega) (by omega)

theorem toNat_readBe16 (b₀ b₁ : UInt8) (bs : Bytes) :
    (readBe16 (b₀ :: b₁ :: bs)).toNat = beNat [b₀, b₁] := by
  change (b₀.toUInt16 <<< 8 ||| b₁.toUInt16).toNat = _
  rw [UInt16.toNat_or, UInt16.toNat_shiftLeft, UInt8.toNat_toUInt16, UInt8.toNat_toUInt16]
  change b₀.toNat <<< 8 % 2 ^ 16 ||| b₁.toNat = _
  rw [byte_shiftLeft_mod _ (by omega)]
  simp only [beNat_cons_eq_or, show beNat [] = 0 from rfl, Nat.or_zero]
  rfl

theorem toNat_readBe32 (b₀ b₁ b₂ b₃ : UInt8) (bs : Bytes) :
    (readBe32 (b₀ :: b₁ :: b₂ :: b₃ :: bs)).toNat = beNat [b₀, b₁, b₂, b₃] := by
  change (b₀.toUInt32 <<< 24 ||| b₁.toUInt32 <<< 16 ||| b₂.toUInt32 <<< 8 ||| b₃.toUInt32).toNat = _
  simp only [UInt32.toNat_or, UInt32.toNat_shiftLeft, UInt8.toNat_toUInt32]
  change b₀.toNat <<< 24 % 2 ^ 32 ||| b₁.toNat <<< 16 % 2 ^ 32 ||| b₂.toNat <<< 8 % 2 ^ 32 |||
    b₃.toNat = _
  rw [byte_shiftLeft_mod _ (by omega), byte_shiftLeft_mod _ (by omega),
    byte_shiftLeft_mod _ (by omega)]
  simp only [beNat_cons_eq_or, show beNat [] = 0 from rfl, Nat.or_zero, ← Nat.or_assoc]
  rfl

theorem toNat_readBe64 (b₀ b₁ b₂ b₃ b₄ b₅ b₆ b₇ : UInt8) (bs : Bytes) :
    (readBe64 (b₀ :: b₁ :: b₂ :: b₃ :: b₄ :: b₅ :: b₆ :: b₇ :: bs)).toNat =
      beNat [b₀, b₁, b₂, b₃, b₄, b₅, b₆, b₇] := by
  change (b₀.toUInt64 <<< 56 ||| b₁.toUInt64 <<< 48 ||| b₂.toUInt64 <<< 40 |||
    b₃.toUInt64 <<< 32 ||| b₄.toUInt64 <<< 24 ||| b₅.toUInt64 <<< 16 ||| b₆.toUInt64 <<< 8 |||
    b₇.toUInt64).toNat = _
  simp only [UInt64.toNat_or, UInt64.toNat_shiftLeft, UInt8.toNat_toUInt64]
  change b₀.toNat <<< 56 % 2 ^ 64 ||| b₁.toNat <<< 48 % 2 ^ 64 ||| b₂.toNat <<< 40 % 2 ^ 64 |||
    b₃.toNat <<< 32 % 2 ^ 64 ||| b₄.toNat <<< 24 % 2 ^ 64 ||| b₅.toNat <<< 16 % 2 ^ 64 |||
    b₆.toNat <<< 8 % 2 ^ 64 ||| b₇.toNat = _
  rw [byte_shiftLeft_mod _ (by omega), byte_shiftLeft_mod _ (by omega),
    byte_shiftLeft_mod _ (by omega), byte_shiftLeft_mod _ (by omega),
    byte_shiftLeft_mod _ (by omega), byte_shiftLeft_mod _ (by omega),
    byte_shiftLeft_mod _ (by omega)]
  simp only [beNat_cons_eq_or, show beNat [] = 0 from rfl, Nat.or_zero, ← Nat.or_assoc]
  rfl

theorem readBe16_putBe16 (x : UInt16) (rest : Bytes) : readBe16 (putBe16 x ++ rest) = x := by
  rw [← UInt16.toNat_inj, putBe16, List.cons_append, List.cons_append, toNat_readBe16,
    ← putBe16, putBe16_eq, beNat_beBytes_of_lt x.toNat_lt]

theorem readBe32_putBe32 (x : UInt32) (rest : Bytes) : readBe32 (putBe32 x ++ rest) = x := by
  rw [← UInt32.toNat_inj, putBe32]
  simp only [List.cons_append]
  rw [toNat_readBe32, ← putBe32, putBe32_eq, beNat_beBytes_of_lt x.toNat_lt]

theorem readBe64_putBe64 (x : UInt64) (rest : Bytes) : readBe64 (putBe64 x ++ rest) = x := by
  rw [← UInt64.toNat_inj, putBe64]
  simp only [List.cons_append]
  rw [toNat_readBe64, ← putBe64, putBe64_eq, beNat_beBytes_of_lt x.toNat_lt]

end MerlionTsdb.Encoding
