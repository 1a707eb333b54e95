import MerlionTsdb.Encoding.Varint
import Mathlib.Order.Defs.LinearOrder

/-!
# Strings

`std::string` as a byte string of at most `PTRDIFF_MAX` bytes, in the order of unsigned bytes.
-/

namespace MerlionTsdb

/-- `PTRDIFF_MAX`, the largest size of a byte container. -/
def kMaxSize : Nat := 2 ^ 63 - 1

/-- A vector gets room for `n` elements of `size` bytes: it can hold them, and one allocation gets `memory`
bytes at most. -/
def Reserves (memory size n : Nat) : Prop := size * n ≤ kMaxSize ∧ size * n ≤ memory

instance (memory size n : Nat) : Decidable (Reserves memory size n) :=
  inferInstanceAs (Decidable (_ ∧ _))

/-- Without a limit on memory, a vector gets room for what it can hold. -/
theorem reserves_of_le {size n : Nat} (h : size * n ≤ kMaxSize) : Reserves kMaxSize size n := ⟨h, h⟩

structure Str where
  bytes : Bytes
  length_le : bytes.length ≤ kMaxSize
  deriving DecidableEq

namespace Str

@[ext] theorem ext {a b : Str} (h : a.bytes = b.bytes) : a = b := by
  cases a
  cases b
  cases h
  rfl

/-- A string of the given bytes, if they fit. -/
def ofBytes (bytes : Bytes) : Option Str :=
  if h : bytes.length ≤ kMaxSize then some ⟨bytes, h⟩ else none

@[simp] theorem ofBytes_bytes (s : Str) : ofBytes s.bytes = some s :=
  dif_pos s.length_le

def empty : Str := ⟨[], Nat.zero_le _⟩

/-- A string of one byte. -/
def single (b : UInt8) : Str where
  bytes := [b]
  length_le := by
    show 1 ≤ kMaxSize
    decide

instance : LT Str := ⟨fun a b ↦ a.bytes < b.bytes⟩

instance : LE Str := ⟨fun a b ↦ a.bytes ≤ b.bytes⟩

instance : LinearOrder Str where
  le_refl a := List.le_refl a.bytes
  le_trans _ _ _ := List.le_trans
  lt_iff_le_not_ge a b := by
    change a.bytes < b.bytes ↔ a.bytes ≤ b.bytes ∧ ¬ b.bytes ≤ a.bytes
    rw [List.not_le]
    exact ⟨fun h ↦ ⟨List.le_of_lt h, h⟩, And.right⟩
  le_antisymm _ _ hab hba := Str.ext (List.le_antisymm hab hba)
  le_total a b := List.le_total a.bytes b.bytes
  toDecidableLE a b := inferInstanceAs (Decidable (a.bytes ≤ b.bytes))
  toDecidableLT a b := inferInstanceAs (Decidable (a.bytes < b.bytes))
  toDecidableEq := inferInstance

end Str
end MerlionTsdb
