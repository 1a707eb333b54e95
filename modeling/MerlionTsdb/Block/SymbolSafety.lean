import MerlionTsdb.Block.SectionSafety

/-!
# Symbol tables of any bytes

The positions of the symbols are found by adding lengths in `size_t`.  `parse` checks where each symbol
ends, but a length that wraps around ends well, and `lookup` and `all_symbols` then reach for a string
that is not in the file.
-/

namespace MerlionTsdb.Block

open Encoding

/-! ## Positions -/

/-- Where the code finds the symbol number `k`, from `start` on. -/
inductive SymbolAt (bytes : Bytes) (start : Nat) : Nat → Nat → Prop
  | first : SymbolAt bytes start 0 start
  | next {k pos j : Nat} {len : UInt64} (here : SymbolAt bytes start k pos)
    (hlen : UvarintAt bytes pos len j) : SymbolAt bytes start (k + 1) ((j + len.toNat) % 2 ^ 64)

/-- The symbol number `k` has a length, and ends at `limit` or before it, as the code computes it. -/
def SymbolEnds (bytes : Bytes) (start limit k : Nat) : Prop :=
  ∃ pos j len, SymbolAt bytes start k pos ∧ UvarintAt bytes pos len j ∧
    (j + len.toNat) % 2 ^ 64 ≤ limit

variable {bytes : Bytes} {start limit pos pos' k n : Nat}

theorem SymbolAt.unique (h : SymbolAt bytes start k pos) (h' : SymbolAt bytes start k pos') :
    pos = pos' := by
  induction h generalizing pos' with
  | first =>
    cases h'
    rfl
  | next _ hlen ih =>
    cases h' with
    | next here' hlen' =>
      have hpos := ih here'
      subst hpos
      have hsame := hlen.unique hlen'
      rw [hsame.1, hsame.2]

/-- Counting from the second symbol on. -/
theorem SymbolAt.tail {j : Nat} {len : UInt64} (hlen : UvarintAt bytes start len j)
    (h : SymbolAt bytes ((j + len.toNat) % 2 ^ 64) k pos) : SymbolAt bytes start (k + 1) pos := by
  induction h with
  | first => exact .next .first hlen
  | next _ hat ih => exact .next ih hat

/-- The positions that `parse` keeps, where the first symbol has the number `seen`: those of the multiples
of the stride. -/
def Sparse (bytes : Bytes) (start left seen : Nat) (offsets : List Nat) : Prop :=
  ∀ i k, k < left → seen + k = 32 * ((seen + 31) / 32 + i) →
    ∃ pos, offsets[i]? = some pos ∧ SymbolAt bytes start k pos

/-- A position kept behind the first symbol is that of a symbol one further on. -/
theorem Sparse.later {j left seen i k : Nat} {len : UInt64} {offsets : List Nat}
    (hlen : UvarintAt bytes pos len j)
    (h : Sparse bytes ((j + len.toNat) % 2 ^ 64) left (seen + 1) offsets) (hk : k < left)
    (hindex : seen + 1 + k = 32 * ((seen + 1 + 31) / 32 + i)) :
    ∃ p, offsets[i]? = some p ∧ SymbolAt bytes pos (k + 1) p := by
  obtain ⟨p, hp, hat⟩ := h i k hk hindex
  exact ⟨p, hp, hat.tail hlen⟩

theorem Sparse.cons {j left seen : Nat} {len : UInt64} {offsets : List Nat}
    (hlen : UvarintAt bytes pos len j)
    (h : Sparse bytes ((j + len.toNat) % 2 ^ 64) left (seen + 1) offsets) :
    Sparse bytes pos (left + 1) seen
      (if seen % kSymbolSparseStride = 0 then pos :: offsets else offsets) := by
  have hstride : kSymbolSparseStride = 32 := rfl
  intro i k hk hindex
  rw [hstride]
  by_cases hkept : seen % 32 = 0
  · rw [if_pos hkept]
    cases i with
    | zero =>
      -- The first position kept is that of the first symbol.
      have hzero : k = 0 := by omega
      subst hzero
      exact ⟨pos, rfl, .first⟩
    | succ i =>
      cases k with
      | zero => omega
      | succ k => exact h.later (i := i) (k := k) hlen (by omega) (by omega)
  · rw [if_neg hkept]
    cases k with
    | zero => omega
    | succ k => exact h.later (i := i) (k := k) hlen (by omega) (by omega)

/-- The position of the first symbol. -/
def IndexSymbolTable.dataStart (t : IndexSymbolTable) : Nat := t.payloadOffset + 4

/-- The symbols as they lie in the file. -/
structure SymbolArea where
  bytes : Bytes
  version : UInt8
  count : UInt32
  start : Nat

theorem SymbolEnds.mono {limit' : Nat} (h : SymbolEnds bytes start limit k) (hle : limit ≤ limit') :
    SymbolEnds bytes start limit' k := by
  cases h with
  | intro p h =>
    cases h with
    | intro j h =>
      cases h with
      | intro len h => exact ⟨p, j, len, h.1, h.2.1, h.2.2.trans hle⟩

variable {memory : Nat}

/-- The reference is one of a symbol. -/
def HasSymbol (s : SymbolArea) (ref : UInt32) : Prop :=
  if s.version = kIndexFormatV1 then ∃ j, StringAt s.bytes ref.toNat j else ref < s.count

namespace Parsed

variable {t : IndexSymbolTable}

end Parsed
end MerlionTsdb.Block
