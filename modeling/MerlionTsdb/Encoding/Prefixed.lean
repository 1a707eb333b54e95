import MerlionTsdb.Encoding.Span

/-!
# Values and strings by position

Where a uvarint, and a string behind its uvarint length, stand in a buffer.  The length of a string
is a 64-bit number from the bytes: `SlipAt` says that adding it to the position behind it wraps
around in `size_t`.
-/

namespace MerlionTsdb.Encoding

variable {bytes : Bytes} {i j k : Nat} {x y : UInt64}

/-- The uvarint at `i` has the value `x` and ends at `j`. -/
def UvarintAt (bytes : Bytes) (i : Nat) (x : UInt64) (j : Nat) : Prop :=
  ∃ n, Varint.readUvarint (bytes.drop i) = .ok (x, n) ∧ j = i + n

/-- The string at `i`, its length in front, ends at `j`. -/
def StringAt (bytes : Bytes) (i j : Nat) : Prop :=
  ∃ len k, UvarintAt bytes i len k ∧ j = k + len.toNat ∧ j ≤ bytes.length

/-- The string at `i` has a length that wraps its end around. -/
def SlipAt (bytes : Bytes) (i : Nat) : Prop :=
  ∃ len k, UvarintAt bytes i len k ∧ 2 ^ 64 ≤ k + len.toNat

/-- A value takes at least a byte, and all of them inside the buffer. -/
theorem UvarintAt.bounds (h : UvarintAt bytes i x j) : i < j ∧ j ≤ bytes.length := by
  obtain ⟨n, hread, rfl⟩ := h
  obtain ⟨hpos, hle⟩ := Varint.readUvarint_count hread
  rw [List.length_drop] at hle
  omega

theorem UvarintAt.unique (h : UvarintAt bytes i x j) (h' : UvarintAt bytes i y k) :
    x = y ∧ j = k := by
  obtain ⟨n, hread, rfl⟩ := h
  obtain ⟨m, hread', rfl⟩ := h'
  rw [hread, Except.ok.injEq, Prod.mk.injEq] at hread'
  obtain ⟨rfl, rfl⟩ := hread'
  exact ⟨rfl, rfl⟩

theorem StringAt.bounds (h : StringAt bytes i j) : i < j ∧ j ≤ bytes.length := by
  obtain ⟨len, k, hlen, rfl, hle⟩ := h
  have hbounds := hlen.bounds
  omega

theorem StringAt.unique (h : StringAt bytes i j) (h' : StringAt bytes i k) : j = k := by
  obtain ⟨len, m, hlen, rfl, -⟩ := h
  obtain ⟨len', m', hlen', rfl, -⟩ := h'
  obtain ⟨rfl, rfl⟩ := hlen.unique hlen'
  rfl

/-- A string inside a buffer that fits in memory does not wrap around. -/
theorem StringAt.not_slipAt (h : StringAt bytes i j) (hsize : bytes.length ≤ kMaxSize) :
    ¬ SlipAt bytes i := by
  obtain ⟨len, k, hlen, rfl, hle⟩ := h
  rintro ⟨len', k', hlen', hslip⟩
  obtain ⟨rfl, rfl⟩ := hlen.unique hlen'
  unfold kMaxSize at hsize
  omega

/-- What holds of some uvarint at `i` holds of the one there. -/
theorem UvarintAt.exists_iff (h : UvarintAt bytes i x k) {P : UInt64 → Nat → Prop} :
    (∃ y j, UvarintAt bytes i y j ∧ P y j) ↔ P x k := by
  constructor
  · rintro ⟨y, j, h', hp⟩
    have hsame := h.unique h'
    rw [hsame.1, hsame.2]
    exact hp
  · exact fun hp ↦ ⟨x, k, h, hp⟩

/-- A read inside the bytes finds a value or reports that there is none. -/
theorem readUv_cases (h : i ≤ bytes.length) :
    (∃ x n, UvarintAt bytes i x (i + n) ∧ readUv bytes i = .ok (x, n)) ∨
      ((∀ x j, ¬ UvarintAt bytes i x j) ∧
        readUv bytes i = .error (.error .illegalByteSequence)) := by
  unfold readUv
  rw [subspanFrom_of_le h]
  dsimp only
  cases hread : Varint.readUvarint (bytes.drop i) with
  | ok found =>
    left
    exact ⟨found.1, found.2, ⟨found.2, hread, rfl⟩, rfl⟩
  | error e =>
    right
    refine ⟨?_, rfl⟩
    intro x j hat
    cases hat with
    | intro n hn =>
      rw [hread] at hn
      cases hn.1

theorem UvarintAt.readUv {n : Nat} (h : UvarintAt bytes i x (i + n)) :
    readUv bytes i = .ok (x, n) := by
  have hbounds := h.bounds
  rcases readUv_cases (show i ≤ bytes.length by omega) with ⟨x', n', hat, hread⟩ | ⟨hnone, -⟩
  · have hsame := h.unique hat
    rw [hread, hsame.1, Nat.add_left_cancel hsame.2]
  · exact absurd h (hnone x (i + n))

end MerlionTsdb.Encoding
