import MerlionTsdb.Block.Index
import MerlionTsdb.Encoding.Prefixed

/-!
# Framed sections of any bytes

Offsets and lengths in an index file are 64-bit numbers, and the ends of sections are computed from them in
`size_t`.  Where such an end wraps around, it passes the bounds check, and the slice that follows leaves
the file.
-/

namespace MerlionTsdb.Block

open Encoding

variable {bytes payload : Bytes} {off k len : Nat}

/-! ## Sections -/

/-- A payload of `len` bytes at `k`, with its checksum behind it. -/
def CheckedAt (bytes : Bytes) (k len : Nat) (payload : Bytes) : Prop :=
  k + len + 4 ≤ bytes.length ∧ payload = (bytes.drop k).take len ∧
    Crc32c.compute payload = readBe32 ((bytes.drop (k + len)).take 4)

/-- A section behind a 32-bit length. -/
def SectionAt (bytes : Bytes) (off : Nat) (payload : Bytes) : Prop :=
  off + 4 ≤ bytes.length ∧
    CheckedAt bytes (off + 4) (readBe32 ((bytes.drop off).take 4)).toNat payload

theorem CheckedAt.length_le (h : CheckedAt bytes k len payload) : payload.length ≤ bytes.length := by
  rw [h.2.1, List.length_take, List.length_drop]
  omega

theorem SectionAt.length_le (h : SectionAt bytes off payload) : payload.length ≤ bytes.length :=
  h.2.length_le

theorem SectionAt.end_le (h : SectionAt bytes off payload) : off + 8 + payload.length ≤ bytes.length := by
  have hlen := congrArg List.length h.2.2.1
  rw [List.length_take, List.length_drop] at hlen
  have hend := h.2.1
  omega

theorem SectionAt.unique {payload' : Bytes} (h : SectionAt bytes off payload)
    (h' : SectionAt bytes off payload') : payload = payload' := by
  rw [h.2.2.1, h'.2.2.1]

/-- What holds of some section at `off` holds of the one there. -/
theorem SectionAt.exists_iff (h : SectionAt bytes off payload) {P : Bytes → Prop} :
    (∃ payload', SectionAt bytes off payload' ∧ P payload') ↔ P payload := by
  constructor
  · rintro ⟨payload', h', hp⟩
    rw [h.unique h']
    exact hp
  · exact fun hp ↦ ⟨payload, h, hp⟩

/-- A section behind a uvarint length.  The largest length stands for all bytes behind it, and the checksum
is then looked up one byte in front of them. -/
def UvSectionAt (bytes : Bytes) (off : Nat) (payload : Bytes) : Prop :=
  ∃ len k, UvarintAt bytes off len k ∧
    (CheckedAt bytes k len.toNat payload ∨
      (len.toNat = kDynamicExtent ∧ k + 3 ≤ bytes.length ∧ payload = bytes.drop k ∧
        Crc32c.compute payload = readBe32 ((bytes.drop (k - 1)).take 4)))

theorem UvSectionAt.length_le (h : UvSectionAt bytes off payload) : payload.length ≤ bytes.length := by
  cases h with
  | intro len h =>
    cases h with
    | intro k h =>
      rcases h.2 with hchecked | ⟨-, -, hdrop, -⟩
      · exact hchecked.length_le
      · rw [hdrop, List.length_drop]
        omega

end MerlionTsdb.Block
