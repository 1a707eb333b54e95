import Mathlib.Data.List.Basic

/-!
# Data placed in a buffer

What stands at an offset of a list, and stays there while the list grows.
-/

namespace MerlionTsdb

variable {α : Type}

/-- `data` stands at `off` in `buf`. -/
def Placed (buf : List α) (off : Nat) (data : List α) : Prop :=
  ∃ front rest : List α, buf = front ++ (data ++ rest) ∧ front.length = off

namespace Placed

variable {buf data a b : List α} {off : Nat}

theorem intro (front data rest : List α) : Placed (front ++ (data ++ rest)) front.length data :=
  ⟨front, rest, rfl, rfl⟩

/-- What was just appended. -/
theorem of_append (buf data : List α) : Placed (buf ++ data) buf.length data :=
  ⟨buf, [], by simp, rfl⟩

/-- Growing the buffer moves nothing. -/
theorem append (h : Placed buf off data) (more : List α) : Placed (buf ++ more) off data := by
  obtain ⟨front, rest, rfl, hfront⟩ := h
  exact ⟨front, rest ++ more, by simp, hfront⟩

theorem left (h : Placed buf off (a ++ b)) : Placed buf off a := by
  obtain ⟨front, rest, rfl, hfront⟩ := h
  exact ⟨front, b ++ rest, by simp, hfront⟩

theorem right (h : Placed buf off (a ++ b)) : Placed buf (off + a.length) b := by
  obtain ⟨front, rest, rfl, hfront⟩ := h
  exact ⟨front ++ a, rest, by simp, by simp [hfront]⟩

theorem end_le (h : Placed buf off data) : off + data.length ≤ buf.length := by
  obtain ⟨front, rest, rfl, hfront⟩ := h
  simp [← hfront]

theorem drop_eq (h : Placed buf off data) : ∃ rest, buf.drop off = data ++ rest := by
  obtain ⟨front, rest, rfl, hfront⟩ := h
  exact ⟨rest, by rw [← hfront, List.drop_left]⟩

theorem take_drop (h : Placed buf off data) : (buf.drop off).take data.length = data := by
  obtain ⟨rest, hrest⟩ := h.drop_eq
  rw [hrest, List.take_left]

end Placed
end MerlionTsdb
