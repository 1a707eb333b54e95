import Mathlib.Data.List.Basic

/-!
# Binary search

`std::lower_bound`: the loop that halves the range.  On a list whose elements that satisfy `p` come
first, it finds the first that does not.
-/

namespace BinarySearch

variable {α : Type}

/-- The loop, over the `len` elements from `first` on; a unit of fuel for each round. -/
def lowerBoundLoop (p : α → Bool) (xs : List α) : Nat → Nat → Nat → Nat
  | 0, first, _ => first
  | fuel + 1, first, len =>
    if len = 0 then first
    else
      let half := len / 2
      if xs[first + half]?.any p then lowerBoundLoop p xs fuel (first + half + 1) (len - half - 1)
      else lowerBoundLoop p xs fuel first half

/-- The index of the first element that does not satisfy `p`, or the length. -/
def lowerBound (p : α → Bool) (xs : List α) : Nat :=
  lowerBoundLoop p xs xs.length 0 xs.length

variable {p : α → Bool} {xs : List α}

/-- `k` parts the elements that satisfy `p` from those that do not. -/
def PartsAt (p : α → Bool) (xs : List α) (k : Nat) : Prop :=
  k ≤ xs.length ∧ ∀ i x, xs[i]? = some x → (p x = true ↔ i < k)

/-- The parting index stays in the range, which shrinks in every round. -/
theorem lowerBoundLoop_eq {k : Nat} (hk : PartsAt p xs k) {fuel first len : Nat} (hfuel : len ≤ fuel)
    (hfirst : first ≤ k) (hlast : k ≤ first + len) (hlen : first + len ≤ xs.length) :
    lowerBoundLoop p xs fuel first len = k := by
  induction fuel generalizing first len with
  | zero =>
    unfold lowerBoundLoop
    omega
  | succ fuel ih =>
    unfold lowerBoundLoop
    split
    · omega
    · rename_i hmore
      have hmid : first + len / 2 < xs.length := by omega
      have hat : xs[first + len / 2]? = some xs[first + len / 2] := List.getElem?_eq_getElem hmid
      have hside := hk.2 _ _ hat
      dsimp only
      rw [hat, Option.any_some]
      split
      · -- The middle lies in front of the parting index, or not.
        rename_i hp
        have hbelow := hside.mp hp
        apply ih <;> omega
      · rename_i hp
        have habove := mt hside.mpr hp
        apply ih <;> omega

/-- If no element that satisfies `p` follows one that does not, the list is parted where the first
such element stands. -/
theorem exists_partsAt (h : xs.Pairwise fun a b ↦ p b = true → p a = true) :
    ∃ k, PartsAt p xs k ∧ xs[k]? = xs.find? fun x ↦ !p x := by
  induction xs with
  | nil => exact ⟨0, ⟨Nat.le_refl 0, fun i x hx ↦ by cases hx⟩, rfl⟩
  | cons a xs ih =>
    obtain ⟨ha, hxs⟩ := List.pairwise_cons.mp h
    cases hp : p a with
    -- The boundary is the one behind, one place further on.
    | true =>
      obtain ⟨k, ⟨hk, hparts⟩, hfind⟩ := ih hxs
      refine ⟨k + 1, ⟨Nat.succ_le_succ hk, fun i x hx ↦ ?_⟩, ?_⟩
      · cases i with
        | zero =>
          cases hx
          exact iff_of_true hp (Nat.succ_pos k)
        | succ i =>
          rw [hparts i x hx]
          omega
      · rw [List.find?_cons_of_neg (by simp [hp])]
        exact hfind
    -- The first element fails the test, and with it all that follow.
    | false =>
      refine ⟨0, ⟨Nat.zero_le _, fun i x hx ↦ iff_of_false ?_ (Nat.not_lt_zero i)⟩, ?_⟩
      · cases i with
        | zero =>
          cases hx
          rw [hp]
          exact Bool.false_ne_true
        | succ i =>
          intro hx'
          have hpa := ha x (List.mem_of_getElem? hx) hx'
          rw [hp] at hpa
          exact Bool.false_ne_true hpa
      · rw [List.find?_cons_of_pos (by simp [hp])]
        rfl

theorem getElem?_lowerBound (h : xs.Pairwise fun a b ↦ p b = true → p a = true) :
    xs[lowerBound p xs]? = xs.find? fun x ↦ !p x := by
  obtain ⟨k, hk, hfind⟩ := exists_partsAt h
  have hloop : lowerBound p xs = k :=
    lowerBoundLoop_eq hk (Nat.le_refl _) (Nat.zero_le k) (by rw [Nat.zero_add]; exact hk.1)
      (by omega)
  rw [hloop, hfind]

end BinarySearch
