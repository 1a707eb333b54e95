import MerlionTsdb.Lib.StableSort
import Mathlib.Data.List.Perm.Basic

/-!
# Sorting through an index

Parallel vectors are put in order by sorting their indices by a key.  Which of two indices with equal keys
comes first is open, as it is for `std::sort`.
-/

namespace MerlionTsdb.IndexSort

/-- The elements at the indices, in their order. -/
def permute {α : Type} (order : List Nat) (as : List α) : List α := order.filterMap fun i ↦ as[i]?

theorem permute_map {α β : Type} (f : α → β) (order : List Nat) (as : List α) :
    permute order (as.map f) = (permute order as).map f := by
  unfold permute
  rw [List.map_filterMap]
  simp only [List.getElem?_map]

theorem permute_range {α : Type} (as : List α) : permute (List.range as.length) as = as := by
  induction as with
  | nil => rfl
  | cons a as ih =>
    unfold permute at ih ⊢
    rw [List.length_cons, List.range_succ_eq_map, List.filterMap_cons_some (b := a) (by rfl),
      List.filterMap_map]
    exact congrArg (List.cons a) ih

/-- Every index once gives every element once. -/
theorem perm_permute {α : Type} {order : List Nat} {as : List α}
    (h : order.Perm (List.range as.length)) : (permute order as).Perm as := by
  have hperm := h.filterMap fun i ↦ as[i]?
  change (permute order as).Perm (permute (List.range as.length) as) at hperm
  rw [permute_range] at hperm
  exact hperm

/-- `std::sort` on the indices of a vector of keys. -/
structure Sorter (κ : Type) [LinearOrder κ] where
  order : List κ → List Nat
  perm : ∀ keys, (order keys).Perm (List.range keys.length)
  sorted : ∀ keys, (permute (order keys) keys).Pairwise (· ≤ ·)

variable {α κ : Type} [LinearOrder κ]

/-- The elements in the order of their keys. -/
theorem Sorter.pairwise_permute (s : Sorter κ) (key : α → κ) (as : List α) :
    (permute (s.order (as.map key)) as).Pairwise fun a b ↦ key a ≤ key b := by
  have hsorted := s.sorted (as.map key)
  rw [permute_map, List.pairwise_map] at hsorted
  exact hsorted

theorem Sorter.perm_permute (s : Sorter κ) (key : α → κ) (as : List α) :
    (permute (s.order (as.map key)) as).Perm as := by
  apply IndexSort.perm_permute
  have hperm := s.perm (as.map key)
  rw [List.length_map] at hperm
  exact hperm

/-- A sort that keeps the order of equal keys is one of them. -/
def Sorter.stable (κ : Type) [LinearOrder κ] : Sorter κ where
  order keys := (StableSort.stableSort Prod.fst keys.zipIdx).map Prod.snd
  perm keys := by
    have hperm : (StableSort.stableSort Prod.fst keys.zipIdx).Perm keys.zipIdx :=
      List.perm_insertionSort _ _
    rw [List.range_eq_range', ← List.zipIdx_map_snd 0 keys]
    exact hperm.map Prod.snd
  sorted keys := by
    have hsorted := StableSort.pairwise_stableSort Prod.fst keys.zipIdx
    have hsub : StableSort.stableSort Prod.fst keys.zipIdx ⊆ keys.zipIdx :=
      (List.perm_insertionSort _ _).subset
    generalize StableSort.stableSort Prod.fst keys.zipIdx = pairs at hsorted hsub
    -- An index stands for its key.
    have hkeys : permute (pairs.map Prod.snd) keys = pairs.map Prod.fst := by
      unfold permute
      rw [List.filterMap_map, ← List.filterMap_eq_map]
      apply List.filterMap_congr
      intro p hp
      exact (List.mem_zipIdx_iff_getElem?.mp (hsub hp))
    rw [hkeys, List.pairwise_map]
    exact hsorted

end MerlionTsdb.IndexSort
