import Mathlib.Algebra.Group.Int.Defs
import Mathlib.Algebra.Group.Nat.Defs
import Mathlib.Data.List.Basic

/-!
# Signed arithmetic within 64 bits

The exact results of a run of signed additions and subtractions, and when they are all within the range
of `int64_t`.  A decoder knows its sums by their wrapped results.
-/

namespace MerlionTsdb

/-- The range of `int64_t`. -/
def InInt64 (z : Int) : Prop := -2 ^ 63 ≤ z ∧ z < 2 ^ 63

instance : DecidablePred InInt64 := fun _ ↦ inferInstanceAs (Decidable (_ ∧ _))

theorem inInt64_toInt (x : Int64) : InInt64 x.toInt :=
  ⟨x.le_toInt, x.toInt_lt⟩

/-- Small unsigned numbers are not negative as signed ones. -/
theorem toInt_toInt64_nonneg {x : UInt64} (h : x.toNat < 2 ^ 63) : 0 ≤ x.toInt64.toInt := by
  show 0 ≤ x.toBitVec.toInt
  rw [BitVec.toInt_eq_toNat_of_lt (by rw [UInt64.toNat_toBitVec]; omega)]
  exact Int.natCast_nonneg _

theorem toInt_sub_of_inInt64 {a b : Int64} (h : InInt64 (a.toInt - b.toInt)) :
    (a - b).toInt = a.toInt - b.toInt := by
  unfold InInt64 at h
  rw [Int64.toInt_sub]
  apply Int.bmod_eq_of_le <;> omega

/-- The summand that leads from `a` to `y` without leaving the range is their difference. -/
theorem toInt_of_add_eq {a d y : Int64} (hsum : a + d = y) (h : InInt64 (y.toInt - a.toInt)) :
    d.toInt = y.toInt - a.toInt := by
  have hd : d = y - a := by
    rw [← hsum, Int64.add_comm, Int64.add_sub_cancel]
  rw [hd, toInt_sub_of_inInt64 h]

/-- Such a sum is exact. -/
theorem inInt64_add {a d y : Int64} (hsum : a + d = y) (h : InInt64 (y.toInt - a.toInt)) :
    InInt64 (a.toInt + d.toInt) := by
  have hy := inInt64_toInt y
  rw [toInt_of_add_eq hsum h]
  unfold InInt64 at *
  omega

/-- All results of a run are within the range. -/
def AllIn (ops : List Int) : Prop := ∀ z ∈ ops, InInt64 z

instance (ops : List Int) : Decidable (AllIn ops) :=
  inferInstanceAs (Decidable (∀ z ∈ ops, InInt64 z))

@[simp] theorem allIn_nil : AllIn [] :=
  fun _ h ↦ absurd h List.not_mem_nil

@[simp] theorem allIn_cons {z : Int} {ops : List Int} :
    AllIn (z :: ops) ↔ InInt64 z ∧ AllIn ops :=
  List.forall_mem_cons

@[simp] theorem allIn_append {ops ops' : List Int} :
    AllIn (ops ++ ops') ↔ AllIn ops ∧ AllIn ops' :=
  List.forall_mem_append

theorem allIn_flatMap {α : Type} {f : α → List Int} {as : List α} :
    AllIn (as.flatMap f) ↔ ∀ a ∈ as, AllIn (f a) := by
  unfold AllIn
  simp only [List.mem_flatMap]
  constructor
  · exact fun h a ha z hz ↦ h z ⟨a, ha, hz⟩
  · rintro h z ⟨a, ha, hz⟩
    exact h a ha z hz

end MerlionTsdb
