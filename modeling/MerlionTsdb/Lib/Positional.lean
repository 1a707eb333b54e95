import MerlionTsdb.Lib.BitString

/-!
# Digits in the order of their numbers

A bit string cut into groups of one width gives the digits of its number, the most significant first.
Digit lists of one length stand in the lexicographic order exactly as the numbers do, whatever the
width of the groups.
-/

namespace Positional

open BitString

/-- The number of digits of a base, the most significant first. -/
def value (base : Nat) : List Nat → Nat
  | [] => 0
  | d :: ds => d * base ^ ds.length + value base ds

/-- The first `n` groups of `width` bits, as numbers. -/
def groups (width : Nat) : Nat → List Bool → List Nat
  | 0, _ => []
  | n + 1, l => toNat (l.take width) :: groups width n (l.drop width)

theorem value_lt {base : Nat} {ds : List Nat} (h : ∀ d ∈ ds, d < base) :
    value base ds < base ^ ds.length := by
  induction ds with
  | nil => exact Nat.one_pos
  | cons d ds ih =>
    obtain ⟨hd, hds⟩ := List.forall_mem_cons.mp h
    have hrest := ih hds
    rw [value, List.length_cons, pow_succ]
    calc d * base ^ ds.length + value base ds
        < d * base ^ ds.length + base ^ ds.length := by omega
      _ = (d + 1) * base ^ ds.length := by ring
      _ ≤ base * base ^ ds.length := Nat.mul_le_mul_right _ hd
      _ = base ^ ds.length * base := Nat.mul_comm _ _

/-- The first digit decides, and the others only between equal ones. -/
theorem lt_iff_value_lt {base : Nat} {as bs : List Nat} (hlen : as.length = bs.length)
    (has : ∀ d ∈ as, d < base) (hbs : ∀ d ∈ bs, d < base) :
    as < bs ↔ value base as < value base bs := by
  induction as generalizing bs with
  | nil =>
    rw [List.length_eq_zero_iff.mp hlen.symm]
    exact iff_of_false (List.lt_irrefl _) (Nat.lt_irrefl _)
  | cons a as ih =>
    cases bs with
    | nil => cases hlen
    | cons b bs =>
      obtain ⟨-, has'⟩ := List.forall_mem_cons.mp has
      obtain ⟨-, hbs'⟩ := List.forall_mem_cons.mp hbs
      have hlen' : as.length = bs.length := Nat.succ.inj hlen
      have hva := value_lt has'
      have hvb := value_lt hbs'
      rw [← hlen'] at hvb
      rw [List.cons_lt_cons_iff, ih hlen' has' hbs', value, value, ← hlen']
      -- A difference of one in the first digit outweighs all the others.
      rcases Nat.lt_trichotomy a b with hlt | heq | hgt
      · have hstep : (a + 1) * base ^ as.length ≤ b * base ^ as.length := Nat.mul_le_mul_right _ hlt
        rw [Nat.succ_mul] at hstep
        exact iff_of_true (.inl hlt) (by omega)
      · rw [heq]
        have hirrefl := Nat.lt_irrefl b
        omega
      · have hstep : (b + 1) * base ^ as.length ≤ a * base ^ as.length := Nat.mul_le_mul_right _ hgt
        rw [Nat.succ_mul] at hstep
        apply iff_of_false
        · rintro (hlt | ⟨heq, -⟩)
          · exact Nat.lt_asymm hgt hlt
          · exact Nat.ne_of_gt hgt heq
        · omega

/-! ## Groups of bits -/

@[simp] theorem length_groups (width n : Nat) (l : List Bool) : (groups width n l).length = n := by
  induction n generalizing l with
  | zero => rfl
  | succ n ih => rw [groups, List.length_cons, ih]

theorem lt_of_mem_groups {width n d : Nat} {l : List Bool} (h : d ∈ groups width n l) :
    d < 2 ^ width := by
  induction n generalizing l with
  | zero => cases h
  | succ n ih =>
    rcases List.mem_cons.mp h with rfl | h
    · apply (toNat_lt _).trans_le
      apply Nat.pow_le_pow_right (by decide)
      rw [List.length_take]
      exact Nat.min_le_left _ _
    · exact ih h

theorem value_groups {width n : Nat} {l : List Bool} (h : l.length = width * n) :
    value (2 ^ width) (groups width n l) = toNat l := by
  induction n generalizing l with
  | zero =>
    rw [List.length_eq_zero_iff.mp h]
    rfl
  | succ n ih =>
    rw [Nat.mul_succ] at h
    have hrest : (l.drop width).length = width * n := by
      rw [List.length_drop]
      omega
    rw [groups, value, length_groups, ih hrest, ← pow_mul, ← hrest, ← toNat_append,
      List.take_append_drop]

/-- The digits of two bit strings of one length stand as their numbers. -/
theorem groups_lt_iff {width n : Nat} {l l' : List Bool} (h : l.length = width * n)
    (h' : l'.length = width * n) : groups width n l < groups width n l' ↔ toNat l < toNat l' := by
  rw [← value_groups h, ← value_groups h']
  apply lt_iff_value_lt
  · rw [length_groups, length_groups]
  · exact fun d ↦ lt_of_mem_groups
  · exact fun d ↦ lt_of_mem_groups

/-- Group `i` is made of the bits from `width * i` on. -/
theorem getElem?_groups {width n i : Nat} {l : List Bool} (hi : i < n) :
    (groups width n l)[i]? = some (toNat ((l.drop (width * i)).take width)) := by
  induction n generalizing i l with
  | zero => cases hi
  | succ n ih =>
    cases i with
    | zero => rfl
    | succ i =>
      rw [groups, List.getElem?_cons_succ, ih (Nat.lt_of_succ_lt_succ hi), List.drop_drop,
        Nat.mul_succ, Nat.add_comm width]

/-! ## Digits written as characters -/

/-- A map that keeps the order of the digits, and tells them apart, keeps the order of the lists. -/
theorem map_lt_map_iff {α β : Type} [LT α] [LT β] {s : α → Prop} {f : α → β}
    (hlt : ∀ a b, s a → s b → (f a < f b ↔ a < b)) (heq : ∀ a b, s a → s b → (f a = f b ↔ a = b))
    {as bs : List α} (has : ∀ a ∈ as, s a) (hbs : ∀ b ∈ bs, s b) :
    as.map f < bs.map f ↔ as < bs := by
  induction as generalizing bs with
  | nil =>
    cases bs with
    | nil => exact iff_of_false (List.not_lt_nil _) (List.not_lt_nil _)
    | cons b bs => exact iff_of_true (List.nil_lt_cons _ _) (List.nil_lt_cons _ _)
  | cons a as ih =>
    cases bs with
    | nil => exact iff_of_false (List.not_lt_nil _) (List.not_lt_nil _)
    | cons b bs =>
      obtain ⟨ha, has'⟩ := List.forall_mem_cons.mp has
      obtain ⟨hb, hbs'⟩ := List.forall_mem_cons.mp hbs
      rw [List.map_cons, List.map_cons, List.cons_lt_cons_iff, List.cons_lt_cons_iff, ih has' hbs',
        hlt a b ha hb, heq a b ha hb]

end Positional
