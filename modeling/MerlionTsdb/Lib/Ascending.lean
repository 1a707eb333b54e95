import Mathlib.Data.List.Sort

/-!
# Sets as ascending lists

The algorithms of the standard library on sorted ranges: `std::unique` behind a sort,
`std::set_intersection` and `std::set_difference`.  On strictly ascending lists they are the
operations on the sets of the elements.
-/

namespace MerlionTsdb.Ascending

variable {α : Type} [LinearOrder α]

/-- Strictly ascending. -/
abbrev Asc (as : List α) : Prop := as.Pairwise (· < ·)

/-- `std::unique`: of equal neighbours one is left. -/
def unique : List α → List α
  | [] => []
  | a :: as => if as.head? = some a then unique as else a :: unique as

/-- A sort and `std::unique`. -/
def sortUnique (as : List α) : List α :=
  unique (as.insertionSort (· ≤ ·))

/-- `std::set_intersection`. -/
def intersection : List α → List α → List α
  | [], _ => []
  | a :: as, bs =>
    -- The second range advances to the first element that is not below `a`.
    match bs.dropWhile (· < a) with
    | [] => []
    | b :: bs => if a < b then intersection as (b :: bs) else a :: intersection as bs

/-- `std::set_difference`. -/
def difference : List α → List α → List α
  | [], _ => []
  | a :: as, bs =>
    match bs.dropWhile (· < a) with
    | [] => a :: as
    | b :: bs => if a < b then a :: difference as (b :: bs) else difference as bs

/-- Ascending lists of the same elements are equal. -/
theorem Asc.ext {as bs : List α} (ha : Asc as) (hb : Asc bs) (h : ∀ x, x ∈ as ↔ x ∈ bs) : as = bs :=
  ha.eq_of_mem_iff hb h

/-! ## Sorting -/

theorem mem_unique {x : α} {as : List α} : x ∈ unique as ↔ x ∈ as := by
  induction as with
  | nil => rfl
  | cons a as ih =>
    unfold unique
    split
    · rename_i hhead
      rw [ih, List.mem_cons]
      constructor
      · exact Or.inr
      · rintro (rfl | hmem)
        · exact List.mem_of_head? hhead
        · exact hmem
    · rw [List.mem_cons, List.mem_cons, ih]

theorem asc_unique {as : List α} (h : as.Pairwise (· ≤ ·)) : Asc (unique as) := by
  induction as with
  | nil => exact .nil
  | cons a as ih =>
    obtain ⟨ha, has⟩ := List.pairwise_cons.mp h
    unfold unique
    split
    · exact ih has
    · rename_i hhead
      apply List.Pairwise.cons _ (ih has)
      intro x hx
      rw [mem_unique] at hx
      apply lt_of_le_of_ne (ha x hx)
      rintro rfl
      -- The head of the rest is between `a` and `a`.
      cases as with
      | nil => cases hx
      | cons b as =>
        apply hhead
        have hab := ha b List.mem_cons_self
        have hba : b ≤ a := by
          rcases List.mem_cons.mp hx with rfl | hmem
          · exact le_rfl
          · exact (List.pairwise_cons.mp has).1 a hmem
        rw [List.head?_cons, le_antisymm hab hba]

theorem mem_sortUnique {x : α} {as : List α} : x ∈ sortUnique as ↔ x ∈ as := by
  rw [sortUnique, mem_unique, List.mem_insertionSort]

theorem asc_sortUnique (as : List α) : Asc (sortUnique as) :=
  asc_unique (List.pairwise_insertionSort (· ≤ ·) as)

/-! ## Two ranges -/

theorem mem_dropWhile_lt {a x : α} {bs : List α} (h : Asc bs) :
    x ∈ bs.dropWhile (· < a) ↔ x ∈ bs ∧ a ≤ x := by
  induction bs with
  | nil => simp
  | cons b bs ih =>
    obtain ⟨hb, hbs⟩ := List.pairwise_cons.mp h
    by_cases hlt : b < a
    · rw [List.dropWhile_cons_of_pos (by simpa using hlt), ih hbs, List.mem_cons]
      constructor
      · exact fun hx ↦ ⟨Or.inr hx.1, hx.2⟩
      · rintro ⟨rfl | hmem, hle⟩
        · exact absurd hlt (not_lt.mpr hle)
        · exact ⟨hmem, hle⟩
    · rw [List.dropWhile_cons_of_neg (by simpa using hlt)]
      refine ⟨fun hx ↦ ⟨hx, ?_⟩, And.left⟩
      rcases List.mem_cons.mp hx with rfl | hmem
      · exact not_lt.mp hlt
      · exact (not_lt.mp hlt).trans (hb x hmem).le

/-- Elements of the first range are only found behind the elements dropped for its head. -/
theorem mem_iff_mem_dropWhile {a x : α} {as bs : List α} (ha : Asc (a :: as)) (hb : Asc bs)
    (hx : x ∈ a :: as) : x ∈ bs ↔ x ∈ bs.dropWhile (· < a) := by
  rw [mem_dropWhile_lt hb, iff_self_and]
  intro _
  rcases List.mem_cons.mp hx with rfl | hx
  · exact le_rfl
  · exact ((List.pairwise_cons.mp ha).1 x hx).le

theorem asc_dropWhile {a : α} {bs : List α} (h : Asc bs) : Asc (bs.dropWhile (· < a)) :=
  h.sublist (List.dropWhile_sublist _)

theorem intersection_sublist (as bs : List α) : (intersection as bs).Sublist as := by
  induction as generalizing bs with
  | nil => exact List.Sublist.refl _
  | cons a as ih =>
    unfold intersection
    split
    · exact List.nil_sublist _
    · split
      · exact (ih _).cons a
      · exact (ih _).cons_cons a

theorem difference_sublist (as bs : List α) : (difference as bs).Sublist as := by
  induction as generalizing bs with
  | nil => exact List.Sublist.refl _
  | cons a as ih =>
    unfold difference
    split
    · exact List.Sublist.refl _
    · split
      · exact (ih _).cons_cons a
      · exact (ih _).cons a

theorem mem_intersection {x : α} {as bs : List α} (ha : Asc as) (hb : Asc bs) :
    x ∈ intersection as bs ↔ x ∈ as ∧ x ∈ bs := by
  induction as generalizing bs with
  | nil => simp [intersection]
  | cons a as ih =>
    obtain ⟨hlt, has⟩ := List.pairwise_cons.mp ha
    have hdrop := asc_dropWhile (a := a) hb
    -- Nothing below the head of the first list can be common.
    have hgoal : x ∈ a :: as ∧ x ∈ bs ↔ x ∈ a :: as ∧ x ∈ bs.dropWhile (· < a) :=
      and_congr_right fun hx ↦ mem_iff_mem_dropWhile ha hb hx
    have hlower : ∀ y ∈ bs.dropWhile (· < a), a ≤ y := fun y hy ↦ ((mem_dropWhile_lt hb).mp hy).2
    rw [hgoal]
    unfold intersection
    generalize bs.dropWhile (· < a) = rest at hdrop hlower
    cases rest with
    | nil => simp
    | cons b rest =>
      obtain ⟨hb', hrest⟩ := List.pairwise_cons.mp hdrop
      dsimp only
      split
      · rename_i hab
        rw [ih has hdrop]
        refine and_congr_left fun hx ↦ ?_
        rw [List.mem_cons, or_iff_right]
        rintro rfl
        rcases List.mem_cons.mp hx with rfl | hx
        · exact lt_irrefl _ hab
        · exact lt_irrefl _ (hab.trans (hb' _ hx))
      · rename_i hab
        have heq : b = a := le_antisymm (not_lt.mp hab) (hlower b List.mem_cons_self)
        subst heq
        rw [List.mem_cons, ih has hrest, List.mem_cons, List.mem_cons]
        constructor
        · rintro (rfl | ⟨hx, hx'⟩)
          · exact ⟨Or.inl rfl, Or.inl rfl⟩
          · exact ⟨Or.inr hx, Or.inr hx'⟩
        · rintro ⟨rfl | hx, hx'⟩
          · exact Or.inl rfl
          · rcases hx' with rfl | hx'
            · exact Or.inl rfl
            · exact Or.inr ⟨hx, hx'⟩

theorem mem_difference {x : α} {as bs : List α} (ha : Asc as) (hb : Asc bs) :
    x ∈ difference as bs ↔ x ∈ as ∧ x ∉ bs := by
  induction as generalizing bs with
  | nil => simp [difference]
  | cons a as ih =>
    obtain ⟨hlt, has⟩ := List.pairwise_cons.mp ha
    have hdrop := asc_dropWhile (a := a) hb
    have hgoal : x ∈ a :: as ∧ x ∉ bs ↔ x ∈ a :: as ∧ x ∉ bs.dropWhile (· < a) :=
      and_congr_right fun hx ↦ not_congr (mem_iff_mem_dropWhile ha hb hx)
    have hlower : ∀ y ∈ bs.dropWhile (· < a), a ≤ y := fun y hy ↦ ((mem_dropWhile_lt hb).mp hy).2
    rw [hgoal]
    unfold difference
    generalize bs.dropWhile (· < a) = rest at hdrop hlower
    cases rest with
    | nil => simp
    | cons b rest =>
      obtain ⟨hb', hrest⟩ := List.pairwise_cons.mp hdrop
      dsimp only
      split
      · -- `a` is missing from the second list, and stays.
        rename_i hab
        have hout : a ∉ b :: rest := by
          intro hmem
          rcases List.mem_cons.mp hmem with rfl | hmem
          · exact lt_irrefl _ hab
          · exact lt_irrefl _ (hab.trans (hb' _ hmem))
        rw [List.mem_cons, ih has hdrop, List.mem_cons (a := x) (b := a)]
        constructor
        · rintro (rfl | ⟨hx, hx'⟩)
          · exact ⟨Or.inl rfl, hout⟩
          · exact ⟨Or.inr hx, hx'⟩
        · rintro ⟨rfl | hx, hx'⟩
          · exact Or.inl rfl
          · exact Or.inr ⟨hx, hx'⟩
      · rename_i hab
        have heq : b = a := le_antisymm (not_lt.mp hab) (hlower b List.mem_cons_self)
        subst heq
        rw [ih has hrest, List.mem_cons, List.mem_cons, not_or]
        constructor
        · rintro ⟨hx, hx'⟩
          refine ⟨Or.inr hx, ?_, hx'⟩
          rintro rfl
          exact lt_irrefl _ (hlt _ hx)
        · rintro ⟨rfl | hx, hne, hx'⟩
          · exact absurd rfl hne
          · exact ⟨hx, hx'⟩

theorem asc_intersection {as : List α} (ha : Asc as) (bs : List α) : Asc (intersection as bs) :=
  ha.sublist (intersection_sublist as bs)

theorem asc_difference {as : List α} (ha : Asc as) (bs : List α) : Asc (difference as bs) :=
  ha.sublist (difference_sublist as bs)

/-! ## Rows with ascending keys -/

section

variable {ρ : Type} (key : ρ → α)

/-- The keys of the rows that `p` accepts. -/
def pick (rows : List ρ) (p : ρ → Bool) : List α := (rows.filter p).map key

omit [LinearOrder α] in
theorem mem_pick {rows : List ρ} {p : ρ → Bool} {a : α} :
    a ∈ pick key rows p ↔ ∃ r ∈ rows, p r = true ∧ key r = a := by
  unfold pick
  rw [List.mem_map]
  constructor
  · rintro ⟨r, hr, rfl⟩
    exact ⟨r, (List.mem_filter.mp hr).1, (List.mem_filter.mp hr).2, rfl⟩
  · rintro ⟨r, hr, hp, rfl⟩
    exact ⟨r, List.mem_filter.mpr ⟨hr, hp⟩, rfl⟩

variable {key} {rows : List ρ} (h : rows.Pairwise fun r s ↦ key r < key s)

include h

theorem asc_pick (p : ρ → Bool) : Asc (pick key rows p) :=
  List.pairwise_map.mpr (h.filter p)

/-- An ascending list of just these keys. -/
theorem eq_pick {as : List α} (has : Asc as) {p : ρ → Bool}
    (hmem : ∀ a, a ∈ as ↔ ∃ r ∈ rows, p r = true ∧ key r = a) : as = pick key rows p :=
  has.ext (asc_pick h p) fun a ↦ (hmem a).trans (mem_pick key).symm

theorem key_inj {r s : ρ} (hr : r ∈ rows) (hs : s ∈ rows) (heq : key r = key s) : r = s := by
  induction rows with
  | nil => cases hr
  | cons t rows ih =>
    obtain ⟨ht, hrest⟩ := List.pairwise_cons.mp h
    rcases List.mem_cons.mp hr with hrt | hr'
    · rcases List.mem_cons.mp hs with hst | hs'
      · rw [hrt, hst]
      · rw [hrt] at heq
        exact absurd heq (ht s hs').ne
    · rcases List.mem_cons.mp hs with hst | hs'
      · rw [hst] at heq
        exact absurd heq (ht r hr').ne'
      · exact ih hrest hr' hs'

theorem difference_pick (p q : ρ → Bool) :
    difference (pick key rows p) (pick key rows q) = pick key rows fun r ↦ p r && !q r := by
  apply eq_pick h (asc_difference (asc_pick h p) _)
  intro a
  rw [mem_difference (asc_pick h p) (asc_pick h q), mem_pick, mem_pick]
  constructor
  · rintro ⟨⟨r, hr, hp, rfl⟩, hout⟩
    refine ⟨r, hr, ?_, rfl⟩
    rw [hp, Bool.true_and, Bool.not_eq_true']
    by_contra hq
    exact hout ⟨r, hr, Bool.eq_true_of_not_eq_false hq, rfl⟩
  · rintro ⟨r, hr, hpq, rfl⟩
    rw [Bool.and_eq_true, Bool.not_eq_true'] at hpq
    refine ⟨⟨r, hr, hpq.1, rfl⟩, ?_⟩
    rintro ⟨s, hs, hq, heq⟩
    rw [key_inj h hs hr heq, hpq.2] at hq
    cases hq

theorem intersection_pick (p q : ρ → Bool) :
    intersection (pick key rows p) (pick key rows q) = pick key rows fun r ↦ p r && q r := by
  apply eq_pick h (asc_intersection (asc_pick h p) _)
  intro a
  rw [mem_intersection (asc_pick h p) (asc_pick h q), mem_pick, mem_pick]
  constructor
  · rintro ⟨⟨r, hr, hp, rfl⟩, ⟨s, hs, hq, heq⟩⟩
    refine ⟨r, hr, ?_, rfl⟩
    rw [key_inj h hs hr heq] at hq
    rw [hp, hq]
    rfl
  · rintro ⟨r, hr, hpq, rfl⟩
    rw [Bool.and_eq_true] at hpq
    exact ⟨⟨r, hr, hpq.1, rfl⟩, r, hr, hpq.2, rfl⟩

end

/-- The order of 32-bit words, on which the sorted ranges of series ids live. -/
instance linearOrderUInt32 : LinearOrder UInt32 where
  le_refl := UInt32.le_refl
  le_trans _ _ _ := UInt32.le_trans
  lt_iff_le_not_ge a b := by
    simp only [UInt32.le_iff_toNat_le, UInt32.lt_iff_toNat_lt]
    omega
  le_antisymm _ _ := UInt32.le_antisymm
  le_total a b := by
    simp only [UInt32.le_iff_toNat_le]
    omega
  toDecidableLE := inferInstance

end MerlionTsdb.Ascending
