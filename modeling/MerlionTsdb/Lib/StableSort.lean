import Mathlib.Data.List.Sort
import Mathlib.Order.Defs.LinearOrder

/-!
# Sorting by a key

`std::stable_sort` by a key, and the loop that keeps the last element of each run of equal keys.  For
every key, the sort keeps the order of its elements, and the loop keeps the last of them.
-/

namespace MerlionTsdb.StableSort

variable {α β : Type} [LinearOrder β] (key : α → β)

/-- `std::stable_sort`. -/
def stableSort (as : List α) : List α := as.insertionSort fun a b ↦ key a ≤ key b

/-- The loop over the runs: `first` starts the current run, and `last` is its last element so far. -/
def lastsFrom (first last : α) : List α → List α
  | [] => [last]
  | a :: as => if key a = key first then lastsFrom first a as else last :: lastsFrom a a as

/-- The last element of each run of equal keys. -/
def lasts : List α → List α
  | [] => []
  | a :: as => lastsFrom key a a as

/-! ## The sort -/

theorem pairwise_stableSort (as : List α) : (stableSort key as).Pairwise fun a b ↦ key a ≤ key b := by
  have : Std.Total fun a b : α ↦ key a ≤ key b := ⟨fun a b ↦ le_total (key a) (key b)⟩
  have : IsTrans α fun a b ↦ key a ≤ key b := ⟨fun _ _ _ ↦ le_trans⟩
  exact List.pairwise_insertionSort _ as

theorem filter_orderedInsert (k : β) (a : α) (as : List α) :
    (as.orderedInsert (fun a b ↦ key a ≤ key b) a).filter (key · = k) =
      (a :: as).filter (key · = k) := by
  induction as with
  | nil => rfl
  | cons b as ih =>
    rw [List.orderedInsert]
    split
    · rfl
    · rename_i hlt
      -- `a` passes `b`, so at most one of them has the key.
      rw [List.filter_cons, ih]
      by_cases hb : key b = k
      · have ha : key a ≠ k := by
          intro ha
          rw [ha, hb] at hlt
          exact hlt (le_refl k)
        rw [List.filter_cons_of_neg (by simpa using ha), List.filter_cons_of_neg (by simpa using ha),
          List.filter_cons_of_pos (by simpa using hb), if_pos (by simpa using hb)]
      · rw [if_neg (by simpa using hb), List.filter_cons, List.filter_cons,
          List.filter_cons_of_neg (by simpa using hb)]

/-- The elements of one key keep their order. -/
theorem filter_stableSort (k : β) (as : List α) :
    (stableSort key as).filter (key · = k) = as.filter (key · = k) := by
  induction as with
  | nil => rfl
  | cons a as ih =>
    show ((stableSort key as).orderedInsert _ a).filter _ = _
    rw [filter_orderedInsert, List.filter_cons, ih, List.filter_cons]

theorem orderedInsert_append {a : α} {bs : List α} (h : ∀ b ∈ bs, key a ≤ key b) (as : List α) :
    (as ++ bs).orderedInsert (fun a b ↦ key a ≤ key b) a =
      as.orderedInsert (fun a b ↦ key a ≤ key b) a ++ bs := by
  induction as with
  | nil =>
    cases bs with
    | nil => rfl
    | cons b bs => exact if_pos (h b List.mem_cons_self)
  | cons c as ih =>
    rw [List.cons_append, List.orderedInsert, List.orderedInsert]
    split
    · rfl
    · rw [ih, List.cons_append]

/-- Elements behind all others stay there. -/
theorem stableSort_append {as bs : List α} (h : ∀ a ∈ as, ∀ b ∈ bs, key a ≤ key b) :
    stableSort key (as ++ bs) = stableSort key as ++ stableSort key bs := by
  induction as with
  | nil => rfl
  | cons a as ih =>
    show (stableSort key (as ++ bs)).orderedInsert _ a = (stableSort key as).orderedInsert _ a ++ _
    rw [ih fun a' ha' ↦ h a' (List.mem_cons_of_mem _ ha'), orderedInsert_append]
    intro b hb
    exact h a List.mem_cons_self b ((List.mem_insertionSort _).mp hb)

/-! ## Runs -/

variable {key}

/-- Behind a run come greater keys only. -/
theorem lastsFrom_lt {first last : α} {as : List α} (hrun : key last = key first)
    (hsorted : (first :: as).Pairwise fun a b ↦ key a ≤ key b) :
    (lastsFrom key first last as).Pairwise (fun a b ↦ key a < key b) ∧
      ∀ a ∈ lastsFrom key first last as, key first ≤ key a := by
  induction as generalizing first last with
  | nil =>
    refine ⟨List.pairwise_singleton _ _, fun a ha ↦ ?_⟩
    rw [List.mem_singleton.mp ha, hrun]
  | cons b as ih =>
    obtain ⟨hfirst, hrest⟩ := List.pairwise_cons.mp hsorted
    obtain ⟨hb, has⟩ := List.pairwise_cons.mp hrest
    unfold lastsFrom
    split
    · rename_i hsame
      exact ih hsame (List.pairwise_cons.mpr
        ⟨fun a ha ↦ hfirst a (List.mem_cons_of_mem _ ha), has⟩)
    · rename_i hdiff
      obtain ⟨hlt, hge⟩ := ih rfl (List.pairwise_cons.mpr ⟨hb, has⟩)
      have hstep : key first < key b :=
        lt_of_le_of_ne (hfirst b List.mem_cons_self) (Ne.symm hdiff)
      refine ⟨List.pairwise_cons.mpr ⟨fun a ha ↦ ?_, hlt⟩, fun a ha ↦ ?_⟩
      · rw [hrun]
        exact hstep.trans_le (hge a ha)
      · rcases List.mem_cons.mp ha with rfl | ha
        · exact hrun.ge
        · exact hstep.le.trans (hge a ha)

theorem pairwise_lasts {as : List α} (hsorted : as.Pairwise fun a b ↦ key a ≤ key b) :
    (lasts key as).Pairwise fun a b ↦ key a < key b := by
  cases as with
  | nil => exact List.Pairwise.nil
  | cons a as => exact (lastsFrom_lt rfl hsorted).1

/-- Of each key, the last element is kept. -/
theorem filter_lastsFrom {first last : α} {as : List α} (hrun : key last = key first)
    (hsorted : (first :: as).Pairwise fun a b ↦ key a ≤ key b) (k : β) :
    (lastsFrom key first last as).filter (key · = k) =
      ((last :: as).filter (key · = k)).getLast?.toList := by
  induction as generalizing first last with
  | nil =>
    unfold lastsFrom
    rw [List.filter_singleton]
    cases decide (key last = k) <;> rfl
  | cons b as ih =>
    obtain ⟨hfirst, hrest⟩ := List.pairwise_cons.mp hsorted
    obtain ⟨hb, has⟩ := List.pairwise_cons.mp hrest
    unfold lastsFrom
    split
    · rename_i hsame
      have hkeep := ih hsame (List.pairwise_cons.mpr
        ⟨fun a ha ↦ hfirst a (List.mem_cons_of_mem _ ha), has⟩)
      rw [hkeep]
      -- `b` has the key of `last`, and comes behind it.
      by_cases hk : key b = k
      · have hlast : key last = k := by
          rw [hrun, ← hsame, hk]
        rw [List.filter_cons_of_pos (a := last) (by simpa using hlast),
          List.filter_cons_of_pos (by simpa using hk), List.getLast?_cons_cons]
      · have hlast : key last ≠ k := by
          rw [hrun, ← hsame]
          exact hk
        rw [List.filter_cons_of_neg (a := last) (by simpa using hlast)]
    · rename_i hdiff
      have hkeep := ih rfl (List.pairwise_cons.mpr ⟨hb, has⟩)
      have hstep : key first < key b :=
        lt_of_le_of_ne (hfirst b List.mem_cons_self) (Ne.symm hdiff)
      by_cases hk : key last = k
      · -- Behind a greater key no element has it.
        have hnone : (b :: as).filter (key · = k) = [] := by
          rw [List.filter_eq_nil_iff]
          intro a ha
          rw [decide_eq_true_iff]
          rintro rfl
          rw [hrun] at hk
          rcases List.mem_cons.mp ha with rfl | ha
          · exact hstep.ne hk
          · exact (hstep.trans_le (hb a ha)).ne hk
        rw [List.filter_cons_of_pos (by simpa using hk), hkeep,
          List.filter_cons_of_pos (a := last) (by simpa using hk), hnone]
        rfl
      · rw [List.filter_cons_of_neg (by simpa using hk), hkeep,
          List.filter_cons_of_neg (a := last) (by simpa using hk)]

theorem filter_lasts {as : List α} (hsorted : as.Pairwise fun a b ↦ key a ≤ key b) (k : β) :
    (lasts key as).filter (key · = k) = (as.filter (key · = k)).getLast?.toList := by
  cases as with
  | nil => rfl
  | cons a as => exact filter_lastsFrom rfl hsorted k

/-- Sorted and collapsed, a list keeps the last element of each key. -/
theorem filter_lasts_stableSort (as : List α) (k : β) :
    (lasts key (stableSort key as)).filter (key · = k) =
      (as.filter (key · = k)).getLast?.toList := by
  rw [filter_lasts (pairwise_stableSort key as), filter_stableSort]

/-- Lists of strictly ascending keys are equal if they have the same elements. -/
theorem eq_of_mem_iff {as bs : List α} (has : as.Pairwise fun a b ↦ key a < key b)
    (hbs : bs.Pairwise fun a b ↦ key a < key b) (h : ∀ a, a ∈ as ↔ a ∈ bs) : as = bs := by
  have : Std.Antisymm fun a b : α ↦ key a < key b := ⟨fun _ _ hab hba ↦ absurd hba hab.asymm⟩
  have : Std.Irrefl fun a b : α ↦ key a < key b := ⟨fun a ↦ lt_irrefl (key a)⟩
  exact has.eq_of_mem_iff hbs h

/-- It is enough that they have the same elements of each key. -/
theorem eq_of_filter {as bs : List α} (has : as.Pairwise fun a b ↦ key a < key b)
    (hbs : bs.Pairwise fun a b ↦ key a < key b)
    (h : ∀ k, as.filter (key · = k) = bs.filter (key · = k)) : as = bs := by
  have hmem : ∀ (cs : List α) (a : α), a ∈ cs ↔ a ∈ cs.filter (key · = key a) := by
    intro cs a
    rw [List.mem_filter, decide_eq_true_iff, and_iff_left rfl]
  apply eq_of_mem_iff has hbs
  intro a
  rw [hmem as, hmem bs, h]

/-- Only the last elements of the earlier part of a list matter. -/
theorem lasts_stableSort_append (as bs : List α) :
    lasts key (stableSort key (lasts key (stableSort key as) ++ bs)) =
      lasts key (stableSort key (as ++ bs)) := by
  apply eq_of_filter (pairwise_lasts (pairwise_stableSort key _))
    (pairwise_lasts (pairwise_stableSort key _))
  intro k
  rw [filter_lasts_stableSort, filter_lasts_stableSort, List.filter_append, List.filter_append,
    filter_lasts_stableSort, List.getLast?_append, List.getLast?_append]
  cases (as.filter (key · = k)).getLast? <;> rfl

end MerlionTsdb.StableSort
