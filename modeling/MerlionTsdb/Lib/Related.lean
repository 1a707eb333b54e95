import Mathlib.Data.List.Forall2

/-!
# Related lists

Partners of the members of two lists related element by element.
-/

namespace MerlionTsdb.Related

variable {α β : Type} {R : α → β → Prop} {as : List α} {bs : List β}

/-- Every member on the left has a partner. -/
theorem exists_right (h : List.Forall₂ R as bs) {a : α} (ha : a ∈ as) : ∃ b ∈ bs, R a b := by
  induction h with
  | nil => cases ha
  | cons hab _ ih =>
    rcases List.mem_cons.mp ha with rfl | ha
    · exact ⟨_, List.mem_cons_self, hab⟩
    · obtain ⟨b, hb, hr⟩ := ih ha
      exact ⟨b, List.mem_cons_of_mem _ hb, hr⟩

theorem exists_left (h : List.Forall₂ R as bs) {b : β} (hb : b ∈ bs) : ∃ a ∈ as, R a b := by
  apply exists_right (R := fun b a ↦ R a b) h.flip hb

/-- Members that are related otherwise, too. -/
theorem imp_mem (h : List.Forall₂ R as bs) {S : α → β → Prop}
    (himp : ∀ a b, a ∈ as → b ∈ bs → R a b → S a b) : List.Forall₂ S as bs := by
  induction h with
  | nil => exact List.Forall₂.nil
  | cons hab _ ih =>
    apply List.Forall₂.cons (himp _ _ List.mem_cons_self List.mem_cons_self hab)
    exact ih fun a b ha hb ↦ himp a b (List.mem_cons_of_mem _ ha) (List.mem_cons_of_mem _ hb)

/-- Two relations between the same lists. -/
theorem and (h : List.Forall₂ R as bs) {S : α → β → Prop} (h' : List.Forall₂ S as bs) :
    List.Forall₂ (fun a b ↦ R a b ∧ S a b) as bs := by
  induction h with
  | nil => exact List.Forall₂.nil
  | cons hab _ ih =>
    cases h' with
    | cons hab' hrest' => exact List.Forall₂.cons ⟨hab, hab'⟩ (ih hrest')

/-- Functions that agree on partners give the same list. -/
theorem map_eq (h : List.Forall₂ R as bs) {γ : Type} {f : α → γ} {g : β → γ}
    (hfg : ∀ a b, R a b → f a = g b) : as.map f = bs.map g := by
  induction h with
  | nil => rfl
  | cons hab _ ih => rw [List.map_cons, List.map_cons, hfg _ _ hab, ih]

/-- What holds pairwise on the right holds of the partners. -/
theorem pairwise_left (h : List.Forall₂ R as bs) {P : β → β → Prop} {Q : α → α → Prop}
    (hpq : ∀ {a b a' b'}, R a b → R a' b' → P b b' → Q a a') (hp : bs.Pairwise P) : as.Pairwise Q := by
  induction h with
  | nil => exact List.Pairwise.nil
  | cons hab hrest ih =>
    obtain ⟨hhead, htail⟩ := List.pairwise_cons.mp hp
    apply List.Pairwise.cons _ (ih htail)
    intro a' ha'
    obtain ⟨b', hb', hab'⟩ := exists_right hrest ha'
    exact hpq hab hab' (hhead b' hb')

end MerlionTsdb.Related
