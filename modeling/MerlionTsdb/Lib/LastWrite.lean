import MerlionTsdb.Lib.StableSort

/-!
# Last writer wins

A list of elements with keys, read as a log: of each key, the last element counts.  What a log says is a
partial map, and what logs one behind the other say is their maps, laid over each other.
-/

namespace MerlionTsdb.LastWrite

variable {κ ν α : Type}

/-! ## Layers -/

/-- The map `t` laid over the map `s`. -/
def overlay (s t : κ → Option ν) : κ → Option ν := fun k ↦ (t k).or (s k)

/-- Nothing is known. -/
def blank : κ → Option ν := fun _ ↦ none

/-- The maps laid over each other, the last one on top. -/
def layers (maps : List (κ → Option ν)) : κ → Option ν := maps.foldr overlay blank

/-- What the map says about the keys in `p`. -/
def restrict (p : κ → Bool) (s : κ → Option ν) : κ → Option ν := fun k ↦ if p k then s k else none

@[simp] theorem overlay_blank (s : κ → Option ν) : overlay s blank = s := by
  funext k
  simp [overlay, blank]

@[simp] theorem blank_overlay (s : κ → Option ν) : overlay blank s = s := by
  funext k
  simp [overlay, blank]

theorem overlay_assoc (s t u : κ → Option ν) : overlay (overlay s t) u = overlay s (overlay t u) := by
  funext k
  simp [overlay, Option.or_assoc]

@[simp] theorem layers_nil : layers ([] : List (κ → Option ν)) = blank := rfl

@[simp] theorem layers_cons (s : κ → Option ν) (maps : List (κ → Option ν)) :
    layers (s :: maps) = overlay s (layers maps) := rfl

theorem layers_append (maps maps' : List (κ → Option ν)) :
    layers (maps ++ maps') = overlay (layers maps) (layers maps') := by
  induction maps with
  | nil => simp
  | cons s maps ih => rw [List.cons_append, layers_cons, layers_cons, ih, overlay_assoc]

/-- Layers may be put together in groups. -/
theorem layers_flatMap {β : Type} (groups : List β) (f : β → List (κ → Option ν)) :
    layers (groups.flatMap f) = layers (groups.map fun g ↦ layers (f g)) := by
  induction groups with
  | nil => rfl
  | cons g groups ih => rw [List.flatMap_cons, layers_append, List.map_cons, layers_cons, ih]

theorem layers_eq_none {maps : List (κ → Option ν)} {k : κ} :
    layers maps k = none ↔ ∀ s ∈ maps, s k = none := by
  induction maps with
  | nil => simp [blank]
  | cons s maps ih => simp [overlay, ih, and_comm]

/-- What the layers say, one of them says. -/
theorem exists_of_layers {maps : List (κ → Option ν)} {k : κ} {v : ν} (h : layers maps k = some v) :
    ∃ s ∈ maps, s k = some v := by
  induction maps with
  | nil => cases h
  | cons s maps ih =>
    rcases Option.or_eq_some_iff.mp h with htop | ⟨-, hs⟩
    · obtain ⟨t, ht, hv⟩ := ih htop
      exact ⟨t, List.mem_cons_of_mem _ ht, hv⟩
    · exact ⟨s, List.mem_cons_self, hs⟩

/-! ## Restriction -/

theorem restrict_overlay (p : κ → Bool) (s t : κ → Option ν) :
    restrict p (overlay s t) = overlay (restrict p s) (restrict p t) := by
  funext k
  unfold restrict overlay
  dsimp only
  cases p k <;> rfl

theorem restrict_layers (p : κ → Bool) (maps : List (κ → Option ν)) :
    restrict p (layers maps) = layers (maps.map (restrict p)) := by
  induction maps with
  | nil =>
    funext k
    unfold restrict
    cases p k <;> rfl
  | cons s maps ih => rw [layers_cons, restrict_overlay, ih, List.map_cons, layers_cons]

theorem restrict_restrict (p : κ → Bool) (s : κ → Option ν) :
    restrict p (restrict p s) = restrict p s := by
  funext k
  unfold restrict
  cases p k <;> rfl

/-! ## Logs -/

section Logs

variable [DecidableEq κ] (key : α → κ)

/-- The last element of the key. -/
def lastAt (as : List α) (k : κ) : Option α := (as.filter (key · = k)).getLast?

@[simp] theorem lastAt_nil : lastAt key ([] : List α) = blank := rfl

/-- A log behind another one is laid over it. -/
theorem lastAt_append (as bs : List α) : lastAt key (as ++ bs) = overlay (lastAt key as) (lastAt key bs) := by
  funext k
  unfold lastAt overlay
  rw [List.filter_append, List.getLast?_append]

variable {key}

theorem lastAt_eq_none {as : List α} {k : κ} : lastAt key as k = none ↔ ∀ a ∈ as, key a ≠ k := by
  unfold lastAt
  rw [List.getLast?_eq_none_iff, List.filter_eq_nil_iff]
  simp

theorem lastAt_mem {as : List α} {k : κ} {a : α} (h : lastAt key as k = some a) : a ∈ as ∧ key a = k := by
  obtain ⟨hmem, hkey⟩ := List.mem_filter.mp (List.mem_of_getLast? h)
  exact ⟨hmem, of_decide_eq_true hkey⟩

/-- A log where the elements of the other keys are left out. -/
theorem lastAt_filter (as : List α) {p : α → Bool} {k : κ} (h : ∀ a ∈ as, key a = k → p a = true) :
    lastAt key (as.filter p) k = lastAt key as k := by
  unfold lastAt
  rw [List.filter_filter]
  apply congrArg
  apply List.filter_congr
  intro a ha
  by_cases hk : key a = k
  · rw [h a ha hk, Bool.and_true]
  · rw [decide_eq_false hk, Bool.false_and]

end Logs

/-- Sorting by the key and collapsing the runs changes nothing about what the log says. -/
theorem lastAt_lasts_stableSort [LinearOrder κ] {key : α → κ} (as : List α) :
    lastAt key (StableSort.lasts key (StableSort.stableSort key as)) = lastAt key as := by
  funext k
  unfold lastAt
  rw [StableSort.filter_lasts_stableSort]
  cases (as.filter (key · = k)).getLast? <;> rfl

end MerlionTsdb.LastWrite
