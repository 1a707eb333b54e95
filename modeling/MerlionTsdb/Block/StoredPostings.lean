import MerlionTsdb.Block.Stored

/-!
# Posting lists of stored rows

What the index of a block answers about labels and matchers, in terms of the rows that the block stores.
-/

namespace MerlionTsdb.Block

open Ascending Chunkenc Encoding Model

namespace StoredSeries

/-- The series has a label of the name. -/
def named (name : Str) (r : StoredSeries) : Bool := (r.labels.get name).isSome

/-- The series has a label at all, and so stands in a posting list. -/
def labeled (r : StoredSeries) : Bool := !r.labels.entries.isEmpty

theorem has_iff {l : Label} {r : StoredSeries} : r.has l = true ↔ l ∈ r.labels.entries :=
  decide_eq_true_iff

theorem named_iff {name : Str} {r : StoredSeries} :
    r.named name = true ↔ ∃ value, ⟨name, value⟩ ∈ r.labels.entries := by
  unfold named
  rw [Option.isSome_iff_exists]
  exact exists_congr fun value ↦ r.labels.get_eq_some

theorem labeled_iff {r : StoredSeries} : r.labeled = true ↔ ∃ l, l ∈ r.labels.entries := by
  unfold labeled
  rw [Bool.not_eq_true', List.isEmpty_eq_false_iff]
  exact ⟨List.exists_mem_of_ne_nil _, fun ⟨l, hl⟩ ↦ List.ne_nil_of_mem hl⟩

/-- A label that is there is the value under its name. -/
theorem valueOf_eq {name value : Str} (hne : value ≠ Str.empty) {r : StoredSeries} :
    r.labels.valueOf name = value ↔ ⟨name, value⟩ ∈ r.labels.entries := by
  rw [← r.labels.get_eq_some]
  unfold Labels.valueOf
  cases r.labels.get name with
  | none => simp [Ne.symm hne]
  | some v => simp

end StoredSeries

namespace Stores

variable {blk : Block} {rows : List StoredSeries}

/-! ## Reading lists -/

/-- The lists that `p` selects by name and value are read one after the other. -/
theorem readLists_filter (h : Stores blk rows) (p : Str → Bool) :
    blk.index.readLists (blk.index.postingsTable.entries.filter fun e ↦ p e.name) =
      .ok (((listsOf rows).filter fun q ↦ p q.name).flatMap PostingsWritten.seriesIds) := by
  have hlists := h.lists
  generalize blk.index.postingsTable.entries = entries at hlists
  generalize listsOf rows = lists at hlists
  induction hlists with
  | nil => rfl
  | @cons e q entries lists hq _ ih =>
    obtain ⟨hname, -, hread⟩ := hq
    rw [List.filter_cons, List.filter_cons, ← hname]
    by_cases hp : p e.name = true
    · rw [if_pos hp, if_pos hp, List.flatMap_cons]
      unfold IndexReader.readLists
      rw [hread, ih]
      rfl
    · rw [if_neg hp, if_neg hp, ih]

theorem mem_lists {p : Str → Bool} {id : UInt32} :
    id ∈ ((listsOf rows).filter fun q ↦ p q.name).flatMap PostingsWritten.seriesIds ↔
      ∃ r ∈ rows, (∃ l ∈ r.labels.entries, p l.name = true) ∧ r.id = id := by
  rw [List.mem_flatMap]
  constructor
  · rintro ⟨q, hq, hid⟩
    obtain ⟨hlist, hp⟩ := List.mem_filter.mp hq
    obtain ⟨l, -, rfl⟩ := mem_listsOf.mp hlist
    obtain ⟨r, hr, hhas, rfl⟩ := (mem_pick StoredSeries.id).mp hid
    exact ⟨r, hr, ⟨l, StoredSeries.has_iff.mp hhas, hp⟩, rfl⟩
  · rintro ⟨r, hr, ⟨l, hl, hp⟩, rfl⟩
    have hhas := StoredSeries.has_iff.mpr hl
    refine ⟨⟨l.name, l.value, idsWhere rows (StoredSeries.has l)⟩, ?_, ?_⟩
    · exact List.mem_filter.mpr ⟨mem_listsOf.mpr ⟨l, ⟨r, hr, hhas⟩, rfl⟩, hp⟩
    · exact (mem_pick StoredSeries.id).mpr ⟨r, hr, hhas, rfl⟩

theorem postingsForName_eq (h : Stores blk rows) (name : Str) :
    blk.index.postingsForName name = .ok (idsWhere rows (StoredSeries.named name)) := by
  have hread := h.readLists_filter fun n ↦ n = name
  unfold IndexReader.postingsForName
  rw [hread]
  apply congrArg Except.ok
  apply eq_pick h.ids (asc_sortUnique _)
  intro id
  rw [mem_sortUnique]
  apply (@mem_lists rows (fun n ↦ n = name) id).trans
  constructor
  · rintro ⟨r, hr, ⟨l, hl, hname⟩, rfl⟩
    have hl' : (⟨name, l.value⟩ : Label) ∈ r.labels.entries := by
      rw [← of_decide_eq_true hname]
      exact hl
    exact ⟨r, hr, StoredSeries.named_iff.mpr ⟨l.value, hl'⟩, rfl⟩
  · rintro ⟨r, hr, hnamed, rfl⟩
    obtain ⟨value, hl⟩ := StoredSeries.named_iff.mp hnamed
    exact ⟨r, hr, ⟨_, hl, decide_eq_true rfl⟩, rfl⟩

theorem allPostings_eq (h : Stores blk rows) :
    blk.index.allPostings = .ok (idsWhere rows StoredSeries.labeled) := by
  have hread := h.readLists_filter fun _ ↦ true
  have hall : (blk.index.postingsTable.entries.filter fun _ ↦ true) =
      blk.index.postingsTable.entries := List.filter_true _
  rw [hall] at hread
  unfold IndexReader.allPostings
  rw [hread]
  apply congrArg Except.ok
  apply eq_pick h.ids (asc_sortUnique _)
  intro id
  rw [mem_sortUnique]
  apply (@mem_lists rows (fun _ ↦ true) id).trans
  constructor
  · rintro ⟨r, hr, ⟨l, hl, -⟩, rfl⟩
    exact ⟨r, hr, StoredSeries.labeled_iff.mpr ⟨l, hl⟩, rfl⟩
  · rintro ⟨r, hr, hlabeled, rfl⟩
    obtain ⟨l, hl⟩ := StoredSeries.labeled_iff.mp hlabeled
    exact ⟨r, hr, ⟨l, hl, rfl⟩, rfl⟩

theorem mem_labelValues (h : Stores blk rows) {name value : Str} :
    value ∈ blk.index.labelValues name ↔ ∃ r ∈ rows, ⟨name, value⟩ ∈ r.labels.entries := by
  unfold IndexReader.labelValues
  rw [mem_sortUnique, List.mem_map]
  constructor
  · rintro ⟨e, he, rfl⟩
    obtain ⟨hmem, hname⟩ := List.mem_filter.mp he
    obtain ⟨q, hq, hname', hvalue, -⟩ := Related.exists_right h.lists hmem
    obtain ⟨l, ⟨r, hr, hhas⟩, rfl⟩ := mem_listsOf.mp hq
    refine ⟨r, hr, ?_⟩
    rw [← of_decide_eq_true hname, hname', hvalue]
    exact StoredSeries.has_iff.mp hhas
  · rintro ⟨r, hr, hl⟩
    obtain ⟨e, he, hname, hvalue, -⟩ := Related.exists_left h.lists
      (mem_listsOf.mpr ⟨⟨name, value⟩, ⟨r, hr, StoredSeries.has_iff.mpr hl⟩, rfl⟩)
    exact ⟨e, List.mem_filter.mpr ⟨he, decide_eq_true hname⟩, hvalue⟩

/-- The rows with a label, but none of the name. -/
theorem withoutName_eq (h : Stores blk rows) (name : Str) :
    withoutName blk.index name = .ok (idsWhere rows fun r ↦ r.labeled && !r.named name) := by
  unfold withoutName
  rw [h.allPostings_eq, h.postingsForName_eq]
  exact congrArg Except.ok (difference_pick h.ids _ _)

end Stores

/-! ## Matchers -/

/-- The posting lists of a name give for every value but the empty one the rows with that label. -/
def ExactFor (blk : Block) (rows : List StoredSeries) (name : Str) : Prop :=
  ∀ value, value ≠ Str.empty →
    blk.index.postings name value = .ok (idsWhere rows (StoredSeries.has ⟨name, value⟩))

/-- Every row has a label, and no label has the empty value. -/
structure Ordinary (rows : List StoredSeries) : Prop where
  labeled : ∀ r ∈ rows, r.labels.entries ≠ []
  value_ne : ∀ r ∈ rows, ∀ l ∈ r.labels.entries, l.value ≠ Str.empty

namespace Stores

variable {blk : Block} {rows : List StoredSeries}

theorem idsWhere_congr {p q : StoredSeries → Bool} (h : ∀ r ∈ rows, p r = q r) :
    idsWhere rows p = idsWhere rows q := by
  unfold idsWhere pick
  rw [List.filter_congr h]

/-- Readers that select by agreeing predicates return the same. -/
theorem ok_congr {p q : StoredSeries → Bool} (h : ∀ r ∈ rows, p r = q r) :
    (Except.ok (idsWhere rows p) : Except Failure (List UInt32)) = .ok (idsWhere rows q) :=
  congrArg Except.ok (idsWhere_congr h)

theorem labeled_eq (ho : Ordinary rows) {r : StoredSeries} (hr : r ∈ rows) : r.labeled = true := by
  obtain ⟨l, hl⟩ := List.exists_mem_of_ne_nil _ (ho.labeled r hr)
  exact StoredSeries.labeled_iff.mpr ⟨l, hl⟩

/-- Without a label of the name, and only then, a row has the empty value. -/
theorem valueOf_empty (ho : Ordinary rows) {r : StoredSeries} (hr : r ∈ rows) (name : Str) :
    r.labels.valueOf name = Str.empty ↔ r.named name = false := by
  unfold Labels.valueOf StoredSeries.named
  cases hget : r.labels.get name with
  | none => simp
  | some value =>
    have hne := ho.value_ne r hr _ (r.labels.get_eq_some.mp hget)
    simpa using hne

/-- The loop over the values collects the rows with an accepted one. -/
theorem acceptedPostings_eq {name : Str} (hexact : ExactFor blk rows name) (pred : Str → Bool)
    {values : List Str} (hvalues : ∀ v ∈ values, v ≠ Str.empty) :
    ∃ ids, acceptedPostings blk.index name pred values = .ok ids ∧
      ∀ id, id ∈ ids ↔ ∃ v ∈ values, pred v = true ∧
        ∃ r ∈ rows, r.has ⟨name, v⟩ = true ∧ r.id = id := by
  induction values with
  | nil => exact ⟨[], rfl, by simp⟩
  | cons v values ih =>
    obtain ⟨ids, hok, hmem⟩ := ih fun v' hv' ↦ hvalues v' (List.mem_cons_of_mem _ hv')
    unfold acceptedPostings
    by_cases hp : pred v = true
    · rw [if_neg (by simp [hp]), hexact v (hvalues v List.mem_cons_self), hok]
      refine ⟨_, rfl, fun id ↦ ?_⟩
      rw [List.mem_append, hmem, mem_pick]
      simp [hp]
    · rw [if_pos (by simpa using hp)]
      refine ⟨ids, hok, fun id ↦ ?_⟩
      rw [hmem]
      simp [hp]

theorem predPostings_eq (h : Stores blk rows) (ho : Ordinary rows) {name : Str}
    (hexact : ExactFor blk rows name) (pred : Str → Bool) :
    predPostings blk.index name pred =
      .ok (idsWhere rows fun r ↦ pred (r.labels.valueOf name)) := by
  have hvalues : ∀ v ∈ blk.index.labelValues name, v ≠ Str.empty := by
    intro v hv
    obtain ⟨r, hr, hl⟩ := h.mem_labelValues.mp hv
    exact ho.value_ne r hr _ hl
  obtain ⟨ids, hok, hmem⟩ := acceptedPostings_eq hexact pred hvalues
  -- The rows with a label of the name, by their value.
  have hnamed : ∀ id, id ∈ ids ↔
      ∃ r ∈ rows, (r.named name && pred (r.labels.valueOf name)) = true ∧ r.id = id := by
    intro id
    rw [hmem]
    constructor
    · rintro ⟨v, hv, hp, r, hr, hhas, rfl⟩
      have hl := StoredSeries.has_iff.mp hhas
      refine ⟨r, hr, ?_, rfl⟩
      rw [StoredSeries.named_iff.mpr ⟨v, hl⟩, (StoredSeries.valueOf_eq (hvalues v hv)).mpr hl, hp]
      rfl
    · rintro ⟨r, hr, hboth, rfl⟩
      obtain ⟨hname, hp⟩ := Bool.and_eq_true_iff.mp hboth
      obtain ⟨v, hl⟩ := StoredSeries.named_iff.mp hname
      have hv := h.mem_labelValues.mpr ⟨r, hr, hl⟩
      rw [(StoredSeries.valueOf_eq (hvalues v hv)).mpr hl] at hp
      exact ⟨v, hv, hp, r, hr, StoredSeries.has_iff.mpr hl, rfl⟩
  unfold predPostings
  rw [hok]
  by_cases hempty : pred Str.empty = true
  · -- The rows without the name have the empty value.
    show (if pred Str.empty then _ else _) = _
    rw [if_pos hempty, h.withoutName_eq]
    apply congrArg Except.ok
    apply eq_pick h.ids (asc_sortUnique _)
    intro id
    rw [mem_sortUnique, List.mem_append, hnamed, mem_pick]
    constructor
    · rintro (⟨r, hr, hboth, rfl⟩ | ⟨r, hr, hboth, rfl⟩)
      · exact ⟨r, hr, (Bool.and_eq_true_iff.mp hboth).2, rfl⟩
      · have hout := (Bool.and_eq_true_iff.mp hboth).2
        rw [Bool.not_eq_true'] at hout
        refine ⟨r, hr, ?_, rfl⟩
        rw [(valueOf_empty ho hr name).mpr hout]
        exact hempty
    · rintro ⟨r, hr, hp, rfl⟩
      cases hname : r.named name with
      | true => exact Or.inl ⟨r, hr, by rw [hname, hp]; rfl, rfl⟩
      | false => exact Or.inr ⟨r, hr, by rw [labeled_eq ho hr, hname]; rfl, rfl⟩
  · show (if pred Str.empty then _ else _) = _
    rw [if_neg hempty]
    apply congrArg Except.ok
    apply eq_pick h.ids (asc_sortUnique _)
    intro id
    rw [mem_sortUnique, hnamed]
    constructor
    · rintro ⟨r, hr, hboth, rfl⟩
      exact ⟨r, hr, (Bool.and_eq_true_iff.mp hboth).2, rfl⟩
    · rintro ⟨r, hr, hp, rfl⟩
      refine ⟨r, hr, ?_, rfl⟩
      cases hname : r.named name with
      | true => exact hp
      | false =>
        rw [(valueOf_empty ho hr name).mpr hname] at hp
        exact absurd hp hempty

/-- A matcher selects the rows whose value it accepts. -/
theorem postingsForMatcher_eq (h : Stores blk rows) (ho : Ordinary rows) {m : Matcher}
    (hexact : ExactFor blk rows m.name) :
    postingsForMatcher blk.index m =
      .ok (idsWhere rows fun r ↦ m.accepts (r.labels.valueOf m.name)) := by
  unfold postingsForMatcher
  cases htype : m.type with
  | eq =>
    dsimp only
    by_cases hvalue : m.value = Str.empty
    · -- The empty value also selects the series without the name.
      rw [if_pos hvalue, h.withoutName_eq]
      apply ok_congr
      intro r hr
      rw [m.accepts_eq htype, hvalue, labeled_eq ho hr, Bool.true_and]
      have hiff := valueOf_empty ho hr m.name
      cases hname : r.named m.name with
      | true => simp [hiff, hname]
      | false => simp [hiff, hname]
    · rw [if_neg hvalue, hexact m.value hvalue]
      apply ok_congr
      intro r _
      rw [m.accepts_eq htype]
      exact decide_eq_decide.mpr (StoredSeries.valueOf_eq hvalue).symm
  | neq =>
    dsimp only
    by_cases hvalue : m.value = Str.empty
    · -- Not the empty value: the series with the name.
      rw [if_pos hvalue, h.postingsForName_eq]
      apply ok_congr
      intro r hr
      rw [m.accepts_neq htype, hvalue]
      have hiff := valueOf_empty ho hr m.name
      cases hname : r.named m.name with
      | true => simp [hiff, hname]
      | false => simp [hiff, hname]
    · rw [if_neg hvalue, h.allPostings_eq, hexact m.value hvalue]
      show Except.ok (difference _ _) = _
      rw [difference_pick h.ids]
      apply ok_congr
      intro r hr
      rw [m.accepts_neq htype, labeled_eq ho hr, Bool.true_and]
      have hiff := @StoredSeries.valueOf_eq m.name m.value hvalue r
      cases hhas : r.has ⟨m.name, m.value⟩ with
      | true => simp [hiff, StoredSeries.has_iff.mp hhas]
      | false =>
        have hout : (⟨m.name, m.value⟩ : Label) ∉ r.labels.entries := of_decide_eq_false hhas
        simp [hiff, hout]
  | re =>
    dsimp only
    exact h.predPostings_eq ho hexact m.accepts
  | nre =>
    -- What the pattern matches is taken away from everything.
    dsimp only
    rw [h.predPostings_eq ho hexact m.regexMatches, h.allPostings_eq]
    show Except.ok (difference _ _) = _
    rw [difference_pick h.ids]
    apply ok_congr
    intro r hr
    rw [m.accepts_nre htype, labeled_eq ho hr, Bool.true_and]

/-- The loop over the matchers keeps the rows that all of them accept. -/
theorem intersectMatchers_eq (h : Stores blk rows) (ho : Ordinary rows) {matchers : List Matcher}
    (hexact : ∀ m ∈ matchers, ExactFor blk rows m.name) (p : StoredSeries → Bool) :
    intersectMatchers blk.index (idsWhere rows p) matchers =
      .ok (idsWhere rows fun r ↦ p r && labelsMatchAll r.labels matchers) := by
  induction matchers generalizing p with
  | nil =>
    apply ok_congr
    intro r _
    unfold labelsMatchAll
    rw [List.all_nil, Bool.and_true]
  | cons m matchers ih =>
    unfold intersectMatchers
    by_cases hempty : (idsWhere rows p).isEmpty = true
    · -- Nothing is left, and nothing would be left.
      rw [if_pos hempty]
      have hnone : ∀ r ∈ rows, p r = false := by
        intro r hr
        by_contra hp
        have hmem : r.id ∈ idsWhere rows p :=
          (mem_pick StoredSeries.id).mpr ⟨r, hr, Bool.eq_true_of_not_eq_false hp, rfl⟩
        rw [List.isEmpty_iff.mp hempty] at hmem
        cases hmem
      apply ok_congr
      intro r hr
      rw [hnone r hr, Bool.false_and]
    · rw [if_neg hempty, h.postingsForMatcher_eq ho (hexact m List.mem_cons_self)]
      show intersectMatchers blk.index (intersection _ _) matchers = _
      rw [intersection_pick h.ids, ih fun m' hm' ↦ hexact m' (List.mem_cons_of_mem _ hm')]
      apply ok_congr
      intro r _
      unfold labelsMatchAll
      rw [List.all_cons, Bool.and_assoc]

end Stores
end MerlionTsdb.Block
