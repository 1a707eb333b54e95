import MerlionTsdb.Head.MemSeries

/-!
# The series store

`series_store.cpp`: series by reference and by labels.  A result of `none` stands for a
`std::length_error` out of the vector of slots, or for a slot of the reserved reference 0.
`WF` is what every store keeps.
-/

namespace MerlionTsdb.Head

open Chunkenc Model

/-- The largest size of a vector of pointers. -/
def kMaxSlots : Nat := kMaxSize / 8

/-- `SeriesStore`.  Slot `ref - 1` of `byRef` belongs to `ref`. -/
structure SeriesStore where
  byRef : List (Option MemSeries) := []
  byLabels : List (Labels × SeriesRef) := []
  nextRef : SeriesRef := 1
  deriving DecidableEq

namespace SeriesStore

/-- `by_labels_.find`. -/
def findRef (st : SeriesStore) (labels : Labels) : Option SeriesRef :=
  (st.byLabels.find? fun e ↦ e.1 = labels).map Prod.snd

def ensureRefSlot (byRef : List (Option MemSeries)) (ref : SeriesRef) :
    Option (List (Option MemSeries)) :=
  if ref = 0 ∨ ref.toNat ≤ byRef.length then some byRef
  else if ref.toNat ≤ kMaxSlots then some (byRef ++ List.replicate (ref.toNat - byRef.length) none)
  else none

/-- A new series in its slot and under its labels. -/
def insertNew (st : SeriesStore) (ref : SeriesRef) (labels : Labels) (nextRef : SeriesRef) :
    Option SeriesStore :=
  if ref = 0 then none
  else
    (ensureRefSlot st.byRef ref).map fun byRef ↦
      { byRef := byRef.set (ref.toNat - 1) (some { ref := ref, labels := labels })
        byLabels := st.byLabels ++ [(labels, ref)]
        nextRef := nextRef }

/-- `get_or_create`: the slot of the series, by its reference, and whether it is new. -/
def getOrCreate (st : SeriesStore) (labels : Labels) : Option (SeriesRef × Bool × SeriesStore) :=
  match st.findRef labels with
  | some ref => some (ref, false, st)
  | none =>
    (st.insertNew st.nextRef labels (st.nextRef + 1)).map fun st' ↦ (st.nextRef, true, st')

def get (st : SeriesStore) (ref : SeriesRef) : Option MemSeries :=
  if ref = 0 ∨ st.byRef.length ≤ ref.toNat - 1 then none else (st.byRef[ref.toNat - 1]?).join

/-- `insert_with_ref`. -/
def insertWithRef (st : SeriesStore) (ref : SeriesRef) (labels : Labels) :
    Option (Bool × SeriesStore) :=
  if ref = 0 then some (false, st)
  else
    match (st.byRef[ref.toNat - 1]?).join with
    | some s => some (s.labels = labels, st)
    | none =>
      match st.findRef labels with
      | some ref' => some (ref' = ref, st)
      | none => (st.insertNew ref labels (max st.nextRef (ref + 1))).map fun st ↦ (true, st)

/-- `all_series`, by ascending reference. -/
def allSeries (st : SeriesStore) : List MemSeries :=
  st.byRef.filterMap id

/-- The store with `s` in the slot of `ref`. -/
def put (st : SeriesStore) (ref : SeriesRef) (s : MemSeries) : SeriesStore :=
  { st with byRef := st.byRef.set (ref.toNat - 1) (some s) }

/-- The store with a new series behind the last slot. -/
def push (st : SeriesStore) (labels : Labels) : SeriesStore where
  byRef := st.byRef ++ [some { ref := st.nextRef, labels := labels }]
  byLabels := st.byLabels ++ [(labels, st.nextRef)]
  nextRef := st.nextRef + 1

/-- `series->append(t, v)` for the series in the slot of `ref`. -/
def append (st : SeriesStore) (ref : SeriesRef) (s : MemSeries) (x : Sample) : Bool × SeriesStore :=
  ((s.append x).1, st.put ref (s.append x).2)

/-- The samples stored under a label set. -/
def samplesOf (st : SeriesStore) (labels : Labels) : List Sample :=
  match (st.findRef labels).bind st.get with
  | some s => s.samples
  | none => []

/-! ## Slots -/

theorem toNat_pos {ref : SeriesRef} (h : ref ≠ 0) : 0 < ref.toNat := by
  apply Nat.pos_of_ne_zero
  intro hnat
  exact h (UInt64.toNat_inj.mp hnat)

theorem get_eq (st : SeriesStore) (ref : SeriesRef) :
    st.get ref = if ref = 0 then none else (st.byRef[ref.toNat - 1]?).join := by
  unfold get
  by_cases hzero : ref = 0
  · rw [if_pos (Or.inl hzero), if_pos hzero]
  · rw [if_neg hzero]
    by_cases hlen : st.byRef.length ≤ ref.toNat - 1
    · rw [if_pos (Or.inr hlen), List.getElem?_eq_none hlen]
      rfl
    · rw [if_neg (by simp [hzero, hlen])]

/-- A reference in use has a slot. -/
theorem toNat_le_of_get {st : SeriesStore} {ref : SeriesRef} {s : MemSeries}
    (h : st.get ref = some s) : 0 < ref.toNat ∧ ref.toNat ≤ st.byRef.length := by
  rw [get_eq] at h
  split at h
  · cases h
  · rename_i hzero
    have hpos := toNat_pos hzero
    rw [Option.join_eq_some_iff] at h
    obtain ⟨hlt, -⟩ := List.getElem?_eq_some_iff.mp h
    omega

theorem get_put {st : SeriesStore} {ref : SeriesRef} (hpos : 0 < ref.toNat)
    (hle : ref.toNat ≤ st.byRef.length) (s : MemSeries) (ref' : SeriesRef) :
    (st.put ref s).get ref' = if ref' = ref then some s else st.get ref' := by
  rw [get_eq, get_eq]
  by_cases hzero : ref' = 0
  · subst hzero
    rw [if_pos rfl, if_pos rfl, if_neg]
    rintro rfl
    exact absurd hpos (Nat.lt_irrefl 0)
  · have hpos' := toNat_pos hzero
    rw [if_neg hzero, if_neg hzero, put]
    dsimp only
    rw [List.getElem?_set]
    by_cases heq : ref' = ref
    · subst heq
      rw [if_pos rfl, if_pos (by omega), if_pos rfl]
      rfl
    · have hne : ¬ ref.toNat - 1 = ref'.toNat - 1 := by
        intro hnat
        exact heq (UInt64.toNat_inj.mp (by omega))
      rw [if_neg hne, if_neg heq]

theorem put_self {st : SeriesStore} {ref : SeriesRef} {s : MemSeries} (hget : st.get ref = some s) :
    st.put ref s = st := by
  rw [get_eq] at hget
  split at hget
  · cases hget
  · obtain ⟨hlt, hslot⟩ := List.getElem?_eq_some_iff.mp (Option.join_eq_some_iff.mp hget)
    unfold put
    rw [← hslot, List.set_getElem_self]

/-- Growing the table of slots adds empty ones. -/
theorem ensureRefSlot_eq {byRef byRef' : List (Option MemSeries)} {ref : SeriesRef}
    (hzero : ref ≠ 0) (h : ensureRefSlot byRef ref = some byRef') :
    byRef'.length = max byRef.length ref.toNat ∧ byRef'.length ≤ max byRef.length kMaxSlots ∧
      ∀ i : Nat, (byRef'[i]?).join = (byRef[i]?).join := by
  unfold ensureRefSlot at h
  split at h
  · rename_i hle
    cases h
    have hle' := hle.resolve_left hzero
    exact ⟨by omega, by omega, fun _ ↦ rfl⟩
  · rename_i hgt
    rw [not_or] at hgt
    split at h
    · cases h
      refine ⟨?_, ?_, ?_⟩
      · rw [List.length_append, List.length_replicate]
        omega
      · rw [List.length_append, List.length_replicate]
        omega
      · intro i
        by_cases hi : i < byRef.length
        · rw [List.getElem?_append_left hi]
        · rw [List.getElem?_append_right (Nat.le_of_not_lt hi),
            List.getElem?_eq_none (Nat.le_of_not_lt hi), List.getElem?_replicate]
          split <;> rfl
    · cases h

/-! ## Well-formed stores -/

/-- References are dispensed in order, and the two tables agree. -/
structure WF (st : SeriesStore) : Prop where
  next : st.nextRef.toNat = st.byRef.length + 1
  length_le : st.byRef.length ≤ kMaxSlots
  ref_eq : ∀ {ref s}, st.get ref = some s → s.ref = ref
  mem_byLabels : ∀ {labels ref},
    (labels, ref) ∈ st.byLabels ↔ ∃ s, st.get ref = some s ∧ s.labels = labels
  nodup : (st.byLabels.map Prod.fst).Nodup

theorem wf_empty : ({} : SeriesStore).WF where
  next := rfl
  length_le := Nat.zero_le _
  ref_eq h := by
    rw [get_eq] at h
    split at h <;> cases h
  mem_byLabels := by
    intro labels ref
    constructor
    · intro h
      cases h
    · rintro ⟨s, h, -⟩
      rw [get_eq] at h
      split at h <;> cases h
  nodup := List.nodup_nil

theorem findRef_eq_none {st : SeriesStore} {labels : Labels} :
    st.findRef labels = none ↔ labels ∉ st.byLabels.map Prod.fst := by
  unfold findRef
  rw [Option.map_eq_none_iff, List.find?_eq_none, List.mem_map]
  constructor
  · rintro h ⟨e, he, rfl⟩
    exact h e he (decide_eq_true rfl)
  · intro h e he heq
    exact h ⟨e, he, of_decide_eq_true heq⟩

namespace WF

variable {st : SeriesStore}

theorem findRef_eq_some (h : st.WF) {labels : Labels} {ref : SeriesRef} :
    st.findRef labels = some ref ↔ ∃ s, st.get ref = some s ∧ s.labels = labels := by
  rw [← h.mem_byLabels]
  unfold findRef
  constructor
  · intro hfind
    obtain ⟨e, he, rfl⟩ := Option.map_eq_some_iff.mp hfind
    have hlabels : e.1 = labels := by simpa using List.find?_some he
    rw [← hlabels]
    exact List.mem_of_find?_eq_some he
  · intro hmem
    cases hfind : st.byLabels.find? fun e ↦ e.1 = labels with
    | none => exact absurd (decide_eq_true rfl) (List.find?_eq_none.mp hfind _ hmem)
    | some e =>
      have hlabels : e.1 = labels := by simpa using List.find?_some hfind
      have hsame := List.inj_on_of_nodup_map h.nodup (List.mem_of_find?_eq_some hfind) hmem hlabels
      rw [hsame]
      rfl

theorem eq_of_labels_eq (h : st.WF) {ref ref' : SeriesRef} {s s' : MemSeries}
    (hget : st.get ref = some s) (hget' : st.get ref' = some s') (heq : s.labels = s'.labels) :
    ref = ref' := by
  have hfind := h.findRef_eq_some.mpr ⟨s, hget, rfl⟩
  have hfind' := h.findRef_eq_some.mpr ⟨s', hget', rfl⟩
  rw [heq, hfind'] at hfind
  exact (Option.some_inj.mp hfind).symm

theorem samplesOf_eq (h : st.WF) {ref : SeriesRef} {s : MemSeries} (hget : st.get ref = some s) :
    st.samplesOf s.labels = s.samples := by
  unfold samplesOf
  rw [h.findRef_eq_some.mpr ⟨s, hget, rfl⟩, Option.bind_some, hget]

theorem get_ne_next (h : st.WF) {ref : SeriesRef} {s : MemSeries} (hget : st.get ref = some s) :
    ref ≠ st.nextRef := by
  rintro rfl
  have hle := (toNat_le_of_get hget).2
  rw [h.next] at hle
  omega

theorem next_ne_zero (h : st.WF) : st.nextRef ≠ 0 := by
  intro hzero
  have hnext := h.next
  rw [hzero] at hnext
  cases hnext

theorem toNat_next_succ (h : st.WF) : (st.nextRef + 1).toNat = st.byRef.length + 2 := by
  have hle := h.length_le
  unfold kMaxSlots kMaxSize at hle
  rw [UInt64.toNat_add, h.next]
  exact Nat.mod_eq_of_lt (by rw [UInt64.toNat_one]; omega)

/-- A sample appended, or any other change of a series but its identity. -/
theorem put (h : st.WF) {ref : SeriesRef} {s s' : MemSeries} (hget : st.get ref = some s)
    (href : s'.ref = s.ref) (hlabels : s'.labels = s.labels) : (st.put ref s').WF where
  next := by
    rw [SeriesStore.put]
    dsimp only
    rw [List.length_set]
    exact h.next
  length_le := by
    rw [SeriesStore.put]
    dsimp only
    rw [List.length_set]
    exact h.length_le
  ref_eq := by
    obtain ⟨hpos, hle⟩ := toNat_le_of_get hget
    intro ref' s₁ hget'
    rw [get_put hpos hle] at hget'
    split at hget'
    · rename_i heq
      cases hget'
      rw [href, h.ref_eq hget, heq]
    · exact h.ref_eq hget'
  mem_byLabels := by
    obtain ⟨hpos, hle⟩ := toNat_le_of_get hget
    intro labels ref'
    change (labels, ref') ∈ st.byLabels ↔ _
    rw [h.mem_byLabels, get_put hpos hle]
    split
    · rename_i heq
      subst heq
      simp [hget, hlabels]
    · rfl
  nodup := h.nodup

/-- A new series in an empty slot. -/
theorem insertNew (h : st.WF) {ref : SeriesRef} {labels : Labels} {st' : SeriesStore}
    (hzero : ref ≠ 0) (hfree : st.get ref = none) (hnew : st.findRef labels = none)
    (heq : st.insertNew ref labels (max st.nextRef (ref + 1)) = some st') :
    st'.WF ∧ st'.byLabels = st.byLabels ++ [(labels, ref)] ∧
      ∀ ref', st'.get ref' = if ref' = ref then some { ref := ref, labels := labels }
        else st.get ref' := by
  unfold SeriesStore.insertNew at heq
  rw [if_neg hzero] at heq
  obtain ⟨byRef, hslots, rfl⟩ := Option.map_eq_some_iff.mp heq
  obtain ⟨hlength, hbound, hsame⟩ := ensureRefSlot_eq hzero hslots
  have hle := h.length_le
  have hnext := h.next
  have hpos := toNat_pos hzero
  have hsmall : ref.toNat ≤ kMaxSlots := by omega
  -- The vector's size bounds the references, so the next one does not wrap.
  have hsucc : (ref + 1).toNat = ref.toNat + 1 := by
    unfold kMaxSlots kMaxSize at hsmall
    rw [UInt64.toNat_add]
    exact Nat.mod_eq_of_lt (by rw [UInt64.toNat_one]; omega)
  have hget : ∀ ref', SeriesStore.get
      { byRef := byRef.set (ref.toNat - 1) (some { ref := ref, labels := labels })
        byLabels := st.byLabels ++ [(labels, ref)], nextRef := max st.nextRef (ref + 1) } ref' =
      if ref' = ref then some { ref := ref, labels := labels } else st.get ref' := by
    intro ref'
    have hput := @get_put { st with byRef := byRef } ref hpos (by dsimp only; omega)
      { ref := ref, labels := labels } ref'
    rw [get_eq] at hput ⊢
    refine hput.trans ?_
    rw [get_eq, get_eq, hsame]
  refine ⟨⟨?_, ?_, ?_, ?_, ?_⟩, rfl, hget⟩
  · -- The slots reach up to the next reference.
    dsimp only
    rw [List.length_set, hlength]
    change (if st.nextRef ≤ ref + 1 then ref + 1 else st.nextRef).toNat = _
    split
    · rename_i hle'
      rw [UInt64.le_iff_toNat_le] at hle'
      omega
    · rename_i hgt
      rw [UInt64.le_iff_toNat_le] at hgt
      omega
  · dsimp only
    rw [List.length_set]
    omega
  · intro ref' s hs
    rw [hget] at hs
    split at hs
    · rename_i heq
      cases hs
      exact heq.symm
    · exact h.ref_eq hs
  · -- The map gets the one entry, the slots the one series.
    intro labels' ref'
    dsimp only
    rw [List.mem_append, List.mem_singleton, Prod.mk.injEq, h.mem_byLabels, hget]
    split
    · rename_i heq
      subst heq
      simp [hfree, eq_comm]
    · rename_i hne
      simp [hne]
  · dsimp only
    rw [List.map_append]
    apply h.nodup.append (List.nodup_singleton _)
    simpa using findRef_eq_none.mp hnew

/-! ### The next reference -/

theorem max_next (h : st.WF) : max st.nextRef (st.nextRef + 1) = st.nextRef + 1 := by
  change (if st.nextRef ≤ st.nextRef + 1 then st.nextRef + 1 else st.nextRef) = _
  rw [if_pos]
  rw [UInt64.le_iff_toNat_le, h.toNat_next_succ, h.next]
  omega

theorem get_next (h : st.WF) : st.get st.nextRef = none := by
  cases hget : st.get st.nextRef with
  | none => rfl
  | some s => exact absurd rfl (h.get_ne_next hget)

theorem insertNew_next (h : st.WF) (labels : Labels) :
    st.insertNew st.nextRef labels (st.nextRef + 1) =
      if st.byRef.length < kMaxSlots then some (st.push labels) else none := by
  have hslot : ensureRefSlot st.byRef st.nextRef =
      if st.byRef.length < kMaxSlots then some (st.byRef ++ [none]) else none := by
    have hgrow : ¬ (st.nextRef = 0 ∨ st.nextRef.toNat ≤ st.byRef.length) := by
      simp [h.next_ne_zero, h.next]
    unfold ensureRefSlot
    rw [if_neg hgrow, h.next, Nat.add_sub_cancel_left]
    rfl
  unfold SeriesStore.insertNew
  rw [if_neg h.next_ne_zero, hslot]
  split
  · rw [Option.map_some, h.next, Nat.add_sub_cancel, List.set_append_right _ _ le_rfl, Nat.sub_self]
    rfl
  · rfl

theorem push (h : st.WF) {labels : Labels} (hnew : st.findRef labels = none)
    (hlen : st.byRef.length < kMaxSlots) :
    (st.push labels).WF ∧
      ∀ ref, (st.push labels).get ref =
        if ref = st.nextRef then some { ref := st.nextRef, labels := labels } else st.get ref := by
  have heq : st.insertNew st.nextRef labels (max st.nextRef (st.nextRef + 1)) =
      some (st.push labels) := by
    rw [h.max_next, h.insertNew_next labels, if_pos hlen]
  obtain ⟨hwf, -, hget⟩ := h.insertNew h.next_ne_zero h.get_next hnew heq
  exact ⟨hwf, hget⟩

/-- A label set without a series gets the next reference. -/
theorem getOrCreate_new (h : st.WF) {labels : Labels} (hnew : st.findRef labels = none) :
    st.getOrCreate labels =
      if st.byRef.length < kMaxSlots then some (st.nextRef, true, st.push labels) else none := by
  unfold getOrCreate
  rw [hnew]
  dsimp only
  rw [h.insertNew_next labels]
  split <;> rfl

theorem insertWithRef_next (h : st.WF) {labels : Labels} (hnew : st.findRef labels = none)
    (hlen : st.byRef.length < kMaxSlots) :
    st.insertWithRef st.nextRef labels = some (true, st.push labels) := by
  have hfree := h.get_next
  rw [get_eq, if_neg h.next_ne_zero] at hfree
  unfold insertWithRef
  rw [if_neg h.next_ne_zero, hfree, hnew]
  dsimp only
  rw [h.max_next, h.insertNew_next labels, if_pos hlen]
  rfl

end WF

/-- A sample for a series in use does not see the one pushed behind it. -/
theorem put_push {st : SeriesStore} {ref : SeriesRef} {s : MemSeries} (hget : st.get ref = some s)
    (s' : MemSeries) (labels : Labels) : (st.push labels).put ref s' = (st.put ref s').push labels := by
  obtain ⟨hpos, hle⟩ := toNat_le_of_get hget
  unfold SeriesStore.put SeriesStore.push
  dsimp only
  rw [List.set_append_left _ _ (by omega)]

theorem getOrCreate_found {st : SeriesStore} {labels : Labels} {ref : SeriesRef}
    (hfind : st.findRef labels = some ref) : st.getOrCreate labels = some (ref, false, st) := by
  unfold getOrCreate
  rw [hfind]

theorem insertWithRef_of_get {st : SeriesStore} {ref : SeriesRef} {s : MemSeries}
    (hget : st.get ref = some s) (labels : Labels) :
    st.insertWithRef ref labels = some (decide (s.labels = labels), st) := by
  rw [get_eq] at hget
  split at hget
  · cases hget
  · rename_i hzero
    unfold insertWithRef
    rw [if_neg hzero, hget]

/-- An insertion that succeeds changes nothing, or fills an empty slot. -/
theorem insertWithRef_cases {st st' : SeriesStore} {ref : SeriesRef} {labels : Labels}
    (hinsert : st.insertWithRef ref labels = some (true, st')) :
    st' = st ∨
      (ref ≠ 0 ∧ st.get ref = none ∧ st.findRef labels = none ∧
        st.insertNew ref labels (max st.nextRef (ref + 1)) = some st') := by
  unfold insertWithRef at hinsert
  split at hinsert
  · cases hinsert
  rename_i hzero
  split at hinsert
  · rw [Option.some_inj, Prod.mk.injEq] at hinsert
    exact Or.inl hinsert.2.symm
  · rename_i hslot
    split at hinsert
    · rw [Option.some_inj, Prod.mk.injEq] at hinsert
      exact Or.inl hinsert.2.symm
    · rename_i hfind
      obtain ⟨st₁, hnew, heq⟩ := Option.map_eq_some_iff.mp hinsert
      cases heq
      refine Or.inr ⟨hzero, ?_, hfind, hnew⟩
      rw [get_eq, if_neg hzero, hslot]

end SeriesStore
end MerlionTsdb.Head
