import MerlionTsdb.Head.SeriesStore

/-!
# Runs of the series store

Any sequence of `get_or_create` and `insert_with_ref` calls: replay inserts references with gaps,
repeats and conflicts, and fresh ones are dispensed in between.
-/

namespace MerlionTsdb.Head

open Model

inductive StoreCall
  | getOrCreate (labels : Labels)
  | insertWithRef (ref : SeriesRef) (labels : Labels)
  deriving DecidableEq

/-- What a call returns: the reference of a series and whether it is new, or whether the insertion was
taken. -/
inductive StoreAnswer
  | series (ref : SeriesRef) (fresh : Bool)
  | inserted (ok : Bool)
  deriving DecidableEq

namespace SeriesStore

/-- The answer to a call and the store it leaves; `none` when the slots cannot be allocated. -/
def perform (st : SeriesStore) : StoreCall → Option (StoreAnswer × SeriesStore)
  | .getOrCreate labels =>
    (st.getOrCreate labels).map fun (ref, fresh, st') ↦ (.series ref fresh, st')
  | .insertWithRef ref labels =>
    (st.insertWithRef ref labels).map fun (ok, st') ↦ (.inserted ok, st')

def runCalls (st : SeriesStore) : List StoreCall → Option SeriesStore
  | [] => some st
  | call :: calls => (st.perform call).bind fun (_, st') ↦ st'.runCalls calls

/-- The two tables are inverse to each other, and all references in use lie between 0 and the next
one. -/
structure Consistent (st : SeriesStore) : Prop where
  findRef_iff : ∀ labels ref, st.findRef labels = some ref ↔
    ∃ s, (st.byRef[(ref - 1).toNat]?).join = some s ∧ s.ref = ref ∧ s.labels = labels
  labels_inj : ∀ {ref ref' s s'}, st.get ref = some s → st.get ref' = some s' →
    s.labels = s'.labels → ref = ref'
  lt_next : ∀ {ref s}, st.get ref = some s → ref < st.nextRef
  next_pos : 0 < st.nextRef
  get_zero : st.get 0 = none
  findRef_ne_zero : ∀ labels, st.findRef labels ≠ some 0

/-- What the answer to a call on `st` has to be.  `before` is any earlier store of the run, and `st'`
the one the call leaves. -/
def Answers (before st st' : SeriesStore) : StoreCall → StoreAnswer → Prop
  | .getOrCreate labels, .series ref fresh =>
    st'.findRef labels = some ref ∧ (fresh = true ↔ st.findRef labels = none) ∧
      (fresh = true → before.get ref = none ∧ st.get ref = none) ∧ (fresh = false → st' = st)
  | .insertWithRef ref labels, .inserted ok =>
    (ok = true → st'.findRef labels = some ref) ∧ (ok = false → st' = st)
  | _, _ => False

/-- Every series of `st` is in the same slot of `st'`. -/
def Keeps (st st' : SeriesStore) : Prop :=
  ∀ {ref s}, st.get ref = some s → st'.get ref = some s

/-! ## Well-formed stores are consistent -/

/-- Reference 0 has no slot: the index wraps around to one that no vector has. -/
theorem WF.slot_eq_get {st : SeriesStore} (h : st.WF) (ref : SeriesRef) :
    (st.byRef[(ref - 1).toNat]?).join = st.get ref := by
  rw [get_eq]
  by_cases hzero : ref = 0
  · have hle := h.length_le
    unfold kMaxSlots kMaxSize at hle
    rw [if_pos hzero, hzero, List.getElem?_eq_none]
    · rfl
    · rw [show ((0 : SeriesRef) - 1).toNat = 2 ^ 64 - 1 from rfl]
      omega
  · have hindex : (ref - 1).toNat = ref.toNat - 1 := by
      apply UInt64.toNat_sub_of_le
      rw [UInt64.le_iff_toNat_le]
      exact toNat_pos hzero
    rw [if_neg hzero, hindex]

theorem WF.consistent {st : SeriesStore} (h : st.WF) : st.Consistent where
  findRef_iff labels ref := by
    rw [h.findRef_eq_some, h.slot_eq_get]
    constructor
    · rintro ⟨s, hget, hlabels⟩
      exact ⟨s, hget, h.ref_eq hget, hlabels⟩
    · rintro ⟨s, hget, -, hlabels⟩
      exact ⟨s, hget, hlabels⟩
  labels_inj := h.eq_of_labels_eq
  lt_next := by
    intro ref s hget
    have hle := (toNat_le_of_get hget).2
    rw [UInt64.lt_iff_toNat_lt, h.next]
    omega
  next_pos := by
    rw [UInt64.lt_iff_toNat_lt, h.next]
    exact Nat.zero_lt_succ _
  get_zero := by
    rw [get_eq, if_pos rfl]
  findRef_ne_zero := by
    intro labels hfind
    obtain ⟨s, hget, -⟩ := h.findRef_eq_some.mp hfind
    cases (toNat_le_of_get hget).1

/-! ## One call -/

theorem keeps_refl (st : SeriesStore) : st.Keeps st := fun hget ↦ hget

theorem Keeps.trans {st st' st'' : SeriesStore} (h : st.Keeps st') (h' : st'.Keeps st'') :
    st.Keeps st'' :=
  fun hget ↦ h' (h hget)

/-- A new series in a free slot leaves the others where they are. -/
theorem keeps_of_get {st st' : SeriesStore} {ref : SeriesRef} {new : MemSeries}
    (hfree : st.get ref = none)
    (hget : ∀ ref', st'.get ref' = if ref' = ref then some new else st.get ref') : st.Keeps st' := by
  intro ref' s hs
  rw [hget, if_neg]
  · exact hs
  · rintro rfl
    rw [hfree] at hs
    cases hs

/-- What `get_or_create` does to a well-formed store. -/
theorem WF.getOrCreate {st st' : SeriesStore} (h : st.WF) {labels : Labels} {ref : SeriesRef}
    {fresh : Bool} (hcall : st.getOrCreate labels = some (ref, fresh, st')) :
    st'.WF ∧ st.Keeps st' ∧ st'.findRef labels = some ref ∧
      ((fresh = false ∧ st.findRef labels = some ref ∧ st' = st) ∨
        (fresh = true ∧ st.findRef labels = none ∧ ref = st.nextRef)) := by
  cases hfind : st.findRef labels with
  | some found =>
    rw [getOrCreate_found hfind] at hcall
    cases hcall
    exact ⟨h, keeps_refl st, hfind, .inl ⟨rfl, rfl, rfl⟩⟩
  | none =>
    rw [h.getOrCreate_new hfind] at hcall
    split at hcall
    · rename_i hlen
      cases hcall
      obtain ⟨hwf, hget⟩ := h.push hfind hlen
      refine ⟨hwf, keeps_of_get h.get_next hget, ?_, .inr ⟨rfl, rfl, rfl⟩⟩
      rw [hwf.findRef_eq_some]
      refine ⟨{ ref := st.nextRef, labels := labels }, ?_, rfl⟩
      rw [hget, if_pos rfl]
    · cases hcall

/-- What `insert_with_ref` does to a well-formed store. -/
theorem WF.insertWithRef {st st' : SeriesStore} (h : st.WF) {ref : SeriesRef} {labels : Labels}
    {ok : Bool} (hcall : st.insertWithRef ref labels = some (ok, st')) :
    st'.WF ∧ st.Keeps st' ∧ (ok = true → st'.findRef labels = some ref) ∧
      (ok = false → st' = st) := by
  -- All ways out but one leave the store as it was.
  have hsame : ∀ found : Bool, (found = true → st.findRef labels = some ref) →
      some (found, st) = some (ok, st') →
      st'.WF ∧ st.Keeps st' ∧ (ok = true → st'.findRef labels = some ref) ∧ (ok = false → st' = st) := by
    intro found hfound heq
    cases heq
    exact ⟨h, keeps_refl st, hfound, fun _ ↦ rfl⟩
  unfold SeriesStore.insertWithRef at hcall
  split at hcall
  · exact hsame false (fun hfalse ↦ by cases hfalse) hcall
  rename_i hzero
  have hslot : st.get ref = (st.byRef[ref.toNat - 1]?).join := by
    rw [get_eq, if_neg hzero]
  split at hcall
  · -- The reference is taken: the labels have to be the same.
    rename_i s hs
    apply hsame _ _ hcall
    intro hlabels
    exact h.findRef_eq_some.mpr ⟨s, hslot.trans hs, of_decide_eq_true hlabels⟩
  · rename_i hfree
    split at hcall
    · -- The labels are taken, by another reference.
      rename_i found hfind
      apply hsame _ _ hcall
      intro hfound
      rw [hfind, of_decide_eq_true hfound]
    · -- Both are free, and the series is new.
      rename_i hnew
      obtain ⟨st₁, hinsert, heq⟩ := Option.map_eq_some_iff.mp hcall
      cases heq
      obtain ⟨hwf, -, hget⟩ := h.insertNew hzero (hslot.trans hfree) hnew hinsert
      refine ⟨hwf, keeps_of_get (hslot.trans hfree) hget, fun _ ↦ ?_, fun hfalse ↦ by cases hfalse⟩
      rw [hwf.findRef_eq_some]
      refine ⟨{ ref := ref, labels := labels }, ?_, rfl⟩
      rw [hget, if_pos rfl]

/-- One call: the store stays well formed, keeps its series, and answers as it has to. -/
theorem WF.perform {before st st' : SeriesStore} (h : st.WF) (hbefore : before.Keeps st)
    {call : StoreCall} {answer : StoreAnswer} (hcall : st.perform call = some (answer, st')) :
    st'.WF ∧ st.Keeps st' ∧ Answers before st st' call answer := by
  cases call with
  | getOrCreate labels =>
    obtain ⟨⟨ref, fresh, st₁⟩, hcreate, heq⟩ := Option.map_eq_some_iff.mp hcall
    cases heq
    obtain ⟨hwf, hkeeps, hfind, hcases⟩ := h.getOrCreate hcreate
    refine ⟨hwf, hkeeps, hfind, ?_⟩
    rcases hcases with ⟨rfl, hfound, rfl⟩ | ⟨rfl, hnew, rfl⟩
    · simp [hfound]
    · -- The next reference has no series now, and so had none before.
      have hbeforeNext : before.get st.nextRef = none := by
        cases hget : before.get st.nextRef with
        | none => rfl
        | some s => exact absurd rfl (h.get_ne_next (hbefore hget))
      simp [hnew, hbeforeNext, h.get_next]
  | insertWithRef ref labels =>
    obtain ⟨⟨ok, st₁⟩, hinsert, heq⟩ := Option.map_eq_some_iff.mp hcall
    cases heq
    exact h.insertWithRef hinsert

/-! ## Any run -/

theorem WF.runCalls {calls : List StoreCall} {st st' : SeriesStore} (h : st.WF)
    (hrun : st.runCalls calls = some st') : st'.WF ∧ st.Keeps st' := by
  induction calls generalizing st with
  | nil =>
    cases hrun
    exact ⟨h, keeps_refl _⟩
  | cons call calls ih =>
    obtain ⟨⟨answer, st₁⟩, hcall, hrest⟩ := Option.bind_eq_some_iff.mp hrun
    obtain ⟨hwf, hkeeps, -⟩ := h.perform (keeps_refl st) hcall
    obtain ⟨hwf', hkeeps'⟩ := ih hwf hrest
    exact ⟨hwf', hkeeps.trans hkeeps'⟩

/-- In every run from the empty store, cut at any point: the store is consistent, every series keeps
its reference and labels, and the next call answers as it has to. -/
theorem runCalls_consistent {earlier later : List StoreCall} {before st : SeriesStore}
    (hearlier : ({} : SeriesStore).runCalls earlier = some before)
    (hlater : before.runCalls later = some st) :
    st.Consistent ∧
      (∀ ref s, before.get ref = some s → ∃ s', st.get ref = some s' ∧ s'.labels = s.labels) ∧
      ∀ call answer st', st.perform call = some (answer, st') →
        st'.Consistent ∧ Answers before st st' call answer := by
  obtain ⟨hwf₀, -⟩ := wf_empty.runCalls hearlier
  obtain ⟨hwf, hkeeps⟩ := hwf₀.runCalls hlater
  refine ⟨hwf.consistent, fun ref s hget ↦ ⟨s, hkeeps hget, rfl⟩, ?_⟩
  intro call answer st' hcall
  obtain ⟨hwf', -, hanswers⟩ := hwf.perform hkeeps hcall
  exact ⟨hwf'.consistent, hanswers⟩

/-- A label set of its own for the runs below. -/
def emptyLabels : Labels := Labels.ofList [] (Nat.zero_le _)

/-- A reference with a gap in front of it, taken a second time, and then found by its labels. -/
theorem runCalls_consistent_gap :
    let before : SeriesStore := {
      byRef := [none, none, some { ref := 3, labels := emptyLabels }]
      byLabels := [(emptyLabels, 3)]
      nextRef := 4 }
    before.Consistent ∧
      (∀ ref s, before.get ref = some s → ∃ s', before.get ref = some s' ∧ s'.labels = s.labels) ∧
      ∀ call answer st', before.perform call = some (answer, st') →
        st'.Consistent ∧ Answers before before st' call answer := by
  intro before
  exact @runCalls_consistent [.insertWithRef 3 emptyLabels] [.insertWithRef 3 emptyLabels, .getOrCreate emptyLabels]
    before before (by decide) (by decide)

end SeriesStore
end MerlionTsdb.Head
