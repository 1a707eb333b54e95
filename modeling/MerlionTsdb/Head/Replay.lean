import MerlionTsdb.Head.Head
import MerlionTsdb.Wal.RecordRoundtrip

/-!
# Replay of a head's WAL

`Linked` ties the live store, the pending lists and the logged records together: replaying the
records, then inserting the pending series and then appending the pending samples gives the live
store.  Every operation of a head keeps it.
-/

namespace MerlionTsdb.Head

open Chunkenc Model Wal Wal.Record SeriesStore

/-! ## Replay in pieces -/

/-- What every insertion keeps, a series record keeps. -/
theorem insertAll_induction {P : SeriesStore → Prop}
    (hkeep : ∀ {st st' ref labels}, P st → st.insertWithRef ref labels = some (true, st') → P st')
    {series : List RefSeries} {st st' : SeriesStore} (h : P st)
    (hinsert : insertAll series st = some st') : P st' := by
  induction series generalizing st with
  | nil =>
    cases hinsert
    exact h
  | cons s series ih =>
    rw [insertAll] at hinsert
    split at hinsert
    · rename_i st₁ hstep
      exact ih (hkeep h hstep) hinsert
    · cases hinsert

theorem insertAll_append (series series' : List RefSeries) (store : SeriesStore) :
    insertAll (series ++ series') store = (insertAll series store).bind (insertAll series') := by
  induction series generalizing store with
  | nil => rfl
  | cons s series ih =>
    rw [List.cons_append, insertAll, insertAll]
    rcases store.insertWithRef s.ref (toModelLabels s) with _ | ⟨_ | _, store'⟩
    · rfl
    · rfl
    · exact ih store'

theorem appendAll_append (samples samples' : List RefSample) (store : SeriesStore) :
    appendAll (samples ++ samples') store = (appendAll samples store).bind (appendAll samples') := by
  induction samples generalizing store with
  | nil => rfl
  | cons s samples ih =>
    rw [List.cons_append, appendAll, appendAll]
    cases store.get s.ref with
    | none => rfl
    | some series =>
      dsimp only
      rcases store.append s.ref series { t := s.t, v := s.v } with ⟨_ | _, store'⟩
      · rfl
      · exact ih store'

theorem replayRecords_append (records records' : List Bytes) (store : SeriesStore) :
    replayRecords (records ++ records') store =
      (replayRecords records store).bind (replayRecords records') := by
  induction records generalizing store with
  | nil => rfl
  | cons record records ih =>
    rw [List.cons_append, replayRecords, replayRecords, Option.bind_assoc]
    congr 1
    funext store'
    exact ih store'

theorem replayRecord_encodeSeries {series : List RefSeries}
    (hlen : (encodeSeries series).length ≤ kMaxSize) (store : SeriesStore) :
    replayRecord (encodeSeries series) store = insertAll series store := by
  have htype : peekType (encodeSeries series) = kSeries := rfl
  unfold replayRecord
  rw [if_pos htype, decodeSeries_encodeSeries series hlen]

theorem replayRecord_encodeSamplesV2 {samples : List RefSample}
    (hlen : (encodeSamplesV2 samples).length ≤ kMaxSize) (store : SeriesStore) :
    replayRecord (encodeSamplesV2 samples) store = appendAll samples store := by
  have htype : peekType (encodeSamplesV2 samples) = kSamplesV2 := by
    cases samples <;> rfl
  unfold replayRecord
  rw [htype, if_neg (by decide), if_pos rfl, decodeSamplesV2_encodeSamplesV2 samples hlen]

theorem toModelLabels_toWalLabels (ref : SeriesRef) (labels : Labels) :
    toModelLabels (toWalLabels ref labels) = labels :=
  labels.ofList_entries

/-! ## Pending series and samples -/

/-- The series of a record entry is in the store. -/
def Named (st : SeriesStore) (s : RefSeries) : Prop :=
  ∃ s', st.get s.ref = some s' ∧ s'.labels = toModelLabels s

/-- Series that are there already change nothing: a series record may be logged twice. -/
theorem insertAll_named {st : SeriesStore} {series : List RefSeries}
    (h : ∀ s ∈ series, Named st s) : insertAll series st = some st := by
  induction series with
  | nil => rfl
  | cons s series ih =>
    obtain ⟨s', hget, hlabels⟩ := h s List.mem_cons_self
    rw [insertAll, insertWithRef_of_get hget, decide_eq_true hlabels]
    exact ih fun s' hs' ↦ h s' (List.mem_cons_of_mem _ hs')

theorem push_get_of_get {st : SeriesStore} (hwf : st.WF) {labels : Labels}
    (hnew : st.findRef labels = none) (hlen : st.byRef.length < kMaxSlots) {ref : SeriesRef}
    {s : MemSeries} (hget : st.get ref = some s) : (st.push labels).get ref = some s := by
  rw [(hwf.push hnew hlen).2, if_neg (hwf.get_ne_next hget), hget]

/-- Samples for the series there do not see a series inserted behind them. -/
theorem appendAll_push {st st' : SeriesStore} (hwf : st.WF) {labels : Labels}
    (hnew : st.findRef labels = none) (hlen : st.byRef.length < kMaxSlots)
    {samples : List RefSample} (h : appendAll samples st = some st') :
    appendAll samples (st.push labels) = some (st'.push labels) := by
  induction samples generalizing st with
  | nil =>
    cases h
    rfl
  | cons s samples ih =>
    rw [appendAll] at h ⊢
    cases hget : st.get s.ref with
    | none =>
      rw [hget] at h
      cases h
    | some series =>
      rw [hget] at h
      rw [push_get_of_get hwf hnew hlen hget]
      obtain ⟨href, hlabels⟩ := series.append_series { t := s.t, v := s.v }
      dsimp only at h ⊢
      unfold SeriesStore.append at h ⊢
      cases haccept : (series.append { t := s.t, v := s.v }).1 with
      | false =>
        rw [haccept] at h
        cases h
      | true =>
        rw [haccept] at h
        rw [put_push hget]
        apply ih (hwf.put hget href hlabels) hnew _ h
        rw [SeriesStore.put]
        dsimp only
        rwa [List.length_set]

/-! ## What a store contains -/

/-- The samples under one label set, in order. -/
def samplesUnder (labels : Labels) (samples : List (Labels × Sample)) : List Sample :=
  samples.filterMap fun e ↦ if e.1 = labels then some e.2 else none

theorem samplesUnder_append (labels : Labels) (as bs : List (Labels × Sample)) :
    samplesUnder labels (as ++ bs) = samplesUnder labels as ++ samplesUnder labels bs :=
  List.filterMap_append

theorem samplesUnder_cons (labels labels' : Labels) (x : Sample) (samples : List (Labels × Sample)) :
    samplesUnder labels' ((labels, x) :: samples) =
      if labels = labels' then x :: samplesUnder labels' samples else samplesUnder labels' samples := by
  unfold samplesUnder
  by_cases heq : labels = labels'
  · simp [heq]
  · simp [heq]

theorem update_append_samplesUnder (content : Labels → List Sample) (labels : Labels) (x : Sample)
    (samples : List (Labels × Sample)) :
    (fun labels' ↦ Function.update content labels (content labels ++ [x]) labels' ++
        samplesUnder labels' samples) =
      fun labels' ↦ content labels' ++ samplesUnder labels' ((labels, x) :: samples) := by
  funext labels'
  rw [samplesUnder_cons]
  by_cases heq : labels' = labels
  · subst heq
    rw [Function.update_self, if_pos rfl, List.append_assoc, List.singleton_append]
  · rw [Function.update_of_ne heq, if_neg (Ne.symm heq)]

/-- `content` says which samples are stored under which labels. -/
structure Contains (st : SeriesStore) (content : Labels → List Sample) : Prop where
  wf : st.WF
  holds : ∀ {ref s}, st.get ref = some s → s.Holds (content s.labels)
  absent : ∀ {labels}, st.findRef labels = none → content labels = []

namespace Contains

variable {st : SeriesStore} {content : Labels → List Sample}

theorem empty : Contains {} fun _ ↦ [] where
  wf := wf_empty
  holds h := by
    rw [get_eq] at h
    split at h <;> cases h
  absent _ := rfl

theorem samplesOf (h : Contains st content) (labels : Labels) :
    st.samplesOf labels = content labels := by
  cases hfind : st.findRef labels with
  | none =>
    unfold SeriesStore.samplesOf
    rw [hfind, h.absent hfind]
    rfl
  | some ref =>
    obtain ⟨s, hget, rfl⟩ := h.wf.findRef_eq_some.mp hfind
    rw [h.wf.samplesOf_eq hget, (h.holds hget).samples]

/-- A new series is empty. -/
theorem insert (h : Contains st content) {st' : SeriesStore} {ref : SeriesRef} {labels : Labels}
    (hwf : st'.WF) (hnew : st.findRef labels = none)
    (htable : st'.byLabels = st.byLabels ++ [(labels, ref)])
    (hget : ∀ ref', st'.get ref' =
      if ref' = ref then some { ref := ref, labels := labels } else st.get ref') :
    Contains st' content where
  wf := hwf
  holds := by
    intro ref' s hs
    rw [hget] at hs
    split at hs
    · cases hs
      dsimp only
      rw [h.absent hnew]
      exact MemSeries.holds_new ref labels
    · exact h.holds hs
  absent := by
    intro labels' hnone
    apply h.absent
    rw [findRef_eq_none] at hnone ⊢
    intro hmem
    apply hnone
    rw [htable, List.map_append]
    exact List.mem_append_left _ hmem

/-- A sample for a series of the store: accepted, or nothing changes. -/
theorem append (h : Contains st content) {ref : SeriesRef} {s : MemSeries}
    (hget : st.get ref = some s) (x : Sample) :
    ((s.append x).1 = true ∧ Contains (st.put ref (s.append x).2)
        (Function.update content s.labels (content s.labels ++ [x]))) ∨
      ((s.append x).1 = false ∧ st.put ref (s.append x).2 = st) := by
  obtain ⟨href, hlabels⟩ := s.append_series x
  obtain ⟨hpos, hle⟩ := toNat_le_of_get hget
  rcases (h.holds hget).append x with ⟨s', happend, hholds⟩ | hsame
  · rw [happend] at href hlabels ⊢
    refine Or.inl ⟨rfl, h.wf.put hget href hlabels, ?_, ?_⟩
    · intro ref' s₁ hs
      rw [get_put hpos hle] at hs
      split at hs
      · cases hs
        rw [hlabels, Function.update_self]
        exact hholds
      · rename_i hne
        rw [Function.update_of_ne]
        · exact h.holds hs
        · -- Two series never have the same labels.
          intro heq
          exact hne (h.wf.eq_of_labels_eq hs hget heq)
    · intro labels hnone
      have hnone' : st.findRef labels = none := hnone
      rw [Function.update_of_ne]
      · exact h.absent hnone'
      · rintro rfl
        rw [h.wf.findRef_eq_some.mpr ⟨s, hget, rfl⟩] at hnone'
        cases hnone'
  · rw [hsame]
    exact Or.inr ⟨rfl, put_self hget⟩

theorem insertAll {series : List RefSeries} {st' : SeriesStore} (h : Contains st content)
    (hinsert : insertAll series st = some st') : Contains st' content := by
  refine insertAll_induction (P := fun st ↦ Contains st content) (fun h hstep ↦ ?_) h hinsert
  rcases insertWithRef_cases hstep with rfl | ⟨hzero, hfree, hnew, heq⟩
  · exact h
  · obtain ⟨hwf, htable, hget⟩ := h.wf.insertNew hzero hfree hnew heq
    exact h.insert hwf hnew htable hget

theorem appendAll {samples : List RefSample} {st' : SeriesStore} (h : Contains st content)
    (happend : appendAll samples st = some st') : ∃ content', Contains st' content' := by
  induction samples generalizing st content with
  | nil =>
    cases happend
    exact ⟨content, h⟩
  | cons s samples ih =>
    rw [Head.appendAll] at happend
    cases hget : st.get s.ref with
    | none =>
      rw [hget] at happend
      cases happend
    | some series =>
      rw [hget] at happend
      dsimp only [SeriesStore.append] at happend
      rcases h.append hget { t := s.t, v := s.v } with ⟨haccept, h'⟩ | ⟨hreject, -⟩
      · rw [haccept] at happend
        exact ih h' happend
      · rw [hreject] at happend
        cases happend

end Contains

/-- Whatever a replay builds has well-formed series. -/
theorem contains_replayRecords {records : List Bytes} {st st' : SeriesStore}
    {content : Labels → List Sample} (h : Contains st content)
    (hreplay : replayRecords records st = some st') : ∃ content', Contains st' content' := by
  induction records generalizing st content with
  | nil =>
    cases hreplay
    exact ⟨content, h⟩
  | cons record records ih =>
    rw [replayRecords] at hreplay
    obtain ⟨st₁, hrecord, hrest⟩ := Option.bind_eq_some_iff.mp hreplay
    have hstep : ∃ content₁, Contains st₁ content₁ := by
      unfold replayRecord at hrecord
      split at hrecord
      · split at hrecord
        · exact ⟨content, h.insertAll hrecord⟩
        · cases hrecord
      split at hrecord
      · split at hrecord
        · exact h.appendAll hrecord
        · cases hrecord
      · cases hrecord
        exact ⟨content, h⟩
    obtain ⟨content₁, h₁⟩ := hstep
    exact ih h₁ hrest

/-! ## The head and its log -/

variable {W L S K : Type}

/-- Replaying `records` gives the store `logged`, the pending series lead on to `named`, and the
pending samples to the live store. -/
structure Linked (records : List Bytes) (h : Head W) (logged named : SeriesStore)
    (content : Labels → List Sample) : Prop where
  replayed : replayRecords records {} = some logged
  inserted : insertAll h.pendingSeries logged = some named
  appended : appendAll h.pendingSamples named = some h.series
  wf_named : named.WF
  byLabels_eq : named.byLabels = h.series.byLabels
  nextRef_eq : named.nextRef = h.series.nextRef
  pending_named : ∀ s ∈ h.pendingSeries, Named named s
  contains : Contains h.series content

namespace Linked

variable {records : List Bytes} {h : Head W} {logged named : SeriesStore}
  {content : Labels → List Sample}

/-- A label set new to the live store is new to the named one, which has as much room. -/
theorem named_new (hl : Linked records h logged named content) {labels : Labels}
    (hnew : h.series.findRef labels = none) (hlen : h.series.byRef.length < kMaxSlots) :
    named.findRef labels = none ∧ named.byRef.length < kMaxSlots := by
  have hnext := hl.wf_named.next
  rw [hl.nextRef_eq, hl.contains.wf.next] at hnext
  rw [findRef_eq_none, hl.byLabels_eq, ← findRef_eq_none]
  exact ⟨hnew, by omega⟩

/-- A new series. -/
theorem name (hl : Linked records h logged named content) {labels : Labels}
    (hnew : h.series.findRef labels = none) (hlen : h.series.byRef.length < kMaxSlots) :
    Linked records
      { h with
        series := h.series.push labels
        pendingSeries := h.pendingSeries ++ [toWalLabels h.series.nextRef labels] }
      logged (named.push labels) content := by
  have hwf := hl.contains.wf
  obtain ⟨hnewNamed, hlenNamed⟩ := hl.named_new hnew hlen
  obtain ⟨hwfPush, hgetPush⟩ := hl.wf_named.push hnewNamed hlenNamed
  obtain ⟨hwfLive, hgetLive⟩ := hwf.push hnew hlen
  constructor
  · exact hl.replayed
  · -- The replay gives the series the same reference.
    have href : (toWalLabels h.series.nextRef labels).ref = named.nextRef := hl.nextRef_eq.symm
    dsimp only
    rw [insertAll_append, hl.inserted, Option.bind_some, insertAll, toModelLabels_toWalLabels, href,
      hl.wf_named.insertWithRef_next hnewNamed hlenNamed]
    rfl
  · exact appendAll_push hl.wf_named hnewNamed hlenNamed hl.appended
  · exact hwfPush
  · unfold SeriesStore.push
    dsimp only
    rw [hl.byLabels_eq, hl.nextRef_eq]
  · unfold SeriesStore.push
    dsimp only
    rw [hl.nextRef_eq]
  · intro s hs
    rcases List.mem_append.mp hs with hs | hs
    · obtain ⟨s', hget, hlabels⟩ := hl.pending_named s hs
      exact ⟨s', push_get_of_get hl.wf_named hnewNamed hlenNamed hget, hlabels⟩
    · rw [List.mem_singleton.mp hs, Named, toModelLabels_toWalLabels]
      refine ⟨{ ref := named.nextRef, labels := labels }, ?_, rfl⟩
      rw [hgetPush, hl.nextRef_eq]
      exact if_pos rfl
  · exact hl.contains.insert hwfLive hnew rfl hgetLive

/-- A sample for a series of the store: accepted, or nothing changes. -/
theorem sample (hl : Linked records h logged named content) {ref : SeriesRef} {s : MemSeries}
    (hget : h.series.get ref = some s) (x : Sample) :
    ((s.append x).1 = true ∧
      Linked records
        { h with
          series := h.series.put ref (s.append x).2
          pendingSamples := h.pendingSamples ++ [{ ref := s.ref, t := x.t, st := 0, v := x.v }] }
        logged named (Function.update content s.labels (content s.labels ++ [x]))) ∨
      ((s.append x).1 = false ∧ h.series.put ref (s.append x).2 = h.series) := by
  rcases hl.contains.append hget x with ⟨haccept, hcontains⟩ | hsame
  · refine Or.inl ⟨haccept, ?_⟩
    constructor
    · exact hl.replayed
    · exact hl.inserted
    · -- The replayed sample meets the live series.
      rw [appendAll_append, hl.appended, Option.bind_some, appendAll]
      dsimp only
      rw [hl.contains.wf.ref_eq hget, hget]
      unfold SeriesStore.append
      dsimp only
      rw [haccept]
      rfl
    · exact hl.wf_named
    · exact hl.byLabels_eq
    · exact hl.nextRef_eq
    · exact hl.pending_named
    · exact hcontains
  · exact Or.inr hsame

/-- The series that a sample goes to is there, or it is named. -/
theorem finds (hl : Linked records h logged named content) {h₁ : Head W} {labels : Labels}
    {slot : SeriesRef} {s : MemSeries} (hf : h.Finds labels h₁ slot s) :
    ∃ named₁, Linked records h₁ logged named₁ content := by
  cases hf with
  | found => exact ⟨named, hl⟩
  | created hnew hlen => exact ⟨_, hl.name hnew hlen⟩

/-- An append: the sample is accepted, and counted, or it is not. -/
theorem append (hl : Linked records h logged named content) {labels : Labels} {x : Sample}
    {r : Except HeadError SeriesRef} {h' : Head W} (happend : h.append labels x = some (r, h')) :
    ∃ named', Linked records h' logged named'
      (if r.isOk then Function.update content labels (content labels ++ [x]) else content) := by
  have hwf := hl.contains.wf
  rcases Head.append_cases hwf happend with
    ⟨-, rfl, rfl⟩ | ⟨-, h₁, slot, s, hf, hresult⟩
  · exact ⟨named, hl⟩
  obtain ⟨named₁, hl₁⟩ := hl.finds hf
  have hsample := hl₁.sample (hf.get_eq hwf) x
  rw [hf.labels_eq] at hsample
  rcases hresult with ⟨haccept, rfl, rfl⟩ | ⟨hreject, rfl, rfl⟩
  · rcases hsample with ⟨-, hl'⟩ | ⟨hreject, -⟩
    · exact ⟨_, hl'⟩
    · rw [haccept] at hreject
      cases hreject
  · rcases hsample with ⟨haccept, -⟩ | ⟨-, hsame⟩
    · rw [hreject] at haccept
      cases haccept
    · rw [hsame]
      exact ⟨_, hl₁⟩

theorem eq_named (hl : Linked records h logged named content) (hnone : h.pendingSeries = []) :
    logged = named := by
  have hinserted := hl.inserted
  rw [hnone] at hinserted
  exact Option.some_inj.mp hinserted

theorem eq_live (hl : Linked records h logged named content) (hnone : h.pendingSamples = []) :
    named = h.series := by
  have happended := hl.appended
  rw [hnone] at happended
  exact Option.some_inj.mp happended

/-- The series record in the log, the pending list kept: the next one names the same series. -/
theorem logSeriesKept (hl : Linked records h logged named content)
    (hlen : (encodeSeries h.pendingSeries).length ≤ kMaxSize) (wal : W) :
    Linked (records ++ [encodeSeries h.pendingSeries]) { h with wal := wal } named named content where
  replayed := by
    rw [replayRecords_append, hl.replayed, Option.bind_some, replayRecords,
      replayRecord_encodeSeries hlen, hl.inserted]
    rfl
  inserted := insertAll_named hl.pending_named
  appended := hl.appended
  wf_named := hl.wf_named
  byLabels_eq := hl.byLabels_eq
  nextRef_eq := hl.nextRef_eq
  pending_named := hl.pending_named
  contains := hl.contains

/-- The series record in the log, the pending list cleared. -/
theorem logSeries (hl : Linked records h logged named content)
    (hlen : (encodeSeries h.pendingSeries).length ≤ kMaxSize) (wal : W) :
    Linked (records ++ [encodeSeries h.pendingSeries]) { h with wal := wal, pendingSeries := [] }
      named named content where
  replayed := (hl.logSeriesKept hlen wal).replayed
  inserted := rfl
  appended := hl.appended
  wf_named := hl.wf_named
  byLabels_eq := hl.byLabels_eq
  nextRef_eq := hl.nextRef_eq
  pending_named := fun _ hs ↦ absurd hs List.not_mem_nil
  contains := hl.contains

/-- The sample record in the log, behind the series it needs. -/
theorem logSamples (hl : Linked records h logged named content) (hnone : h.pendingSeries = [])
    (hlen : (encodeSamplesV2 h.pendingSamples).length ≤ kMaxSize) (wal : W) :
    Linked (records ++ [encodeSamplesV2 h.pendingSamples])
      { h with wal := wal, pendingSamples := [] } h.series h.series content where
  replayed := by
    rw [replayRecords_append, hl.replayed, hl.eq_named hnone, Option.bind_some, replayRecords,
      replayRecord_encodeSamplesV2 hlen, hl.appended]
    rfl
  inserted := by
    dsimp only
    rw [hnone]
    rfl
  appended := rfl
  wf_named := hl.contains.wf
  byLabels_eq := rfl
  nextRef_eq := rfl
  pending_named := by
    dsimp only
    rw [hnone]
    exact fun _ hs ↦ absurd hs List.not_mem_nil
  contains := hl.contains

/-- The WAL and the flag of a head play no part. -/
theorem congr (hl : Linked records h logged named content) (wal : W) (closed : Bool) :
    Linked records { h with wal := wal, closed := closed } logged named content :=
  ⟨hl.replayed, hl.inserted, hl.appended, hl.wf_named, hl.byLabels_eq, hl.nextRef_eq,
    hl.pending_named, hl.contains⟩

/-- A head just opened. -/
theorem opened {store : SeriesStore} (hreplay : replayRecords records {} = some store)
    (hcontains : Contains store content) (wal : W) :
    Linked records { wal := wal, series := store } store store content where
  replayed := hreplay
  inserted := rfl
  appended := rfl
  wf_named := hcontains.wf
  byLabels_eq := rfl
  nextRef_eq := rfl
  pending_named := fun _ hs ↦ absurd hs List.not_mem_nil
  contains := hcontains

/-- With nothing pending, the records are all of the live store. -/
theorem replay (hl : Linked records h logged named content) (hseries : h.pendingSeries = [])
    (hsamples : h.pendingSamples = []) : replayRecords records {} = some h.series := by
  rw [hl.replayed, hl.eq_named hseries, hl.eq_live hsamples]

end Linked

/-! ## Sessions over a list of records -/

/-- What a commit does to a head over a list of records. -/
theorem commit_listWal {h h' : Head (List Bytes)} {calls : CommitCalls Unit Unit} {ok : Bool}
    {logged named : SeriesStore} {content : Labels → List Sample}
    (hl : Linked h.wal h logged named content) (hopen : h.closed = false)
    (hcommit : h.commit listWal calls = some (ok, h')) :
    ok = true ∧ h'.pendingSeries = [] ∧ h'.pendingSamples = [] ∧
      ∃ logged' named', Linked h'.wal h' logged' named' content := by
  have hfirst : ∀ {ok₁ : Bool} {h₁ : Head (List Bytes)},
      h.logSeries listWal calls.series = some (ok₁, h₁) →
      ok₁ = true ∧ h₁.pendingSeries = [] ∧
        ∃ logged₁ named₁, Linked h₁.wal h₁ logged₁ named₁ content := by
    intro ok₁ h₁ hlog
    rcases Head.logSeries_cases hlog with ⟨hnone, rfl, rfl⟩ | ⟨-, hlen, wal, hwal, rfl⟩
    · exact ⟨rfl, hnone, _, _, hl⟩
    · cases hwal
      exact ⟨rfl, rfl, _, _, hl.logSeries hlen _⟩
  rcases Head.commit_cases hopen hcommit with ⟨hlog, -⟩ | ⟨h₁, hlog, hrest⟩
  · obtain ⟨hok, -⟩ := hfirst hlog
    cases hok
  obtain ⟨-, hnone₁, logged₁, named₁, hl₁⟩ := hfirst hlog
  rcases hrest with ⟨hlog₂, -⟩ | ⟨h₂, hlog₂, wal, hsync, rfl⟩
  · rcases Head.logSamples_cases hlog₂ with ⟨-, hok, -⟩ | ⟨-, -, wal, hwal, -⟩
    · cases hok
    · cases hwal
  · cases hsync
    rcases Head.logSamples_cases hlog₂ with ⟨hnone₂, -, rfl⟩ | ⟨-, hlen, wal, hwal, rfl⟩
    · exact ⟨rfl, hnone₁, hnone₂, _, _, hl₁⟩
    · cases hwal
      exact ⟨rfl, hnone₁, rfl, _, _, hl₁.logSamples hnone₁ hlen _⟩

/-- What a user of a head does: sessions of appends and commits, each ended by a close. -/
inductive SessionCall
  | append (labels : Labels) (x : Sample)
  | commit
  | close
  | reopen
  deriving DecidableEq

/-- One call, keeping the live store of the last commit.  `none` stands for an exception, or for a
reopening of a head that is not closed. -/
def SessionCall.step (h : Head (List Bytes)) (committed : SeriesStore) :
    SessionCall → Option (Head (List Bytes) × SeriesStore)
  | .append labels x => (h.append labels x).map fun r ↦ (r.2, committed)
  | .commit => (h.commit listWal ⟨(), (), ()⟩).map fun r ↦
      (r.2, if r.1 then r.2.series else committed)
  | .close => (h.close listWal ⟨(), (), ()⟩ ()).map fun r ↦
      (r.2, if h.closed then committed else r.2.series)
  | .reopen => if h.closed then (Head.openList h.wal).map fun h ↦ (h, committed) else none

def runSessions : List SessionCall → Head (List Bytes) → SeriesStore →
    Option (Head (List Bytes) × SeriesStore)
  | [], h, committed => some (h, committed)
  | call :: calls, h, committed => (call.step h committed).bind fun s ↦ runSessions calls s.1 s.2

/-- The log holds the committed store, and a closed head has nothing pending. -/
structure Replays (h : Head (List Bytes)) (committed : SeriesStore) : Prop where
  exists_linked : ∃ named content, Linked h.wal h committed named content
  closed : h.closed = true → h.pendingSeries = [] ∧ h.pendingSamples = []

theorem replays_of_committed {h : Head (List Bytes)} {logged named : SeriesStore}
    {content : Labels → List Sample} (hl : Linked h.wal h logged named content)
    (hseries : h.pendingSeries = []) (hsamples : h.pendingSamples = []) :
    Replays h h.series where
  exists_linked := by
    have hlive := (hl.eq_named hseries).trans (hl.eq_live hsamples)
    refine ⟨named, content, ?_⟩
    rwa [hlive] at hl
  closed _ := ⟨hseries, hsamples⟩

theorem replays_fresh : Replays { wal := [] } {} where
  exists_linked := ⟨_, _, Linked.opened rfl Contains.empty _⟩
  closed _ := ⟨rfl, rfl⟩

theorem Replays.step {h h' : Head (List Bytes)} {committed committed' : SeriesStore}
    (hr : Replays h committed) (call : SessionCall)
    (hstep : call.step h committed = some (h', committed')) : Replays h' committed' := by
  obtain ⟨⟨named, content, hl⟩, hclosed⟩ := id hr
  cases call with
  | append labels x =>
    obtain ⟨⟨r, h₁⟩, hcall, heq⟩ := Option.map_eq_some_iff.mp hstep
    cases heq
    obtain ⟨hwal, hstatus, hsame⟩ := Head.append_keeps hcall
    obtain ⟨named', hl'⟩ := hl.append hcall
    rw [← hwal] at hl'
    refine ⟨⟨_, _, hl'⟩, ?_⟩
    intro hclosed'
    rw [hstatus] at hclosed'
    rw [hsame hclosed']
    exact hclosed hclosed'
  | commit =>
    obtain ⟨⟨ok, h₁⟩, hcall, heq⟩ := Option.map_eq_some_iff.mp hstep
    cases heq
    cases hstatus : h.closed with
    | true =>
      -- A closed head refuses, and stays as it is.
      rw [Head.commit_closed hstatus] at hcall
      cases hcall
      exact hr
    | false =>
      obtain ⟨rfl, hseries, hsamples, _, _, hl'⟩ := commit_listWal hl hstatus hcall
      exact replays_of_committed hl' hseries hsamples
  | close =>
    obtain ⟨⟨ok, h₁⟩, hcall, heq⟩ := Option.map_eq_some_iff.mp hstep
    cases heq
    cases hstatus : h.closed with
    | true =>
      rw [Head.close_closed hstatus] at hcall
      cases hcall
      exact hr
    | false =>
      rcases Head.close_cases hstatus hcall with ⟨h₂, hcommit, -, rfl⟩ | ⟨h₂, hcommit, wal, hcut, rfl⟩
      · obtain ⟨hok, -⟩ := commit_listWal hl hstatus hcommit
        cases hok
      · -- The cut of a list keeps it.
        cases hcut
        obtain ⟨-, hseries, hsamples, _, _, hl'⟩ := commit_listWal hl hstatus hcommit
        exact replays_of_committed (hl'.congr _ _) hseries hsamples
  | reopen =>
    rw [SessionCall.step] at hstep
    by_cases hclosed' : h.closed = true
    · -- A closed head has nothing pending, so the log replays to its series.
      obtain ⟨hseries, hsamples⟩ := hclosed hclosed'
      have hlive : committed = h.series := (hl.eq_named hseries).trans (hl.eq_live hsamples)
      have hcontains : Contains committed content := by
        rw [hlive]
        exact hl.contains
      rw [if_pos hclosed', Head.openList, hl.replayed] at hstep
      cases hstep
      exact ⟨⟨_, _, Linked.opened hl.replayed hcontains h.wal⟩, fun _ ↦ ⟨rfl, rfl⟩⟩
    · rw [if_neg hclosed'] at hstep
      cases hstep

theorem Replays.run {h h' : Head (List Bytes)} {committed committed' : SeriesStore}
    (hr : Replays h committed) (calls : List SessionCall)
    (hrun : runSessions calls h committed = some (h', committed')) : Replays h' committed' := by
  induction calls generalizing h committed with
  | nil =>
    cases hrun
    exact hr
  | cons call calls ih =>
    rw [runSessions] at hrun
    obtain ⟨⟨h₁, committed₁⟩, hstep, hrest⟩ := Option.bind_eq_some_iff.mp hrun
    exact ih (hr.step call hstep) hrest

/-- Over any sessions, replaying the log rebuilds the live store of the last commit. -/
theorem replayRecords_runSessions (calls : List SessionCall) {h : Head (List Bytes)}
    {committed : SeriesStore} (hrun : runSessions calls { wal := [] } {} = some (h, committed)) :
    replayRecords h.wal {} = some committed := by
  obtain ⟨⟨named, content, hl⟩, -⟩ := replays_fresh.run calls hrun
  exact hl.replayed

/-- Two sessions, with a rejected sample in the first and one left uncommitted in the second. -/
theorem replayRecords_two_sessions :
    let calls : List SessionCall :=
      [.append Labels.empty ⟨2, 7⟩, .append Labels.empty ⟨1, 8⟩,
        .commit, .append Labels.empty ⟨3, 9⟩, .close, .reopen,
        .append Labels.empty ⟨3, 10⟩]
    ((runSessions calls { wal := [] } {}).bind fun s ↦ replayRecords s.1.wal {}).map
      (fun store ↦ store.allSeries.map MemSeries.samples) = some [[⟨2, 7⟩, ⟨3, 9⟩]] := by
  intro calls
  have hrun : (runSessions calls { wal := [] } {}).isSome = true := by decide +kernel
  obtain ⟨⟨h, committed⟩, hsome⟩ := Option.isSome_iff_exists.mp hrun
  rw [hsome, Option.bind_some, replayRecords_runSessions calls hsome]
  have hsamples : ((runSessions calls { wal := [] } {}).map fun s ↦
      s.2.allSeries.map MemSeries.samples) = some [[⟨2, 7⟩, ⟨3, 9⟩]] := by decide +kernel
  rw [hsome] at hsamples
  exact hsamples

end MerlionTsdb.Head
