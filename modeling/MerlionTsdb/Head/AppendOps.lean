import MerlionTsdb.Chunkenc.SignedOps
import MerlionTsdb.Head.Reach
import MerlionTsdb.Lib.Related
import MerlionTsdb.Wal.RecordOps
import Mathlib.Data.List.Chain

/-!
# Signed arithmetic of a head

The exact results of the signed additions and subtractions behind the appends, the commits and the replay
of a head.  A replayed sample meets the series that it met when it was accepted, so a replay repeats
the subtractions of the appends.
-/

set_option linter.dupNamespace false

namespace MerlionTsdb.Head

open Chunkenc Encoding Model SeriesStore Wal Wal.Record

variable {W L S K : Type}

/-! ## What is computed -/

namespace MemSeries

def appendCurrentOps (s : MemSeries) (x : Sample) : List Int :=
  match s.chunks.getLast?, s.currentAppender with
  | some c, some a => a.appendOps c.writer x.t
  | _, _ => []

def appendOps (s : MemSeries) (x : Sample) : List Int :=
  if s.hasSample && x.t < s.lastT then []
  else
    let s := if s.needsCut then s.cutChunk else s
    s.appendCurrentOps x ++
      match s.appendCurrent x with
      | (true, _) => []
      | (false, s) => s.cutChunk.appendCurrentOps x

/-- The samples of every chunk step by less than 2^63. -/
def InSteps (s : MemSeries) : Prop := ∀ c ∈ s.chunks, c.samples.1.IsChain Sample.Steps

/-- A reader that walks over all chunks. -/
def readOps (s : MemSeries) : List Int :=
  s.chunks.flatMap XORChunk.readOps

end MemSeries

def appendAllOps : List RefSample → SeriesStore → List Int
  | [], _ => []
  | s :: samples, store =>
    match store.get s.ref with
    | none => []
    | some series =>
      series.appendOps { t := s.t, v := s.v } ++
        match store.append s.ref series { t := s.t, v := s.v } with
        | (true, store) => appendAllOps samples store
        | (false, _) => []

/-- A series record takes no signed arithmetic. -/
def replayRecordOps (record : Bytes) (store : SeriesStore) : List Int :=
  if peekType record = kSeries then []
  else if peekType record = kSamplesV2 then
    decodeSamplesV2Ops record ++
      match decodeSamplesV2 record with
      | .ok samples => appendAllOps samples store
      | .error _ => []
  else []

def replayRecordsOps : List Bytes → SeriesStore → List Int
  | [], _ => []
  | record :: records, store =>
    replayRecordOps record store ++
      match replayRecord record store with
      | some store => replayRecordsOps records store
      | none => []

namespace Head

def appendOps (h : Head W) (labels : Labels) (x : Sample) : List Int :=
  if h.closed then []
  else
    match h.series.getOrCreate labels with
    | none => []
    | some (slot, _, store) =>
      match store.get slot with
      | none => []
      | some s => s.appendOps x

/-- Only the sample record is coded with differences. -/
def commitOps (ops : WalOps W L S K) (h : Head W) (calls : CommitCalls L S) : List Int :=
  if h.closed then []
  else
    match h.logSeries ops calls.series with
    | some (true, h) => if h.pendingSamples.isEmpty then [] else encodeSamplesV2Ops h.pendingSamples
    | _ => []

end Head

/-! ## One series -/

namespace MemSeries

theorem Encoded.inSteps {s : MemSeries} {parts : List (List Sample)} (h : s.Encoded parts) :
    s.InSteps ↔ ∀ part ∈ parts, part.IsChain Sample.Steps := by
  have hchunks := h.forall₂
  unfold InSteps
  constructor
  · intro hsteps part hpart
    obtain ⟨c, hc, d, hd⟩ := Related.exists_left hchunks hpart
    rw [← hd.drain.1]
    exact hsteps c hc
  · intro hsteps c hc
    obtain ⟨part, hpart, d, hd⟩ := Related.exists_right hchunks hc
    rw [hd.drain.1]
    exact hsteps part hpart

theorem Encoded.length_le {s : MemSeries} {parts : List (List Sample)} (h : s.Encoded parts) :
    ∀ part ∈ parts, part.length ≤ kMaxSamples := by
  intro part hpart
  obtain ⟨c, -, d, hd⟩ := Related.exists_left h.forall₂ hpart
  exact hd.length_le

/-- The subtraction for a sample behind the last run. -/
theorem Encoded.appendCurrentOps {s : MemSeries} {parts : List (List Sample)} {part : List Sample}
    (h : s.Encoded (parts ++ [part])) (x : Sample) :
    s.appendCurrentOps x =
      if part.length = kMaxSamples then []
      else (part.getLast?.map fun y ↦ x.t.toInt - y.t.toInt).toList := by
  obtain ⟨done, c, a, d, hchunks, ha, -, hc, htracks⟩ := h.last_run
  unfold MemSeries.appendCurrentOps
  rw [hchunks, List.getLast?_concat, ha]
  exact hc.appendOps_eq htracks x.t

/-- An accepted sample starts a run, or is subtracted from the last sample of the last run. -/
theorem Encoded.appendOps_cases {s : MemSeries} {parts : List (List Sample)} (h : s.Encoded parts)
    (hparts : ∀ part ∈ parts, part ≠ []) (x : Sample)
    (htime : ¬ (s.hasSample && x.t < s.lastT) = true) :
    (∃ s', s.append x = (true, MemSeries.accept s' x) ∧ s'.Encoded (parts ++ [[x]]) ∧
        s.appendOps x = []) ∨
      ∃ init part y s', s.needsCut = false ∧ parts = init ++ [part] ∧ y ∈ part.getLast? ∧
        s.append x = (true, MemSeries.accept s' x) ∧ s'.Encoded (init ++ [part ++ [x]]) ∧
        s.appendOps x = [x.t.toInt - y.t.toInt] := by
  have hfresh : s.cutChunk.appendCurrentOps x = [] := h.cutChunk.appendCurrentOps x
  unfold MemSeries.appendOps
  rw [if_neg htime]
  dsimp only
  rcases h.append_cases x htime with
    ⟨s', happend, henc, hwhy⟩ | ⟨init, part, s', hcut, rfl, hroom, hs', happend, henc⟩
  · left
    refine ⟨s', happend, henc, ?_⟩
    rcases hwhy with hcut | ⟨hcut, init, part, rfl, hmax, hfull⟩
    · obtain ⟨s₁, hs₁, -⟩ := h.fresh x
      rw [if_pos hcut, hs₁, hfresh]
      rfl
    · rw [hcut, if_neg Bool.false_ne_true, hfull, h.appendCurrentOps x, if_pos hmax]
      exact hfresh
  · right
    have hne := hparts part (by simp)
    refine ⟨init, part, part.getLast hne, s', hcut, rfl, List.getLast?_eq_some_getLast hne, happend,
      henc, ?_⟩
    rw [hcut, if_neg Bool.false_ne_true, hs', h.appendCurrentOps x, if_neg (Nat.ne_of_lt hroom),
      List.getLast?_eq_some_getLast hne]
    rfl

/-- The sample before an accepted one, in the run that it extends. -/
theorem Holds.append_cases {s : MemSeries} {xs : List Sample} (h : s.Holds xs) {x : Sample}
    (htime : ¬ (s.hasSample && x.t < s.lastT) = true) :
    ∃ s', s.append x = (true, s') ∧
      ((s.appendOps x = [] ∧ (s.InSteps → s'.InSteps)) ∨
        (s.needsCut = false ∧ s.hasSample = true ∧ s.lastT ≤ x.t ∧
          s.appendOps x = [x.t.toInt - s.lastT.toInt] ∧
          (s.InSteps → x.t.toInt - s.lastT.toInt < 2 ^ 63 → s'.InSteps))) := by
  obtain ⟨parts, henc, hparts, rfl⟩ := h.exists_parts
  rcases henc.appendOps_cases hparts x htime with
    ⟨s', happend, henc', hops⟩ | ⟨init, part, y, s', hcut, rfl, hy, happend, henc', hops⟩
  · -- A run of one sample takes no step.
    refine ⟨_, happend, Or.inl ⟨hops, fun hsteps ↦ ?_⟩⟩
    apply henc'.inSteps.mpr
    intro part hpart
    rcases List.mem_append.mp hpart with hpart | hpart
    · exact henc.inSteps.mp hsteps part hpart
    · rw [List.mem_singleton.mp hpart]
      exact List.isChain_singleton _
  · -- The last sample of the last run is the last of the series.
    have hlast : y ∈ (init ++ [part]).flatten.getLast? := by
      rw [List.flatten_concat, List.getLast?_append, hy]
      rfl
    have hhas : s.hasSample = true := by
      rw [h.hasSample_eq]
      cases hnone : (init ++ [part]).flatten with
      | nil =>
        rw [hnone] at hlast
        cases hlast
      | cons => rfl
    have ht := h.lastT_eq y hlast
    have hle : s.lastT ≤ x.t := by
      rw [hhas, Bool.true_and, decide_eq_true_iff, Int64.not_lt] at htime
      exact htime
    refine ⟨_, happend, Or.inr ⟨hcut, hhas, hle, by rw [hops, ht], fun hsteps hnear ↦ ?_⟩⟩
    apply henc'.inSteps.mpr
    intro p hp
    rcases List.mem_append.mp hp with hp | hp
    · exact henc.inSteps.mp hsteps p (List.mem_append_left _ hp)
    · rw [List.mem_singleton.mp hp, List.isChain_append]
      refine ⟨henc.inSteps.mp hsteps part (by simp), List.isChain_singleton _, ?_⟩
      intro y' hy' z hz
      rw [Option.mem_unique hy' hy, ← Option.mem_some.mp hz]
      rw [ht] at hle hnear
      exact ⟨hle, hnear⟩

/-- An append behind a last sample that is less than 2^63 away, if the chunk stays. -/
theorem Holds.allIn_appendOps {s : MemSeries} {xs : List Sample} (h : s.Holds xs) {x : Sample}
    (hnear : s.needsCut = false → s.hasSample = true → x.t.toInt - s.lastT.toInt < 2 ^ 63) :
    AllIn (s.appendOps x) := by
  by_cases htime : (s.hasSample && x.t < s.lastT) = true
  · unfold MemSeries.appendOps
    rw [if_pos htime]
    exact allIn_nil
  · obtain ⟨s', -, ⟨hops, -⟩ | ⟨hcut, hhas, hle, hops, -⟩⟩ := h.append_cases htime
    · rw [hops]
      exact allIn_nil
    · have hlt := hnear hcut hhas
      have hge := Int64.le_iff_toInt_le.mp hle
      rw [hops, allIn_cons]
      unfold InInt64
      exact ⟨by omega, allIn_nil⟩

theorem Holds.append_inSteps {s s' : MemSeries} {xs : List Sample} (h : s.Holds xs)
    (hsteps : s.InSteps) {x : Sample} (happend : s.append x = (true, s'))
    (hops : AllIn (s.appendOps x)) : s'.InSteps := by
  have htime : ¬ (s.hasSample && x.t < s.lastT) = true := by
    intro htime
    unfold MemSeries.append at happend
    rw [if_pos htime] at happend
    cases happend
  obtain ⟨s₁, happend₁, hresult⟩ := h.append_cases htime
  rw [happend] at happend₁
  cases happend₁
  rcases hresult with ⟨-, hkeep⟩ | ⟨-, -, -, heq, hkeep⟩
  · exact hkeep hsteps
  · rw [heq, allIn_cons] at hops
    exact hkeep hsteps hops.1.2

end MemSeries

/-! ## The store -/

/-- Every chunk of every series. -/
def SeriesStore.InSteps (st : SeriesStore) : Prop := ∀ ref s, st.get ref = some s → s.InSteps

theorem inSteps_empty : ({} : SeriesStore).InSteps := by
  intro ref s hget
  rw [get_eq] at hget
  split at hget <;> cases hget

theorem SeriesStore.InSteps.insert {st st' : SeriesStore} (h : st.InSteps) {ref : SeriesRef}
    {labels : Labels} (hget : ∀ ref', st'.get ref' =
      if ref' = ref then some { ref := ref, labels := labels } else st.get ref') : st'.InSteps := by
  intro ref' s hs
  rw [hget] at hs
  split at hs
  · cases hs
    exact fun c hc ↦ absurd hc List.not_mem_nil
  · exact h ref' s hs

theorem SeriesStore.InSteps.insertAll {series : List RefSeries} {st st' : SeriesStore}
    {content : Labels → List Sample} (h : st.InSteps) (hc : Contains st content)
    (hinsert : insertAll series st = some st') : st'.InSteps := by
  have hboth := insertAll_induction (P := fun st ↦ st.InSteps ∧ Contains st content)
    (fun hst hstep ↦ ?_) ⟨h, hc⟩ hinsert
  · exact hboth.1
  · obtain ⟨h, hc⟩ := hst
    rcases insertWithRef_cases hstep with rfl | ⟨hzero, hfree, hnew, heq⟩
    · exact ⟨h, hc⟩
    · obtain ⟨hwf, htable, hget⟩ := hc.wf.insertNew hzero hfree hnew heq
      exact ⟨h.insert hget, hc.insert hwf hnew htable hget⟩

/-- A sample for a series of the store. -/
theorem SeriesStore.InSteps.put {st : SeriesStore} {content : Labels → List Sample} (h : st.InSteps)
    (hc : Contains st content) {ref : SeriesRef} {s : MemSeries} {x : Sample}
    (hget : st.get ref = some s) (haccept : (s.append x).1 = true) (hops : AllIn (s.appendOps x)) :
    (st.put ref (s.append x).2).InSteps := by
  obtain ⟨hpos, hle⟩ := toNat_le_of_get hget
  intro ref' s' hs
  rw [get_put hpos hle] at hs
  split at hs
  · cases hs
    exact (hc.holds hget).append_inSteps (h ref s hget) (Prod.ext haccept rfl) hops
  · exact h ref' s' hs

theorem SeriesStore.InSteps.appendAll {samples : List RefSample} {st st' : SeriesStore}
    {content : Labels → List Sample} (h : st.InSteps) (hc : Contains st content)
    (happend : appendAll samples st = some st') (hops : AllIn (appendAllOps samples st)) :
    st'.InSteps := by
  induction samples generalizing st content with
  | nil =>
    cases happend
    exact h
  | cons s samples ih =>
    rw [Head.appendAll] at happend
    rw [appendAllOps] at hops
    cases hget : st.get s.ref with
    | none =>
      rw [hget] at happend
      cases happend
    | some series =>
      rw [hget] at happend hops
      dsimp only [SeriesStore.append] at happend hops
      rcases hc.append hget { t := s.t, v := s.v } with ⟨haccept, hc'⟩ | ⟨hreject, -⟩
      · rw [haccept] at happend hops
        rw [allIn_append] at hops
        exact ih (h.put hc hget haccept hops.1) hc' happend hops.2
      · rw [hreject] at happend
        cases happend

/-- One record replayed within 64 bits. -/
theorem inSteps_replayRecord {record : Bytes} {st st' : SeriesStore} {content : Labels → List Sample}
    (h : st.InSteps) (hc : Contains st content) (hrecord : replayRecord record st = some st')
    (hops : AllIn (replayRecordOps record st)) :
    st'.InSteps ∧ ∃ content', Contains st' content' := by
  unfold replayRecord at hrecord
  unfold replayRecordOps at hops
  split at hrecord
  · split at hrecord
    · exact ⟨h.insertAll hc hrecord, content, hc.insertAll hrecord⟩
    · cases hrecord
  rename_i hseries
  rw [if_neg hseries] at hops
  split at hrecord
  · rename_i hsamples
    rw [if_pos hsamples, allIn_append] at hops
    split at hrecord
    · rename_i samples hdecode
      rw [hdecode] at hops
      exact ⟨h.appendAll hc hrecord hops.2, hc.appendAll hrecord⟩
    · cases hrecord
  · -- A record of another type is passed over.
    cases hrecord
    exact ⟨h, content, hc⟩

/-- What a replay within 64 bits builds. -/
theorem inSteps_replayRecords {records : List Bytes} {st st' : SeriesStore}
    {content : Labels → List Sample} (h : st.InSteps) (hc : Contains st content)
    (hreplay : replayRecords records st = some st') (hops : AllIn (replayRecordsOps records st)) :
    st'.InSteps := by
  induction records generalizing st content with
  | nil =>
    cases hreplay
    exact h
  | cons record records ih =>
    rw [replayRecords] at hreplay
    obtain ⟨st₁, hrecord, hrest⟩ := Option.bind_eq_some_iff.mp hreplay
    rw [replayRecordsOps, hrecord, allIn_append] at hops
    obtain ⟨hsteps, content₁, hc₁⟩ := inSteps_replayRecord h hc hrecord hops.1
    exact ih hsteps hc₁ hrest hops.2

/-! ## Replay in pieces -/

theorem appendAllOps_append {samples : List RefSample} {store store' : SeriesStore}
    (h : appendAll samples store = some store') (samples' : List RefSample) :
    appendAllOps (samples ++ samples') store =
      appendAllOps samples store ++ appendAllOps samples' store' := by
  induction samples generalizing store with
  | nil =>
    cases h
    rfl
  | cons s samples ih =>
    rw [appendAll] at h
    rw [List.cons_append, appendAllOps, appendAllOps]
    cases hget : store.get s.ref with
    | none =>
      rw [hget] at h
      cases h
    | some series =>
      rw [hget] at h
      dsimp only at h ⊢
      rcases happend : store.append s.ref series { t := s.t, v := s.v } with ⟨_ | _, store₁⟩
      · rw [happend] at h
        cases h
      · rw [happend] at h
        dsimp only
        rw [ih h, List.append_assoc]

theorem replayRecordsOps_append {records : List Bytes} {store store' : SeriesStore}
    (h : replayRecords records store = some store') (records' : List Bytes) :
    replayRecordsOps (records ++ records') store =
      replayRecordsOps records store ++ replayRecordsOps records' store' := by
  induction records generalizing store with
  | nil =>
    cases h
    rfl
  | cons record records ih =>
    rw [replayRecords] at h
    obtain ⟨store₁, hrecord, hrest⟩ := Option.bind_eq_some_iff.mp h
    rw [List.cons_append, replayRecordsOps, replayRecordsOps, hrecord]
    dsimp only
    rw [ih hrest, List.append_assoc]

theorem replayRecordOps_encodeSeries (series : List RefSeries) (store : SeriesStore) :
    replayRecordOps (encodeSeries series) store = [] := by
  have htype : peekType (encodeSeries series) = kSeries := rfl
  unfold replayRecordOps
  rw [if_pos htype]

theorem replayRecordOps_encodeSamplesV2 {samples : List RefSample}
    (hlen : (encodeSamplesV2 samples).length ≤ kMaxSize) (store : SeriesStore) :
    replayRecordOps (encodeSamplesV2 samples) store =
      decodeSamplesV2Ops (encodeSamplesV2 samples) ++ appendAllOps samples store := by
  have htype : peekType (encodeSamplesV2 samples) = kSamplesV2 := by
    cases samples <;> rfl
  unfold replayRecordOps
  rw [htype, if_neg (by decide), if_pos rfl, decodeSamplesV2_encodeSamplesV2 samples hlen]

/-- Samples for the series there do not see a series inserted behind them. -/
theorem appendAllOps_push {st st' : SeriesStore} (hwf : st.WF) {labels : Labels}
    (hnew : st.findRef labels = none) (hlen : st.byRef.length < kMaxSlots)
    {samples : List RefSample} (h : appendAll samples st = some st') :
    appendAllOps samples (st.push labels) = appendAllOps samples st := by
  induction samples generalizing st with
  | nil => rfl
  | cons s samples ih =>
    rw [appendAll] at h
    rw [appendAllOps, appendAllOps]
    cases hget : st.get s.ref with
    | none =>
      rw [hget] at h
      cases h
    | some series =>
      rw [hget] at h
      rw [push_get_of_get hwf hnew hlen hget]
      obtain ⟨href, hlabels⟩ := series.append_series { t := s.t, v := s.v }
      dsimp only at h ⊢
      unfold SeriesStore.append at h ⊢
      cases haccept : (series.append { t := s.t, v := s.v }).1 with
      | false => rfl
      | true =>
        rw [haccept] at h
        have hlen' : (st.put s.ref (series.append { t := s.t, v := s.v }).2).byRef.length < kMaxSlots := by
          rw [SeriesStore.put]
          dsimp only
          rwa [List.length_set]
        rw [put_push hget]
        dsimp only
        rw [ih (hwf.put hget href hlabels) hnew hlen' h]

/-! ## The head and its log -/

/-- The sample comes less than 2^63 after the last one of its series, unless a chunk is cut for it. -/
def Head.NearLast (h : Head W) (labels : Labels) (x : Sample) : Prop :=
  ∀ ref ∈ h.series.findRef labels, ∀ s ∈ h.series.get ref,
    s.needsCut = false → s.hasSample = true → x.t.toInt - s.lastT.toInt < 2 ^ 63

instance (h : Head W) (labels : Labels) (x : Sample) : Decidable (h.NearLast labels x) :=
  -- Not by a search through all references.
  @Option.decidableForallMem _ _ (fun _ ↦ inferInstance) (h.series.findRef labels)

theorem Head.Finds.appendOps_eq {h h₁ : Head W} {labels : Labels} {slot : SeriesRef} {s : MemSeries}
    (hf : h.Finds labels h₁ slot s) (hwf : h.series.WF) (hopen : h.closed = false) (x : Sample) :
    h.appendOps labels x = s.appendOps x := by
  obtain ⟨fresh, hget, -⟩ := hf.getOrCreate hwf
  unfold Head.appendOps
  rw [hopen, if_neg Bool.false_ne_true, hget]
  dsimp only
  rw [hf.get_eq hwf]

theorem Contains.allIn_appendOps {h : Head W} {content : Labels → List Sample}
    (hc : Contains h.series content) {labels : Labels} {x : Sample} (hnear : h.NearLast labels x) :
    AllIn (h.appendOps labels x) := by
  cases hclosed : h.closed with
  | true =>
    unfold Head.appendOps
    rw [if_pos hclosed]
    exact allIn_nil
  | false =>
    rcases Head.finds_or_full hc.wf labels with ⟨h₁, slot, s, hf⟩ | hfull
    · have hholds := (hc.finds hf).holds (hf.get_eq hc.wf)
      rw [hf.appendOps_eq hc.wf hclosed]
      apply hholds.allIn_appendOps
      cases hf with
      | found hget hlabels =>
        exact hnear slot (hc.wf.findRef_eq_some.mpr ⟨s, hget, hlabels⟩) s hget
      | created => exact fun _ hhas ↦ absurd hhas Bool.false_ne_true
    · unfold Head.appendOps
      rw [hclosed, if_neg Bool.false_ne_true, hfull]
      exact allIn_nil

/-- A replay of the log and the pending samples stays within 64 bits. -/
structure Exact (h : Head (List Bytes)) : Prop where
  exists_linked : ∃ logged named content, Linked h.wal h logged named content ∧
    AllIn (appendAllOps h.pendingSamples named)
  replay : AllIn (replayRecordsOps h.wal {})
  plain : ∀ s ∈ h.pendingSamples, s.Plain

namespace Exact

variable {h h₁ h' : Head (List Bytes)} {labels : Labels} {slot : SeriesRef} {s : MemSeries} {x : Sample}

theorem fresh : Exact { wal := [] } where
  exists_linked := ⟨_, _, _, Linked.opened rfl Contains.empty _, allIn_nil⟩
  replay := allIn_nil
  plain _ hs := absurd hs List.not_mem_nil

theorem exists_contains (he : Exact h) : ∃ content, Contains h.series content := by
  obtain ⟨logged, named, content, hl, -⟩ := he.exists_linked
  exact ⟨content, hl.contains⟩

/-- The chunks of the live series are those of a replay. -/
theorem inSteps (he : Exact h) : h.series.InSteps := by
  obtain ⟨logged, named, content, hl, hops⟩ := he.exists_linked
  obtain ⟨contentLogged, hcLogged⟩ := contains_replayRecords Contains.empty hl.replayed
  have hlogged := inSteps_replayRecords inSteps_empty Contains.empty hl.replayed he.replay
  have hnamed := hlogged.insertAll hcLogged hl.inserted
  exact hnamed.appendAll (hcLogged.insertAll hl.inserted) hl.appended hops

theorem finds (he : Exact h) (hf : h.Finds labels h₁ slot s) : Exact h₁ := by
  obtain ⟨logged, named, content, hl, hops⟩ := he.exists_linked
  cases hf with
  | found => exact he
  | created hnew hlen =>
    obtain ⟨hnewNamed, hlenNamed⟩ := hl.named_new hnew hlen
    refine ⟨⟨logged, _, content, hl.name hnew hlen, ?_⟩, he.replay, he.plain⟩
    rw [appendAllOps_push hl.wf_named hnewNamed hlenNamed hl.appended]
    exact hops

/-- A logged sample has a small reference. -/
theorem plain_of_get {st : SeriesStore} (hwf : st.WF) (hget : st.get slot = some s) (x : Sample) :
    ({ ref := s.ref, t := x.t, st := 0, v := x.v } : RefSample).Plain := by
  have hle := (toNat_le_of_get hget).2
  have hlen := hwf.length_le
  unfold kMaxSlots kMaxSize at hlen
  refine ⟨?_, rfl⟩
  rw [hwf.ref_eq hget]
  exact toInt_toInt64_nonneg (x := slot) (by omega)

theorem append (he : Exact h) (hnear : h.NearLast labels x) {r : Except HeadError SeriesRef}
    (happend : h.append labels x = some (r, h')) : Exact h' := by
  obtain ⟨content, hc⟩ := he.exists_contains
  have hnew := hc.allIn_appendOps hnear
  rcases Head.append_cases hc.wf happend with ⟨-, -, rfl⟩ | ⟨hopen, h₁, slot, s, hf, hresult⟩
  · exact he
  have hget := hf.get_eq hc.wf
  rw [hf.appendOps_eq hc.wf hopen] at hnew
  obtain ⟨⟨logged, named, content₁, hl, hops⟩, hreplay, hplain⟩ := he.finds hf
  -- The record that will be replayed and the live series take the same sample.
  rcases hresult with ⟨haccept, -, rfl⟩ | ⟨hreject, -, rfl⟩
  · rcases hl.sample hget x with ⟨-, hl'⟩ | ⟨hreject, -⟩
    · refine ⟨⟨logged, named, _, hl', ?_⟩, hreplay, ?_⟩
      · -- The sample is replayed into the series that it went to.
        have hlast : appendAllOps [{ ref := s.ref, t := x.t, st := 0, v := x.v }] h₁.series =
            s.appendOps x := by
          rw [appendAllOps]
          dsimp only
          rw [hl.contains.wf.ref_eq hget, hget]
          dsimp only [SeriesStore.append]
          rw [haccept]
          exact List.append_nil _
        dsimp only
        rw [appendAllOps_append hl.appended, hlast, allIn_append]
        exact ⟨hops, hnew⟩
      · intro y hy
        rcases List.mem_append.mp hy with hy | hy
        · exact hplain y hy
        · rw [List.mem_singleton.mp hy]
          exact plain_of_get hl.contains.wf hget x
    · rw [haccept] at hreject
      cases hreject
  · rcases hl.sample hget x with ⟨haccept, -⟩ | ⟨-, hsame⟩
    · rw [hreject] at haccept
      cases haccept
    · rw [hsame]
      exact ⟨⟨logged, named, content₁, hl, hops⟩, hreplay, hplain⟩

/-- The series record in the log. -/
theorem logSeries (he : Exact h) {ok : Bool} (hlog : h.logSeries listWal () = some (ok, h')) :
    Exact h' ∧ ok = true ∧ h'.pendingSeries = [] ∧ h'.pendingSamples = h.pendingSamples := by
  obtain ⟨logged, named, content, hl, hops⟩ := he.exists_linked
  rcases Head.logSeries_cases hlog with ⟨hnone, rfl, rfl⟩ | ⟨-, hlen, wal, hwal, rfl⟩
  · exact ⟨he, rfl, hnone, rfl⟩
  · cases hwal
    refine ⟨⟨⟨_, _, content, hl.logSeries hlen _, hops⟩, ?_, he.plain⟩, rfl, rfl, rfl⟩
    show AllIn (replayRecordsOps (h.wal ++ [encodeSeries h.pendingSeries]) {})
    rw [replayRecordsOps_append hl.replayed, replayRecordsOps, replayRecordOps_encodeSeries,
      replayRecord_encodeSeries hlen, hl.inserted, allIn_append]
    exact ⟨he.replay, allIn_nil⟩

/-- The sample record in the log, where all timestamps are near the first. -/
theorem logSamples (he : Exact h) (hnone : h.pendingSeries = []) (hnear : NearFirst h.pendingSamples)
    {ok : Bool} (hlog : h.logSamples listWal () = some (ok, h')) : Exact h' := by
  obtain ⟨logged, named, content, hl, hops⟩ := he.exists_linked
  rcases Head.logSamples_cases hlog with ⟨-, -, rfl⟩ | ⟨-, hlen, wal, hwal, rfl⟩
  · exact he
  · cases hwal
    have hdecode := allIn_decodeSamplesV2 (decodeSamplesV2_encodeSamplesV2 _ hlen) he.plain hnear
    refine ⟨⟨_, _, content, hl.logSamples hnone hlen _, allIn_nil⟩, ?_,
      fun _ hs ↦ absurd hs List.not_mem_nil⟩
    show AllIn (replayRecordsOps (h.wal ++ [encodeSamplesV2 h.pendingSamples]) {})
    rw [replayRecordsOps_append hl.replayed, replayRecordsOps, replayRecordOps_encodeSamplesV2 hlen,
      hl.eq_named hnone, replayRecord_encodeSamplesV2 hlen, hl.appended]
    simp [he.replay, hdecode, hops, replayRecordsOps]

theorem commitOps (he : Exact h) (hnear : NearFirst h.pendingSamples) :
    AllIn (h.commitOps listWal ⟨(), (), ()⟩) := by
  unfold Head.commitOps
  split
  · exact allIn_nil
  split
  · rename_i h₁ hlog
    obtain ⟨he₁, -, -, hpending⟩ := he.logSeries hlog
    have hplain := he₁.plain
    rw [hpending] at hplain ⊢
    split
    · exact allIn_nil
    · exact allIn_encodeSamplesV2 hplain hnear
  · exact allIn_nil

theorem congr (he : Exact h) (closed : Bool) : Exact { h with closed := closed } := by
  obtain ⟨logged, named, content, hl, hops⟩ := he.exists_linked
  exact ⟨⟨logged, named, content, hl.congr _ _, hops⟩, he.replay, he.plain⟩

theorem commit (he : Exact h) (hnear : NearFirst h.pendingSamples) {ok : Bool}
    (hcommit : h.commit listWal ⟨(), (), ()⟩ = some (ok, h')) : Exact h' := by
  cases hclosed : h.closed with
  | true =>
    rw [Head.commit_closed hclosed] at hcommit
    cases hcommit
    exact he
  | false =>
    rcases Head.commit_cases hclosed hcommit with ⟨hlog, -⟩ | ⟨h₁, hlog, hrest⟩
    · exact (he.logSeries hlog).1
    obtain ⟨he₁, -, hnone, hpending⟩ := he.logSeries hlog
    rw [← hpending] at hnear
    rcases hrest with ⟨hlog₂, -⟩ | ⟨h₂, hlog₂, wal, hsync, rfl⟩
    · exact he₁.logSamples hnone hnear hlog₂
    · cases hsync
      exact he₁.logSamples hnone hnear hlog₂

theorem close (he : Exact h) (hnear : NearFirst h.pendingSamples) {ok : Bool}
    (hclose : h.close listWal ⟨(), (), ()⟩ () = some (ok, h')) : Exact h' := by
  cases hclosed : h.closed with
  | true =>
    rw [Head.close_closed hclosed] at hclose
    cases hclose
    exact he
  | false =>
    rcases Head.close_cases hclosed hclose with ⟨h₁, hcommit, -, rfl⟩ | ⟨h₁, hcommit, wal, hcut, rfl⟩
    · exact (he.commit hnear hcommit).congr true
    · cases hcut
      exact (he.commit hnear hcommit).congr true

/-- A replay into a new head, whether or not the old one was closed. -/
theorem reopen (he : Exact h) (hopen : Head.openList h.wal = some h') : Exact h' := by
  obtain ⟨logged, named, content, hl, -⟩ := he.exists_linked
  obtain ⟨contentLogged, hc⟩ := contains_replayRecords Contains.empty hl.replayed
  unfold Head.openList at hopen
  rw [hl.replayed] at hopen
  cases hopen
  exact ⟨⟨_, _, _, Linked.opened hl.replayed hc _, allIn_nil⟩, he.replay,
    fun _ hs ↦ absurd hs List.not_mem_nil⟩

end Exact
end MerlionTsdb.Head
