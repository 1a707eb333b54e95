import MerlionTsdb.Head.Retry
import MerlionTsdb.Wal.Damage
import MerlionTsdb.Wal.OnDisk

/-!
# Crashes of a head, and damage to its WAL

The head over a disk.  Commits that succeed put what they log on disk, so after a crash the head
comes back with every committed sample, and with no sample that was not accepted.  Damage that a
checksum shows is never replayed: the head does not open.
-/

set_option linter.dupNamespace false

namespace MerlionTsdb.Head

open Chunkenc Model Wal Wal.Record SeriesStore

/-! ## Heads over related WALs -/

variable {W W' L S K : Type}

/-- What a commit asks of the one WAL is answered as by the other. -/
structure Maps (f : W → W') (ops : WalOps W L S K) (ops' : WalOps W' L S K) : Prop where
  log : ∀ w body calls, ops'.log (f w) body calls = (ops.log w body calls).map id f
  sync : ∀ w calls, ops'.sync (f w) calls = (ops.sync w calls).map id f

namespace Head

def mapWal (f : W → W') (h : Head W) : Head W' where
  wal := f h.wal
  series := h.series
  pendingSeries := h.pendingSeries
  pendingSamples := h.pendingSamples
  closed := h.closed

section

variable (f : W → W') (h : Head W)

@[simp] theorem mapWal_wal : (h.mapWal f).wal = f h.wal := rfl

@[simp] theorem mapWal_series : (h.mapWal f).series = h.series := rfl

@[simp] theorem mapWal_pendingSeries : (h.mapWal f).pendingSeries = h.pendingSeries := rfl

@[simp] theorem mapWal_pendingSamples : (h.mapWal f).pendingSamples = h.pendingSamples := rfl

@[simp] theorem mapWal_closed : (h.mapWal f).closed = h.closed := rfl

end

theorem append_mapWal (f : W → W') (h : Head W) (labels : Labels) (x : Sample) :
    (h.mapWal f).append labels x = (h.append labels x).map (Prod.map id (mapWal f)) := by
  unfold append
  by_cases hclosed : h.closed = true
  · rw [if_pos hclosed, if_pos (h.mapWal_closed f ▸ hclosed)]
    rfl
  rw [if_neg hclosed, if_neg (h.mapWal_closed f ▸ hclosed), mapWal_series]
  rcases h.series.getOrCreate labels with _ | ⟨slot, fresh, store⟩
  · rfl
  dsimp only
  cases store.get slot with
  | none => rfl
  | some s =>
    dsimp only
    rcases store.append slot s x with ⟨_ | _, store'⟩ <;> rfl

variable {f : W → W'} {ops : WalOps W L S K} {ops' : WalOps W' L S K}

theorem logSeries_mapWal (hf : Maps f ops ops') (h : Head W) (calls : L) :
    (h.mapWal f).logSeries ops' calls =
      (h.logSeries ops calls).map (Prod.map id (mapWal f)) := by
  unfold logSeries
  by_cases hnone : h.pendingSeries.isEmpty = true
  · rw [if_pos hnone, if_pos (h.mapWal_pendingSeries f ▸ hnone)]
    rfl
  rw [if_neg hnone, if_neg (h.mapWal_pendingSeries f ▸ hnone), mapWal_wal, mapWal_pendingSeries]
  dsimp only
  rw [hf.log]
  split
  · rfl
  rcases ops.log h.wal (encodeSeries h.pendingSeries) calls with ⟨_ | _, wal⟩ <;> rfl

theorem logSamples_mapWal (hf : Maps f ops ops') (h : Head W) (calls : L) :
    (h.mapWal f).logSamples ops' calls =
      (h.logSamples ops calls).map (Prod.map id (mapWal f)) := by
  unfold logSamples
  by_cases hnone : h.pendingSamples.isEmpty = true
  · rw [if_pos hnone, if_pos (h.mapWal_pendingSamples f ▸ hnone)]
    rfl
  rw [if_neg hnone, if_neg (h.mapWal_pendingSamples f ▸ hnone), mapWal_wal, mapWal_pendingSamples]
  dsimp only
  rw [hf.log]
  split
  · rfl
  rcases ops.log h.wal (encodeSamplesV2 h.pendingSamples) calls with ⟨_ | _, wal⟩ <;> rfl

theorem commit_mapWal (hf : Maps f ops ops') (h : Head W) (calls : CommitCalls L S) :
    (h.mapWal f).commit ops' calls = (h.commit ops calls).map (Prod.map id (mapWal f)) := by
  unfold commit
  by_cases hclosed : h.closed = true
  · rw [if_pos hclosed, if_pos (h.mapWal_closed f ▸ hclosed)]
    rfl
  rw [if_neg hclosed, if_neg (h.mapWal_closed f ▸ hclosed), logSeries_mapWal hf]
  rcases h.logSeries ops calls.series with _ | ⟨_ | _, h₁⟩
  · rfl
  · rfl
  dsimp only [Option.map_some, Prod.map, id]
  rw [logSamples_mapWal hf]
  rcases h₁.logSamples ops calls.samples with _ | ⟨_ | _, h₂⟩
  · rfl
  · rfl
  change some ((ops'.sync (f h₂.wal) calls.sync).1,
    { h₂.mapWal f with wal := (ops'.sync (f h₂.wal) calls.sync).2 }) = _
  rw [hf.sync]
  rfl

end Head

/-! ## What a replay adds -/

/-- Whatever the first store contains, the second does, and possibly more behind it. -/
def Extends (st st' : SeriesStore) : Prop :=
  ∀ content, Contains st content →
    ∃ content', Contains st' content' ∧ ∀ labels, content labels <+: content' labels

instance : Std.Refl Extends where
  refl _ content h := ⟨content, h, fun _ ↦ List.prefix_rfl⟩

instance : IsTrans SeriesStore Extends where
  trans st st₁ st₂ h h' content hst := by
    obtain ⟨content₁, hst₁, hle⟩ := h content hst
    obtain ⟨content₂, hst₂, hle'⟩ := h' content₁ hst₁
    exact ⟨content₂, hst₂, fun labels ↦ (hle labels).trans (hle' labels)⟩

theorem Extends.isPrefix {st st' : SeriesStore} (h : Extends st st')
    {content content' : Labels → List Sample} (hst : Contains st content)
    (hst' : Contains st' content') (labels : Labels) : content labels <+: content' labels := by
  obtain ⟨content₁, hst₁, hle⟩ := h content hst
  rw [← hst'.samplesOf, hst₁.samplesOf]
  exact hle labels

theorem insertAll_extends {series : List RefSeries} {st st' : SeriesStore}
    (h : insertAll series st = some st') : Extends st st' :=
  fun content hst ↦ ⟨content, hst.insertAll h, fun _ ↦ List.prefix_rfl⟩

theorem appendAll_extends {samples : List RefSample} {st st' : SeriesStore}
    (h : appendAll samples st = some st') : Extends st st' := by
  induction samples generalizing st with
  | nil =>
    cases h
    exact refl_of Extends _
  | cons s samples ih =>
    rw [appendAll] at h
    cases hget : st.get s.ref with
    | none =>
      rw [hget] at h
      cases h
    | some series =>
      rw [hget] at h
      dsimp only [SeriesStore.append] at h
      intro content hst
      rcases hst.append hget { t := s.t, v := s.v } with ⟨haccept, hst₁⟩ | ⟨hreject, -⟩
      · rw [haccept] at h
        obtain ⟨content', hst', hle⟩ := ih h _ hst₁
        refine ⟨content', hst', fun labels ↦ List.IsPrefix.trans ?_ (hle labels)⟩
        -- The series of the sample has one more, the others are as before.
        by_cases heq : labels = series.labels
        · subst heq
          rw [Function.update_self]
          exact List.prefix_append _ _
        · exact (Function.update_of_ne heq _ content).symm ▸ List.prefix_rfl
      · rw [hreject] at h
        cases h

theorem replayRecord_extends (record : Bytes) (st st' : SeriesStore)
    (h : replayRecord record st = some st') : Extends st st' := by
  unfold replayRecord at h
  split at h
  · split at h
    · exact insertAll_extends h
    · cases h
  split at h
  · split at h
    · exact appendAll_extends h
    · cases h
  · cases h
    exact refl_of Extends _

theorem replayRecords_eq (records : List Bytes) (store : SeriesStore) :
    replayRecords records store = Journal.replay replayRecord records store := by
  induction records generalizing store with
  | nil => rfl
  | cons record records ih =>
    rw [replayRecords, Journal.replay]
    congr 1
    funext store'
    exact ih store'

/-- What is left of a journal replays whenever the journal does, to something between. -/
theorem replayRecords_leaves {j : Journal Bytes} {records : List Bytes} (h : j.Leaves records)
    {last : SeriesStore} (hlogged : replayRecords j.logged {} = some last) :
    ∃ mid, replayRecords records {} = some mid ∧ Extends mid last ∧
      ∀ {first}, replayRecords j.synced {} = some first → Extends first mid := by
  simp only [replayRecords_eq] at hlogged ⊢
  exact h.replay replayRecord_extends hlogged

/-- With anything behind the synced entries, a replay that succeeds has them all. -/
theorem replayRecords_synced {synced records : List Bytes} (hle : synced <+: records)
    {last : SeriesStore} (hreplay : replayRecords records {} = some last) :
    ∃ first, replayRecords synced {} = some first ∧ Extends first last := by
  simp only [replayRecords_eq] at hreplay ⊢
  exact Journal.replay_of_isPrefix replayRecord_extends hle hreplay

/-! ## The head over a disk -/

/-- The segment writer with what is on disk. -/
def diskWal : WalOps Disk LogCalls SyncCalls CutCalls where
  log := Disk.log
  sync := Disk.sync
  cut := Disk.cut

def forget (d : Disk) : SegmentWriter × Files := (d.writer, d.files)

theorem maps_forget : Maps forget diskWal segmentWal where
  log _ _ _ := rfl
  sync _ _ := rfl

/-- `HeadRun` over a disk. -/
structure DiskRun where
  head : Head Disk
  accepted : List (Labels × Sample) := []
  committed : List (Labels × Sample) := []

def DiskRun.forget (r : DiskRun) : HeadRun where
  head := r.head.mapWal Head.forget
  accepted := r.accepted
  committed := r.committed

def HeadCall.diskStep (r : DiskRun) : HeadCall → Option DiskRun
  | .append labels x => (r.head.append labels x).map fun res ↦
      { r with
        head := res.2
        accepted := if res.1.isOk then r.accepted ++ [(labels, x)] else r.accepted }
  | .commit calls => (r.head.commit diskWal calls).map fun res ↦
      { r with head := res.2, committed := if res.1 then r.accepted else r.committed }

def runOnDisk : List HeadCall → DiskRun → Option DiskRun
  | [], r => some r
  | call :: calls, r => (call.diskStep r).bind (runOnDisk calls)

/-- What is on disk plays no part in a run. -/
theorem diskStep_forget (r : DiskRun) (call : HeadCall) :
    call.step r.forget = (call.diskStep r).map DiskRun.forget := by
  cases call with
  | append labels x =>
    have happend := r.head.append_mapWal forget labels x
    unfold HeadCall.step HeadCall.diskStep
    dsimp only [DiskRun.forget]
    rw [happend, Option.map_map, Option.map_map]
    rfl
  | commit calls =>
    have hcommit := Head.commit_mapWal maps_forget r.head calls
    unfold HeadCall.step HeadCall.diskStep
    dsimp only [DiskRun.forget]
    rw [hcommit, Option.map_map, Option.map_map]
    rfl

/-- The head stands over a disk whose journal replays to the logged store. -/
structure Guarded (h : Head Disk) (j : Journal Bytes) (pend : List PageOp) (logged : SeriesStore)
    (content : Labels → List Sample) : Prop where
  onDisk : OnDisk h.wal j pend
  exists_named : ∃ named, Linked j.logged h logged named content
  opened : h.closed = false

namespace Guarded

variable {h h' : Head Disk} {j : Journal Bytes} {pend : List PageOp} {logged : SeriesStore}
  {content : Labels → List Sample}

theorem append (hg : Guarded h j pend logged content) {labels : Labels} {x : Sample}
    {r : Except HeadError SeriesRef} (happend : h.append labels x = some (r, h')) :
    Guarded h' j pend logged
      (if r.isOk then Function.update content labels (content labels ++ [x]) else content) := by
  obtain ⟨named, hl⟩ := hg.exists_named
  obtain ⟨hwal, hstatus, -⟩ := Head.append_keeps happend
  constructor
  · rw [hwal]
    exact hg.onDisk
  · exact hl.append happend
  · rw [hstatus]
    exact hg.opened

/-- The series record of a commit. -/
theorem logSeries_true (hg : Guarded h j pend logged content) {calls : LogCalls}
    (hroom : h.pendingSeries ≠ [] → h.wal.writer.HasRoom (encodeSeries h.pendingSeries))
    (hlog : h.logSeries diskWal calls = some (true, h')) :
    h'.pendingSeries = [] ∧ ∃ j' pend' logged', Guarded h' j' pend' logged' content ∧
      j'.synced = j.synced := by
  obtain ⟨named, hl⟩ := hg.exists_named
  rcases Head.logSeries_cases hlog with ⟨hnone, -, rfl⟩ | ⟨hsome, hlen, wal, hwal, rfl⟩
  · exact ⟨hnone, j, pend, logged, hg, rfl⟩
  · have hdisk := hg.onDisk.log_true (hroom hsome) hwal
    exact ⟨rfl, _, _, _, ⟨hdisk, ⟨_, hl.logSeries hlen wal⟩, hg.opened⟩, rfl⟩

theorem logSeries_false (hg : Guarded h j pend logged content) {calls : LogCalls}
    (hroom : h.pendingSeries ≠ [] → h.wal.writer.HasRoom (encodeSeries h.pendingSeries))
    (hharmless : h.pendingSeries ≠ [] →
      calls.Harmless h.wal.writer (encodeSeries h.pendingSeries))
    (hlog : h.logSeries diskWal calls = some (false, h')) :
    ∃ j' pend' logged', Guarded h' j' pend' logged' content ∧ j'.synced = j.synced := by
  obtain ⟨named, hl⟩ := hg.exists_named
  rcases Head.logSeries_cases hlog with ⟨-, hok, -⟩ | ⟨hsome, hlen, wal, hwal, rfl⟩
  · cases hok
  · rcases hg.onDisk.log_false (hroom hsome) (hharmless hsome) hwal with
      ⟨pend', hsame | ⟨-, hframed⟩⟩
    · exact ⟨_, _, _, ⟨hsame, ⟨_, hl.congr wal h.closed⟩, hg.opened⟩, rfl⟩
    · -- The record is framed already, and the retry logs the same series again.
      exact ⟨_, _, _, ⟨hframed, ⟨_, hl.logSeriesKept hlen wal⟩, hg.opened⟩, rfl⟩

/-- The sample record, behind it. -/
theorem logSamples_true (hg : Guarded h j pend logged content) {calls : LogCalls}
    (hnone : h.pendingSeries = [])
    (hroom : h.pendingSamples ≠ [] → h.wal.writer.HasRoom (encodeSamplesV2 h.pendingSamples))
    (hlog : h.logSamples diskWal calls = some (true, h')) :
    ∃ j' pend', Guarded h' j' pend' h'.series content ∧ j'.synced = j.synced := by
  obtain ⟨named, hl⟩ := hg.exists_named
  rcases Head.logSamples_cases hlog with ⟨hnone', -, rfl⟩ | ⟨hsome, hlen, wal, hwal, rfl⟩
  · have hlive := (hl.eq_named hnone).trans (hl.eq_live hnone')
    rw [hlive] at hg
    exact ⟨j, pend, hg, rfl⟩
  · have hdisk := hg.onDisk.log_true (hroom hsome) hwal
    exact ⟨_, _, ⟨hdisk, ⟨_, hl.logSamples hnone hlen wal⟩, hg.opened⟩, rfl⟩

theorem logSamples_false (hg : Guarded h j pend logged content) {calls : LogCalls}
    (hroom : h.pendingSamples ≠ [] → h.wal.writer.HasRoom (encodeSamplesV2 h.pendingSamples))
    (hharmless : h.pendingSamples ≠ [] →
      calls.Harmless h.wal.writer (encodeSamplesV2 h.pendingSamples) ∧
        calls.FlushPasses h.wal.writer (encodeSamplesV2 h.pendingSamples))
    (hlog : h.logSamples diskWal calls = some (false, h')) :
    ∃ pend', Guarded h' j pend' logged content := by
  obtain ⟨named, hl⟩ := hg.exists_named
  rcases Head.logSamples_cases hlog with ⟨-, hok, -⟩ | ⟨hsome, -, wal, hwal, rfl⟩
  · cases hok
  · obtain ⟨hlog', hpass⟩ := hharmless hsome
    rcases hg.onDisk.log_false (hroom hsome) hlog' hwal with ⟨pend', hsame | ⟨hfail, -⟩⟩
    · exact ⟨_, hsame, ⟨_, hl.congr wal h.closed⟩, hg.opened⟩
    · exact absurd hpass hfail

/-- A commit that succeeds: all that is logged is on disk, and that is the live store. -/
theorem commit_true (hg : Guarded h j pend logged content)
    {calls : CommitCalls LogCalls SyncCalls} (hroom : CommitHasRoom (h.mapWal forget) calls)
    (hcommit : h.commit diskWal calls = some (true, h')) :
    ∃ j' : Journal Bytes, Guarded h' j'.sync [] h'.series content := by
  rcases Head.commit_cases hg.opened hcommit with ⟨-, hok⟩ | ⟨h₁, hlog, hrest⟩
  · cases hok
  rcases hrest with ⟨-, hok⟩ | ⟨h₂, hlog₂, wal, hsync, rfl⟩
  · cases hok
  obtain ⟨hseries, hsamples⟩ := hroom
  rw [Head.logSeries_mapWal maps_forget, hlog] at hsamples
  obtain ⟨hnone₁, j₁, pend₁, logged₁, hg₁, -⟩ := hg.logSeries_true hseries hlog
  obtain ⟨j₂, pend₂, hg₂, -⟩ := hg₁.logSamples_true hnone₁ hsamples hlog₂
  obtain ⟨named, hl⟩ := hg₂.exists_named
  exact ⟨j₂, hg₂.onDisk.sync_true hsync, ⟨named, hl.congr wal h₂.closed⟩, hg₂.opened⟩

/-- A harmless commit that fails takes nothing off the disk. -/
theorem commit_false (hg : Guarded h j pend logged content)
    {calls : CommitCalls LogCalls SyncCalls} (hroom : CommitHasRoom (h.mapWal forget) calls)
    (hharmless : CommitHarmless (h.mapWal forget) calls)
    (hcommit : h.commit diskWal calls = some (false, h')) :
    ∃ j' pend' logged', Guarded h' j' pend' logged' content ∧ j'.synced = j.synced := by
  obtain ⟨hseriesRoom, hsamplesRoom⟩ := hroom
  obtain ⟨hseries, hsamples⟩ := hharmless
  rcases Head.commit_cases hg.opened hcommit with ⟨hlog, -⟩ | ⟨h₁, hlog, hrest⟩
  · exact hg.logSeries_false hseriesRoom hseries hlog
  rw [Head.logSeries_mapWal maps_forget, hlog] at hsamplesRoom hsamples
  obtain ⟨hnone₁, j₁, pend₁, logged₁, hg₁, hsynced₁⟩ := hg.logSeries_true hseriesRoom hlog
  rcases hrest with ⟨hlog₂, -⟩ | ⟨h₂, hlog₂, wal, hsync, rfl⟩
  · obtain ⟨pend₂, hg₂⟩ := hg₁.logSamples_false hsamplesRoom hsamples.1 hlog₂
    exact ⟨_, _, _, hg₂, hsynced₁⟩
  · -- Both records are logged, and only the sync failed.
    have hall := hsamples.2
    rw [Head.logSamples_mapWal maps_forget, hlog₂] at hall
    obtain ⟨j₂, pend₂, hg₂, hsynced₂⟩ := hg₁.logSamples_true hnone₁ hsamplesRoom hlog₂
    obtain ⟨named, hl⟩ := hg₂.exists_named
    obtain ⟨pend₃, hdisk⟩ := hg₂.onDisk.sync_false hall hsync
    exact ⟨_, _, _, ⟨hdisk, ⟨named, hl.congr wal h₂.closed⟩, hg₂.opened⟩, hsynced₂.trans hsynced₁⟩

end Guarded

/-! ## Runs and crashes -/

/-- Between the calls of a run, the synced records replay to what was committed. -/
structure Crashable (start : SeriesStore) (r : DiskRun) : Prop where
  exists_guarded : ∃ j pend logged, Guarded r.head j pend logged (extended start r.accepted) ∧
    ∃ kept, replayRecords j.synced {} = some kept ∧ Contains kept (extended start r.committed)

theorem Crashable.step {start : SeriesStore} {r r' : DiskRun} (hr : Crashable start r)
    {call : HeadCall} (hok : call.Harmless r.forget) (hstep : call.diskStep r = some r') :
    Crashable start r' := by
  obtain ⟨j, pend, logged, hg, kept, hkept, hcommitted⟩ := hr.exists_guarded
  cases call with
  | append labels x =>
    obtain ⟨⟨res, h'⟩, hcall, rfl⟩ := Option.map_eq_some_iff.mp hstep
    refine ⟨j, pend, logged, ?_, kept, hkept, hcommitted⟩
    have hg' := hg.append hcall
    rw [extended_concat] at hg'
    dsimp only
    split at hg'
    · rename_i haccept
      rwa [if_pos haccept]
    · rename_i hreject
      rwa [if_neg hreject]
  | commit calls =>
    obtain ⟨hroom, hharmless⟩ := hok
    obtain ⟨⟨ok, h'⟩, hcall, rfl⟩ := Option.map_eq_some_iff.mp hstep
    cases ok with
    | true =>
      obtain ⟨j', hg'⟩ := hg.commit_true hroom hcall
      obtain ⟨named, hl⟩ := hg'.exists_named
      exact ⟨_, _, _, hg', _, hl.replayed, hl.contains⟩
    | false =>
      obtain ⟨j', pend', logged', hg', hsynced⟩ := hg.commit_false hroom hharmless hcall
      exact ⟨j', pend', logged', hg', kept, by rw [hsynced]; exact hkept, hcommitted⟩

theorem Crashable.run {start : SeriesStore} {r r' : DiskRun} (hr : Crashable start r)
    {calls : List HeadCall} (hok : RunAll (fun r call ↦ call.Harmless r) calls r.forget)
    (hrun : runOnDisk calls r = some r') : Crashable start r' := by
  induction calls generalizing r with
  | nil =>
    cases hrun
    exact hr
  | cons call calls ih =>
    obtain ⟨hcall, hrest⟩ := hok
    rw [runOnDisk] at hrun
    obtain ⟨r₁, hstep, hrun⟩ := Option.bind_eq_some_iff.mp hrun
    rw [diskStep_forget, hstep] at hrest
    exact ih (hr.step hcall hstep) hrest hrun

/-- A head just opened, with every segment of its directory on disk. -/
def onDisk (h : SegmentHead) (kept : Kept) : Head Disk :=
  h.mapWal fun wal ↦ ⟨wal.1, wal.2, kept⟩

theorem crashable_openDir {files : Files} {start : SegmentHead}
    (hopen : Head.openDir files true = some start) (hclean : CleanSegments (segments files))
    (hidx : SegmentWriter.nextIndex files < 10 ^ kSegmentNameWidth) {kept : Kept}
    (hwhole : Whole kept files) :
    Crashable start.series { head := onDisk start kept } := by
  obtain ⟨hcontains, hstored⟩ := stored_openDir hopen hclean hidx
  obtain ⟨named, hl⟩ := hstored.exists_named
  have hdisk := onDisk_openDir hclean hidx hwhole kDefaultSegmentSize
  obtain ⟨store, -, rfl⟩ := openDir_iff.mp hopen
  have hlinked : Linked (recordsOf (segments files)) (onDisk
      { wal := (SegmentWriter.openDir files kDefaultSegmentSize true).2, series := store } kept)
      store named (extended store []) :=
    ⟨hl.replayed, hl.inserted, hl.appended, hl.wf_named, hl.byLabels_eq, hl.nextRef_eq,
      hl.pending_named, hl.contains⟩
  exact ⟨_, [], store, ⟨hdisk, ⟨named, hlinked⟩, rfl⟩, store, hl.replayed, hcontains⟩

theorem replayWal_eq_some {files : Files} {store : SeriesStore} :
    replayWal files = some store ↔
      replayRecords (SegmentReader.readAll (segments files)).1 {} = some store ∧
        (SegmentReader.readAll (segments files)).2 = .endOfStream := by
  unfold replayWal
  rcases SegmentReader.readAll (segments files) with ⟨records, e⟩
  dsimp only
  by_cases hend : e = .endOfStream
  · simp [hend]
  · simp [hend]

theorem replayRecords_of_openDir {files : Files} {h : SegmentHead}
    (hagain : Head.openDir files true = some h) :
    replayRecords (SegmentReader.readAll (segments files)).1 {} = some h.series := by
  obtain ⟨store, hwal, rfl⟩ := openDir_iff.mp hagain
  exact (replayWal_eq_some.mp hwal).1

/-- A disk on which the logged records replay to a first part of what was accepted, and the synced
ones to what was committed. -/
structure Survives (start : SeriesStore) (d : Disk) (accepted committed : List (Labels × Sample)) :
    Prop where
  exists_journal : ∃ j pend logged live, OnDisk d j pend ∧ replayRecords j.logged {} = some logged ∧
    Extends logged live ∧ Contains live (extended start accepted) ∧
    ∃ kept, replayRecords j.synced {} = some kept ∧ Contains kept (extended start committed)

theorem Guarded.survives {h : Head Disk} {j : Journal Bytes} {pend : List PageOp}
    {logged start kept : SeriesStore} {accepted committed : List (Labels × Sample)}
    (hg : Guarded h j pend logged (extended start accepted))
    (hkept : replayRecords j.synced {} = some kept)
    (hcommitted : Contains kept (extended start committed)) :
    Survives start h.wal accepted committed := by
  obtain ⟨named, hl⟩ := hg.exists_named
  -- The logged store leads on to the live one.
  have hlive : Extends logged h.series :=
    trans_of Extends (insertAll_extends hl.inserted) (appendAll_extends hl.appended)
  exact ⟨j, pend, logged, h.series, hg.onDisk, hl.replayed, hlive, hl.contains, kept, hkept,
    hcommitted⟩

namespace Survives

variable {start : SeriesStore} {d : Disk} {accepted committed : List (Labels × Sample)}
  {left : FileName → Bytes}

theorem committed_le (hd : Survives start d accepted committed)
    (hgarbles : Garbles d.kept d.files left) {h : SegmentHead}
    (hagain : Head.openDir (d.files.crashed left) true = some h) (labels : Labels) :
    extended start committed labels <+: h.series.samplesOf labels := by
  obtain ⟨j, pend, -, -, hdisk, -, -, -, first, hfirst, hcommitted⟩ := hd.exists_journal
  obtain ⟨first', hfirst', hle⟩ :=
    replayRecords_synced (hdisk.crash hgarbles).1 (replayRecords_of_openDir hagain)
  rw [hfirst] at hfirst'
  cases hfirst'
  obtain ⟨content, hcontent⟩ := contains_replayRecords Contains.empty (replayRecords_of_openDir hagain)
  rw [hcontent.samplesOf]
  exact hle.isPrefix hcommitted hcontent labels

/-- What a cut leaves replays, to a first part of what was accepted. -/
theorem exists_mid (hd : Survives start d accepted committed)
    (hgarbles : Garbles d.kept d.files left) (hcuts : Cuts d.files left) :
    ∃ mid live, replayRecords (SegmentReader.readAll (segments (d.files.crashed left))).1 {} =
      some mid ∧ Extends mid live ∧ Contains live (extended start accepted) := by
  obtain ⟨j, pend, logged, live, hdisk, hreplay, hlive, haccepted, -⟩ := hd.exists_journal
  obtain ⟨mid, hmid, hle, -⟩ := replayRecords_leaves ((hdisk.crash hgarbles).2 hcuts) hreplay
  exact ⟨mid, live, hmid, trans_of Extends hle hlive, haccepted⟩

theorem le_accepted (hd : Survives start d accepted committed)
    (hgarbles : Garbles d.kept d.files left) (hcuts : Cuts d.files left) {h : SegmentHead}
    (hagain : Head.openDir (d.files.crashed left) true = some h) (labels : Labels) :
    h.series.samplesOf labels <+: extended start accepted labels := by
  obtain ⟨mid, live, hmid, hlive, haccepted⟩ := hd.exists_mid hgarbles hcuts
  obtain ⟨content, hcontent⟩ := contains_replayRecords Contains.empty (replayRecords_of_openDir hagain)
  cases Option.some.inj ((replayRecords_of_openDir hagain).symm.trans hmid)
  rw [hcontent.samplesOf]
  exact hlive.isPrefix hcontent haccepted labels

theorem isSome_openDir_iff (hd : Survives start d accepted committed)
    (hgarbles : Garbles d.kept d.files left) (hcuts : Cuts d.files left) :
    (Head.openDir (d.files.crashed left) true).isSome ↔
      (SegmentReader.readAll (segments (d.files.crashed left))).2 = .endOfStream := by
  constructor
  · intro hsome
    obtain ⟨h, hagain⟩ := Option.isSome_iff_exists.mp hsome
    exact readAll_of_openDir hagain
  · intro hend
    obtain ⟨mid, -, hmid, -⟩ := hd.exists_mid hgarbles hcuts
    obtain ⟨h, hagain, -⟩ := openDir_of_replayWal (replayWal_eq_some.mpr ⟨hmid, hend⟩)
    rw [hagain]
    rfl

end Survives

/-- After a crash at any point of a run, a head that opens holds every committed sample, whatever
stands behind the bytes on disk.  When the crash only cuts files, it holds nothing that was not
accepted, and it opens unless the reader refuses the torn end of the last segment. -/
theorem crash_recovers {files : Files} {start : SegmentHead}
    (hopen : Head.openDir files true = some start) (htail : ¬ TornTail files)
    (hidx : SegmentWriter.nextIndex files < 10 ^ kSegmentNameWidth) {kept : Kept}
    (hwhole : Whole kept files) (calls : List HeadCall) {r : DiskRun}
    (hrun : runOnDisk calls { head := onDisk start kept } = some r)
    (hok : RunAll (fun r call ↦ call.Harmless r) calls { head := start }) {left : FileName → Bytes}
    (hgarbles : Garbles r.head.wal.kept r.head.wal.files left) :
    (∀ h : SegmentHead, Head.openDir (r.head.wal.files.crashed left) true = some h →
      ∀ labels, start.series.samplesOf labels ++ samplesUnder labels r.committed <+:
        h.series.samplesOf labels) ∧
    (Cuts r.head.wal.files left →
      ((Head.openDir (r.head.wal.files.crashed left) true).isSome ↔
        (SegmentReader.readAll (segments (r.head.wal.files.crashed left))).2 = .endOfStream) ∧
      ∀ h : SegmentHead, Head.openDir (r.head.wal.files.crashed left) true = some h →
        ∀ labels, h.series.samplesOf labels <+:
          start.series.samplesOf labels ++ samplesUnder labels r.accepted) := by
  have hstart := crashable_openDir hopen (clean_of_openDir hopen htail) hidx hwhole
  obtain ⟨j, pend, logged, hg, kept', hkept, hcommitted⟩ := (hstart.run hok hrun).exists_guarded
  have hd := hg.survives hkept hcommitted
  refine ⟨fun h hagain ↦ hd.committed_le hgarbles hagain, fun hcuts ↦ ⟨?_, fun h hagain ↦ ?_⟩⟩
  · exact hd.isSome_openDir_iff hgarbles hcuts
  · exact hd.le_accepted hgarbles hcuts hagain

/-- One committed sample, and one whose record is logged and torn off. -/
theorem crash_recovers_torn :
    let calls : List HeadCall :=
      [.append Labels.empty ⟨1, 7⟩, .commit ⟨{}, {}, {}⟩,
        .append Labels.empty ⟨2, 8⟩, .commit ⟨{}, {}, { fsync := false }⟩]
    ∃ start r, ∃ h : SegmentHead, Head.openDir Files.empty true = some start ∧
      runOnDisk calls { head := onDisk start fun _ ↦ 0 } = some r ∧
        Head.openDir (r.head.wal.files.crashed fun name ↦
          (r.head.wal.files.content name).take (r.head.wal.kept name)) true = some h ∧
          [⟨1, 7⟩] <+: h.series.samplesOf Labels.empty ∧
            h.series.samplesOf Labels.empty <+: [⟨1, 7⟩, ⟨2, 8⟩] := by
  intro calls
  have hcheck : (Head.openDir Files.empty true).any fun start ↦
      RunAll (fun r call ↦ call.Harmless r) calls { head := start } ∧
        (runOnDisk calls { head := onDisk start fun _ ↦ 0 }).any fun r ↦
          (SegmentReader.readAll (segments (r.head.wal.files.crashed fun name ↦
            (r.head.wal.files.content name).take (r.head.wal.kept name)))).2 = .endOfStream ∧
          start.series.samplesOf Labels.empty ++ samplesUnder Labels.empty r.committed =
            [⟨1, 7⟩] ∧
          start.series.samplesOf Labels.empty ++ samplesUnder Labels.empty r.accepted =
            [⟨1, 7⟩, ⟨2, 8⟩] := by decide +kernel
  rw [Option.any_eq_true] at hcheck
  obtain ⟨start, hopen, hcheck⟩ := hcheck
  rw [decide_eq_true_eq, Option.any_eq_true] at hcheck
  obtain ⟨hok, r, hrun, hcheck⟩ := hcheck
  rw [decide_eq_true_eq] at hcheck
  obtain ⟨hend, hcommitted, haccepted⟩ := hcheck
  obtain ⟨hgarbles, hcuts⟩ := garbles_take (fun name ↦ le_refl (r.head.wal.kept name))
    r.head.wal.files
  obtain ⟨hkeeps, hrest⟩ := crash_recovers hopen not_tornTail_empty (by decide)
    (fun _ h ↦ absurd h List.not_mem_nil) calls hrun hok hgarbles
  obtain ⟨hopens, hbelow⟩ := hrest hcuts
  obtain ⟨h, hagain⟩ := Option.isSome_iff_exists.mp (hopens.mpr hend)
  refine ⟨start, r, h, hopen, hrun, hagain, ?_, ?_⟩
  · rw [← hcommitted]
    exact hkeeps h hagain _
  · rw [← haccepted]
    exact hbelow h hagain _

/-! ## Damage -/

/-- When at most four bytes of a fragment, or its checksum, have changed, a reader of the directory
returns exactly the records before that one and reports the checksum, and no head opens. -/
theorem damage_refused {files : Files} {earlier later : List Bytes} (hclean : CleanSegments earlier)
    {done : List PageOp} {body : Bytes} (hclear : PageOp.ClearRun {} (done ++ [.log body]))
    {before after : List Item} {t : RecType} {frag frag' : Bytes} {crc : UInt32}
    (hitems : logItems (({} : PageWriter).run done).buf.length body =
      before ++ .frag t frag :: after)
    (hdamage : Crc32c.Damage frag frag' crc) (behind : Bytes)
    (hfiles : segments files = earlier ++ ((({} : PageWriter).run done).buf ++
      (damagedRecord before t frag.length crc frag' after ++ behind)) :: later) :
    SegmentReader.readAll (segments files) = (recordsOf earlier ++ PageOp.bodies done, .crc) ∧
      ∀ opened, Head.openDir files opened = none := by
  have hread := segments_damaged hclean hclear hitems hdamage behind later
  rw [← hfiles] at hread
  have hreplay : replayWal files = none := by
    cases hsome : replayWal files with
    | none => rfl
    | some store =>
      have hend := (replayWal_eq_some.mp hsome).2
      rw [hread] at hend
      cases hend
  refine ⟨hread, fun opened ↦ ?_⟩
  unfold Head.openDir
  rw [hreplay]

/-- The second byte of the second record changed. -/
theorem damage_refused_byte :
    let record := damagedRecord [] .full 2 (Crc32c.compute [2, 3]) [2, 7] []
    let files := Files.empty.set (formatSegmentName 0)
      ((({} : PageWriter).run [.log [1]]).buf ++ (record ++ []))
    SegmentReader.readAll (segments files) = ([[1]], .crc) ∧
      ∀ opened, Head.openDir files opened = none := by
  intro record files
  have hdamage : Crc32c.Damage [2, 3] [2, 7] (Crc32c.compute [2, 3]) := by
    refine .payload rfl (by decide) 1 fun j hj ↦ ?_
    rcases j with _ | _ | j
    · exact absurd rfl hj
    · omega
    · exact absurd rfl hj
  have hfiles : segments files = [] ++ ((({} : PageWriter).run [.log [1]]).buf ++
      (record ++ [])) :: [] :=
    @segments_set_new Files.empty 0 le_rfl (by decide) _
  exact @damage_refused files [] [] (fun _ h ↦ absurd h List.not_mem_nil) [.log [1]] [2, 3]
    (by decide) [] [] .full [2, 3] [2, 7] _ (by decide) hdamage [] hfiles

end MerlionTsdb.Head
