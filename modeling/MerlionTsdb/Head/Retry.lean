import MerlionTsdb.Head.Recovery

/-!
# Commits that fail and are retried

A failed commit leaves its lists pending, and the page writer may hold a framed record already.  A
series record may then be logged twice; a sample record may not.  `HeadCall.Harmless` keeps to the
failures after which a retry is exact.
-/

namespace MerlionTsdb.Head

open Chunkenc Model Wal Wal.Record SeriesStore

/-! ## Harmless failures -/

/-- Every failure of the commit is one with no byte written, and no sample record is framed whose
flush then fails. -/
def CommitHarmless (h : SegmentHead) (calls : CommitCalls LogCalls SyncCalls) : Prop :=
  (h.pendingSeries ≠ [] → calls.series.Harmless h.wal.1 (encodeSeries h.pendingSeries)) ∧
    match h.logSeries segmentWal calls.series with
    | some (true, h) =>
      (h.pendingSamples ≠ [] →
        calls.samples.Harmless h.wal.1 (encodeSamplesV2 h.pendingSamples) ∧
          calls.samples.FlushPasses h.wal.1 (encodeSamplesV2 h.pendingSamples)) ∧
        match h.logSamples segmentWal calls.samples with
        | some (true, h) => AllOrNothing calls.sync.write h.wal.1.pendingLength
        | _ => True
    | _ => True

/-- Behind sample records that succeed, the flush of the commit is looked at, too. -/
def SamplesHarmless (h : SegmentHead) (calls : CommitCalls LogCalls SyncCalls) : Prop :=
  (h.pendingSamples ≠ [] →
    calls.samples.Harmless h.wal.1 (encodeSamplesV2 h.pendingSamples) ∧
      calls.samples.FlushPasses h.wal.1 (encodeSamplesV2 h.pendingSamples)) ∧
    ∀ r ∈ h.logSamples segmentWal calls.samples, r.1 = true →
      AllOrNothing calls.sync.write r.2.wal.1.pendingLength

theorem commitHarmless_iff {h : SegmentHead} {calls : CommitCalls LogCalls SyncCalls} :
    CommitHarmless h calls ↔
      (h.pendingSeries ≠ [] → calls.series.Harmless h.wal.1 (encodeSeries h.pendingSeries)) ∧
        ∀ r ∈ h.logSeries segmentWal calls.series, r.1 = true → SamplesHarmless r.2 calls := by
  unfold CommitHarmless SamplesHarmless
  rcases h.logSeries segmentWal calls.series with _ | ⟨_ | _, h₁⟩
  · simp
  · simp
  · rcases hsamples : h₁.logSamples segmentWal calls.samples with _ | ⟨_ | _, h₂⟩ <;>
      simp [hsamples]

instance (h : SegmentHead) (calls : CommitCalls LogCalls SyncCalls) :
    Decidable (SamplesHarmless h calls) :=
  inferInstanceAs (Decidable (_ ∧ _))

instance (h : SegmentHead) (calls : CommitCalls LogCalls SyncCalls) :
    Decidable (CommitHarmless h calls) :=
  decidable_of_iff _ commitHarmless_iff.symm

def HeadCall.Harmless (r : HeadRun) : HeadCall → Prop
  | .append _ _ => True
  | .commit calls => CommitHasRoom r.head calls ∧ CommitHarmless r.head calls

instance (r : HeadRun) : (call : HeadCall) → Decidable (call.Harmless r)
  | .append _ _ => inferInstanceAs (Decidable True)
  | .commit _ => inferInstanceAs (Decidable (_ ∧ _))

/-! ## What a failed commit leaves -/

namespace Stored

variable {h h' : SegmentHead} {recs : List Bytes} {pend : List PageOp} {logged : SeriesStore}
  {content : Labels → List Sample}

theorem logSeries_false (hs : Stored h recs pend logged content) {calls : LogCalls}
    (hroom : h.pendingSeries ≠ [] → h.wal.1.HasRoom (encodeSeries h.pendingSeries))
    (hharmless : h.pendingSeries ≠ [] → calls.Harmless h.wal.1 (encodeSeries h.pendingSeries))
    (hlog : h.logSeries segmentWal calls = some (false, h')) :
    ∃ recs' pend' logged', Stored h' recs' pend' logged' content := by
  obtain ⟨named, hl⟩ := hs.exists_named
  rcases Head.logSeries_cases hlog with ⟨-, hok, -⟩ | ⟨hsome, hlen, wal, hwal, rfl⟩
  · cases hok
  · rcases hs.buffered.log_false (hroom hsome) (hharmless hsome) hwal with
      ⟨pend', hsame | ⟨-, hframed⟩⟩
    · exact ⟨_, _, _, hsame, ⟨_, hl.congr wal h.closed⟩, hs.opened⟩
    · -- The record is framed already, and the retry logs the same series again.
      exact ⟨_, _, _, hframed, ⟨_, hl.logSeriesKept hlen wal⟩, hs.opened⟩

theorem logSamples_false (hs : Stored h recs pend logged content) {calls : LogCalls}
    (hroom : h.pendingSamples ≠ [] → h.wal.1.HasRoom (encodeSamplesV2 h.pendingSamples))
    (hharmless : h.pendingSamples ≠ [] →
      calls.Harmless h.wal.1 (encodeSamplesV2 h.pendingSamples) ∧
        calls.FlushPasses h.wal.1 (encodeSamplesV2 h.pendingSamples))
    (hlog : h.logSamples segmentWal calls = some (false, h')) :
    ∃ pend', Stored h' recs pend' logged content := by
  obtain ⟨named, hl⟩ := hs.exists_named
  rcases Head.logSamples_cases hlog with ⟨-, hok, -⟩ | ⟨hsome, -, wal, hwal, rfl⟩
  · cases hok
  · obtain ⟨hlog', hpass⟩ := hharmless hsome
    rcases hs.buffered.log_false (hroom hsome) hlog' hwal with ⟨pend', hsame | ⟨hfail, -⟩⟩
    · exact ⟨_, hsame, ⟨_, hl.congr wal h.closed⟩, hs.opened⟩
    · exact absurd hpass hfail

/-- A harmless commit, whether it succeeds or not, can be followed by another. -/
theorem commit (hs : Stored h recs pend logged content) {calls : CommitCalls LogCalls SyncCalls}
    {ok : Bool} (hroom : CommitHasRoom h calls) (hharmless : CommitHarmless h calls)
    (hcommit : h.commit segmentWal calls = some (ok, h')) :
    ∃ recs' pend' logged', Stored h' recs' pend' logged' content := by
  cases ok with
  | true =>
    obtain ⟨-, -, recs', hs'⟩ := hs.commit_true hroom hcommit
    exact ⟨_, _, _, hs'⟩
  | false =>
    obtain ⟨hseriesRoom, hsamplesRoom⟩ := hroom
    obtain ⟨hseries, hsamples⟩ := hharmless
    rcases Head.commit_cases hs.opened hcommit with ⟨hlog, -⟩ | ⟨h₁, hlog, hrest⟩
    · exact hs.logSeries_false hseriesRoom hseries hlog
    · rw [hlog] at hsamplesRoom hsamples
      obtain ⟨hnone₁, recs₁, pend₁, logged₁, hs₁⟩ := hs.logSeries_true hseriesRoom hlog
      rcases hrest with ⟨hlog₂, -⟩ | ⟨h₂, hlog₂, wal, hsync, rfl⟩
      · obtain ⟨pend₂, hs₂⟩ := hs₁.logSamples_false hsamplesRoom hsamples.1 hlog₂
        exact ⟨_, _, _, hs₂⟩
      · -- Both records are logged, and only the sync failed.
        have hall := hsamples.2
        rw [hlog₂] at hall
        obtain ⟨-, -, recs₂, pend₂, hs₂⟩ := hs₁.logSamples_true hnone₁ hsamplesRoom hlog₂
        obtain ⟨named, hl⟩ := hs₂.exists_named
        obtain ⟨pend₃, hbuffered⟩ := hs₂.buffered.sync_false hall hsync
        exact ⟨_, _, _, hbuffered, ⟨named, hl.congr wal h₂.closed⟩, hs₂.opened⟩

end Stored

/-! ## Runs with retries -/

/-- Between the calls of a run. -/
structure Retryable (start : SeriesStore) (r : HeadRun) : Prop where
  exists_stored : ∃ recs pend logged, Stored r.head recs pend logged (extended start r.accepted)

theorem Retryable.step {start : SeriesStore} {r r' : HeadRun} (hr : Retryable start r)
    {call : HeadCall} (hok : call.Harmless r) (hstep : call.step r = some r') :
    Retryable start r' := by
  obtain ⟨recs, pend, logged, hs⟩ := hr.exists_stored
  cases call with
  | append labels x =>
    obtain ⟨⟨res, h'⟩, hcall, rfl⟩ := Option.map_eq_some_iff.mp hstep
    refine ⟨recs, pend, logged, ?_⟩
    have hs' := hs.append hcall
    rw [extended_concat] at hs'
    dsimp only
    split at hs'
    · rename_i haccept
      rwa [if_pos haccept]
    · rename_i hreject
      rwa [if_neg hreject]
  | commit calls =>
    obtain ⟨⟨ok, h'⟩, hcall, rfl⟩ := Option.map_eq_some_iff.mp hstep
    exact ⟨hs.commit hok.1 hok.2 hcall⟩

theorem Retryable.run {start : SeriesStore} {r r' : HeadRun} (hr : Retryable start r)
    {calls : List HeadCall} (hok : RunAll (fun r call ↦ call.Harmless r) calls r)
    (hrun : runCalls calls r = some r') : Retryable start r' :=
  runCalls_induction (fun h ↦ h.step) hr hok hrun

/-- After harmless failures, a commit that succeeds makes every accepted sample recoverable, once
and in order. -/
theorem replayWal_after_retry {files : Files} {start : SegmentHead}
    (hopen : Head.openDir files true = some start) (htail : ¬ TornTail files)
    (hidx : SegmentWriter.nextIndex files < 10 ^ kSegmentNameWidth) (calls : List HeadCall)
    {r : HeadRun} (hrun : runCalls calls { head := start } = some r)
    (hok : RunAll (fun r call ↦ call.Harmless r) calls { head := start })
    {last : CommitCalls LogCalls SyncCalls} {h : SegmentHead} (hroom : CommitHasRoom r.head last)
    (hlast : r.head.commit segmentWal last = some (true, h)) :
    ∃ store, replayWal h.wal.2 = some store ∧
      ∀ labels, store.samplesOf labels =
        start.series.samplesOf labels ++ samplesUnder labels r.accepted := by
  obtain ⟨-, hstored⟩ := stored_openDir hopen (clean_of_openDir hopen htail) hidx
  have hstart : Retryable start.series { head := start } := ⟨_, _, _, hstored⟩
  obtain ⟨recs, pend, logged, hs⟩ := (hstart.run hok hrun).exists_stored
  obtain ⟨-, -, recs', hs'⟩ := hs.commit_true hroom hlast
  obtain ⟨named, hl⟩ := hs'.exists_named
  exact ⟨h.series, hs'.replayWal, hl.contains.samplesOf⟩

/-- A series record whose flush failed is logged twice. -/
theorem replayWal_after_failed_series :
    let calls : List HeadCall :=
      [.append Labels.empty ⟨1, 7⟩, .commit ⟨{ write := [.failed] }, {}, {}⟩,
        .append Labels.empty ⟨2, 8⟩]
    ∃ start r h store : _, Head.openDir Files.empty true = some start ∧
      runCalls calls { head := start } = some r ∧ r.committed = [] ∧
        r.head.commit segmentWal ⟨{}, {}, {}⟩ = some (true, h) ∧
          replayWal h.wal.2 = some store ∧ store.samplesOf Labels.empty = [⟨1, 7⟩, ⟨2, 8⟩] := by
  intro calls
  have hcheck : (Head.openDir Files.empty true).any fun start ↦
      RunAll (fun r call ↦ call.Harmless r) calls { head := start } ∧
        (runCalls calls { head := start }).any fun r ↦
          r.committed = [] ∧ CommitHasRoom r.head ⟨{}, {}, {}⟩ ∧
            (r.head.commit segmentWal ⟨{}, {}, {}⟩).any Prod.fst ∧
              start.series.samplesOf Labels.empty ++ samplesUnder Labels.empty r.accepted =
                [⟨1, 7⟩, ⟨2, 8⟩] := by decide
  rw [Option.any_eq_true] at hcheck
  obtain ⟨start, hopen, hcheck⟩ := hcheck
  rw [decide_eq_true_eq, Option.any_eq_true] at hcheck
  obtain ⟨hok, r, hrun, hcheck⟩ := hcheck
  rw [decide_eq_true_eq, Option.any_eq_true] at hcheck
  obtain ⟨hnone, hroom, ⟨⟨ok, h⟩, hlast, rfl⟩, hsamples⟩ := hcheck
  obtain ⟨store, hreplay, hstore⟩ :=
    replayWal_after_retry hopen not_tornTail_empty (by decide) calls hrun hok hroom hlast
  exact ⟨start, r, h, store, hopen, hrun, hnone, hlast, hreplay, (hstore _).trans hsamples⟩

/-- A sample record whose flush failed, with no byte written, is framed again by the retry: the
sample is recovered twice. -/
theorem replayWal_after_failed_samples :
    let first : List HeadCall :=
      [.append Labels.empty ⟨1, 7⟩, .commit ⟨{}, { write := [.failed] }, {}⟩]
    let retry : List HeadCall := first ++ [.commit ⟨{}, {}, {}⟩]
    (Head.openDir Files.empty true).any fun start ↦
      ((runCalls first { head := start }).any fun r ↦ r.committed = []) ∧
        (runCalls retry { head := start }).any fun r ↦ r.committed = [(Labels.empty, ⟨1, 7⟩)] ∧
          (replayWal r.head.wal.2).any fun store ↦
            store.samplesOf Labels.empty = [⟨1, 7⟩, ⟨1, 7⟩] := by
  decide +kernel

end MerlionTsdb.Head
